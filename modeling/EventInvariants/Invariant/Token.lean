import EventInvariants.Text.Blank

namespace EventInvariants

/-- A word of a text, with the byte at which it starts. -/
structure Token where
  offset : Nat
  text : List Char
  deriving DecidableEq

namespace Token
open Text

def byteLength (t : Token) : Nat :=
  Text.byteLength t.text

/-- A text being scanned: the byte at which a word has started that is not yet at its end, and the
words before it. -/
structure Scanner where
  start : Option Nat
  found : Array Token

namespace Scanner

/-- Goes on to a character of the text and the byte at which it starts. -/
def step (cs : List Char) (s : Scanner) : Nat × Char → Scanner
  | (i, c) =>
    match isBlank c, s.start with
    | true, some first => ⟨none, s.found.push ⟨first, slice cs first i⟩⟩
    | false, none => ⟨some i, s.found⟩
    | _, _ => s

/-- The words of the text at its end, where the last one may end as well. -/
def finish (cs : List Char) (s : Scanner) : List Token :=
  match s.start with
  | some first => (s.found.push ⟨first, dropBytes first cs⟩).toList
  | none => s.found.toList

end Scanner

/-- The longest runs without blanks. -/
def scan (cs : List Char) : List Token :=
  ((charOffsets 0 cs).foldl (Scanner.step cs) ⟨none, #[]⟩).finish cs

end Token
end EventInvariants
