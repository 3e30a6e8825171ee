import EventInvariants.Invariant.Basic
import EventInvariants.Invariant.Token
import EventInvariants.Time.Text

namespace EventInvariants
namespace Invariant

def operator (inv : Invariant) : String :=
  match inv.bound with
  | none => inv.kind.name
  | some bound => s!"{inv.kind.name}{bound.direction.symbol}{bound.value}"

/-- The text of an invariant, `[relation] a OP b`; the default relation is left out. -/
def render (inv : Invariant) : String :=
  let core := s!"{inv.a} {inv.operator} {inv.b}"
  if inv.relation.isDefault then core else s!"[{inv.relation}] {core}"

instance : ToString Invariant := ⟨render⟩

/-- An error at a part of the text, which is never empty. -/
def malformedAt (offset length : Nat) (problem : String) : InvariantError :=
  .malformed problem ⟨offset, max length 1⟩

def bracketed? (cs : List Char) : Option (List Char) :=
  if cs.getLast? = some ']' && !cs.dropLast.isEmpty then some cs.dropLast else none

/-- Takes the relation off the front, if the first word opens a bracket. -/
def readRelation : List Token → Except InvariantError (Relation × List Token)
  | [] => .ok (.default, [])
  | first :: rest =>
    match first.text with
    | '[' :: cs =>
      match bracketed? cs with
      | some name => .ok (⟨String.ofList name⟩, rest)
      | none => .error (malformedAt first.offset first.byteLength "malformed relation prefix")
    | _ => .ok (.default, first :: rest)

def kind? (name : List Char) : Option Kind :=
  [Kind.alwaysFollowedBy, .neverFollowedBy, .alwaysPrecedes].find? (·.name.toList == name)

def isBoundSign (c : Char) : Bool :=
  c == '<' || c == '>'

/-- Reads a bound that starts at byte `offset`. -/
def readBound (kind : Kind) (offset : Nat) (cs : List Char) : Except InvariantError Bound := do
  let (direction, value) ←
    match cs with
    | '<' :: '=' :: value => pure (Direction.upper, value)
    | '>' :: '=' :: value => pure (Direction.lower, value)
    | _ => throw (malformedAt offset (Text.byteLength cs) "bound must start with '<=' or '>='")
  match Time.ofChars value with
  | .error e => throw (malformedAt (offset + 2) (Text.byteLength value) e.message)
  | .ok t =>
    if kind.supportsBound then return ⟨direction, t⟩
    else throw (.unsupportedBound kind)

/-- Reads the operator with its bound, if it has one. -/
def readOperator (op : Token) : Except InvariantError (Kind × Option Bound) :=
  let name := op.text.takeWhile (!isBoundSign ·)
  let bound := op.text.dropWhile (!isBoundSign ·)
  match kind? name with
  | none =>
    .error (malformedAt op.offset (Text.byteLength name)
      s!"unknown operator '{String.ofList name}' (expected AFby, NFby or AP)")
  | some kind =>
    if bound.isEmpty then .ok (kind, none)
    else do
      let bound ← readBound kind (op.offset + Text.byteLength name) bound
      return (kind, some bound)

/-- Reads an invariant from the words of a text of `size` bytes. -/
def ofTokens (size : Nat) (tokens : List Token) : Except InvariantError Invariant := do
  let (relation, words) ← readRelation tokens
  match words with
  | [a, op, b] =>
    let (kind, bound) ← readOperator op
    return ⟨kind, ⟨String.ofList a.text⟩, ⟨String.ofList b.text⟩, relation, bound⟩
  | _ =>
    let offset := (words[3]?.map Token.offset).getD size
    throw (malformedAt offset 1 s!"expected 'a OP b', found {words.length} tokens")

def ofChars (cs : List Char) : Except InvariantError Invariant :=
  ofTokens (Text.byteLength cs) (Token.scan cs)

def read (s : String) : Except InvariantError Invariant :=
  ofChars s.toList

end Invariant

def InvariantError.message : InvariantError → String
  | .unknownEvents a b => s!"neither '{a}' nor '{b}' occurs in the graph"
  | .unsupportedBound kind => s!"{kind.name} invariants do not take a time bound"
  | .invalidBound cause => s!"invalid time bound: {cause.message}"
  | .mismatchedBoundKind bound delta source target =>
    s!"{bound.name} time bound does not match the {delta.name} delta on edge " ++
      s!"{Node.label source} -> {Node.label target}"
  | .malformed problem _ => s!"invalid invariant syntax: {problem}"

end EventInvariants
