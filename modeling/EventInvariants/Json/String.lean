namespace EventInvariants.Json

def hexValue? (c : Char) : Option Nat :=
  if '0' ≤ c && c ≤ '9' then some (c.toNat - 48)
  else if 'a' ≤ c && c ≤ 'f' then some (c.toNat - 87)
  else if 'A' ≤ c && c ≤ 'F' then some (c.toNat - 55)
  else none

/-- The unit that four hexadecimal digits write. -/
def unit? (a b c d : Char) : Option Nat := do
  return 4096 * (← hexValue? a) + 256 * (← hexValue? b) + 16 * (← hexValue? c) + (← hexValue? d)

def isLeading (u : Nat) : Bool :=
  0xD800 ≤ u && u < 0xDC00

def isTrailing (u : Nat) : Bool :=
  0xDC00 ≤ u && u < 0xE000

/-- The character that two surrogates stand for. -/
def ofSurrogates (leading trailing : Nat) : Char :=
  Char.ofNat (0x10000 + 1024 * (leading - 0xD800) + (trailing - 0xDC00))

/-- The character that a backslash and `c` stand for. -/
def simpleEscape? (c : Char) : Option Char :=
  if c == '"' || c == '\\' || c == '/' then some c
  else if c == 'b' then some (Char.ofNat 8)
  else if c == 'f' then some (Char.ofNat 12)
  else if c == 'n' then some '\n'
  else if c == 'r' then some '\r'
  else if c == 't' then some '\t'
  else none

/-- Reads up to the closing quote, after the characters in `done`, newest first; gives all the
characters and the text after the quote. Half a pair of surrogates, and a control character as it
is, are refused. -/
def readStringAfter? (done : List Char) : List Char → Option (List Char × List Char)
  | [] => none
  | '"' :: rest => some (done.reverse, rest)
  | '\\' :: 'u' :: a :: b :: c :: d :: rest =>
    match unit? a b c d with
    | none => none
    | some u =>
      if isLeading u then
        match rest with
        | '\\' :: 'u' :: e :: f :: g :: h :: rest =>
          match unit? e f g h with
          | none => none
          | some v =>
            if isTrailing v then readStringAfter? (ofSurrogates u v :: done) rest else none
        | _ => none
      else if isTrailing u then none
      else readStringAfter? (Char.ofNat u :: done) rest
  | '\\' :: c :: rest =>
    match simpleEscape? c with
    | none => none
    | some e => readStringAfter? (e :: done) rest
  | c :: rest =>
    if c == '\\' || c.toNat < 0x20 then none else readStringAfter? (c :: done) rest

def readString? (cs : List Char) : Option (List Char × List Char) :=
  readStringAfter? [] cs

end EventInvariants.Json
