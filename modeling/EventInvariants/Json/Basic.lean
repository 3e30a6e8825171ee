import EventInvariants.Json.Number
import EventInvariants.Json.String

namespace EventInvariants

/-- Members of an object are kept in order, with repeated names. -/
inductive Json where
  | null
  | bool (b : Bool)
  | number (n : Json.Number)
  | string (s : String)
  | array (items : List Json)
  | object (members : List (String × Json))

namespace Json

def isSpace (c : Char) : Bool :=
  c == ' ' || c == '\n' || c == '\t' || c == '\r'

def skip (cs : List Char) : List Char :=
  cs.dropWhile isSpace

def after? (word : String) (cs : List Char) : Option (List Char) :=
  if word.toList.isPrefixOf cs then some (cs.drop word.length) else none

/-- The words that stand for values. -/
def readWord? (cs : List Char) : Option (Json × List Char) :=
  ((after? "null" cs).map fun rest => (null, rest)) <|>
    ((after? "true" cs).map fun rest => (bool true, rest)) <|>
    ((after? "false" cs).map fun rest => (bool false, rest))

/-- Reads the name of a member and the colon after it. -/
def readName? (cs : List Char) : Option (String × List Char) :=
  match skip cs with
  | '"' :: cs => do
    let (name, cs) ← readString? cs
    match skip cs with
    | ':' :: rest => some (String.ofList name, rest)
    | _ => none
  | _ => none

/-- Arrays and objects may stand in one another down to this depth. -/
def greatestDepth : Nat := 127

mutual

/-- Reads a value from the front of a text; each call spends fuel, each array or object a level of
depth. -/
def readValue? : Nat → Nat → List Char → Option (Json × List Char)
  | 0, _, _ => none
  | fuel + 1, depth, cs =>
    match skip cs, depth with
    | '"' :: cs, _ => (readString? cs).map fun (s, rest) => (string (String.ofList s), rest)
    | '[' :: _, 0 => none
    | '[' :: cs, depth + 1 =>
      match skip cs with
      | ']' :: rest => some (array [], rest)
      | cs => readItems? fuel depth [] cs
    | '\x7b' :: _, 0 => none
    | '\x7b' :: cs, depth + 1 =>
      match skip cs with
      | '\x7d' :: rest => some (object [], rest)
      | cs => readMembers? fuel depth [] cs
    | cs, _ => readWord? cs <|> (readNumber? cs).map fun (n, rest) => (number n, rest)

/-- Reads the items of an array up to its closing bracket, after those in `done`, newest first;
there is at least one more. -/
def readItems? : Nat → Nat → List Json → List Char → Option (Json × List Char)
  | 0, _, _, _ => none
  | fuel + 1, depth, done, cs =>
    match readValue? fuel depth cs with
    | none => none
    | some (item, cs) =>
      match skip cs with
      | ',' :: cs => readItems? fuel depth (item :: done) cs
      | ']' :: rest => some (array (item :: done).reverse, rest)
      | _ => none

/-- Reads the members of an object up to its closing brace, after those in `done`, newest first;
there is at least one more. -/
def readMembers? : Nat → Nat → List (String × Json) → List Char → Option (Json × List Char)
  | 0, _, _, _ => none
  | fuel + 1, depth, done, cs =>
    match readName? cs with
    | none => none
    | some (name, cs) =>
      match readValue? fuel depth cs with
      | none => none
      | some (value, cs) =>
        match skip cs with
        | ',' :: cs => readMembers? fuel depth ((name, value) :: done) cs
        | '\x7d' :: rest => some (object ((name, value) :: done).reverse, rest)
        | _ => none

end

/-- Reads a text that holds one value and nothing else: no comments, no trailing commas. A value
takes at most two calls for each character. -/
def read? (text : String) : Option Json := do
  let cs := text.toList
  let (value, rest) ← readValue? (2 * cs.length + 2) greatestDepth cs
  if (skip rest).isEmpty then some value else none

end Json
end EventInvariants
