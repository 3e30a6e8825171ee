import EventInvariants.Decimal.Literal
import EventInvariants.Decimal.Shortest
import EventInvariants.Text.Blank
import EventInvariants.Time.Basic

namespace EventInvariants
namespace Time

/-- The components between commas. -/
def joinComponents : List Int → List Char
  | [] => []
  | [n] => Whole.write n
  | n :: rest => Whole.write n ++ ',' :: joinComponents rest

def toChars : Time → List Char
  | .zero => ['0']
  | .integer n => Whole.write n
  | .float x => Decimal.writeFloat x
  | .vector v => '(' :: joinComponents v ++ [')']

def render (t : Time) : String :=
  String.ofList t.toChars

instance : ToString Time := ⟨render⟩

/-- What stands between an opening and a closing parenthesis at the two ends. -/
def parenthesized? : List Char → Option (List Char)
  | '(' :: cs => if cs.getLast? = some ')' then some cs.dropLast else none
  | _ => none

def readVector? (cs : List Char) : Option (List Int) :=
  (Text.splitAt ',' cs).mapM fun piece => Whole.read? (Text.trim piece)

/-- Reads a literal without blanks around it. -/
def readTrimmed? (cs : List Char) : Option Time :=
  match parenthesized? cs with
  | some inner => (readVector? inner).map .vector
  | none =>
    match Whole.read? cs with
    | some n => some (.integer n)
    | none => (Decimal.readFloat? cs).map .float

/-- Reads a literal such as `5`, `2.5` or `(1,0,3)`; a whole number out of range is read as a
double. The error names the literal without the blanks around it. -/
def ofChars (cs : List Char) : Except TimeError Time :=
  match readTrimmed? (Text.trim cs) with
  | some t => .ok t
  | none => .error (.unreadable (String.ofList (Text.trim cs)))

def read (s : String) : Except TimeError Time :=
  ofChars s.toList

end Time

def TimeKind.name : TimeKind → String
  | .zero => "zero"
  | .integer => "integer"
  | .float => "float"
  | .vector n => s!"{n}-dimensional vector"

def TimeError.message : TimeError → String
  | .mismatchedKinds left right => s!"cannot combine {left.name} time with {right.name} time"
  | .dimensionMismatch left right => s!"vector time dimensions differ: {left} vs {right}"
  | .incomparable left right =>
    s!"vector times {left} and {right} are concurrent and cannot be ordered"
  | .notANumber => "time value is not a number"
  | .negative value => s!"time delta {value} is negative"
  | .overflow => "integer time overflow"
  | .unreadable text => s!"invalid time literal '{text}'"

end EventInvariants
