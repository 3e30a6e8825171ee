import EventInvariants.Decimal.Nearest
import EventInvariants.Whole

namespace EventInvariants.Json
open Whole

inductive Number where
  | integer (n : Int)
  | float (x : Float)

def greatestSignificand : Nat :=
  UInt64.size - 1

/-- Appends digits to a significand as long as it fits. Gives also the number of digits taken and
the text after them. -/
def takeDigits (significand : Nat) : List Char → Nat × Nat × List Char
  | [] => (significand, 0, [])
  | c :: cs =>
    let longer := 10 * significand + digitValue c
    if isDigit c && longer ≤ greatestSignificand then
      let (s, taken, rest) := takeDigits longer cs
      (s, taken + 1, rest)
    else (significand, 0, c :: cs)

def powerOfTen (k : Nat) : Float :=
  Decimal.toFloat false (Decimal.nearestDecimal 1 k)

/-- `x * 10 ^ e` by at most one multiplication, or divisions by powers up to `10 ^ 308`. -/
def scale? (x : Float) (e : Int) : Option Float :=
  if 0 ≤ e then
    if e ≤ 308 then
      let y := x * powerOfTen e.toNat
      if y.isInf then none else some y
    else if x == 0 then some x
    else none
  else if -308 ≤ e then some (x / powerOfTen (-e).toNat)
  else if x == 0 then some x
  else scale? (x / powerOfTen 308) (e + 308)
termination_by (-e).toNat

def naturalFloat (n : Nat) : Float :=
  Decimal.toFloat false (Decimal.nearestBits n 1)

/-- The number without fraction and exponent. A negative zero is a double. -/
def wholeNumber (negative : Bool) (n : Nat) : Number :=
  if negative then
    if n = 0 || greatest + 1 < n then .float (-naturalFloat n) else .integer (-(n : Int))
  else if (n : Int) ≤ greatest then .integer n
  else .float (naturalFloat n)

/-- The digits before the point: one zero, or digits that start with another. Gives the significand,
the number of digits dropped from it, and the text after them. -/
def readWhole? : List Char → Option (Nat × Nat × List Char)
  | [] => none
  | c :: cs =>
    if c == '0' then
      if (cs.head?.map isDigit).getD false then none else some (0, 0, cs)
    else if isDigit c then
      let (significand, _, rest) := takeDigits 0 (c :: cs)
      some (significand, (rest.takeWhile isDigit).length, rest.dropWhile isDigit)
    else none

/-- The digits after the point, which must be there if the point is. Gives the longer significand,
the number of digits that it took, whether there was a point, and the text after them. -/
def readFraction? (significand : Nat) : List Char → Option (Nat × Nat × Bool × List Char)
  | '.' :: cs =>
    if (cs.head?.map isDigit).getD false then
      let (longer, taken, rest) := takeDigits significand cs
      some (longer, taken, true, rest.dropWhile isDigit)
    else none
  | cs => some (significand, 0, false, cs)

/-- Digits after an optional sign, with the text after them. -/
def readSigned? (cs : List Char) : Option (Int × List Char) :=
  let (negative, ds) :=
    match cs with
    | '-' :: ds => (true, ds)
    | '+' :: ds => (false, ds)
    | ds => (false, ds)
  (readNat? (ds.takeWhile isDigit)).map fun n =>
    (if negative then -(n : Int) else n, ds.dropWhile isDigit)

/-- The exponent, if there is one, with the text after it. -/
def readExponent? : List Char → Option (Option Int × List Char)
  | [] => some (none, [])
  | c :: cs =>
    if c == 'e' || c == 'E' then (readSigned? cs).map fun (e, rest) => (some e, rest)
    else some (none, c :: cs)

def readUnsigned? (negative : Bool) (cs : List Char) : Option (Number × List Char) := do
  let (significand, dropped, cs) ← readWhole? cs
  let (significand, places, pointed, cs) ← readFraction? significand cs
  let (exponent, cs) ← readExponent? cs
  if dropped = 0 && !pointed && exponent.isNone then
    return (wholeNumber negative significand, cs)
  let x ← scale? (naturalFloat significand) (exponent.getD 0 + dropped - places)
  return (.float (if negative then -x else x), cs)

/-- Reads a number from the front of a text. A literal without fraction and exponent is a whole
number if it is in range. Any other is a double, and what exceeds the range of doubles is no number.
-/
def readNumber? : List Char → Option (Number × List Char)
  | '-' :: cs => readUnsigned? true cs
  | cs => readUnsigned? false cs

end EventInvariants.Json
