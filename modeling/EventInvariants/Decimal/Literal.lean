import EventInvariants.Decimal.Nearest
import EventInvariants.Whole

namespace EventInvariants.Decimal
open Whole

/-- The exponent part of a literal: nothing, or `e` with an optional sign and digits. -/
def readExponent? : List Char → Option Int
  | [] => some 0
  | c :: cs =>
    if c == 'e' || c == 'E' then readInt? cs else none

/-- The bits of the double that digits, point and exponent write. -/
def readMagnitude? (cs : List Char) : Option Nat :=
  let whole := cs.takeWhile isDigit
  let (fraction, rest) :=
    match cs.dropWhile isDigit with
    | '.' :: ds => (ds.takeWhile isDigit, ds.dropWhile isDigit)
    | ds => ([], ds)
  if whole.isEmpty && fraction.isEmpty then none
  else
    (readExponent? rest).map fun e =>
      nearestDecimal (ofDigits (whole ++ fraction)) (e - fraction.length)

def isInfinityName (cs : List Char) : Bool :=
  let name := cs.map Char.toLower
  name == "inf".toList || name == "infinity".toList

def readUnsigned? (negative : Bool) (cs : List Char) : Option Float :=
  if isInfinityName cs then some (toFloat negative infinity)
  else (readMagnitude? cs).map (toFloat negative)

/-- Reads a literal: an optional sign, then digits with an optional point and exponent, or a name of
infinity in any case. There is none for a value that is not a number. -/
def readFloat? : List Char → Option Float
  | '-' :: cs => readUnsigned? true cs
  | '+' :: cs => readUnsigned? false cs
  | cs => readUnsigned? false cs

end EventInvariants.Decimal
