import EventInvariants.Decimal.Nearest
import EventInvariants.Whole

namespace EventInvariants.Decimal

/-- The value `middle * num / den` with the ends of the interval that rounds to it, in the same
unit. The ends belong to the interval when `closed`. -/
structure Interval where
  low : Nat
  middle : Nat
  high : Nat
  closed : Bool
  num : Nat
  den : Nat

/-- The interval of a positive finite double, in quarters of its last place: below a power of two
the neighbour is only half as far. -/
def Interval.ofBits (bits : Nat) : Interval :=
  let e := bits / hiddenBit
  let fraction := bits % hiddenBit
  let m := if e = 0 then fraction else hiddenBit + fraction
  let q : Int := (max e 1 : Nat) - 1077
  let near := if fraction = 0 && 1 < e then 1 else 2
  { low := 4 * m - near, middle := 4 * m, high := 4 * m + 2, closed := m % 2 == 0
    num := if 0 ≤ q then Nat.pow 2 q.toNat else 1
    den := if 0 ≤ q then 1 else Nat.pow 2 (-q).toNat }

/-- The interval counted in units of `10 ^ k`. -/
def Interval.onGrid (i : Interval) (k : Int) : Interval :=
  if 0 ≤ k then { i with den := i.den * Nat.pow 10 k.toNat }
  else { i with num := i.num * Nat.pow 10 (-k).toNat }

def Interval.contains (i : Interval) (c : Nat) : Bool :=
  if i.closed then i.low * i.num ≤ c * i.den && c * i.den ≤ i.high * i.num
  else i.low * i.num < c * i.den && c * i.den < i.high * i.num

/-- The grid point that stands for the interval: of the two beside the value one that lies in it,
the nearer if both do, the upper one on a tie. -/
def Interval.gridPoint? (i : Interval) : Option Nat :=
  let v := i.middle * i.num
  let below := v / i.den
  let above := below + 1
  match i.contains below, i.contains above with
  | true, true => some (if v - below * i.den < above * i.den - v then below else above)
  | true, false => some below
  | false, true => some above
  | false, false => none

/-- The exponent of the leading digit of the value. -/
def Interval.magnitude (i : Interval) : Int :=
  let v := i.middle * i.num
  if i.den ≤ v then ((Whole.digits (v / i.den)).length : Int) - 1
  else -((Whole.digits ((i.den + v - 1) / v - 1)).length : Int)

/-- Tries `count` grids, the first with unit `10 ^ k`, each ten times finer than the last. -/
def Interval.search (i : Interval) : Nat → Int → Nat × Int
  | 0, k => (i.middle * i.num / i.den, k)
  | count + 1, k =>
    match (i.onGrid k).gridPoint? with
    | some c => if c % 10 = 0 then (c / 10, k + 1) else (c, k)
    | none => i.search count (k - 1)

/-- Digits and exponent of the shortest decimal for a positive finite double. The two neighbours of
the value on the grid of one digit, two digits and so on are tried; seventeen digits always suffice.
-/
def shortest (bits : Nat) : Nat × Int :=
  let i := Interval.ofBits bits
  i.search 17 i.magnitude

/-- `c * 10 ^ k` with all its places written out. -/
def positional (c : Nat) (k : Int) : List Char :=
  let ds := Whole.digits c
  if 0 ≤ k then ds ++ List.replicate k.toNat '0'
  else
    let places := (-k).toNat
    if places < ds.length then
      ds.take (ds.length - places) ++ '.' :: ds.drop (ds.length - places)
    else
      '0' :: '.' :: (List.replicate (places - ds.length) '0' ++ ds)

/-- The text of a double: shortest, positional, no point after a whole number. -/
def writeFloat (x : Float) : List Char :=
  let bits := x.toBits.toNat
  let magnitude := bits % signBit
  if infinity < magnitude then "NaN".toList
  else
    let text :=
      if magnitude = infinity then "inf".toList
      else if magnitude = 0 then ['0']
      else
        let (c, k) := shortest magnitude
        positional c k
    if signBit ≤ bits then '-' :: text else text

end EventInvariants.Decimal
