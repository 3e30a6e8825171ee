namespace EventInvariants.Decimal

/-- `num / den` rounded to a whole number, a half going to the even neighbour. -/
def roundHalfEven (num den : Nat) : Nat :=
  let q := num / den
  let r := num % den
  if 2 * r < den then q
  else if den < 2 * r then q + 1
  else q + q % 2

/-- `num / den / 2 ^ e` as a fraction. -/
def scaleDown (num den : Nat) (e : Int) : Nat × Nat :=
  if 0 ≤ e then (num, den * Nat.pow 2 e.toNat) else (num * Nat.pow 2 (-e).toNat, den)

/-- The least of the 53 bit significands, whose first bit is left out of the bits of a double. -/
def hiddenBit : Nat :=
  0x10000000000000

def infinity : Nat :=
  0x7FF * hiddenBit

/-- The exponent of the last place of a double near `num / den`: 53 significant bits, fewer
below the normal range. -/
def lastPlace (num den : Nat) : Int :=
  let e : Int := (num.log2 : Int) - den.log2 - 52
  let (n, d) := scaleDown num den e
  max (if n < hiddenBit * d then e - 1 else e) (-1074)

/-- The bits of the double nearest to `num / den`, ties to even, infinity beyond the range. The
mantissa carries into the exponent by itself. -/
def nearestBits (num den : Nat) : Nat :=
  if num = 0 then 0
  else
    let e := lastPlace num den
    let (n, d) := scaleDown num den e
    min ((e + 1074).toNat * hiddenBit + roundHalfEven n d) infinity

/-- The bits of the double nearest to `mantissa * 10 ^ exponent`. Exponents that decide the
answer alone are not raised to a power. -/
def nearestDecimal (mantissa : Nat) (exponent : Int) : Nat :=
  if mantissa = 0 then 0
  else if 400 < exponent then infinity
  else if exponent + (mantissa.log2 / 3 + 1 : Nat) < -400 then 0
  else if 0 ≤ exponent then nearestBits (mantissa * Nat.pow 10 exponent.toNat) 1
  else nearestBits mantissa (Nat.pow 10 (-exponent).toNat)

def signBit : Nat :=
  0x8000000000000000

def toFloat (negative : Bool) (bits : Nat) : Float :=
  Float.ofBits (UInt64.ofNat (if negative then signBit + bits else bits))

end EventInvariants.Decimal
