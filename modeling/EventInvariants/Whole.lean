namespace EventInvariants.Whole

def least : Int := -9223372036854775808

def greatest : Int := 9223372036854775807

def fits (n : Int) : Bool :=
  least ≤ n && n ≤ greatest

/-- The exact sum, if it is in range. -/
def add? (m n : Int) : Option Int :=
  if fits (m + n) then some (m + n) else none

def isDigit (c : Char) : Bool :=
  '0' ≤ c && c ≤ '9'

def digitValue (c : Char) : Nat :=
  c.toNat - 48

/-- The number that a run of digits writes in base ten. -/
def ofDigits (cs : List Char) : Nat :=
  cs.foldl (fun n c => 10 * n + digitValue c) 0

/-- Reads a run of digits: at least one, and nothing else. -/
def readNat? (cs : List Char) : Option Nat :=
  if !cs.isEmpty && cs.all isDigit then some (ofDigits cs) else none

/-- Reads digits after an optional sign, of either kind. -/
def readInt? : List Char → Option Int
  | '-' :: cs => (readNat? cs).map fun n => -(n : Int)
  | '+' :: cs => (readNat? cs).map fun n => (n : Int)
  | cs => (readNat? cs).map fun n => (n : Int)

/-- Reads a whole number in range; leading zeros do not count. -/
def read? (cs : List Char) : Option Int :=
  (readInt? cs).filter fits

def digits (n : Nat) : List Char :=
  Nat.toDigits 10 n

/-- The decimal digits, after `-` for a negative number. -/
def write : Int → List Char
  | .ofNat n => digits n
  | .negSucc n => '-' :: digits (n + 1)

end EventInvariants.Whole
