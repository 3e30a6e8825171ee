import EventInvariants.Whole

namespace EventInvariants

/-- Durations between events and bounds on them. `zero` fits every kind, so that a sum can start
before the first duration tells which kind is in use. -/
inductive Time where
  | zero
  | integer (n : Int)
  | float (x : Float)
  | vector (components : List Int)

/-- The kind of a time value; a vector's dimension is part of it. -/
inductive TimeKind where
  | zero
  | integer
  | float
  | vector (dimension : Nat)
  deriving DecidableEq

/-- Why two times do not add up or compare, or why one is refused. -/
inductive TimeError where
  | mismatchedKinds (left right : TimeKind)
  | dimensionMismatch (left right : Nat)
  | incomparable (left right : Time)
  | notANumber
  | negative (value : Time)
  | overflow
  | unreadable (text : String)

/-- Values of one kind can be combined, `zero` with all of them. Dimensions are compared value by
value. -/
def TimeKind.compatible : TimeKind → TimeKind → Bool
  | .zero, _ => true
  | _, .zero => true
  | .vector _, .vector _ => true
  | left, right => left = right

namespace Time

/-- Equality by kind and value: `zero` differs from `integer 0`, and doubles compare as numbers. -/
protected def beq : Time → Time → Bool
  | .zero, .zero => true
  | .integer m, .integer n => m == n
  | .float x, .float y => x == y
  | .vector v, .vector w => v == w
  | _, _ => false

instance : BEq Time := ⟨Time.beq⟩

def kind : Time → TimeKind
  | .zero => .zero
  | .integer _ => .integer
  | .float _ => .float
  | .vector v => .vector v.length

def isFloat : Time → Bool
  | .float _ => true
  | _ => false

/-- The componentwise sum, if every component is in range. -/
def addVectors? : List Int → List Int → Option (List Int)
  | x :: v, y :: w => do
    let z ← Whole.add? x y
    let rest ← addVectors? v w
    return z :: rest
  | _, _ => some []

def add : Time → Time → Except TimeError Time
  | .zero, t => .ok t
  | t, .zero => .ok t
  | .integer m, .integer n =>
    match Whole.add? m n with
    | some s => .ok (.integer s)
    | none => .error .overflow
  | .float x, .float y => if (x + y).isNaN then .error .notANumber else .ok (.float (x + y))
  | .vector v, .vector w =>
    if v.length ≠ w.length then .error (.dimensionMismatch v.length w.length)
    else
      match addVectors? v w with
      | some s => .ok (.vector s)
      | none => .error .overflow
  | s, t => .error (.mismatchedKinds s.kind t.kind)

/-- The order of two vectors from pairs of components, after earlier components have decided on
`sofar`; none when one pair goes up and another down. -/
def componentOrder? : Ordering → List (Int × Int) → Option Ordering
  | sofar, [] => some sofar
  | sofar, (x, y) :: rest =>
    match compare x y, sofar with
    | .eq, _ => componentOrder? sofar rest
    | o, .eq => componentOrder? o rest
    | o, _ => if o = sofar then componentOrder? sofar rest else none

def floatOrder (x y : Float) : Except TimeError Ordering :=
  if x < y then .ok .lt
  else if y < x then .ok .gt
  else if x == y then .ok .eq
  else .error .notANumber

/-- How the first time compares with the second, `zero` being the origin of every kind. -/
def order : Time → Time → Except TimeError Ordering
  | .zero, .zero => .ok .eq
  | .integer m, .integer n => .ok (compare m n)
  | .zero, .integer n => .ok (compare 0 n)
  | .integer m, .zero => .ok (compare m 0)
  | .float x, .float y => floatOrder x y
  | .zero, .float y => floatOrder 0 y
  | .float x, .zero => floatOrder x 0
  | .vector v, .vector w =>
    if v.length ≠ w.length then .error (.dimensionMismatch v.length w.length)
    else decided (.vector v) (.vector w) (v.zip w)
  | .zero, .vector w => decided .zero (.vector w) (w.map fun y => (0, y))
  | .vector v, .zero => decided (.vector v) .zero (v.map fun x => (x, 0))
  | s, t => .error (.mismatchedKinds s.kind t.kind)
where
  decided (s t : Time) (pairs : List (Int × Int)) : Except TimeError Ordering :=
    match componentOrder? .eq pairs with
    | some o => .ok o
    | none => .error (.incomparable s t)

def isNegative : Time → Bool
  | .zero => false
  | .integer n => n < 0
  | .float x => x < 0
  | .vector v => v.any (· < 0)

/-- Refuses what can be neither a duration nor a bound. -/
def checkNonNegative (t : Time) : Except TimeError Unit :=
  match t with
  | .float x =>
    if x.isNaN then .error .notANumber
    else if t.isNegative then .error (.negative t) else .ok ()
  | _ => if t.isNegative then .error (.negative t) else .ok ()

end Time
end EventInvariants
