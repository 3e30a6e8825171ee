import EventInvariants.History
import EventInvariants.Monitor.Basic

namespace EventInvariants

abbrev Path := List Step

/-- Why a path cannot be judged. -/
inductive PathError where
  | time (cause : TimeError)
  /-- The path leaves the graph at a node that had to be looked at. -/
  | outside (node : Nat)

namespace Path

/-- Whether an edge of the relation leads from `u` to the step, with the step's time. -/
def isEdge (g : Graph) (relation : Relation) (u : Nat) (s : Step) : Bool :=
  (g.successors u relation).any fun edge => edge.target = s.node && edge.delta == s.delta

/-- Whether the steps follow one another from `u` on. -/
def follows (g : Graph) (relation : Relation) : Nat → Path → Bool
  | _, [] => true
  | u, s :: rest => isEdge g relation u s && follows g relation s.node rest

/-- Whether the steps start at an initial node and follow edges of the relation. The time of the
first step is not looked at. -/
def isPath (g : Graph) (relation : Relation) : Path → Bool
  | [] => false
  | first :: rest => g.isInitial first.node && follows g relation first.node rest

/-- The time between two positions; a step without time takes none. -/
def elapsed (steps : Array Step) (i j : Nat) : Except TimeError Time :=
  (steps.extract (i + 1) (j + 1)).toList.foldlM (fun t s => t.add (s.delta.getD .zero)) .zero

def letterAt (g : Graph) (inv : Invariant) (steps : Array Step) (i : Nat) :
    Except PathError Letter :=
  match steps[i]? with
  | none => .ok ⟨false, false, false⟩
  | some s => if s.node < g.size then .ok (g.letter inv s.node) else .error (.outside s.node)

/-- The positions from `i` up to `j`, without `j`. -/
def positions (i j : Nat) : List Nat :=
  List.range' i (j - i)

section
variable (g : Graph) (inv : Invariant) (steps : Array Step)

def isA (i : Nat) : Except PathError Bool :=
  return (← letterAt g inv steps i).a

def isB (i : Nat) : Except PathError Bool :=
  return (← letterAt g inv steps i).b

def isTerminal (i : Nat) : Except PathError Bool :=
  return (← letterAt g inv steps i).terminal

/-- Whether the time from `i` to `j` compares in the given way with the bound. -/
def timeIs (o : Ordering) (bound : Bound) (i j : Nat) : Except PathError Bool :=
  match elapsed steps i j with
  | .error cause => .error (.time cause)
  | .ok t =>
    match t.order bound.value with
    | .error cause => .error (.time cause)
    | .ok p => .ok (p = o)

/-- How a time that is out of bounds compares with the bound. -/
def outOfBounds : Direction → Ordering
  | .upper => .gt
  | .lower => .lt

/-- Some `a` has a `b` after it. -/
def breaksNeverFollowedBy : Except PathError Bool :=
  (positions 0 steps.size).anyM fun i => do
    if ← isA g inv steps i then (positions (i + 1) steps.size).anyM (isB g inv steps)
    else return false

/-- Some `b` has no `a` before it and is none itself. -/
def breaksPrecedes : Except PathError Bool :=
  (positions 0 steps.size).anyM fun j => do
    if ← isB g inv steps j then return !(← (positions 0 (j + 1)).anyM (isA g inv steps))
    else return false

/-- After some `a` the trace ends, with no `b` in between. -/
def breaksFollowedBy : Except PathError Bool :=
  (positions 0 steps.size).anyM fun i => do
    if ← isA g inv steps i then
      (positions i steps.size).anyM fun m => do
        if ← isTerminal g inv steps m then
          return !(← (positions (i + 1) (m + 1)).anyM (isB g inv steps))
        else return false
    else return false

/-- The `a` before `j` from which the time is measured: the last one for an upper bound, the first
one for a lower bound. -/
def anchor? (direction : Direction) (j : Nat) : Except PathError (Option Nat) :=
  match direction with
  | .upper => (positions 0 j).reverse.findM? (isA g inv steps)
  | .lower => (positions 0 j).findM? (isA g inv steps)

/-- Some `b` that is no `a` has no `a` before it, or its time is out of bounds. -/
def breaksTimedPrecedes (bound : Bound) : Except PathError Bool :=
  (positions 0 steps.size).anyM fun j => do
    if !(← isB g inv steps j) then return false
    if ← isA g inv steps j then return false
    match ← anchor? g inv steps bound.direction j with
    | none => return true
    | some i => timeIs steps (outOfBounds bound.direction) bound i j

/-- After some `a` the trace ends before a `b`, or the `b` comes out of bounds, or none comes while
the time exceeds an upper bound. -/
def breaksTimedFollowedBy (bound : Bound) : Except PathError Bool :=
  (positions 0 steps.size).anyM fun i => do
    if !(← isA g inv steps i) then return false
    let answer ← (positions (i + 1) steps.size).findM? (isB g inv steps)
    if ← (positions i (answer.getD steps.size)).anyM (isTerminal g inv steps) then return true
    match answer, bound.direction with
    | some j, direction => timeIs steps (outOfBounds direction) bound i j
    | none, .upper => (positions (i + 1) steps.size).anyM (timeIs steps .gt bound i)
    | none, .lower => return false

end

/-- Whether the path, or a path that it extends, violates the invariant, read off its positions
without a monitor. Nodes are looked at in the order of the positions, and none after the answer is
known. -/
def violates (g : Graph) (inv : Invariant) (path : Path) : Except PathError Bool :=
  let steps := path.toArray
  match inv.kind, inv.bound with
  | .neverFollowedBy, _ => breaksNeverFollowedBy g inv steps
  | .alwaysPrecedes, none => breaksPrecedes g inv steps
  | .alwaysFollowedBy, none => breaksFollowedBy g inv steps
  | .alwaysPrecedes, some bound => breaksTimedPrecedes g inv steps bound
  | .alwaysFollowedBy, some bound => breaksTimedFollowedBy g inv steps bound

end Path
end EventInvariants
