import EventInvariants.Outcome
import EventInvariants.StateSet

namespace EventInvariants

/-- The state sets of all nodes when exploration stops. -/
structure Fixpoint where
  sets : Array StateSet
  iterations : Nat
  limit : Option Limit

namespace Fixpoint

def set (f : Fixpoint) (v : Nat) : StateSet :=
  f.sets.getD v .empty

/-- The shorter of two histories, the first on a tie. -/
def shorter : Option History → Option History → Option History
  | some h, some k => if k.length < h.length then some k else some h
  | some h, none => some h
  | none, k => k

/-- The shortest history in the failure state, at the first node on a tie. -/
def shortestFailure? (f : Fixpoint) : Option History :=
  f.sets.foldl (fun best s => shorter best s.failure?) none

/-- A violation that was found before a limit was hit is a violation. -/
def outcome (f : Fixpoint) : Outcome :=
  match f.shortestFailure?, f.limit with
  | some h, _ => .violated (some (.ofHistory h)) f.iterations
  | none, some reason => .inconclusive reason f.iterations
  | none, none => .holds f.iterations

end Fixpoint

namespace Exploration

/-- The time with which the monitor takes an edge: for a bounded invariant it must be there and not
be negative. -/
def edgeDelta (inv : Invariant) (source : Nat) (edge : Edge) :
    Except CheckError (Option Time) :=
  if !(Monitor.ofInvariant inv).isTimed then .ok edge.delta
  else
    match edge.delta with
    | none => .error (.missingDelta source edge.target)
    | some delta =>
      match delta.checkNonNegative with
      | .error cause => .error (.time source edge.target cause)
      | .ok () => .ok (some delta)

/-- What an edge makes of the set at its source. -/
def propagate (g : Graph) (inv : Invariant) (source : Nat) (s : StateSet) (edge : Edge) :
    Except CheckError StateSet := do
  let delta ← edgeDelta inv source edge
  (s.transition (Monitor.ofInvariant inv) edge.target (g.letter inv edge.target) delta).mapError
    (.ofFault source edge.target)

/-- Exploration at one moment. The queue holds the nodes whose latest set has not been passed on,
and they are marked as queued. -/
structure State where
  sets : Array StateSet
  queue : List Nat
  queued : Array Bool
  iterations : Nat

namespace State

def set (s : State) (v : Nat) : StateSet :=
  s.sets.getD v .empty

def isQueued (s : State) (v : Nat) : Bool :=
  s.queued.getD v false

def enqueue (s : State) (v : Nat) : State :=
  { s with queue := s.queue ++ [v], queued := s.queued.setIfInBounds v true }

def dequeue (s : State) (v : Nat) (rest : List Nat) : State :=
  { s with queue := rest, queued := s.queued.setIfInBounds v false }

end State

def blank (g : Graph) : State where
  sets := Array.replicate g.size .empty
  queue := []
  queued := Array.replicate g.size false
  iterations := 0

/-- Starts a path at an initial node. -/
def seedNode (g : Graph) (inv : Invariant) (s : State) (v : Nat) : Except CheckError State :=
  match (s.set v).begin? (Monitor.ofInvariant inv) v (g.letter inv v) with
  | .error fault => .error (.ofFault v v fault)
  | .ok none => .ok (s.enqueue v)
  | .ok (some t) => .ok ({ s with sets := s.sets.setIfInBounds v t }.enqueue v)

def seed (g : Graph) (inv : Invariant) : Except CheckError State :=
  g.initialNodes.foldlM (seedNode g inv) (blank g)

/-- Passes a set along one edge. The target is queued if it learned anything. -/
def follow (g : Graph) (inv : Invariant) (source : Nat) (known : StateSet) (s : State)
    (edge : Edge) : Except CheckError State := do
  let proposed ← propagate g inv source known edge
  let target := s.set edge.target
  let grew := !proposed.isSubset target
  match target.merge (Monitor.ofInvariant inv) proposed with
  | (_, .error fault) => throw (.ofFault source edge.target fault)
  | (merged, .ok improved) =>
    let s := { s with sets := s.sets.setIfInBounds edge.target merged }
    if (grew || improved) && !s.isQueued edge.target then return s.enqueue edge.target
    else return s

/-- Takes `v` off the queue and passes its set along every edge of the relation; the edges see the
set as it was when the node was taken. -/
def visit (g : Graph) (inv : Invariant) (s : State) (v : Nat) (rest : List Nat) :
    Except CheckError State :=
  let s := s.dequeue v rest
  let known := s.set v
  (g.successors v inv.relation).foldlM (follow g inv v known)
    { s with iterations := s.iterations + 1 }

/-- Visits nodes until the queue is empty or `limit` visits are done; a limit of zero is none. With
no fuel left the limit counts as hit. -/
def run (g : Graph) (inv : Invariant) (limit : Nat) : Nat → State → Except CheckError Fixpoint
  | 0, s => .ok ⟨s.sets, s.iterations, some .iterations⟩
  | fuel + 1, s =>
    match s.queue with
    | [] => .ok ⟨s.sets, s.iterations, none⟩
    | v :: rest =>
      if 0 < limit && limit ≤ s.iterations then .ok ⟨s.sets, s.iterations, some .iterations⟩
      else do run g inv limit fuel (← visit g inv s v rest)

/-- How many readings a running clock has at most: the times up to the bound. -/
def readings : Time → Nat
  | .zero => 1
  | .integer n => n.toNat + 1
  | .float _ => UInt64.size
  | .vector v => (v.map fun n => n.toNat + 1).foldr (· * ·) 1

/-- How many clocks a state can carry at a node: every reading, `idle` and `saturated`. -/
def clocks (inv : Invariant) : Nat :=
  match inv.bound with
  | some bound => readings bound.value + 2
  | none => 2

/-- Fuel for any exploration. A cell is a node with a state and a clock. A history that fills an
empty cell is at most one longer than every history before it, so none is longer than the number of
cells and one; and every entry that a set takes in fills a cell or shortens the history in it. -/
def visitBound (g : Graph) (inv : Invariant) : Nat :=
  let cells := g.size * StateSet.phases.length * clocks inv
  g.size + cells * (cells + 2) + 1

/-- Explores a graph for an invariant that has been validated. -/
def exploreValid (g : Graph) (inv : Invariant) (limit : Nat) : Except CheckError Fixpoint := do
  run g inv limit (visitBound g inv) (← seed g inv)

/-- Passes the set at `v` along one edge again: whether the set at its target stays as it is. -/
def isStableEdge (g : Graph) (inv : Invariant) (f : Fixpoint) (v : Nat) (edge : Edge) :
    Except CheckError Bool := do
  let proposed ← propagate g inv v (f.set v) edge
  let target := f.set edge.target
  if !proposed.isSubset target then return false
  match (target.merge (Monitor.ofInvariant inv) proposed).2 with
  | .error fault => throw (.ofFault v edge.target fault)
  | .ok improved => return !improved

/-- Whether passing every set along every edge again would change nothing. -/
def isStable (g : Graph) (inv : Invariant) (f : Fixpoint) : Except CheckError Bool :=
  g.ids.allM fun v =>
    if (f.set v).isEmpty then .ok true
    else (g.successors v inv.relation).allM (isStableEdge g inv f v)

end Exploration

/-- Validates the invariant and explores the graph, for at most `limit` visits; a limit of zero is
none. -/
def explore (g : Graph) (inv : Invariant) (limit : Nat) : Except CheckError Fixpoint :=
  match inv.validate g with
  | .error cause => .error (.invariant cause)
  | .ok () => Exploration.exploreValid g inv limit

end EventInvariants
