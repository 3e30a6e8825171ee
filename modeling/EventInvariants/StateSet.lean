import EventInvariants.History
import EventInvariants.Monitor.Basic

namespace EventInvariants

structure Entry where
  history : History
  clock : Clock

namespace Entry

def length (e : Entry) : Nat :=
  e.history.length

/-- Whether `x` makes `y` superfluous. Clocks are compared only if the lengths allow it. -/
def beats (m : Monitor) (x y : Entry) : Except Fault Bool :=
  if x.length ≤ y.length then do return (← m.severity x.clock y.clock) != .lt
  else .ok false

end Entry

/-- The entries of one monitor state, shortest history first. -/
abbrev Frontier := List Entry

namespace Frontier

/-- The entries that stay beside a new one; none if some entry makes the new one superfluous. -/
def survivors? (m : Monitor) (new : Entry) : Frontier → Except Fault (Option Frontier)
  | [] => .ok (some [])
  | old :: rest => do
    if ← Entry.beats m old new then return none
    let beaten ← Entry.beats m new old
    match ← survivors? m new rest with
    | none => return none
    | some kept => return some (if beaten then kept else old :: kept)

/-- Puts an entry after those that are no longer. -/
def insert (new : Entry) (f : Frontier) : Frontier :=
  f.takeWhile (·.length ≤ new.length) ++ new :: f.dropWhile (·.length ≤ new.length)

/-- The frontier with a new entry; none if it is superfluous. -/
def offer? (m : Monitor) (new : Entry) (f : Frontier) : Except Fault (Option Frontier) := do
  return (← survivors? m new f).map (insert new)

end Frontier

/-- What is known of one node: for each monitor state in which some path arrives there, a frontier
of histories with their clocks. -/
structure StateSet where
  start : Frontier
  seen : Frontier
  matched : Frontier
  failed : Frontier

namespace StateSet

def empty : StateSet :=
  ⟨[], [], [], []⟩

instance : Inhabited StateSet := ⟨empty⟩

def frontier (s : StateSet) : Phase → Frontier
  | .start => s.start
  | .seen => s.seen
  | .matched => s.matched
  | .failed => s.failed

def update (s : StateSet) (f : Frontier) : Phase → StateSet
  | .start => { s with start := f }
  | .seen => { s with seen := f }
  | .matched => { s with matched := f }
  | .failed => { s with failed := f }

def phases : List Phase :=
  [.start, .seen, .matched, .failed]

/-- All entries with their states, in the order of states and histories. -/
def entries (s : StateSet) : List (Phase × Entry) :=
  phases.flatMap fun p => (s.frontier p).map fun e => (p, e)

def offer? (m : Monitor) (s : StateSet) (p : Phase) (e : Entry) :
    Except Fault (Option StateSet) := do
  return (← (s.frontier p).offer? m e).map fun f => s.update f p

/-- Adds the state that a path starting at `v` is in; none if it is known. -/
def begin? (m : Monitor) (s : StateSet) (v : Nat) (l : Letter) :
    Except Fault (Option StateSet) := do
  let (p, clock) ← m.initial l
  s.offer? m p ⟨.root v, clock⟩

def initial (m : Monitor) (v : Nat) (l : Letter) : Except Fault StateSet := do
  return (← empty.begin? m v l).getD empty

/-- The set at `v` when every history here takes an edge to it. -/
def transition (m : Monitor) (s : StateSet) (v : Nat) (l : Letter) (delta : Option Time) :
    Except Fault StateSet :=
  s.entries.foldlM (fun next (p, e) => do
    let (q, clock) ← m.step p e.clock l (delta.getD .zero)
    return (← next.offer? m q ⟨e.history.extend v delta, clock⟩).getD next) empty

/-- Offers entries one after another, until one fails. What was added before stays; the answer says
whether anything was. -/
def offerAll (m : Monitor) (s : StateSet) : List (Phase × Entry) → StateSet × Except Fault Bool
  | [] => (s, .ok false)
  | (p, e) :: rest =>
    match s.offer? m p e with
    | .error fault => (s, .error fault)
    | .ok none => offerAll m s rest
    | .ok (some s') =>
      let (t, added) := offerAll m s' rest
      (t, added.map fun _ => true)

def merge (m : Monitor) (s t : StateSet) : StateSet × Except Fault Bool :=
  s.offerAll m t.entries

def contains (s : StateSet) (p : Phase) : Bool :=
  !(s.frontier p).isEmpty

def isEmpty (s : StateSet) : Bool :=
  phases.all fun p => (s.frontier p).isEmpty

/-- Whether every state reached here is also reached there. -/
def isSubset (s t : StateSet) : Bool :=
  phases.all fun p => (s.frontier p).isEmpty || !(t.frontier p).isEmpty

def reached (s : StateSet) : List Phase :=
  phases.filter s.contains

/-- The shortest history that reaches a state, with its clock. -/
def best? (s : StateSet) (p : Phase) : Option Entry :=
  (s.frontier p).head?

def history? (s : StateSet) (p : Phase) : Option History :=
  (s.best? p).map Entry.history

def clock? (s : StateSet) (p : Phase) : Option Clock :=
  (s.best? p).map Entry.clock

/-- The shortest history that violates the invariant. -/
def failure? (s : StateSet) : Option History :=
  s.history? .failed

end StateSet
end EventInvariants
