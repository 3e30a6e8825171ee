import EventInvariants.Monitor.Clock

namespace EventInvariants

/-- What an invariant sees of a node. -/
structure Letter where
  a : Bool
  b : Bool
  terminal : Bool
  deriving DecidableEq

def Graph.letter (g : Graph) (inv : Invariant) (v : Nat) : Letter :=
  ⟨g.hasEvent v inv.a, g.hasEvent v inv.b, g.isTerminal v⟩

/-- The states of a monitor. Only bounded precedence uses `matched`. -/
inductive Phase where
  /-- No `a` counts so far. -/
  | start
  /-- An `a` has been read. -/
  | seen
  /-- After the `a`, other events have passed, or a `b` in time. -/
  | matched
  /-- The invariant is violated, for good. -/
  | failed
  deriving DecidableEq

inductive Monitor where
  | followedBy
  | neverFollowedBy
  | precedes
  | timedFollowedBy (window : Bound)
  | timedPrecedes (window : Bound)

/-- Why a monitor cannot go on. The last two are mistakes of a caller: a state that the monitor
does not have, or clocks of one state of which only one is idle. -/
inductive Fault where
  | time (cause : TimeError)
  | strayState
  | mixedClocks

def Fault.lift {α : Type} : Except TimeError α → Except Fault α
  | .ok x => .ok x
  | .error cause => .error (.time cause)

namespace Monitor

/-- A bound on an invariant of a kind that takes none is not watched. -/
def ofInvariant (inv : Invariant) : Monitor :=
  match inv.kind, inv.bound with
  | .alwaysFollowedBy, none => .followedBy
  | .alwaysFollowedBy, some w => .timedFollowedBy w
  | .alwaysPrecedes, none => .precedes
  | .alwaysPrecedes, some w => .timedPrecedes w
  | .neverFollowedBy, _ => .neverFollowedBy

def window : Monitor → Option Bound
  | .timedFollowedBy w => some w
  | .timedPrecedes w => some w
  | _ => none

def isTimed (m : Monitor) : Bool :=
  m.window.isSome

/-- The states that the monitor has, in order. -/
def phases : Monitor → List Phase
  | .timedPrecedes _ => [.start, .seen, .matched, .failed]
  | _ => [.start, .seen, .failed]

/-- The states are numbered from zero, and the last one is failure. -/
def phaseAt? (m : Monitor) (i : Nat) : Option Phase :=
  m.phases[i]?

def index (m : Monitor) (p : Phase) : Nat :=
  m.phases.idxOf p

/-- State numbers have 8 bits; higher ones are dropped. -/
def stateNumber (i : Nat) : Nat :=
  i % UInt8.size

def enterFollowedBy (l : Letter) : Phase → Except Fault Phase
  | .start => .ok (if l.a then .seen else .start)
  | .seen => .ok (if !l.a && l.b then .start else .seen)
  | .failed => .ok .failed
  | .matched => .error .strayState

def enterNeverFollowedBy (l : Letter) : Phase → Except Fault Phase
  | .start => .ok (if l.a then .seen else .start)
  | .seen => .ok (if l.b then .failed else .seen)
  | .failed => .ok .failed
  | .matched => .error .strayState

def enterPrecedes (l : Letter) : Phase → Except Fault Phase
  | .start => .ok (if l.a then .seen else if l.b then .failed else .start)
  | .seen => .ok .seen
  | .failed => .ok .failed
  | .matched => .error .strayState

/-- An `a` from which time is measured. -/
def restart (w : Bound) : Except Fault (Phase × Clock) := do
  return (.seen, ← Fault.lift w.start)

/-- A waiting `a` under an upper bound fails as soon as its time is up. Of several the oldest is
the first to run out; under a lower bound the newest is the one that a quick `b` would violate. -/
def enterTimedFollowedBy (w : Bound) (clock : Clock) (l : Letter) :
    Phase → Except Fault (Phase × Clock)
  | .start => if l.a then restart w else .ok (.start, .idle)
  | .seen =>
    if l.b then
      if !w.met clock then .ok (.failed, .idle)
      else if l.a then restart w
      else .ok (.start, .idle)
    else
      match w.direction, clock with
      | .upper, .saturated => .ok (.failed, .idle)
      | .upper, _ => .ok (.seen, clock)
      | .lower, _ => if l.a then restart w else .ok (.seen, clock)
  | .failed => .ok (.failed, .idle)
  | .matched => .error .strayState

/-- An upper bound is measured from the latest `a`, a lower bound from the earliest. -/
def enterTimedPrecedes (w : Bound) (clock : Clock) (l : Letter) :
    Phase → Except Fault (Phase × Clock)
  | .start =>
    if l.a then restart w else if l.b then .ok (.failed, .idle) else .ok (.start, .idle)
  | .failed => .ok (.failed, .idle)
  | phase =>
    if l.a then
      match w.direction with
      | .upper => restart w
      | .lower => .ok (phase, clock)
    else if l.b then
      if w.met clock then .ok (.matched, clock) else .ok (.failed, .idle)
    else .ok (.matched, clock)

/-- State and clock after a letter, as the tables have it. -/
def table (m : Monitor) (phase : Phase) (clock : Clock) (l : Letter) :
    Except Fault (Phase × Clock) :=
  match m with
  | .followedBy => do return (← enterFollowedBy l phase, .idle)
  | .neverFollowedBy => do return (← enterNeverFollowedBy l phase, .idle)
  | .precedes => do return (← enterPrecedes l phase, .idle)
  | .timedFollowedBy w => enterTimedFollowedBy w clock l phase
  | .timedPrecedes w => enterTimedPrecedes w clock l phase

/-- Whether an `a` waits for its `b` in state `seen`. -/
def awaits : Monitor → Bool
  | .followedBy => true
  | .timedFollowedBy _ => true
  | _ => false

/-- State and clock after a letter. A trace may not end while an `a` waits for its `b`. -/
def enter (m : Monitor) (phase : Phase) (clock : Clock) (l : Letter) :
    Except Fault (Phase × Clock) := do
  let (next, clock) ← m.table phase clock l
  if m.awaits && next = .seen && l.terminal then return (.failed, .idle)
  else return (next, clock)

/-- State and clock after the first letter of a path. -/
def initial (m : Monitor) (l : Letter) : Except Fault (Phase × Clock) :=
  m.enter .start .idle l

def advance (m : Monitor) (clock : Clock) (delta : Time) : Except Fault Clock :=
  match m.window with
  | some w => Fault.lift (w.advance delta clock)
  | none => .ok clock

/-- State and clock after an edge that takes `delta` and the letter that it leads to. -/
def step (m : Monitor) (phase : Phase) (clock : Clock) (l : Letter) (delta : Time) :
    Except Fault (Phase × Clock) := do
  m.enter phase (← m.advance clock delta) l

/-- A step from a state given by number. The clock advances before the state is looked up. -/
def stepAt (m : Monitor) (state : Nat) (clock : Clock) (l : Letter) (delta : Time) :
    Except Fault (Phase × Clock) := do
  let clock ← m.advance clock delta
  match m.phaseAt? state with
  | some phase => m.enter phase clock l
  | none => throw .strayState

/-- Compares two clocks of one state: `gt` if the first is nearer to violating the bound. -/
def severity (m : Monitor) (x y : Clock) : Except Fault Ordering :=
  match m.window with
  | none => .ok .eq
  | some w => do
    let o ←
      match x, y with
      | .idle, .idle => pure Ordering.eq
      | .saturated, .saturated => pure Ordering.eq
      | .running s, .running t => Fault.lift (s.order t)
      | .saturated, .running _ => pure Ordering.gt
      | .running _, .saturated => pure Ordering.lt
      | _, _ => throw .mixedClocks
    match w.direction with
    | .upper => return o
    | .lower => return o.swap

end Monitor
end EventInvariants
