import EventInvariants.Invariant.Basic

namespace EventInvariants

/-- A clock runs from an `a` until the bound is decided, and then is only known to be past it, so
that a clock has finitely many readings. -/
inductive Clock where
  /-- No time is measured. -/
  | idle
  /-- The time since the `a` that counts, short of the threshold. -/
  | running (elapsed : Time)
  /-- Past the threshold: over an upper bound, or at least a lower one. -/
  | saturated
  deriving BEq

namespace Bound

/-- Whether a time that compares so with the bound is past the threshold. -/
def isPast : Direction → Ordering → Bool
  | .upper, o => o = .gt
  | .lower, o => o ≠ .lt

def settle (w : Bound) (elapsed : Time) : Except TimeError Clock := do
  let o ← elapsed.order w.value
  return if isPast w.direction o then .saturated else .running elapsed

def start (w : Bound) : Except TimeError Clock :=
  w.settle .zero

def advance (w : Bound) (delta : Time) : Clock → Except TimeError Clock
  | .running elapsed => do w.settle (← elapsed.add delta)
  | clock => .ok clock

/-- Whether a `b` that arrives with this clock is in time. -/
def met (w : Bound) : Clock → Bool
  | .idle => false
  | .running _ => w.direction = .upper
  | .saturated => w.direction = .lower

end Bound

end EventInvariants
