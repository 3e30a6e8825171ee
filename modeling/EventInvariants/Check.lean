import EventInvariants.Closure.Violation
import EventInvariants.Exploration

namespace EventInvariants

inductive Backend where
  /-- Exploration, which finds a shortest violating path. -/
  | automaton
  /-- Reachability, for invariants without a bound; others are explored. -/
  | closure
  /-- Both for invariants without a bound, which must agree. -/
  | crossCheck
  deriving DecidableEq

structure Config where
  backend : Backend
  /-- The number of visits after which exploration stops; zero for no limit. -/
  maxIterations : Nat

namespace Config

def default : Config :=
  ⟨.automaton, 0⟩

/-- A limit that small graphs do not reach. -/
def generous : Config :=
  ⟨.automaton, 1000000⟩

end Config

def checkByExploration (g : Graph) (inv : Invariant) (limit : Nat) : Except CheckError Outcome := do
  return (← explore g inv limit).outcome

/-- The outcome of reachability, which has no path to show. -/
def closureOutcome (violated : Bool) : Outcome :=
  if violated then .violated none 0 else .holds 0

def checkByClosure (g : Graph) (inv : Invariant) (cache : ClosureCache) :
    Except CheckError Outcome × ClosureCache :=
  match inv.validate g with
  | .error cause => (.error (.invariant cause), cache)
  | .ok () =>
    let (violated, cache) := Closure.violates g inv cache
    (.ok (closureOutcome violated), cache)

/-- Checks an invariant in both ways. Exploration that was cut short has nothing to compare. -/
def checkByBoth (g : Graph) (inv : Invariant) (limit : Nat) (cache : ClosureCache) :
    Except CheckError Outcome × ClosureCache :=
  match checkByExploration g inv limit with
  | .error e => (.error e, cache)
  | .ok (.inconclusive reason n) => (.ok (.inconclusive reason n), cache)
  | .ok explored =>
    let (violated, cache) := Closure.violates g inv cache
    let closed := closureOutcome violated
    if explored.isViolated = closed.isViolated then (.ok explored, cache)
    else (.error (.disagreement inv explored.verdict closed.verdict), cache)

/-- Checks an invariant; the cache gains the closures that were needed. -/
def check (g : Graph) (inv : Invariant) (config : Config) (cache : ClosureCache) :
    Except CheckError Outcome × ClosureCache :=
  match config.backend, inv.isTimed with
  | .closure, false => checkByClosure g inv cache
  | .crossCheck, false => checkByBoth g inv config.maxIterations cache
  | _, _ => (checkByExploration g inv config.maxIterations, cache)

end EventInvariants
