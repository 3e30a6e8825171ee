import EventInvariants.Closure.Cache
import EventInvariants.Invariant.Basic

namespace EventInvariants.Closure

/-- Whether `v` is initial or reached from an initial node. -/
def isInitiallyReachable (full : Closure) (g : Graph) (v : Nat) : Bool :=
  g.isInitial v || g.initialNodes.any fun u => full.isReachable u v

/-- Whether some reachable `a` leads to a `b`. -/
def someFollowed (full : Closure) (g : Graph) (inv : Invariant) : Bool :=
  g.ids.any fun u =>
    isInitiallyReachable full g u && g.hasEvent u inv.a &&
      (full.reachableFrom u).any fun v => g.hasEvent v inv.b

/-- Whether some `b` is reached without an `a`, given the closure without `a`. -/
def someUnpreceded (withoutA : Closure) (g : Graph) (inv : Invariant) : Bool :=
  g.initialNodes.any fun u =>
    !g.hasEvent u inv.a &&
      (g.hasEvent u inv.b || (withoutA.reachableFrom u).any fun v => g.hasEvent v inv.b)

/-- The events that end the wait of an `a`. One that is itself an `a` starts a new wait. -/
def answer (inv : Invariant) : Option Event :=
  if inv.a = inv.b then none else some inv.b

/-- Whether a trace can end at or after `v` before an answer, given the closure without answers. -/
def endsOpen (unanswered : Closure) (g : Graph) (inv : Invariant) (v : Nat) : Bool :=
  allows g (answer inv) v &&
    (g.isTerminal v || (unanswered.reachableFrom v).any g.isTerminal)

/-- Whether some reachable `a` has no `b` after it by the end of a trace. -/
def someUnanswered (full unanswered : Closure) (g : Graph) (inv : Invariant) : Bool :=
  g.ids.any fun u =>
    isInitiallyReachable full g u && g.hasEvent u inv.a &&
      (g.isTerminal u ||
        (g.successors u inv.relation).any fun edge => endsOpen unanswered g inv edge.target)

/-- Whether the graph violates the invariant, and the cache with the closures that were needed. A
bound is not looked at. -/
def violates (g : Graph) (inv : Invariant) (cache : ClosureCache) : Bool × ClosureCache :=
  match inv.kind with
  | .neverFollowedBy =>
    let (full, cache) := cache.get g ⟨inv.relation, none⟩
    (someFollowed full g inv, cache)
  | .alwaysPrecedes =>
    let (withoutA, cache) := cache.get g ⟨inv.relation, some inv.a⟩
    (someUnpreceded withoutA g inv, cache)
  | .alwaysFollowedBy =>
    let (full, cache) := cache.get g ⟨inv.relation, none⟩
    let (unanswered, cache) := cache.get g ⟨inv.relation, answer inv⟩
    (someUnanswered full unanswered g inv, cache)

end EventInvariants.Closure
