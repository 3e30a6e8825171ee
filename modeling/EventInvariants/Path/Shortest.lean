import EventInvariants.Path.Walk

namespace EventInvariants.Path

/-- The best length so far, or the error that ended the search. -/
abbrev Search := Except PathError (Option Nat)

/-- Judges a path unless a violating one that is no longer is known. -/
def judge (g : Graph) (inv : Invariant) (search : Search) (path : Path) : Search × Walk :=
  match search with
  | .error e => (.error e, .stop)
  | .ok best =>
    if best.any (· ≤ path.length) then (.ok best, .prune)
    else
      match violates g inv path with
      | .ok true => (.ok (some path.length), .prune)
      | .ok false => (.ok best, .descend)
      | .error e => (.error e, .stop)

/-- The length of the shortest violating path with at most `maxLength` nodes. -/
def shortestViolation (g : Graph) (inv : Invariant) (maxLength : Nat) : Search :=
  Walk.visitAll g inv.relation maxLength (judge g inv) (.ok none)

/-- A length that the shortest violation of an invariant without bound does not exceed: one visit
of each node in each of three states, and one more. -/
def lengthBound (g : Graph) : Nat :=
  g.size * 3 + 1

/-- Whether neither event of the invariant occurs in the graph. -/
def namesAbsentEvents (g : Graph) (inv : Invariant) : Bool :=
  !g.containsEvent inv.a && !g.containsEvent inv.b

end EventInvariants.Path
