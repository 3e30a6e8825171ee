import EventInvariants.Graph.Basic

namespace EventInvariants

inductive Kind where
  /-- Every `a` is followed by a `b` before the trace ends. -/
  | alwaysFollowedBy
  /-- No `a` is followed by a `b`. -/
  | neverFollowedBy
  /-- Every `b` is preceded by an `a`. -/
  | alwaysPrecedes
  deriving DecidableEq

inductive Direction where
  /-- The time may not exceed the bound. -/
  | upper
  /-- The time must reach the bound. -/
  | lower
  deriving DecidableEq

structure Bound where
  direction : Direction
  value : Time
  deriving BEq

/-- Relates two event types along the edges of one relation, and may bound the time between them. -/
structure Invariant where
  kind : Kind
  a : Event
  b : Event
  relation : Relation
  bound : Option Bound
  deriving BEq

def Kind.name : Kind → String
  | .alwaysFollowedBy => "AFby"
  | .neverFollowedBy => "NFby"
  | .alwaysPrecedes => "AP"

def Kind.supportsBound : Kind → Bool
  | .neverFollowedBy => false
  | _ => true

def Direction.symbol : Direction → String
  | .upper => "<="
  | .lower => ">="

/-- A part of a text: where it starts and how long it is, in bytes. -/
structure Span where
  offset : Nat
  length : Nat
  deriving DecidableEq

/-- Why an invariant is not one for the graph, or a text is not one of an invariant. -/
inductive InvariantError where
  | unknownEvents (a b : Event)
  | unsupportedBound (kind : Kind)
  | invalidBound (cause : TimeError)
  | mismatchedBoundKind (bound delta : TimeKind) (source target : Nat)
  | malformed (problem : String) (span : Span)

namespace Invariant

def isTimed (inv : Invariant) : Bool :=
  inv.bound.isSome

/-- The first time on an edge of the relation that is not of the bound's kind. -/
def mismatch? (inv : Invariant) (g : Graph) (bound : TimeKind) : Option InvariantError :=
  g.ids.findSome? fun v =>
    (g.successors v inv.relation).findSome? fun edge =>
      match edge.delta with
      | none => none
      | some delta =>
        if bound.compatible delta.kind then none
        else some (.mismatchedBoundKind bound delta.kind v edge.target)

def checkBound (inv : Invariant) (g : Graph) (bound : Bound) : Except InvariantError Unit :=
  if !inv.kind.supportsBound then .error (.unsupportedBound inv.kind)
  else
    match bound.value.checkNonNegative with
    | .error cause => .error (.invalidBound cause)
    | .ok () =>
      match inv.mismatch? g bound.value.kind with
      | some e => .error e
      | none => .ok ()

/-- Accepts an invariant for a graph: its bound can be measured there, and one of its events
occurs. -/
def validate (inv : Invariant) (g : Graph) : Except InvariantError Unit := do
  if let some bound := inv.bound then
    inv.checkBound g bound
  if !g.containsEvent inv.a && !g.containsEvent inv.b then
    throw (.unknownEvents inv.a inv.b)

end Invariant
end EventInvariants
