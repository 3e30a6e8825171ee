import EventInvariants.Graph.Basic

namespace EventInvariants

/-- A small graph over three events, as a generator would draw it. -/
structure Shape where
  /-- Events by number, modulo three. -/
  events : List Nat
  initial : Array Bool
  terminal : Array Bool
  /-- Source and target by number, modulo the number of nodes, with a time. -/
  edges : List (Nat × Nat × Int)
  timed : Bool

namespace Shape

def event (i : Nat) : Event :=
  match i % 3 with
  | 0 => ⟨"a"⟩
  | 1 => ⟨"b"⟩
  | _ => ⟨"c"⟩

/-- The flags of node `i`; the first node is always initial. None if a flag is missing. -/
def flags? (s : Shape) (i : Nat) : Option (Bool × Bool) := do
  let initial ← if i = 0 then some true else s.initial[i]?
  let terminal ← s.terminal[i]?
  return (initial, terminal)

def addNode? (s : Shape) (g : Graph) (event : Event) : Option Graph := do
  let (initial, terminal) ← s.flags? g.size
  return g.addNode event initial terminal

def addEdge? (s : Shape) (g : Graph) : Nat × Nat × Int → Option Graph
  | (source, target, delta) =>
    let n := s.events.length
    (g.addEdge (source % n) (target % n) .default
      (if s.timed then some (.integer delta) else none)).toOption

/-- The graph, if every flag is there, and an edge only where there are nodes. -/
def build? (s : Shape) : Option Graph := do
  let g ← (s.events.map event).foldlM s.addNode? Graph.empty
  s.edges.foldlM s.addEdge? g

end Shape
end EventInvariants
