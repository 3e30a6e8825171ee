import EventInvariants.Graph.Basic

namespace EventInvariants

/-- Adds a node and sets the flags at its place. -/
def Graph.addFlagged (g : Graph) (event : Event) (initial terminal : Bool) :
    Except GraphError Graph := do
  let v := Node.place g.size
  let g ← (g.addNode event false false).setInitial v initial
  g.setTerminal v terminal

/-- A graph under construction, whose nodes are known by keys. The list of keys is also the table in
which they are looked up. -/
structure Builder where
  graph : Graph
  names : Array String

namespace Builder

def empty : Builder :=
  ⟨.empty, #[]⟩

/-- The node of a key. Key `i` is that of node `i`, by the 32 bits of its place. -/
def find? (b : Builder) (key : String) : Option Nat :=
  (b.names.findIdx? (· == key)).map Node.place

/-- Adds a node under a key that is not in use. -/
def node (b : Builder) (key : String) (event : Event) (initial terminal : Bool) :
    Except GraphError Builder :=
  match b.find? key with
  | some _ => .error (.duplicateKey key)
  | none => do
    let graph ← b.graph.addFlagged event initial terminal
    return ⟨graph, b.names.push key⟩

def lookup (b : Builder) (key : String) : Except GraphError Nat :=
  match b.find? key with
  | some v => .ok v
  | none => .error (.unknownKey key)

/-- Adds an edge between two keys; of two unknown ones the source is reported. -/
def edge (b : Builder) (source target : String) (relation : Relation) (delta : Option Time) :
    Except GraphError Builder := do
  let s ← b.lookup source
  let t ← b.lookup target
  let graph ← b.graph.addEdge s t relation delta
  return ⟨graph, b.names⟩

end Builder
end EventInvariants
