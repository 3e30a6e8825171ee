import EventInvariants.Label
import EventInvariants.Time.Basic

namespace EventInvariants

/-- An edge, kept at the node that it leaves. -/
structure Edge where
  target : Nat
  relation : Relation
  delta : Option Time

structure Node where
  event : Event
  initial : Bool
  terminal : Bool
  edges : Array Edge

namespace Node

/-- Nodes are named by their places in the graph, which have 32 bits; higher bits are dropped. -/
def place (i : Nat) : Nat :=
  i % UInt32.size

def label (v : Nat) : String :=
  s!"n{v}"

def tag (v : Nat) : String :=
  s!"NodeId({v})"

end Node

structure Graph where
  nodes : Array Node
  target_lt : ∀ node ∈ nodes, ∀ edge ∈ node.edges, edge.target < nodes.size

inductive GraphError where
  | unknownNode (node : Nat)
  | unknownKey (key : String)
  | duplicateKey (key : String)
  deriving DecidableEq

def GraphError.message : GraphError → String
  | .unknownNode node => s!"unknown node {Node.label node}"
  | .unknownKey key => s!"unknown node key '{key}'"
  | .duplicateKey key => s!"duplicate node key '{key}'"

namespace Graph

def size (g : Graph) : Nat :=
  g.nodes.size

def empty : Graph where
  nodes := #[]
  target_lt := by simp

instance : Inhabited Graph := ⟨empty⟩

/-- Adds a node without edges, at place `g.size`. -/
def addNode (g : Graph) (event : Event) (initial terminal : Bool) : Graph where
  nodes := g.nodes.push ⟨event, initial, terminal, #[]⟩
  target_lt := by
    intro node hnode edge hedge
    rw [Array.size_push]
    rcases Array.mem_push.mp hnode with h | rfl
    · exact Nat.lt_succ_of_lt (g.target_lt node h edge hedge)
    · simp at hedge

/-- Puts another node in place of one, with edges that stay in the graph. -/
def replace (g : Graph) (v : Nat) (hv : v < g.nodes.size) (node : Node)
    (hnode : ∀ edge ∈ node.edges, edge.target < g.nodes.size) : Graph where
  nodes := g.nodes.set v node
  target_lt := by
    intro other hother edge hedge
    rw [Array.size_set]
    rcases Array.mem_or_eq_of_mem_set hother with h | rfl
    · exact g.target_lt other h edge hedge
    · exact hnode edge hedge

def setInitial (g : Graph) (v : Nat) (on : Bool) : Except GraphError Graph :=
  if hv : v < g.nodes.size then
    .ok (g.replace v hv { g.nodes[v] with initial := on }
      (g.target_lt g.nodes[v] (Array.getElem_mem hv)))
  else .error (.unknownNode v)

def setTerminal (g : Graph) (v : Nat) (on : Bool) : Except GraphError Graph :=
  if hv : v < g.nodes.size then
    .ok (g.replace v hv { g.nodes[v] with terminal := on }
      (g.target_lt g.nodes[v] (Array.getElem_mem hv)))
  else .error (.unknownNode v)

/-- Adds an edge after those that already leave `source`. Of two unknown ends the target is
reported. -/
def addEdge (g : Graph) (source target : Nat) (relation : Relation) (delta : Option Time) :
    Except GraphError Graph :=
  if ht : target < g.nodes.size then
    if hs : source < g.nodes.size then
      let node := g.nodes[source]
      .ok (g.replace source hs { node with edges := node.edges.push ⟨target, relation, delta⟩ }
        (by
          intro edge hedge
          rcases Array.mem_push.mp hedge with h | rfl
          · exact g.target_lt node (Array.getElem_mem hs) edge h
          · exact ht))
    else .error (.unknownNode source)
  else .error (.unknownNode target)

/-- The nodes of a single trace from place `i` on; each node has an edge to the next, with the
time given beside that one. -/
def traceNodes (i : Nat) : List (Event × Option Time) → List Node
  | [] => []
  | [(event, _)] => [⟨event, i == 0, true, #[]⟩]
  | (event, _) :: (next, delta) :: rest =>
    ⟨event, i == 0, false, #[⟨i + 1, .default, delta⟩]⟩ ::
      traceNodes (i + 1) ((next, delta) :: rest)

theorem length_traceNodes (i : Nat) (events : List (Event × Option Time)) :
    (traceNodes i events).length = events.length := by
  fun_induction traceNodes i events <;> simp_all

theorem traceNodes_target_lt (i : Nat) (events : List (Event × Option Time)) :
    ∀ node ∈ traceNodes i events, ∀ edge ∈ node.edges, edge.target < i + events.length := by
  fun_induction traceNodes i events with
  | case1 => simp
  | case2 => simp
  | case3 i event d next delta rest ih =>
    intro node hnode edge hedge
    simp only [List.length_cons] at ih ⊢
    rcases List.mem_cons.mp hnode with rfl | h
    · have : edge = ⟨i + 1, .default, delta⟩ := by simpa using hedge
      subst this
      dsimp only
      omega
    · have := ih node h edge hedge
      omega

/-- A single trace on the default relation: the first node is initial, the last one terminal. The
time beside the first event has no edge to stand on. -/
def timedTrace (events : List (Event × Option Time)) : Graph where
  nodes := (traceNodes 0 events).toArray
  target_lt := by
    have h := traceNodes_target_lt 0 events
    simpa [length_traceNodes] using h

def trace (events : List Event) : Graph :=
  timedTrace (events.map fun event => (event, none))

def edgeCount (g : Graph) : Nat :=
  (g.nodes.toList.map fun node => node.edges.size).foldr (· + ·) 0

def ids (g : Graph) : List Nat :=
  List.range g.size

def isInitial (g : Graph) (v : Nat) : Bool :=
  g.nodes[v]?.any (·.initial)

def isTerminal (g : Graph) (v : Nat) : Bool :=
  g.nodes[v]?.any (·.terminal)

def hasEvent (g : Graph) (v : Nat) (event : Event) : Bool :=
  g.nodes[v]?.any (·.event = event)

def initialNodes (g : Graph) : List Nat :=
  g.ids.filter g.isInitial

def containsEvent (g : Graph) (event : Event) : Bool :=
  g.nodes.any (·.event = event)

/-- The edges of a relation that leave a node, in the order in which they were added. -/
def successors (g : Graph) (v : Nat) (relation : Relation) : List Edge :=
  match g.nodes[v]? with
  | some node => node.edges.toList.filter (·.relation = relation)
  | none => []

end Graph
end EventInvariants
