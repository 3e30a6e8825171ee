import EventInvariants.Graph.Builder
import EventInvariants.Proofs.Result
import Mathlib.Data.List.Induction
import Mathlib.Data.List.Nodup

namespace EventInvariants

/-- A change made in place. What has been written stays, also when it fails. -/
abbrev Edit (σ α : Type) : Type := EStateM GraphError σ α

namespace Edit
variable {σ τ α β : Type}

@[simp] theorem pure_run (a : α) (s : σ) : (pure a : Edit σ α) s = .ok a s := rfl

@[simp] theorem throw_run (e : GraphError) (s : σ) : (throw e : Edit σ α) s = .error e s := rfl

@[simp] theorem get_run (s : σ) : (get : Edit σ σ) s = .ok s s := rfl

@[simp] theorem modify_run (f : σ → σ) (s : σ) : (modify f : Edit σ Unit) s = .ok () (f s) := rfl

theorem discard_run (x : Edit σ α) (s : σ) :
    (discard x : Edit σ Unit) s = match x s with
      | .ok _ t => .ok () t
      | .error e t => .error e t := by
  change EStateM.map (Function.const α ()) x s = _
  unfold EStateM.map
  cases x s <;> rfl

theorem bind_run (x : Edit σ α) (f : α → Edit σ β) (s : σ) :
    (x >>= f) s = match x s with
      | .ok a t => f a t
      | .error e t => .error e t := by
  change EStateM.bind x f s = _
  unfold EStateM.bind
  cases x s <;> rfl

/-- The state that a change leaves behind. -/
def left (x : Edit σ α) (s : σ) : σ :=
  match x s with
  | .ok _ t => t
  | .error _ t => t

/-- The state after changes in a row, some of which may fail. -/
def leftAll (edits : List (Edit σ α)) (s : σ) : σ :=
  edits.foldl (fun s x => x.left s) s

/-- If the change fails, it leaves the state as it was. -/
def IsAtomicAt (x : Edit σ α) (s : σ) : Prop :=
  ∀ e t, x s = .error e t → t = s

/-- What a change comes to that is made at once or not at all, seen through `view`. -/
def atOnce (view : τ → σ) (t : τ) : Except GraphError τ → EStateM.Result GraphError σ Unit
  | .ok t' => .ok () (view t')
  | .error e => .error e (view t)

section
variable {x : Edit σ Unit} {view : τ → σ} {t : τ} {r : Except GraphError τ}

theorem left_of_atOnce (h : x (view t) = atOnce view t r) :
    x.left (view t) = view (r.toOption.getD t) := by
  rw [left, h]
  cases r <;> rfl

theorem isAtomicAt_of_atOnce (h : x (view t) = atOnce view t r) : x.IsAtomicAt (view t) := by
  intro e s hs
  rw [h] at hs
  cases r with
  | ok t' => cases hs
  | error e' =>
    cases hs
    rfl

end

end Edit

/-- The state after operations in a row; one that fails is left out. -/
def Result.afterAll {ε ω σ : Type} (apply : σ → ω → Except ε σ) (s : σ) (ops : List ω) : σ :=
  ops.foldl (fun s op => (apply s op).toOption.getD s) s

theorem Node.place_le (i : Nat) : Node.place i ≤ i :=
  Nat.mod_le i UInt32.size

theorem Node.place_of_lt {i : Nat} (h : i < UInt32.size) : Node.place i = i :=
  Nat.mod_eq_of_lt h

namespace Graph

inductive Operation where
  | addNode (event : Event)
  | setInitial (v : Nat) (on : Bool)
  | setTerminal (v : Nat) (on : Bool)
  | addEdge (source target : Nat) (relation : Relation) (delta : Option Time)

/-- The graph that an operation gives. A new node is neither initial nor terminal. -/
def apply (g : Graph) : Operation → Except GraphError Graph
  | .addNode event => .ok (g.addNode event false false)
  | .setInitial v on => g.setInitial v on
  | .setTerminal v on => g.setTerminal v on
  | .addEdge source target relation delta => g.addEdge source target relation delta

namespace InPlace

def addNode (event : Event) : Edit (Array Node) Nat := do
  let v := Node.place (← get).size
  modify (·.push ⟨event, false, false, #[]⟩)
  return v

/-- Changes a node that must be there. -/
def change (v : Nat) (f : Node → Node) : Edit (Array Node) Unit := do
  if (← get).size ≤ v then throw (.unknownNode v)
  modify (·.modify v f)

def setInitial (v : Nat) (on : Bool) : Edit (Array Node) Unit :=
  change v fun node => { node with initial := on }

def setTerminal (v : Nat) (on : Bool) : Edit (Array Node) Unit :=
  change v fun node => { node with terminal := on }

def addFlagged (event : Event) (initial terminal : Bool) : Edit (Array Node) Nat := do
  let v ← addNode event
  setInitial v initial
  setTerminal v terminal
  return v

def addEdge (source target : Nat) (relation : Relation) (delta : Option Time) :
    Edit (Array Node) Unit := do
  if (← get).size ≤ target then throw (.unknownNode target)
  change source fun node => { node with edges := node.edges.push ⟨target, relation, delta⟩ }

end InPlace

def Operation.edit : Operation → Edit (Array Node) Unit
  | .addNode event => discard (InPlace.addNode event)
  | .setInitial v on => InPlace.setInitial v on
  | .setTerminal v on => InPlace.setTerminal v on
  | .addEdge source target relation delta => InPlace.addEdge source target relation delta

namespace InPlace
variable {g : Graph} {v : Nat} {f : Node → Node}

theorem change_run {nodes : Array Node} : change v f nodes =
    if v < nodes.size then .ok () (nodes.modify v f) else .error (.unknownNode v) nodes := by
  by_cases h : v < nodes.size
  · simp [change, Edit.bind_run, h, Nat.not_le.mpr h]
  · simp [change, Edit.bind_run, h, Nat.le_of_not_lt h]

theorem modify_eq_set {nodes : Array Node} (hv : v < nodes.size) :
    nodes.modify v f = nodes.set v (f nodes[v]) := by
  apply Array.ext_getElem?
  grind

theorem modify_modify {nodes : Array Node} {f' : Node → Node} :
    (nodes.modify v f).modify v f' = nodes.modify v fun node => f' (f node) := by
  apply Array.ext_getElem?
  grind

theorem change_nodes (hf : ∀ (hv : v < g.nodes.size), ∀ edge ∈ (f g.nodes[v]).edges,
      edge.target < g.nodes.size) :
    change v f g.nodes = Edit.atOnce Graph.nodes g
      (if hv : v < g.nodes.size then .ok (g.replace v hv (f g.nodes[v]) (hf hv))
        else .error (.unknownNode v)) := by
  rw [change_run]
  by_cases hv : v < g.nodes.size
  · rw [if_pos hv, dif_pos hv, modify_eq_set hv]
    rfl
  · rw [if_neg hv, dif_neg hv]
    rfl

/-- A new node may have its flags set at another place, but there is a node at that place. -/
theorem addFlagged_run {nodes : Array Node} (event : Event) (initial terminal : Bool) :
    addFlagged event initial terminal nodes = .ok (Node.place nodes.size)
      ((nodes.push ⟨event, false, false, #[]⟩).modify (Node.place nodes.size) fun node =>
        { node with initial := initial, terminal := terminal }) := by
  have hlt : Node.place nodes.size < (nodes.push ⟨event, false, false, #[]⟩).size := by
    rw [Array.size_push]
    exact Nat.lt_succ_of_le (Node.place_le _)
  have hadd : addNode event nodes =
      .ok (Node.place nodes.size) (nodes.push ⟨event, false, false, #[]⟩) := rfl
  simp only [addFlagged, Edit.bind_run, hadd, setInitial, setTerminal, change_run, if_pos hlt,
    Array.size_modify, modify_modify, Edit.pure_run]

theorem addEdge_nodes (source target : Nat) (relation : Relation) (delta : Option Time) :
    addEdge source target relation delta g.nodes =
      Edit.atOnce Graph.nodes g (g.addEdge source target relation delta) := by
  by_cases ht : target < g.nodes.size
  · simp only [addEdge, Edit.bind_run, Edit.get_run, if_neg (Nat.not_le.mpr ht), Graph.addEdge,
      dif_pos ht]
    exact change_nodes _
  · simp only [addEdge, Edit.bind_run, Edit.get_run, if_pos (Nat.le_of_not_lt ht), Graph.addEdge,
      dif_neg ht]
    rfl

end InPlace

/-- On the nodes of a graph, an operation in place is made at once or not at all. -/
theorem Operation.edit_nodes (op : Operation) (g : Graph) :
    op.edit g.nodes = Edit.atOnce Graph.nodes g (g.apply op) := by
  cases op with
  | addNode event => rfl
  | setInitial v on => exact InPlace.change_nodes _
  | setTerminal v on => exact InPlace.change_nodes _
  | addEdge source target relation delta => exact InPlace.addEdge_nodes source target relation delta

theorem addEdge_known {g : Graph} {source target : Nat} (hs : source < g.nodes.size)
    (ht : target < g.nodes.size) (relation : Relation) (delta : Option Time) :
    ∃ g', g.addEdge source target relation delta = .ok g' ∧
      g'.nodes = g.nodes.modify source fun node =>
        { node with edges := node.edges.push ⟨target, relation, delta⟩ } := by
  rw [addEdge, dif_pos ht, dif_pos hs]
  refine ⟨_, rfl, ?_⟩
  rw [InPlace.modify_eq_set hs]
  rfl

theorem setInitial_known {g : Graph} {v : Nat} (hv : v < g.nodes.size) (on : Bool) :
    ∃ g', g.setInitial v on = .ok g' ∧
      g'.nodes = g.nodes.modify v fun node => { node with initial := on } := by
  rw [setInitial, dif_pos hv]
  refine ⟨_, rfl, ?_⟩
  rw [InPlace.modify_eq_set hv]
  rfl

theorem setTerminal_known {g : Graph} {v : Nat} (hv : v < g.nodes.size) (on : Bool) :
    ∃ g', g.setTerminal v on = .ok g' ∧
      g'.nodes = g.nodes.modify v fun node => { node with terminal := on } := by
  rw [setTerminal, dif_pos hv]
  refine ⟨_, rfl, ?_⟩
  rw [InPlace.modify_eq_set hv]
  rfl

/-- There is always a node at the place for the flags. -/
theorem addFlagged_known (g : Graph) (event : Event) (initial terminal : Bool) :
    ∃ g', g.addFlagged event initial terminal = .ok g' ∧
      g'.nodes = (g.nodes.push ⟨event, false, false, #[]⟩).modify (Node.place g.size) fun node =>
        { node with initial := initial, terminal := terminal } := by
  have hlt : Node.place g.size < (g.addNode event false false).nodes.size := by
    simp only [addNode, Array.size_push]
    exact Nat.lt_succ_of_le (Node.place_le _)
  obtain ⟨g₁, hg₁, hnodes₁⟩ := setInitial_known hlt initial
  have hlt₁ : Node.place g.size < g₁.nodes.size := by
    rw [hnodes₁, Array.size_modify]
    exact hlt
  obtain ⟨g₂, hg₂, hnodes₂⟩ := setTerminal_known hlt₁ terminal
  refine ⟨g₂, ?_, ?_⟩
  · rw [addFlagged, hg₁]
    exact hg₂
  · rw [hnodes₂, hnodes₁, InPlace.modify_modify]
    rfl

def after (ops : List Operation) : Graph :=
  Result.afterAll apply empty ops

def leftBy (ops : List Operation) : Array Node :=
  Edit.leftAll (ops.map Operation.edit) #[]

theorem leftBy_eq (ops : List Operation) : leftBy ops = (after ops).nodes := by
  suffices ∀ g : Graph,
      Edit.leftAll (ops.map Operation.edit) g.nodes = (Result.afterAll apply g ops).nodes from
    this empty
  induction ops with
  | nil => exact fun g => rfl
  | cons op ops ih =>
    intro g
    rw [Edit.leftAll, List.map_cons, List.foldl_cons, Edit.left_of_atOnce (op.edit_nodes g)]
    exact ih _

end Graph

/-- What a builder keeps. Nothing ties the three together but the operations. -/
structure Store where
  nodes : Array Node
  keys : List (String × Nat)
  names : Array String

namespace Builder

inductive Operation where
  | node (key : String) (event : Event) (initial terminal : Bool)
  | edge (source target : String) (relation : Relation) (delta : Option Time)
  | lookup (key : String)

def apply (b : Builder) : Operation → Except GraphError Builder
  | .node key event initial terminal => b.node key event initial terminal
  | .edge source target relation delta => b.edge source target relation delta
  | .lookup key => (b.lookup key).map fun _ => b

/-- The builder as it is kept: key `i` is entered with the place of node `i`. -/
def store (b : Builder) : Store :=
  ⟨b.graph.nodes, b.names.toList.zipIdx.map fun (key, i) => (key, Node.place i), b.names⟩

namespace InPlace

def onNodes {α : Type} (x : Edit (Array Node) α) : Edit Store α := fun s =>
  match x s.nodes with
  | .ok a nodes => .ok a { s with nodes := nodes }
  | .error e nodes => .error e { s with nodes := nodes }

def lookup (key : String) : Edit Store Nat := do
  match (← get).keys.lookup key with
  | some v => return v
  | none => throw (.unknownKey key)

/-- Enters the key last, when the node has its flags. -/
def node (key : String) (event : Event) (initial terminal : Bool) : Edit Store Nat := do
  if ((← get).keys.lookup key).isSome then throw (.duplicateKey key)
  let v ← onNodes (Graph.InPlace.addFlagged event initial terminal)
  modify fun s => { s with keys := s.keys ++ [(key, v)] }
  modify fun s => { s with names := s.names.push key }
  return v

def edge (source target : String) (relation : Relation) (delta : Option Time) :
    Edit Store Unit := do
  let s ← lookup source
  let t ← lookup target
  onNodes (Graph.InPlace.addEdge s t relation delta)

end InPlace

def Operation.edit : Operation → Edit Store Unit
  | .node key event initial terminal => discard (InPlace.node key event initial terminal)
  | .edge source target relation delta => InPlace.edge source target relation delta
  | .lookup key => discard (InPlace.lookup key)

variable {b b' : Builder} {key : String} {v : Nat}

/-- Every node has a name, and no two have the same. -/
structure Consistent (b : Builder) : Prop where
  distinct : b.names.toList.Nodup
  size_eq : b.names.size = b.graph.size

theorem find?_eq_none : b.find? key = none ↔ key ∉ b.names := by
  simp only [find?, Option.map_eq_none_iff, Array.findIdx?_eq_none_iff, beq_eq_false_iff_ne]
  exact ⟨fun h hmem => h key hmem rfl, fun h other hmem heq => h (heq ▸ hmem)⟩

/-- A key is found where it stands in the list of names. -/
theorem find?_of_name (h : b.names.toList.Nodup) (hv : b.names[v]? = some key) :
    b.find? key = some (Node.place v) := by
  obtain ⟨hlt, hkey⟩ := Array.getElem?_eq_some_iff.mp hv
  refine Option.map_eq_some_iff.mpr ⟨v, ?_, rfl⟩
  refine Array.findIdx?_eq_some_iff_getElem.mpr ⟨hlt, beq_iff_eq.mpr hkey, fun j hj heq => ?_⟩
  have hsame : b.names.toList[j]? = b.names.toList[v]? := by
    rw [Array.getElem?_toList, Array.getElem?_toList, hv,
      Array.getElem?_eq_getElem (Nat.lt_trans hj hlt), beq_iff_eq.mp heq]
  have := (List.getElem?_inj (by simpa using Nat.lt_trans hj hlt) h).mp hsame
  omega

theorem find?_eq_some (h : b.names.toList.Nodup) (hsize : b.names.size ≤ UInt32.size) :
    b.find? key = some v ↔ b.names[v]? = some key := by
  have hplace : ∀ {i}, b.names[i]? = some key → Node.place i = i := by
    intro i hi
    exact Node.place_of_lt (Nat.lt_of_lt_of_le (Array.getElem?_eq_some_iff.mp hi).1 hsize)
  constructor
  · intro hfind
    have hmem : key ∈ b.names := by
      by_contra hnot
      rw [find?_eq_none.mpr hnot] at hfind
      cases hfind
    obtain ⟨i, hi⟩ := Array.mem_iff_getElem?.mp hmem
    rw [find?_of_name h hi, hplace hi] at hfind
    cases hfind
    exact hi
  · intro hv
    rw [find?_of_name h hv, hplace hv]

theorem lookup_eq_ok (h : b.names.toList.Nodup) (hsize : b.names.size ≤ UInt32.size) :
    b.lookup key = .ok v ↔ b.names[v]? = some key := by
  rw [← find?_eq_some h hsize, lookup]
  cases b.find? key <;> simp

namespace InPlace

/-- The table of keys is searched like the list of names. -/
theorem lookup_places (names : List String) (key : String) (n : Nat) :
    ((names.zipIdx n).map fun (key, i) => (key, Node.place i)).lookup key =
      (names.findIdx? (· == key)).map fun i => Node.place (i + n) := by
  induction names generalizing n with
  | nil => rfl
  | cons name names ih =>
    rw [List.zipIdx_cons, List.map_cons, List.lookup_cons, List.findIdx?_cons, ih, Bool.beq_comm]
    cases name == key with
    | true => simp
    | false => simp [Function.comp_def, Nat.add_assoc, Nat.add_comm 1 n]

theorem keys_store (key : String) : b.store.keys.lookup key = b.find? key := by
  rw [store, lookup_places, find?, ← List.findIdx?_toArray]
  simp

theorem lookup_store (key : String) : lookup key b.store =
    match b.find? key with
    | some v => .ok v b.store
    | none => .error (.unknownKey key) b.store := by
  simp only [lookup, Edit.bind_run, Edit.get_run, keys_store]
  cases b.find? key <;> rfl

theorem lookup_eq_ok (h : b.names.toList.Nodup) (hsize : b.names.size ≤ UInt32.size) :
    lookup key b.store = .ok v b.store ↔ b.names[v]? = some key := by
  rw [← find?_eq_some h hsize, lookup_store]
  cases b.find? key <;> simp

theorem onNodes_store {x : Edit (Array Node) Unit} {r : Except GraphError Graph}
    (h : x b.graph.nodes = Edit.atOnce Graph.nodes b.graph r) :
    onNodes x b.store = Edit.atOnce store b (r >>= fun g => .ok ⟨g, b.names⟩) := by
  have hnodes : b.store.nodes = b.graph.nodes := rfl
  simp only [onNodes, hnodes, h]
  cases r <;> rfl

theorem edge_store (source target : String) (relation : Relation) (delta : Option Time) :
    edge source target relation delta b.store =
      Edit.atOnce store b (b.edge source target relation delta) := by
  cases hs : b.find? source with
  | none => simp [edge, Edit.bind_run, lookup_store, Builder.edge, Builder.lookup, Edit.atOnce, hs]
  | some s =>
    cases ht : b.find? target with
    | none =>
      simp [edge, Edit.bind_run, lookup_store, Builder.edge, Builder.lookup, Edit.atOnce, hs, ht]
    | some t =>
      simp only [edge, Edit.bind_run, lookup_store, Builder.edge, Builder.lookup, hs, ht]
      exact onNodes_store (Graph.InPlace.addEdge_nodes s t relation delta)

/-- A key in use is refused before anything is written. -/
theorem node_known (h : b.find? key = some v) (event : Event) (initial terminal : Bool) :
    node key event initial terminal b.store = .error (.duplicateKey key) b.store := by
  simp [node, Edit.bind_run, keys_store, h]

/-- A new key is entered with the place of the new node. -/
theorem node_new (hb : b.names.size = b.graph.size) (h : b.find? key = none) (event : Event)
    (initial terminal : Bool) {g : Graph}
    (hg : b.graph.addFlagged event initial terminal = .ok g) :
    node key event initial terminal b.store =
      .ok (Node.place b.graph.size) (store ⟨g, b.names.push key⟩) := by
  obtain ⟨g', hg', hnodes⟩ := b.graph.addFlagged_known event initial terminal
  obtain rfl : g = g' := Except.ok.inj (hg.symm.trans hg')
  have hadded : onNodes (Graph.InPlace.addFlagged event initial terminal) b.store =
      .ok (Node.place b.graph.size) { b.store with nodes := g.nodes } := by
    have hstore : b.store.nodes = b.graph.nodes := rfl
    simp only [onNodes, hstore, Graph.InPlace.addFlagged_run, hnodes, Graph.size]
  have hentered : store ⟨g, b.names.push key⟩ =
      ⟨g.nodes, b.store.keys ++ [(key, Node.place b.graph.size)], b.names.push key⟩ := by
    simp [store, List.zipIdx_append, hb]
  have hfree : ¬ (b.store.keys.lookup key).isSome = true := by simp [keys_store, h]
  rw [node, Edit.bind_run, Edit.get_run]
  dsimp only
  rw [if_neg hfree, Edit.bind_run, hadded, hentered]
  rfl

end InPlace

theorem node_free (h : key ∉ b.names) {event : Event} {initial terminal : Bool} {g : Graph}
    (hg : b.graph.addFlagged event initial terminal = .ok g) :
    b.node key event initial terminal = .ok ⟨g, b.names.push key⟩ := by
  rw [node, find?_eq_none.mpr h]
  dsimp only
  rw [hg]
  rfl

theorem node_refused (h : key ∈ b.names) (event : Event) (initial terminal : Bool) :
    b.node key event initial terminal = .error (.duplicateKey key) := by
  rw [node]
  cases hfind : b.find? key with
  | none => exact absurd h (find?_eq_none.mp hfind)
  | some v => rfl

theorem node_ok {event : Event} {initial terminal : Bool}
    (h : b.node key event initial terminal = .ok b') :
    key ∉ b.names ∧ b'.names = b.names.push key ∧ b'.graph.size = b.graph.size + 1 := by
  by_cases hkey : key ∈ b.names
  · rw [node_refused hkey] at h
    cases h
  · obtain ⟨g, hg, hnodes⟩ := b.graph.addFlagged_known event initial terminal
    rw [node_free hkey hg] at h
    cases h
    exact ⟨hkey, rfl, by simp [Graph.size, hnodes]⟩

section
variable {source target : String} {i j : Nat} {relation : Relation} {delta : Option Time}

theorem edge_unknown_source (hs : source ∉ b.names) :
    b.edge source target relation delta = .error (.unknownKey source) := by
  simp [edge, lookup, find?_eq_none.mpr hs]

section
variable (hb : b.Consistent)
include hb

theorem edge_unknown_target (hs : b.names[i]? = some source) (ht : target ∉ b.names) :
    b.edge source target relation delta = .error (.unknownKey target) := by
  simp [edge, lookup, find?_of_name hb.distinct hs, find?_eq_none.mpr ht]

/-- Between keys that are there, an edge is added to the node of the first. -/
theorem edge_known (hs : b.names[i]? = some source) (ht : b.names[j]? = some target) :
    ∃ g, b.edge source target relation delta = .ok ⟨g, b.names⟩ ∧
      g.nodes = b.graph.nodes.modify (Node.place i) fun node =>
        { node with edges := node.edges.push ⟨Node.place j, relation, delta⟩ } := by
  have hplace : ∀ {i key}, b.names[i]? = some key → Node.place i < b.graph.nodes.size := by
    intro i key hi
    have hlt := (Array.getElem?_eq_some_iff.mp hi).1
    rw [hb.size_eq] at hlt
    exact Nat.lt_of_le_of_lt (Node.place_le i) hlt
  obtain ⟨g, hadd, hnodes⟩ := Graph.addEdge_known (hplace hs) (hplace ht) relation delta
  refine ⟨g, ?_, hnodes⟩
  simp [edge, lookup, find?_of_name hb.distinct hs, find?_of_name hb.distinct ht, hadd]

/-- An edge is refused only for a key that is not there. -/
theorem edge_fails (relation : Relation) (delta : Option Time) :
    (∃ e, b.edge source target relation delta = .error e) ↔
      source ∉ b.names ∨ target ∉ b.names := by
  by_cases hs : source ∈ b.names
  · obtain ⟨i, hi⟩ := Array.mem_iff_getElem?.mp hs
    by_cases ht : target ∈ b.names
    · obtain ⟨j, hj⟩ := Array.mem_iff_getElem?.mp ht
      obtain ⟨g, hadded, _⟩ : ∃ g, b.edge source target relation delta = .ok ⟨g, b.names⟩ ∧ _ :=
        edge_known hb hi hj
      simp [hadded, hs, ht]
    · simp [edge_unknown_target hb hi ht, ht]
  · simp [edge_unknown_source hs, hs]

theorem edge_ok (h : b.edge source target relation delta = .ok b') :
    b'.names = b.names ∧ b'.graph.size = b.graph.size := by
  have hknown : ¬ (source ∉ b.names ∨ target ∉ b.names) := by
    rw [← edge_fails hb relation delta, h]
    simp
  simp only [not_or, not_not] at hknown
  obtain ⟨i, hi⟩ := Array.mem_iff_getElem?.mp hknown.1
  obtain ⟨j, hj⟩ := Array.mem_iff_getElem?.mp hknown.2
  obtain ⟨g, hadded, hnodes⟩ : ∃ g, b.edge source target relation delta = .ok ⟨g, b.names⟩ ∧ _ :=
    edge_known hb hi hj
  rw [h] at hadded
  cases hadded
  exact ⟨rfl, by simp [Graph.size, hnodes]⟩

/-- An operation keeps a builder consistent and takes nothing away. -/
theorem apply_keeps {op : Operation} (h : b.apply op = .ok b') :
    b'.Consistent ∧ b.graph.size ≤ b'.graph.size ∧ ∀ key ∈ b.names, key ∈ b'.names := by
  cases op with
  | node key event initial terminal =>
    obtain ⟨hnew, hnames, hsize⟩ := node_ok h
    rw [hsize]
    refine ⟨⟨?_, ?_⟩, Nat.le_succ _, ?_⟩
    · simpa [hnames] using List.Nodup.concat (mt Array.mem_toList_iff.mp hnew) hb.distinct
    · rw [hnames, Array.size_push, hsize, hb.size_eq]
    · intro other hother
      rw [hnames]
      exact Array.mem_push.mpr (.inl hother)
  | edge source target relation delta =>
    obtain ⟨hnames, hsize⟩ := edge_ok hb h
    refine ⟨⟨hnames ▸ hb.distinct, ?_⟩, Nat.le_of_eq hsize.symm, ?_⟩
    · rw [hnames, hsize, hb.size_eq]
    · rw [hnames]
      exact fun _ hother => hother
  | lookup key =>
    obtain ⟨v, _, rfl⟩ := Result.map_ok.mp h
    exact ⟨hb, Nat.le_refl _, fun _ hother => hother⟩

end

/-- In place, an operation on a consistent builder is made at once or not at all. -/
theorem Operation.edit_store (op : Operation) (hb : b.Consistent) :
    op.edit b.store = Edit.atOnce store b (b.apply op) := by
  cases op with
  | node key event initial terminal =>
    rw [edit, Edit.discard_run, apply]
    cases hfind : b.find? key with
    | some v =>
      rw [InPlace.node_known hfind, Builder.node, hfind]
      rfl
    | none =>
      obtain ⟨g, hg, _⟩ := b.graph.addFlagged_known event initial terminal
      rw [InPlace.node_new hb.size_eq hfind _ _ _ hg, node_free (find?_eq_none.mp hfind) hg]
      rfl
  | edge source target relation delta => exact InPlace.edge_store source target relation delta
  | lookup key =>
    rw [edit, Edit.discard_run, InPlace.lookup_store, apply, Builder.lookup]
    cases b.find? key <;> rfl

end

def after (ops : List Operation) : Builder :=
  Result.afterAll apply empty ops

def leftBy (ops : List Operation) : Store :=
  Edit.leftAll (ops.map Operation.edit) ⟨#[], [], #[]⟩

/-- The key belongs to a node that one of the operations has added. -/
def Added (ops : List Operation) (key : String) : Prop :=
  ∃ before event initial terminal rest, ops = before ++ .node key event initial terminal :: rest ∧
    ∃ b, (after before).node key event initial terminal = .ok b

section
variable {ops : List Operation} {op : Operation}

theorem after_concat : after (ops ++ [op]) = ((after ops).apply op).toOption.getD (after ops) := by
  simp [after, Result.afterAll]

theorem after_ok (h : (after ops).apply op = .ok b) : after (ops ++ [op]) = b := by
  rw [after_concat, h]
  rfl

theorem after_error {e : GraphError} (h : (after ops).apply op = .error e) :
    after (ops ++ [op]) = after ops := by
  rw [after_concat, h]
  rfl

theorem after_consistent (ops : List Operation) : (after ops).Consistent := by
  induction ops using List.reverseRecOn with
  | nil => exact ⟨List.nodup_nil, rfl⟩
  | append_singleton ops op ih =>
    cases h : (after ops).apply op with
    | error e => exact after_error h ▸ ih
    | ok b => exact after_ok h ▸ (apply_keeps ih h).1

theorem size_after_le : (after ops).graph.size ≤ (after (ops ++ [op])).graph.size := by
  cases h : (after ops).apply op with
  | error e => exact Nat.le_of_eq (congrArg (·.graph.size) (after_error h).symm)
  | ok b =>
    rw [after_ok h]
    exact (apply_keeps (after_consistent ops) h).2.1

theorem edit_after : op.edit (after ops).store =
    Edit.atOnce store (after ops) ((after ops).apply op) :=
  op.edit_store (after_consistent ops)

theorem leftBy_eq (ops : List Operation) : leftBy ops = (after ops).store := by
  induction ops using List.reverseRecOn with
  | nil => rfl
  | append_singleton ops op ih =>
    rw [after_concat, ← Edit.left_of_atOnce edit_after, ← ih]
    simp [leftBy, Edit.leftAll]

theorem added_concat {key : String} : Added (ops ++ [op]) key ↔ Added ops key ∨
    ∃ event initial terminal b, op = .node key event initial terminal ∧
      (after ops).node key event initial terminal = .ok b := by
  constructor
  · intro h
    obtain ⟨before, event, initial, terminal, rest, hops, b, hb⟩ := h
    rcases List.eq_nil_or_concat' rest with rfl | ⟨rest, last, rfl⟩
    · obtain ⟨rfl, hop⟩ := List.append_inj' hops rfl
      cases hop
      exact .inr ⟨event, initial, terminal, b, rfl, hb⟩
    · rw [← List.cons_append, ← List.append_assoc] at hops
      obtain ⟨rfl, _⟩ := List.append_inj' hops rfl
      exact .inl ⟨before, event, initial, terminal, rest, rfl, b, hb⟩
  · intro h
    rcases h with ⟨before, event, initial, terminal, rest, rfl, b, hb⟩ |
      ⟨event, initial, terminal, b, rfl, hb⟩
    · exact ⟨before, event, initial, terminal, rest ++ [op], by simp, b, hb⟩
    · exact ⟨ops, event, initial, terminal, [], rfl, b, hb⟩

theorem mem_names_after {key : String} : key ∈ (after ops).names ↔ Added ops key := by
  induction ops using List.reverseRecOn with
  | nil => simp [after, Result.afterAll, empty, Added]
  | append_singleton ops op ih =>
    rw [added_concat, ← ih]
    cases h : (after ops).apply op with
    | error e =>
      rw [after_error h]
      refine ⟨.inl, ?_⟩
      intro hkey
      rcases hkey with hkey | ⟨event, initial, terminal, b, rfl, hb⟩
      · exact hkey
      · rw [apply, hb] at h
        cases h
    | ok b =>
      rw [after_ok h]
      cases op with
      | node other event initial terminal =>
        rw [(node_ok h).2.1, Array.mem_push]
        constructor
        · intro hkey
          rcases hkey with hkey | rfl
          · exact .inl hkey
          · exact .inr ⟨event, initial, terminal, _, rfl, h⟩
        · intro hkey
          rcases hkey with hkey | ⟨_, _, _, _, hop, _⟩
          · exact .inl hkey
          · cases hop
            exact .inr rfl
      | edge source target relation delta =>
        simp [(edge_ok (after_consistent ops) h).1]
      | lookup other =>
        obtain ⟨_, _, rfl⟩ := Result.map_ok.mp h
        simp

end
end Builder

/-- Construction keeps its invariants and fails atomically. After any operations, made in place, the
nodes are those of the graph that the operations give; every edge leads to one of them; and if a
further operation fails, it leaves them as they are. The same holds of a builder with at most
`2 ^ 32` nodes, what it keeps and its operations. Its names are then distinct, there is one for each
node, a key is looked up to where it stands among them, and an edge is refused if and only if one of
its keys was never added. -/
theorem construction_consistent :
    (∀ (ops : List Graph.Operation) (op : Graph.Operation),
      Graph.leftBy ops = (Graph.after ops).nodes ∧
      (∀ node ∈ Graph.leftBy ops, ∀ edge ∈ node.edges, edge.target < (Graph.leftBy ops).size) ∧
      op.edit.IsAtomicAt (Graph.leftBy ops) ∧
      op.edit (Graph.leftBy ops) =
        Edit.atOnce Graph.nodes (Graph.after ops) ((Graph.after ops).apply op)) ∧
    ∀ (ops : List Builder.Operation) (op : Builder.Operation),
      (Builder.after (ops ++ [op])).graph.size ≤ UInt32.size →
      Builder.leftBy ops = (Builder.after ops).store ∧
      (∀ node ∈ (Builder.leftBy ops).nodes, ∀ edge ∈ node.edges,
        edge.target < (Builder.leftBy ops).nodes.size) ∧
      op.edit.IsAtomicAt (Builder.leftBy ops) ∧
      op.edit (Builder.leftBy ops) =
        Edit.atOnce Builder.store (Builder.after ops) ((Builder.after ops).apply op) ∧
      (Builder.after ops).names.toList.Nodup ∧
      (Builder.after ops).names.size = (Builder.after ops).graph.size ∧
      (∀ key v,
        ((Builder.after ops).lookup key = .ok v ↔ (Builder.after ops).names[v]? = some key) ∧
        (Builder.InPlace.lookup key (Builder.leftBy ops) = .ok v (Builder.leftBy ops) ↔
          (Builder.after ops).names[v]? = some key)) ∧
      ∀ source target relation delta,
        (∃ e, (Builder.after ops).edge source target relation delta = .error e) ↔
          ¬ Builder.Added ops source ∨ ¬ Builder.Added ops target := by
  constructor
  · intro ops op
    have hrun := op.edit_nodes (Graph.after ops)
    rw [Graph.leftBy_eq]
    exact ⟨rfl, (Graph.after ops).target_lt, Edit.isAtomicAt_of_atOnce hrun, hrun⟩
  · intro ops op hsize
    have hrun : op.edit (Builder.after ops).store = _ := Builder.edit_after
    have hconsistent := Builder.after_consistent ops
    have hnames : (Builder.after ops).names.size ≤ UInt32.size := by
      rw [hconsistent.size_eq]
      exact Nat.le_trans Builder.size_after_le hsize
    rw [Builder.leftBy_eq]
    refine ⟨rfl, (Builder.after ops).graph.target_lt, Edit.isAtomicAt_of_atOnce hrun, hrun,
      hconsistent.distinct, hconsistent.size_eq, ?_, ?_⟩
    · intro key v
      exact ⟨Builder.lookup_eq_ok hconsistent.distinct hnames,
        Builder.InPlace.lookup_eq_ok hconsistent.distinct hnames⟩
    · intro source target relation delta
      rw [Builder.edge_fails hconsistent relation delta, Builder.mem_names_after,
        Builder.mem_names_after]

/-- Two nodes and an edge between them; a key is used twice, an edge leads to a key that is not yet
there, and a key is looked up in vain. -/
def Builder.script : List Builder.Operation :=
  [.node "p" ⟨"a"⟩ true false, .edge "p" "q" .default none, .node "p" ⟨"b"⟩ false false,
    .node "q" ⟨"b"⟩ false true, .edge "p" "q" .default (some (.integer 2)), .lookup "r"]

theorem script_consistent :
    (Builder.after (Builder.script ++ [.edge "q" "r" .default none])).graph.size ≤ UInt32.size ∧
      Builder.leftBy Builder.script =
        ⟨#[⟨⟨"a"⟩, true, false, #[⟨1, .default, some (.integer 2)⟩]⟩,
          ⟨⟨"b"⟩, false, true, #[]⟩], [("p", 0), ("q", 1)], #["p", "q"]⟩ ∧
      Builder.Operation.edit (.edge "q" "r" .default none) (Builder.leftBy Builder.script) =
        .error (.unknownKey "r") (Builder.leftBy Builder.script) ∧
      (Builder.after Builder.script).lookup "q" = .ok 1 ∧
      (¬ Builder.Added Builder.script "q" ∨ ¬ Builder.Added Builder.script "r") := by
  have hsize : (Builder.after (Builder.script ++ [.edge "q" "r" .default none])).graph.size =
      2 := by cbv
  have hbound : (Builder.after (Builder.script ++ [.edge "q" "r" .default none])).graph.size ≤
      UInt32.size := by
    rw [hsize]
    decide
  have hstore : (Builder.after Builder.script).store =
      ⟨#[⟨⟨"a"⟩, true, false, #[⟨1, .default, some (.integer 2)⟩]⟩,
        ⟨⟨"b"⟩, false, true, #[]⟩], [("p", 0), ("q", 1)], #["p", "q"]⟩ := by cbv
  have hrefused : (Builder.after Builder.script).edge "q" "r" .default none =
      .error (.unknownKey "r") := by cbv
  have hname : (Builder.after Builder.script).names[1]? = some "q" := by cbv
  obtain ⟨hleft, _, _, hrun, _, _, hlookup, hedge⟩ := construction_consistent.2 _ _ hbound
  refine ⟨hbound, hleft.trans hstore, ?_, (hlookup "q" 1).1.mpr hname,
    (hedge "q" "r" .default none).mp ⟨_, hrefused⟩⟩
  rw [hrun, Builder.apply, hrefused, hleft]
  rfl

end EventInvariants
