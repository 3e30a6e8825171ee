import EventInvariants.Graph.Builder
import EventInvariants.Json.Basic

namespace EventInvariants

structure NodeSpec where
  id : String
  event : String
  initial : Bool
  terminal : Bool

/-- A time as it is written in a file. -/
inductive DeltaSpec where
  | integer (n : Int)
  | float (x : Float)
  | vector (components : List Int)

def DeltaSpec.time : DeltaSpec → Time
  | .integer n => .integer n
  | .float x => .float x
  | .vector components => .vector components

structure EdgeSpec where
  source : String
  target : String
  relation : String
  delta : Option DeltaSpec

/-- Nodes with keys, edges between keys, and texts of invariants to check. -/
structure GraphFile where
  nodes : List NodeSpec
  edges : List EdgeSpec
  invariants : List String

/-- A graph with the keys of its nodes and the invariants of its file. -/
structure LoadedGraph where
  graph : Graph
  names : Array String
  invariants : List String

namespace Json

/-- The values of an object under the given names. Other names and repeated ones are refused. -/
def membersByName? (names : List String) (members : List (String × Json)) :
    Option (List (Option Json)) :=
  let given := members.map Prod.fst
  if given.all names.contains && names.all (given.count · ≤ 1) then
    some (names.map fun name => members.lookup name)
  else none

/-- The fields of a record with the given names, as far as they are there. A record is an object or
a list of its fields in order; in a list, fields may be left out from the end. -/
def fields? (names : List String) : Json → Option (List (Option Json))
  | .object members => membersByName? names members
  | .array items =>
    if items.length ≤ names.length then
      some (items.map some ++ List.replicate (names.length - items.length) none)
    else none
  | _ => none

def string? : Json → Option String
  | .string s => some s
  | _ => none

def bool? : Json → Option Bool
  | .bool b => some b
  | _ => none

def listOf? {α : Type} (decode : Json → Option α) : Json → Option (List α)
  | .array items => items.mapM decode
  | _ => none

def whole? : Json → Option Int
  | .number (.integer n) => some n
  | _ => none

def required {α : Type} (decode : Json → Option α) (field : Option Json) : Option α :=
  field.bind decode

def optional {α : Type} (decode : Json → Option α) (otherwise : α) : Option Json → Option α
  | none => some otherwise
  | some value => decode value

/-- A time: a number, a list of whole numbers, or null for none. -/
def delta? : Json → Option (Option DeltaSpec)
  | .null => some none
  | .number (.integer n) => some (some (.integer n))
  | .number (.float x) => some (some (.float x))
  | .array items => (items.mapM whole?).map fun v => some (.vector v)
  | _ => none

end Json

open Json

def NodeSpec.ofJson? (j : Json) : Option NodeSpec := do
  match ← fields? ["id", "event", "initial", "terminal"] j with
  | [id, event, initial, terminal] =>
    return ⟨← required string? id, ← required string? event, ← optional bool? false initial,
      ← optional bool? false terminal⟩
  | _ => none

def EdgeSpec.ofJson? (j : Json) : Option EdgeSpec := do
  match ← fields? ["from", "to", "relation", "delta"] j with
  | [source, target, relation, delta] =>
    return ⟨← required string? source, ← required string? target,
      ← optional string? Relation.default.name relation, ← optional delta? none delta⟩
  | _ => none

namespace GraphFile

def ofJson? (j : Json) : Option GraphFile := do
  match ← fields? ["nodes", "edges", "invariants"] j with
  | [nodes, edges, invariants] =>
    return ⟨← required (listOf? NodeSpec.ofJson?) nodes,
      ← optional (listOf? EdgeSpec.ofJson?) [] edges,
      ← optional (listOf? string?) [] invariants⟩
  | _ => none

def read? (text : String) : Option GraphFile := do
  ofJson? (← Json.read? text)

def addNode (b : Builder) (n : NodeSpec) : Except GraphError Builder :=
  b.node n.id ⟨n.event⟩ n.initial n.terminal

def addEdge (b : Builder) (e : EdgeSpec) : Except GraphError Builder :=
  b.edge e.source e.target ⟨e.relation⟩ (e.delta.map DeltaSpec.time)

/-- The graph of a file: all nodes, then all edges. -/
def load (f : GraphFile) : Except GraphError LoadedGraph := do
  let b ← f.nodes.foldlM addNode Builder.empty
  let b ← f.edges.foldlM addEdge b
  return ⟨b.graph, b.names, f.invariants⟩

end GraphFile
end EventInvariants
