import EventInvariants.Closure.Bits
import EventInvariants.Graph.Basic

namespace EventInvariants

/-- Reachability between all pairs of nodes along the edges of one relation, by one edge or more.
Nodes of an excluded event type are left out, as ends and on the way. There is a row of bits for
each node, and the rows stand one after another in words of 64 bits. -/
structure Closure where
  relation : Relation
  excluded : Option Event
  size : Nat
  /-- The number of words in a row. -/
  width : Nat
  rows : Array UInt64

namespace Closure

/-- Whether a node may be on a path. -/
def allows (g : Graph) (excluded : Option Event) (v : Nat) : Bool :=
  match excluded with
  | none => true
  | some event => !g.hasEvent v event

/-- A search under way: the nodes whose edges are still to be followed, newest first, and the marks
of all rows. -/
structure Search where
  stack : List Nat
  rows : Array UInt64

namespace Search

/-- Follows an edge, in the row that starts at word `base`. The target is marked and put on the
stack, unless it is not allowed or has its mark already. -/
def follow (allowed : Array Bool) (base : Nat) (s : Search) (edge : Edge) : Search :=
  let i := base + edge.target / 64
  if hi : i < s.rows.size then
    if !allowed.getD edge.target false || hasBit s.rows[i] (edge.target % 64) then s
    else ⟨edge.target :: s.stack, s.rows.set i (setBit s.rows[i] (edge.target % 64))⟩
  else s

/-- Follows all edges of a node, in their order. -/
def expand (g : Graph) (relation : Relation) (allowed : Array Bool) (base : Nat) (s : Search)
    (v : Nat) : Search :=
  (g.successors v relation).foldl (follow allowed base) s

/-- The nodes on the stack and those that can still be put on it. -/
def weight (s : Search) : Nat :=
  zeros s.rows + s.stack.length

section
variable {g : Graph} {relation : Relation} {allowed : Array Bool} {base : Nat} {s : Search}

theorem weight_follow (edge : Edge) : (follow allowed base s edge).weight = s.weight := by
  unfold follow
  dsimp only
  split
  · next hi =>
    split
    · rfl
    · next hopen =>
      simp only [Bool.or_eq_true, Bool.not_eq_true', not_or, Bool.not_eq_true] at hopen
      have := zeros_set hi (Nat.mod_lt edge.target (by decide)) hopen.2
      simp only [weight, List.length_cons]
      omega
  · rfl

theorem weight_expand (v : Nat) : (expand g relation allowed base s v).weight = s.weight := by
  unfold expand
  generalize g.successors v relation = edges
  induction edges generalizing s with
  | nil => rfl
  | cons edge edges ih => rw [List.foldl_cons, ih, weight_follow]

end

/-- Takes nodes off the stack and follows their edges until none is left. -/
def run (g : Graph) (relation : Relation) (allowed : Array Bool) (base : Nat) :
    Search → Array UInt64
  | ⟨[], rows⟩ => rows
  | ⟨v :: stack, rows⟩ =>
    run g relation allowed base (expand g relation allowed base ⟨stack, rows⟩ v)
termination_by s => s.weight
decreasing_by
  rw [weight_expand]
  simp [weight]

end Search

/-- The nodes that may be on a path, as a table. -/
def allowedNodes (g : Graph) (excluded : Option Event) : Array Bool :=
  (g.ids.map (allows g excluded)).toArray

def sources (g : Graph) (excluded : Option Event) : List Nat :=
  g.ids.filter fun u => (allowedNodes g excluded).getD u false

/-- The number of words that `n` bits take. -/
def rowWidth (n : Nat) : Nat :=
  (n + 63) / 64

/-- The rows of the given nodes, filled one after another. The search from a node starts at the node
itself, which gets no mark for that. -/
def fillRows (g : Graph) (relation : Relation) (excluded : Option Event) (us : List Nat) :
    Array UInt64 :=
  let allowed := allowedNodes g excluded
  us.foldl (fun rows u => Search.run g relation allowed (u * rowWidth g.size) ⟨[u], rows⟩)
    (Array.replicate (g.size * rowWidth g.size) 0)

def build (g : Graph) (relation : Relation) (excluded : Option Event) : Closure :=
  ⟨relation, excluded, g.size, rowWidth g.size,
    fillRows g relation excluded (sources g excluded)⟩

def row (c : Closure) (u : Nat) : Array UInt64 :=
  c.rows.extract (u * c.width) (u * c.width + c.width)

def isReachable (c : Closure) (u v : Nat) : Bool :=
  if c.size ≤ u || c.size ≤ v then false
  else hasBit ((c.row u).getD (v / 64) 0) (v % 64)

/-- The nodes reached from `u`, in ascending order. -/
def reachableFrom (c : Closure) (u : Nat) : List Nat :=
  let row := if u < c.size then c.row u else #[]
  row.toList.zipIdx.flatMap fun (word, i) =>
    ((List.range 64).filter (hasBit word)).map (i * 64 + ·)

def pairCount (c : Closure) : Nat :=
  (c.rows.toList.map countOnes).foldr (· + ·) 0

def sameReachability (c d : Closure) : Bool :=
  c.size == d.size && c.rows == d.rows

/-- The closure as a table from nodes to the nodes they reach. -/
def render (c : Closure) : String :=
  let rowText (u : Nat) :=
    Node.tag u ++ ": [" ++ ", ".intercalate ((c.reachableFrom u).map Node.tag) ++ "]"
  "\x7b" ++ ", ".intercalate ((List.range c.size).map rowText) ++ "\x7d"

end Closure
end EventInvariants
