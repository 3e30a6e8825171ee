import EventInvariants.Proofs.Verdict
import EventInvariants.Proofs.Walking

namespace EventInvariants

namespace Path
variable {g : Graph} {relation : Relation} {path : Path}

section
variable
  (hg : ∀ node ∈ g.nodes, ∀ edge ∈ node.edges, ∀ d, edge.delta = some d → d.isFloat = false)
include hg

/-- Where no edge takes a double, times that are equal as values are the same. -/
theorem delta_beq_iff {v : Nat} {edge : Edge} (hedge : edge ∈ g.successors v relation)
    (d : Option Time) : (edge.delta == d) = true ↔ edge.delta = d := by
  obtain ⟨node, hnode, hmem⟩ := Graph.mem_successors hedge
  cases he : edge.delta with
  | none => cases d <;> simp
  | some t =>
    have hfloat := hg node hnode edge hmem t he
    cases d with
    | none => simp
    | some t' =>
      constructor
      · exact fun h => congrArg some (Time.eq_of_beq hfloat h)
      · intro heq
        cases heq
        exact Time.beq_self hfloat

theorem isPath_iff_route : isPath g relation path = true ↔ Route g relation Eq path := by
  rw [isPath_iff]
  constructor
  · exact fun h => h.mono fun v edge hedge d => (delta_beq_iff hg hedge d).mp
  · exact fun h => h.mono fun v edge hedge d => (delta_beq_iff hg hedge d).mpr

end

end Path

namespace Walk
variable {g : Graph} {relation : Relation} {answer : Path → Walk}

/-- The paths that are visited, in order, when each is answered for itself. -/
def visited (g : Graph) (relation : Relation) (maxLength : Nat) (answer : Path → Walk) :
    List Path :=
  visitAll g relation maxLength (fun seen path => (seen ++ [path], answer path)) []

/-- The paths up to the first that is answered with `stop`, and that one. -/
def untilStop (answer : Path → Walk) : List Path → List Path
  | [] => []
  | path :: rest => if answer path = .stop then [path] else path :: untilStop answer rest

def stops (answer : Path → Walk) (paths : List Path) : Bool :=
  paths.any (answer · = .stop)

/-- A part of the walk that visits these paths unless it is stopped. -/
def Covers (answer : Path → Walk) (walk : List Path → List Path × Bool) (paths : List Path) :
    Prop :=
  ∀ seen, walk seen = (seen ++ untilStop answer paths, stops answer paths)

/-- Itineraries and their paths, after a first choice. -/
def after (i : Nat) (tour : List (List Nat × Path)) : List (List Nat × Path) :=
  tour.map fun (places, path) => (i :: places, path)

/-- The places from node `u` on, at most `more` of them, by which the walk goes on from a path that
ends there, and the paths to which they lead. -/
def tour (g : Graph) (relation : Relation) (answer : Path → Walk) :
    Nat → Path → Nat → List (List Nat × Path)
  | 0, path, _ => [([], path)]
  | more + 1, path, u =>
    ([], path) ::
      if answer path = .prune then []
      else
        (g.successors u relation).zipIdx.flatMap fun (edge, i) =>
          after i (tour g relation answer more (path ++ [⟨edge.target, edge.delta⟩]) edge.target)

end Walk

end EventInvariants
