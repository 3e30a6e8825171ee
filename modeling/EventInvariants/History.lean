import EventInvariants.Graph.Basic

namespace EventInvariants

/-- A visited node with the time of the edge that entered it. -/
structure Step where
  node : Nat
  delta : Option Time
  deriving BEq

/-- A path that has been walked so far, from its newest step back: one that goes a step further
shares everything with the one it extends. -/
structure History where
  last : Step
  /-- The steps before the last one, newest first. -/
  earlier : List Step
  length : Nat
  length_eq : length = earlier.length + 1

namespace History

def root (v : Nat) : History where
  last := ⟨v, none⟩
  earlier := []
  length := 1
  length_eq := rfl

def extend (h : History) (v : Nat) (delta : Option Time) : History where
  last := ⟨v, delta⟩
  earlier := h.last :: h.earlier
  length := h.length + 1
  length_eq := by simp [h.length_eq]

/-- The history without its last step. -/
def predecessor? (h : History) : Option History :=
  match h.earlier, h.length_eq with
  | [], _ => none
  | last :: earlier, eq => some ⟨last, earlier, h.length - 1, by simp [eq]⟩

/-- The steps, oldest first. -/
def steps (h : History) : List Step :=
  (h.last :: h.earlier).reverse

/-- The visited nodes, oldest first. -/
def path (h : History) : List Nat :=
  h.steps.map Step.node

def render (h : History) : String :=
  "[" ++ ", ".intercalate (h.path.map Node.tag) ++ "]"

theorem length_steps (h : History) : h.steps.length = h.length := by
  simp [steps, h.length_eq]

theorem steps_root (v : Nat) : (root v).steps = [⟨v, none⟩] := rfl

theorem steps_extend (h : History) (v : Nat) (delta : Option Time) :
    (h.extend v delta).steps = h.steps ++ [⟨v, delta⟩] := by
  simp [steps, extend]

end History
end EventInvariants
