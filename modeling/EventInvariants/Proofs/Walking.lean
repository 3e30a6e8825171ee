import EventInvariants.Path.Walk

namespace EventInvariants.Walk
variable {σ α : Type} {g : Graph} {relation : Relation} {visit : σ → Path → σ × Walk} {s : σ}

/-- Visits a path, given newest step first, and its extensions by at most `more` steps. Each visit
has a path of its own. -/
def visitFrom (g : Graph) (relation : Relation) (visit : σ → Path → σ × Walk) :
    Nat → Step → List Step → σ → σ × Bool
  | more, last, earlier, s =>
    match visit s (last :: earlier).reverse with
    | (s, .stop) => (s, true)
    | (s, .prune) => (s, false)
    | (s, .descend) =>
      match more with
      | 0 => (s, false)
      | more + 1 =>
        each (fun s edge =>
            visitFrom g relation visit more ⟨edge.target, edge.delta⟩ (last :: earlier) s)
          s (g.successors last.node relation)

/-- A run through a list with a path that each element gives back as it was. -/
theorem each_beside {path : Array Step} {f : σ → α → σ × Bool}
    {f' : σ × Array Step → α → (σ × Array Step) × Bool} {xs : List α}
    (h : ∀ s, ∀ x ∈ xs, f' (s, path) x = (((f s x).1, path), (f s x).2)) (s : σ) :
    each f' (s, path) xs = (((each f s xs).1, path), (each f s xs).2) := by
  induction xs generalizing s with
  | nil => rfl
  | cons x xs ih =>
    rw [each, each, h s x List.mem_cons_self]
    rcases f s x with ⟨s', _ | _⟩
    · exact ih (fun s y hy => h s y (List.mem_cons_of_mem x hy)) s'
    · rfl

theorem pushed_eq {f : σ × Array Step → (σ × Array Step) × Bool} {r : σ × Bool} {path : List Step}
    {step : Step} (h : f (s, (step :: path).reverse.toArray) =
      ((r.1, (step :: path).reverse.toArray), r.2)) :
    pushed f (s, path.reverse.toArray) step = ((r.1, path.reverse.toArray), r.2) := by
  have hpush : path.reverse.toArray.push step = (step :: path).reverse.toArray := by simp
  have hpop : (step :: path).reverse.toArray.pop = path.reverse.toArray := by simp
  rw [pushed, hpush, h]
  dsimp only
  rw [hpop]

/-- On one path that is shared, every visit sees the path that it would have for itself. -/
theorem visitOn_eq (more : Nat) (last : Step) (earlier : List Step) (s : σ) :
    visitOn g relation visit more (s, (last :: earlier).reverse.toArray) =
      (((visitFrom g relation visit more last earlier s).1, (last :: earlier).reverse.toArray),
        (visitFrom g relation visit more last earlier s).2) := by
  induction more generalizing last earlier s with
  | zero =>
    rw [visitOn, visitFrom]
    rcases visit s (last :: earlier).reverse with ⟨s', _ | _ | _⟩ <;> rfl
  | succ more ih =>
    have hlast : (last :: earlier).reverse.toArray.back? = some last := by simp
    rw [visitOn, visitFrom, hlast]
    rcases visit s (last :: earlier).reverse with ⟨s', _ | _ | _⟩
    · apply each_beside
      intro s edge _
      exact pushed_eq (ih ⟨edge.target, edge.delta⟩ (last :: earlier) s)
    · rfl
    · rfl

theorem visitAll_eq (maxLength : Nat) (s : σ) : visitAll g relation maxLength visit s =
    match maxLength with
    | 0 => s
    | more + 1 =>
      (each (fun s v => visitFrom g relation visit more ⟨v, none⟩ [] s) s g.initialNodes).1 := by
  cases maxLength with
  | zero => rfl
  | succ more =>
    refine congrArg (fun r => r.1.1) (each_beside ?_ s)
    intro s v _
    exact pushed_eq (visitOn_eq more ⟨v, none⟩ [] s)

end EventInvariants.Walk
