import EventInvariants.Path.Basic

namespace EventInvariants

/-- What a visitor asks for after a path. -/
inductive Walk where
  /-- Go on with the extensions of the path. -/
  | descend
  /-- Leave out the extensions of the path. -/
  | prune
  /-- End the enumeration. -/
  | stop
  deriving DecidableEq

namespace Walk
variable {σ : Type}

/-- Runs through a list until one element asks to stop. -/
def each {α : Type} (f : σ → α → σ × Bool) : σ → List α → σ × Bool
  | s, [] => (s, false)
  | s, x :: rest =>
    match f s x with
    | (s, true) => (s, true)
    | (s, false) => each f s rest

/-- Goes one step further on the path that is visited, and back again afterwards. -/
def pushed (f : σ × Array Step → (σ × Array Step) × Bool) (state : σ × Array Step) (step : Step) :
    (σ × Array Step) × Bool :=
  match f (state.1, state.2.push step) with
  | ((s, path), stopped) => ((s, path.pop), stopped)

/-- Visits a path and its extensions by at most `more` steps, which are pushed to it and popped from
it again. Tells whether a visit has asked to stop. -/
def visitOn (g : Graph) (relation : Relation) (visit : σ → Path → σ × Walk) :
    Nat → σ × Array Step → (σ × Array Step) × Bool
  | more, (s, path) =>
    match visit s path.toList with
    | (s, .stop) => ((s, path), true)
    | (s, .prune) => ((s, path), false)
    | (s, .descend) =>
      match more, path.back? with
      | more + 1, some last =>
        each (fun state edge =>
            pushed (visitOn g relation visit more) state ⟨edge.target, edge.delta⟩)
          (s, path) (g.successors last.node relation)
      | _, _ => ((s, path), false)

/-- Visits every path of at most `maxLength` nodes, depth first and every path before its
extensions, and gives the visitor's final state. -/
def visitAll (g : Graph) (relation : Relation) (maxLength : Nat) (visit : σ → Path → σ × Walk)
    (s : σ) : σ :=
  match maxLength with
  | 0 => s
  | more + 1 =>
    (each (fun state v => pushed (visitOn g relation visit more) state ⟨v, none⟩)
      (s, #[]) g.initialNodes).1.1

end Walk
end EventInvariants
