import EventInvariants.Proofs.Meaning
import Mathlib.Data.List.Induction

namespace EventInvariants

/-- The monitor's state and clock after a path: the first step starts it, each later one is a step
of the monitor, taking no time where the step has none. -/
def Monitor.run (m : Monitor) (g : Graph) (inv : Invariant) :
    Path → Except Fault (Phase × Clock)
  | [] => .ok (.start, .idle)
  | first :: rest => do
    rest.foldlM (fun (p, c) s => m.step p c (g.letter inv s.node) (s.delta.getD .zero))
      (← m.initial (g.letter inv first.node))

/-- The letters and times of a path; past its end there is nothing to see. -/
def Path.trace (g : Graph) (inv : Invariant) (path : Path) : Trace where
  letter i :=
    match path[i]? with
    | some s => g.letter inv s.node
    | none => ⟨false, false, false⟩
  delta i := ((path[i]?).bind Step.delta).getD .zero

namespace Monitor
variable {m : Monitor} {g : Graph} {inv : Invariant}

theorem step_start (m : Monitor) (l : Letter) (delta : Time) :
    m.step .start .idle l delta = m.initial l := by
  simp only [step, advance, initial]
  cases m.window with
  | none => rfl
  | some w => rfl

theorem run_append (m : Monitor) (g : Graph) (inv : Invariant) (path : Path) (s : Step) :
    m.run g inv (path ++ [s]) = (do
      let (p, c) ← m.run g inv path
      m.step p c (g.letter inv s.node) (s.delta.getD .zero)) := by
  cases path with
  | nil =>
    simp only [run, List.nil_append, List.foldlM_nil, Result.ok_bind, step_start]
    cases m.initial (g.letter inv s.node) <;> rfl
  | cons first rest =>
    simp only [run, List.cons_append, List.foldlM_append, bind_assoc]
    cases m.initial (g.letter inv first.node) with
    | error e => rfl
    | ok r =>
      simp only [Result.ok_bind, List.foldlM_cons, List.foldlM_nil]
      congr 1
      funext r
      cases m.step r.1 r.2 (g.letter inv s.node) (s.delta.getD .zero) <;> rfl

/-- A run over a path, read position by position. -/
theorem runs_of_run {path : Path}
    (hd : m.window ≠ none → ∀ k, ((path.trace g inv).delta (k + 1)).isFloat = false)
    {k : Nat} (hk : k < path.length) {p : Phase} {c : Clock}
    (h : m.run g inv (path.take (k + 1)) = .ok (p, c)) : m.Runs (path.trace g inv) k p c := by
  induction k generalizing p c with
  | zero =>
    cases path with
    | nil => simp at hk
    | cons first rest =>
      have hr : m.initial (g.letter inv first.node) = .ok (p, c) := by
        simp only [List.take_succ_cons, List.take_zero, run, List.foldlM_nil, Result.bind_ok] at h
        obtain ⟨r, hr, h⟩ := h
        cases h
        exact hr
      exact .first hr
  | succ k ih =>
    rw [List.take_add_one, List.getElem?_eq_getElem hk, Option.toList_some, run_append,
      Result.bind_ok] at h
    obtain ⟨⟨q, b⟩, hq, h⟩ := h
    have hrun := ih (by omega) hq
    refine .next hrun (moves_of_step (fun hw => hd hw k) hrun.exact ?_)
    simpa [Path.trace, List.getElem?_eq_getElem hk] using h

/-- A run over a path ends in the failure state exactly if the invariant fails at a position of the
path. -/
theorem run_failed_iff {path : Path} {p : Phase} {c : Clock} (hpos : 0 < path.length)
    (hm : m.IsExact)
    (hd : m.window ≠ none → ∀ k, ((path.trace g inv).delta (k + 1)).isFloat = false)
    (hf : m.window ≠ none → (path.trace g inv).Forward) (h : m.run g inv path = .ok (p, c)) :
    p = .failed ↔ ∃ k < path.length, m.FailsAt (path.trace g inv) k := by
  have hall : path.take (path.length - 1 + 1) = path := List.take_of_length_le (by omega)
  rw [← hall] at h
  rw [(runs_of_run hd (by omega) h).failed_iff hm hf]
  constructor
  · intro h
    obtain ⟨k, hk, hfail⟩ := h
    exact ⟨k, by omega, hfail⟩
  · intro h
    obtain ⟨k, hk, hfail⟩ := h
    exact ⟨k, by omega, hfail⟩

/-- Without a bound a run reads the nodes of the path, and nothing else. -/
theorem run_untimed (hw : m.window = none) (path : Path) :
    m.run g inv path = (path.map Step.node).foldlM
      (fun r v => m.enter r.1 r.2 (g.letter inv v)) (.start, .idle) := by
  induction path using List.reverseRecOn with
  | nil => rfl
  | append_singleton path s ih =>
    rw [run_append, ih, List.map_append, List.foldlM_append]
    simp only [step, advance, hw, Result.ok_bind, List.map_cons, List.map_nil, List.foldlM_cons,
      List.foldlM_nil, bind_pure]

theorem run_of_nodes {path path' : Path} (hw : m.window = none)
    (h : path.map Step.node = path'.map Step.node) :
    m.run g inv path = m.run g inv path' := by
  rw [run_untimed hw, run_untimed hw, h]

/-- Only the state in which the monitor is left counts for the rest of the path. -/
theorem run_replace {path path' : Path} (h : m.run g inv path = m.run g inv path') (rest : Path) :
    m.run g inv (path ++ rest) = m.run g inv (path' ++ rest) := by
  induction rest using List.reverseRecOn with
  | nil => simpa using h
  | append_singleton rest s ih =>
    rw [← List.append_assoc, ← List.append_assoc, run_append, run_append, ih]

theorem run_take {path : Path} {p : Phase} {c : Clock} (h : m.run g inv path = .ok (p, c))
    (k : Nat) : ∃ q b, m.run g inv (path.take k) = .ok (q, b) := by
  rcases Nat.lt_or_ge k path.length with hk | hk
  · have hsplit := List.take_append_drop k path
    generalize path.drop k = rest at hsplit
    generalize path.take k = front at hsplit
    subst hsplit
    clear hk
    induction rest using List.reverseRecOn generalizing p c with
    | nil => exact ⟨p, c, by simpa using h⟩
    | append_singleton rest s ih =>
      rw [← List.append_assoc, run_append, Result.bind_ok] at h
      obtain ⟨⟨q, b⟩, hq, _⟩ := h
      exact ih hq
  · exact ⟨p, c, by rw [List.take_of_length_le hk]; exact h⟩

end Monitor
end EventInvariants
