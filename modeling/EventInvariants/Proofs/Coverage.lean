import EventInvariants.Proofs.Fixpoint
import EventInvariants.Proofs.Progress

namespace EventInvariants

theorem Monitor.Moves.untimed {m : Monitor} {p q : Phase} {c c' : Clock} {l : Letter}
    {delta : Time} (hm : m.window = none) (h : m.Moves p c l delta q c') (delta' : Time) :
    m.Moves p c l delta' q c' := by
  unfold Moves Advances at *
  rw [hm] at h ⊢
  exact h

namespace Exploration

/-- Every initial node covers the path that starts there, and all that is known has been passed
along every edge. -/
structure Converged (g : Graph) (inv : Invariant) (s : State) : Prop extends Sound g inv s where
  started : Started g inv s
  passed : ∀ w, ∀ edge ∈ g.successors w inv.relation,
    Passes g inv w (s.set w) edge (s.set edge.target)

section
variable {g : Graph} {inv : Invariant} {s : State} {path : Path} {k : Nat} {p : Phase} {c : Clock}
  {same : Option Time → Option Time → Prop}

/-- The times of the route are those of its edges, where the monitor reads them. -/
def Tells (g : Graph) (inv : Invariant) (same : Option Time → Option Time → Prop) : Prop :=
  (Monitor.ofInvariant inv).window ≠ none →
    ∀ v, ∀ edge ∈ g.successors v inv.relation, ∀ d, same edge.delta d → edge.delta = d

theorem covers_of_runs (hx : Exact g inv) (hs : Converged g inv s)
    (hroute : Path.Route g inv.relation same path) (hsame : Tells g inv same)
    (hrun : (Monitor.ofInvariant inv).Runs (path.trace g inv) k p c) :
    ∀ st, path[k]? = some st →
      (s.set st.node).Covers (Monitor.ofInvariant inv) p (k + 1) c ∨
        ∃ x ∈ (s.set st.node).frontier .failed, x.length ≤ k + 1 := by
  induction hrun with
  | first hread =>
    intro st hst
    obtain ⟨first, hfirst, hinit⟩ := hroute.initial
    rw [hst] at hfirst
    cases hfirst
    obtain ⟨p', c', hread', hcov⟩ := hs.started st.node hinit
    rw [Path.trace_letter hst, hread'] at hread
    cases hread
    exact .inl hcov
  | @next k p q c c' hrun move ih =>
    intro st' hst'
    have hk : k < path.length := by
      have := (List.getElem?_eq_some_iff.mp hst').1
      omega
    have hst := List.getElem?_eq_getElem hk
    obtain ⟨edge, hedge, htarget, hdelta⟩ := hroute.edge k _ st' hst hst'
    rw [← htarget]
    -- the step of an entry at the source is a move on the same letter
    have hstep : ∀ r, ∀ x ∈ (s.set path[k].node).frontier r, ∃ q' cx,
        (Monitor.ofInvariant inv).Moves r x.clock ((path.trace g inv).letter (k + 1))
          ((path.trace g inv).delta (k + 1)) q' cx ∧
        (s.set edge.target).Covers (Monitor.ofInvariant inv) q' (x.length + 1) cx := by
      intro r x hxmem
      obtain ⟨_, q', cx, hstep, hcov⟩ := hs.passed _ edge hedge r x hxmem
      refine ⟨q', cx, ?_, hcov⟩
      rw [Path.trace_letter hst', Path.trace_delta hst', ← htarget]
      have hmove := Monitor.moves_of_step (fun hw => hx.delta hw _ edge hedge)
        (hs.toSound.exact hx _ r x hxmem) hstep
      cases hw : (Monitor.ofInvariant inv).window with
      | none => exact hmove.untimed hw _
      | some w =>
        rw [← hsame (by simp [hw]) _ edge hedge _ hdelta]
        exact hmove
    rcases ih _ hst with ⟨x, hxmem, hlen, hlead⟩ | ⟨x, hxmem, hlen⟩
    · obtain ⟨q', cx, hmove, y, hy, hylen, hylead⟩ := hstep p x hxmem
      rcases hmove.leads hx.bound hlead move with rfl | ⟨rfl, hlead'⟩
      · exact .inr ⟨y, hy, by omega⟩
      · exact .inl ⟨y, hy, by omega, hylead.trans hlead'⟩
    · obtain ⟨q', cx, hmove, y, hy, hylen, _⟩ := hstep .failed x hxmem
      obtain rfl := hmove.failed
      exact .inr ⟨y, hy, by omega⟩

/-- No bound and no time that the monitor reads is anything but a whole number. -/
structure Scalar (g : Graph) (inv : Invariant) : Prop where
  bound : (Monitor.ofInvariant inv).IsScalar
  delta : (Monitor.ofInvariant inv).window ≠ none →
    ∀ v, ∀ edge ∈ g.successors v inv.relation, (edge.delta.getD .zero).IsScalar

theorem Scalar.exact (h : Scalar g inv) : Exact g inv where
  bound := h.bound.exact
  delta hw v edge hedge := (h.delta hw v edge hedge).not_float

/-- A route that can be run through goes forward in time: exploration has followed its edges. -/
theorem forward_of_runs (hx : Exact g inv) (hs : Converged g inv s)
    (hroute : Path.Route g inv.relation same path) (hsame : Tells g inv same)
    (hrun : ∀ k, ∃ p c, (Monitor.ofInvariant inv).Runs (path.trace g inv) k p c)
    (hw : (Monitor.ofInvariant inv).window ≠ none) : (path.trace g inv).Forward := by
  intro k j
  rcases Nat.lt_or_ge (k + 1) path.length with hk | hk
  · have hst := List.getElem?_eq_getElem (show k < path.length by omega)
    have hst' := List.getElem?_eq_getElem hk
    obtain ⟨edge, hedge, _, hdelta⟩ := hroute.edge k _ _ hst hst'
    have hknown : ∃ p, ∃ x ∈ (s.set path[k].node).frontier p, True := by
      obtain ⟨p, c, hrun⟩ := hrun k
      rcases covers_of_runs hx hs hroute hsame hrun _ hst with ⟨x, hmem, _⟩ | ⟨x, hmem, _⟩
      · exact ⟨p, x, hmem, trivial⟩
      · exact ⟨.failed, x, hmem, trivial⟩
    obtain ⟨p, x, hmem, _⟩ := hknown
    obtain ⟨hok, _⟩ := hs.passed _ edge hedge p x hmem
    rw [Path.trace_delta hst', ← hsame hw _ edge hedge _ hdelta]
    exact Time.part_nonneg (hx.delta hw _ edge hedge) ((edgeDelta_ok hok).2 hw) j
  · rw [Path.trace_past hk]
    exact Int.le_refl 0

/-- Under a whole bound every route can be run through, if sums are never refused. -/
theorem runs_of_route (hsc : Scalar g inv) (hroute : Path.Route g inv.relation same path)
    (hsame : Tells g inv same) (k : Nat) :
    ∃ p c, (Monitor.ofInvariant inv).Runs (path.trace g inv) k p c := by
  obtain ⟨p, c, hrun, _⟩ := Monitor.runs_total hsc.bound
    (fun hw => (hroute.mono (hsame hw)).delta (hsc.delta hw) trivial) k
  exact ⟨p, c, hrun⟩

/-- A route on which the invariant fails leaves a failure that is no longer. -/
theorem failure_of_fails (hsc : Scalar g inv) (hs : Converged g inv s)
    (hroute : Path.Route g inv.relation same path) (hsame : Tells g inv same)
    (hk : k < path.length) (hfail : (Monitor.ofInvariant inv).FailsAt (path.trace g inv) k) :
    ∃ w, ∃ x ∈ (s.set w).frontier .failed, x.length ≤ path.length := by
  have hx := hsc.exact
  have hruns := runs_of_route hsc hroute hsame
  have hforward := forward_of_runs hx hs hroute hsame hruns
  obtain ⟨p, c, hrun⟩ := hruns k
  obtain rfl := (hrun.failed_iff hx.bound hforward).mpr ⟨k, Nat.le_refl k, hfail⟩
  rcases covers_of_runs hx hs hroute hsame hrun _ (List.getElem?_eq_getElem hk) with
    ⟨x, hmem, hlen, _⟩ | ⟨x, hmem, hlen⟩
  · exact ⟨_, x, hmem, by omega⟩
  · exact ⟨_, x, hmem, by omega⟩

theorem failure_of_violates (hsc : Scalar g inv) (hs : Converged g inv s)
    (hroute : Path.Route g inv.relation same path) (hsame : Tells g inv same)
    (h : Path.violates g inv path = .ok true) :
    ∃ w, ∃ x ∈ (s.set w).frontier .failed, x.length ≤ path.length := by
  have hx := hsc.exact
  have hforward := forward_of_runs hx hs hroute hsame (runs_of_route hsc hroute hsame)
  have hfloat : (Monitor.ofInvariant inv).window ≠ none →
      ∀ k, ((path.trace g inv).delta (k + 1)).isFloat = false := fun hw =>
    (hroute.mono (hsame hw)).delta (P := fun d => d.isFloat = false) (hx.delta hw) rfl
  obtain ⟨k, hk, hfail⟩ := (Path.violates_iff hroute.inside hx.bound hfloat hforward h).mp rfl
  exact failure_of_fails hsc hs hroute hsame hk hfail

end
end Exploration
end EventInvariants
