import EventInvariants.Exploration
import EventInvariants.Proofs.Frontier
import EventInvariants.Proofs.Route

namespace EventInvariants

theorem History.getLast_steps (h : History) : h.steps.getLast? = some h.last := by
  simp [steps]

theorem Monitor.window_none_iff {inv : Invariant} :
    (Monitor.ofInvariant inv).window = none ↔ (Monitor.ofInvariant inv).isTimed = false := by
  simp [isTimed]

namespace Exploration

/-- No bound and no time that the monitor reads is a double. -/
structure Exact (g : Graph) (inv : Invariant) : Prop where
  bound : (Monitor.ofInvariant inv).IsExact
  delta : (Monitor.ofInvariant inv).window ≠ none →
    ∀ v, ∀ edge ∈ g.successors v inv.relation, (edge.delta.getD .zero).isFloat = false

/-- The monitor takes an edge with the edge's own time. -/
theorem edgeDelta_ok {inv : Invariant} {u : Nat} {edge : Edge} {delta : Option Time}
    (h : edgeDelta inv u edge = .ok delta) :
    delta = edge.delta ∧ ((Monitor.ofInvariant inv).window ≠ none →
      (edge.delta.getD .zero).checkNonNegative = .ok ()) := by
  unfold edgeDelta at h
  split at h
  · rename_i ht
    cases h
    refine ⟨rfl, fun hw => absurd (Monitor.window_none_iff.mpr ?_) hw⟩
    simpa using ht
  · split at h
    · cases h
    · rename_i d hd
      split at h
      · cases h
      · rename_i hok
        cases h
        exact ⟨hd.symm, fun _ => by rw [hd]; exact hok⟩

/-- An entry that exploration brings to a node, while `σ` is known of the nodes. -/
inductive Arrives (g : Graph) (inv : Invariant) (σ : Nat → StateSet) :
    Nat → Phase → Entry → Prop where
  | start {v : Nat} {p : Phase} {c : Clock} (hinit : g.isInitial v = true)
      (hread : (Monitor.ofInvariant inv).initial (g.letter inv v) = .ok (p, c))
      (hcov : (σ v).Covers (Monitor.ofInvariant inv) p 1 c) :
      Arrives g inv σ v p ⟨.root v, c⟩
  | next {u : Nat} {p q : Phase} {e : Entry} {edge : Edge} {c : Clock}
      (hfrom : Arrives g inv σ u p e) (hedge : edge ∈ g.successors u inv.relation)
      (hdelta : edgeDelta inv u edge = .ok edge.delta)
      (hstep : (Monitor.ofInvariant inv).step p e.clock (g.letter inv edge.target)
        (edge.delta.getD .zero) = .ok (q, c))
      (hcov : (σ edge.target).Covers (Monitor.ofInvariant inv) q (e.length + 1) c) :
      Arrives g inv σ edge.target q ⟨e.history.extend edge.target edge.delta, c⟩

section
variable {g : Graph} {inv : Invariant} {σ σ' : Nat → StateSet} {v : Nat} {p : Phase} {e : Entry}

theorem Arrives.mono (hgrow : ∀ w, StateSet.Grows (Monitor.ofInvariant inv) (σ w) (σ' w))
    (h : Arrives g inv σ v p e) : Arrives g inv σ' v p e := by
  induction h with
  | start hinit hread hcov => exact .start hinit hread (hgrow _ _ _ _ hcov)
  | next _ hedge hdelta hstep hcov ih =>
    exact .next ih hedge hdelta hstep (hgrow _ _ _ _ hcov)

theorem Arrives.exact (hx : Exact g inv) (h : Arrives g inv σ v p e) : e.clock.IsExact := by
  induction h with
  | start _ hread _ => exact Monitor.enter_exact (c := .idle) trivial hread
  | next _ hedge _ hstep _ ih =>
    exact (Monitor.moves_of_step (fun hw => hx.delta hw _ _ hedge) ih hstep).exact ih

theorem Arrives.lt (h : Arrives g inv σ v p e) : v < g.size := by
  cases h with
  | start hinit => exact Graph.isInitial_lt hinit
  | next _ hedge => exact Graph.successors_target_lt hedge

theorem Arrives.covers (h : Arrives g inv σ v p e) :
    (σ v).Covers (Monitor.ofInvariant inv) p e.length e.clock := by
  cases h with
  | start _ _ hcov => exact hcov
  | next _ _ _ _ hcov => exact hcov

theorem Arrives.last (h : Arrives g inv σ v p e) : e.history.last.node = v := by
  cases h <;> rfl

/-- The history is a route that takes its edges with their own times. -/
theorem Arrives.route (h : Arrives g inv σ v p e) :
    Path.Route g inv.relation Eq e.history.steps := by
  induction h with
  | start hinit =>
    rw [History.steps_root]
    exact Path.route_singleton hinit
  | next hfrom hedge _ _ _ ih =>
    rw [History.steps_extend]
    rw [← hfrom.last] at hedge
    exact ih.append (History.getLast_steps _) hedge rfl rfl

theorem Arrives.nonneg (hw : (Monitor.ofInvariant inv).window ≠ none)
    (h : Arrives g inv σ v p e) (k : Nat) :
    ∀ s, e.history.steps[k + 1]? = some s → (s.delta.getD .zero).checkNonNegative = .ok () := by
  induction h with
  | start => simp [History.steps_root]
  | next _ _ hdelta _ _ ih =>
    intro s hs
    rw [History.steps_extend, List.getElem?_append] at hs
    split at hs
    · exact ih s hs
    · have hlast := List.mem_singleton.mp (List.mem_of_getElem? hs)
      subst hlast
      exact (edgeDelta_ok hdelta).2 hw

theorem Arrives.forward (hx : Exact g inv) (hw : (Monitor.ofInvariant inv).window ≠ none)
    (h : Arrives g inv σ v p e) : (Path.trace g inv e.history.steps).Forward := by
  intro k j
  have hfloat := h.route.delta (P := fun d => d.isFloat = false) (hx.delta hw) rfl k
  cases hs : e.history.steps[k + 1]? with
  | none =>
    rw [Path.trace_past (List.getElem?_eq_none_iff.mp hs)]
    exact Int.le_refl 0
  | some s =>
    rw [Path.trace_delta hs] at hfloat ⊢
    exact Time.part_nonneg hfloat (h.nonneg hw k s hs) j

theorem Arrives.run (h : Arrives g inv σ v p e) :
    (Monitor.ofInvariant inv).run g inv e.history.steps = .ok (p, e.clock) := by
  induction h with
  | start _ hread => simp [History.steps_root, Monitor.run, hread]
  | next _ _ _ hstep _ ih => simp [History.steps_extend, Monitor.run_append, ih, hstep]

/-- What the monitor knew part of the way is still covered where it was then. -/
theorem Arrives.part (h : Arrives g inv σ v p e) {k : Nat} (hk : 0 < k) (hle : k ≤ e.length)
    {q : Phase} {c : Clock}
    (hrun : (Monitor.ofInvariant inv).run g inv (e.history.steps.take k) = .ok (q, c)) :
    ∃ w, (σ w).Covers (Monitor.ofInvariant inv) q k c := by
  have whole : ∀ {v p e}, Arrives g inv σ v p e →
      (Monitor.ofInvariant inv).run g inv (e.history.steps.take e.length) = .ok (q, c) →
      ∃ w, (σ w).Covers (Monitor.ofInvariant inv) q e.length c := by
    intro v p e h hrun
    rw [List.take_of_length_le (by rw [History.length_steps]; exact Nat.le_refl _), h.run] at hrun
    cases hrun
    exact ⟨v, h.covers⟩
  induction h with
  | start hinit hread hcov =>
    obtain rfl : k = 1 := Nat.le_antisymm hle hk
    exact whole (.start hinit hread hcov) hrun
  | @next u p q' e edge c' hfrom hedge hdelta hstep hcov ih =>
    rcases Nat.lt_or_ge e.length k with hlt | hge
    · obtain rfl : k = e.length + 1 := Nat.le_antisymm hle hlt
      exact whole (.next hfrom hedge hdelta hstep hcov) hrun
    · refine ih hge ?_
      rwa [History.steps_extend, List.take_append_of_le_length] at hrun
      rw [History.length_steps]
      exact hge

end
end Exploration
end EventInvariants
