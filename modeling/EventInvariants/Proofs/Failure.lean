import EventInvariants.Proofs.Fixpoint

namespace EventInvariants

namespace StateSet
variable {s : StateSet}

theorem history_mem {p : Phase} {h : History} (hf : s.history? p = some h) :
    ∃ e ∈ s.frontier p, e.history = h := by
  simp only [history?, best?, Option.map_eq_some_iff] at hf
  obtain ⟨e, he, rfl⟩ := hf
  exact ⟨e, List.mem_of_mem_head? he, rfl⟩

/-- The first of the sorted entries of a state is a shortest one. -/
theorem history_le (hs : s.Sorted) {p : Phase} {x : Entry} (hx : x ∈ s.frontier p) :
    ∃ h, s.history? p = some h ∧ h.length ≤ x.length := by
  have hsorted := hs p
  cases hf : s.frontier p with
  | nil =>
    rw [hf] at hx
    cases hx
  | cons e rest =>
    refine ⟨e.history, by simp [history?, best?, hf], ?_⟩
    rw [hf] at hx hsorted
    rcases List.mem_cons.mp hx with rfl | hx
    · exact Nat.le_refl _
    · exact (List.pairwise_cons.mp hsorted).1 x hx

theorem failure_le (hs : s.Sorted) {x : Entry} (hx : x ∈ s.frontier .failed) :
    ∃ h, s.failure? = some h ∧ h.length ≤ x.length :=
  history_le hs hx

end StateSet

namespace Fixpoint

theorem shorter_none {a b : Option History} (h : shorter a b = none) : a = none ∧ b = none := by
  cases a with
  | none => exact ⟨rfl, h⟩
  | some x =>
    cases b with
    | none => cases h
    | some y =>
      simp only [shorter] at h
      split at h <;> cases h

theorem shorter_some {a b : Option History} {h : History} (hs : shorter a b = some h) :
    (a = some h ∨ b = some h) ∧ ∀ k, a = some k ∨ b = some k → h.length ≤ k.length := by
  cases a with
  | none =>
    have hb : b = some h := hs
    refine ⟨.inr hb, fun k hk => ?_⟩
    rcases hk with hk | hk
    · cases hk
    · rw [hb] at hk
      cases hk
      exact Nat.le_refl _
  | some x =>
    cases b with
    | none =>
      cases hs
      refine ⟨.inl rfl, fun k hk => ?_⟩
      rcases hk with hk | hk
      · cases hk
        exact Nat.le_refl _
      · cases hk
    | some y =>
      simp only [shorter] at hs
      split at hs
      all_goals
        cases hs
        refine ⟨by simp, fun k hk => ?_⟩
        rcases hk with hk | hk
        all_goals
          cases hk
          omega

/-- The fold over the nodes finds a shortest failure among them and what it started with. -/
theorem foldl_shorter (l : List StateSet) (best : Option History) :
    (l.foldl (fun best s => shorter best s.failure?) best = none →
      best = none ∧ ∀ s ∈ l, s.failure? = none) ∧
    ∀ h, l.foldl (fun best s => shorter best s.failure?) best = some h →
      (best = some h ∨ ∃ s ∈ l, s.failure? = some h) ∧
        (∀ k, best = some k → h.length ≤ k.length) ∧
        ∀ s ∈ l, ∀ k, s.failure? = some k → h.length ≤ k.length := by
  induction l generalizing best with
  | nil =>
    refine ⟨fun h => ⟨h, by simp⟩, fun h hb => ⟨.inl hb, ?_, by simp⟩⟩
    intro k hk
    rw [List.foldl_nil] at hb
    rw [hb] at hk
    cases hk
    exact Nat.le_refl _
  | cons t l ih =>
    obtain ⟨ihnone, ihsome⟩ := ih (shorter best t.failure?)
    constructor
    · intro hnone
      obtain ⟨hshort, hl⟩ := ihnone hnone
      obtain ⟨hbest, ht⟩ := shorter_none hshort
      exact ⟨hbest, List.forall_mem_cons.mpr ⟨ht, hl⟩⟩
    · intro h hsome
      obtain ⟨hfrom, hbest, hl⟩ := ihsome h hsome
      have hle : ∀ k, best = some k ∨ t.failure? = some k → h.length ≤ k.length := by
        intro k hk
        cases hshort : shorter best t.failure? with
        | none =>
          obtain ⟨hb, ht⟩ := shorter_none hshort
          rw [hb, ht] at hk
          rcases hk with hk | hk <;> cases hk
        | some y =>
          exact Nat.le_trans (hbest y hshort) ((shorter_some hshort).2 k hk)
      refine ⟨?_, fun k hk => hle k (.inl hk),
        List.forall_mem_cons.mpr ⟨fun k hk => hle k (.inr hk), hl⟩⟩
      rcases hfrom with hfrom | ⟨s, hs, hf⟩
      · rcases (shorter_some hfrom).1 with hb | ht
        · exact .inl hb
        · exact .inr ⟨t, List.mem_cons_self, ht⟩
      · exact .inr ⟨s, List.mem_cons_of_mem t hs, hf⟩

variable {f : Fixpoint} {v : Nat} {x : Entry}

theorem set_mem (hx : x ∈ (f.set v).frontier .failed) : f.set v ∈ f.sets.toList := by
  unfold set at hx ⊢
  rw [Array.getD_eq_getD_getElem?] at hx ⊢
  cases hs : f.sets[v]? with
  | none => simp [hs] at hx
  | some s => exact Array.mem_toList_iff.mpr (Array.mem_of_getElem? hs)

theorem mem_set {s : StateSet} (hs : s ∈ f.sets.toList) : ∃ v, f.set v = s := by
  obtain ⟨v, hv⟩ := List.getElem?_of_mem hs
  refine ⟨v, ?_⟩
  rw [Array.getElem?_toList] at hv
  simp [set, Array.getD_eq_getD_getElem?, hv]

theorem shortestFailure_eq (f : Fixpoint) : f.shortestFailure? =
    f.sets.toList.foldl (fun best s => shorter best s.failure?) none := by
  simp [shortestFailure?]

theorem shortestFailure_mem {h : History} (hf : f.shortestFailure? = some h) :
    ∃ v, ∃ e ∈ (f.set v).frontier .failed, e.history = h := by
  rw [shortestFailure_eq] at hf
  obtain ⟨hfrom, _⟩ := (foldl_shorter _ _).2 h hf
  rcases hfrom with hn | ⟨s, hs, hf⟩
  · cases hn
  · obtain ⟨v, rfl⟩ := mem_set hs
    exact ⟨v, StateSet.history_mem hf⟩

/-- If some node has failed, a failure is reported that is no longer than any. -/
theorem shortestFailure_le (hs : ∀ v, (f.set v).Sorted) (hx : x ∈ (f.set v).frontier .failed) :
    ∃ h, f.shortestFailure? = some h ∧ h.length ≤ x.length := by
  obtain ⟨k, hk, hle⟩ := StateSet.failure_le (hs v) hx
  rw [shortestFailure_eq]
  cases hf : f.sets.toList.foldl (fun best s => shorter best s.failure?) none with
  | none =>
    rw [((foldl_shorter _ _).1 hf).2 _ (set_mem hx)] at hk
    cases hk
  | some h =>
    obtain ⟨_, _, hmin⟩ := (foldl_shorter _ _).2 h hf
    exact ⟨h, rfl, Nat.le_trans (hmin _ (set_mem hx) k hk) hle⟩

end Fixpoint
end EventInvariants
