import EventInvariants.Proofs.Coverage

namespace EventInvariants

theorem Graph.successors_lt {g : Graph} {v : Nat} {relation : Relation} {edge : Edge}
    (h : edge ∈ g.successors v relation) : v < g.size := by
  unfold successors at h
  split at h
  · rename_i hnode
    exact (Array.getElem?_eq_some_iff.mp hnode).1
  · cases h

theorem Monitor.bound_of_window {inv : Invariant} {w : Bound}
    (h : (Monitor.ofInvariant inv).window = some w) : inv.bound = some w := by
  unfold Monitor.ofInvariant at h
  split at h <;> simp_all [Monitor.window]

theorem Monitor.window_of_bound {inv : Invariant} (hb : inv.bound = none) :
    (Monitor.ofInvariant inv).window = none := by
  cases hw : (Monitor.ofInvariant inv).window with
  | none => rfl
  | some w =>
    have := bound_of_window hw
    rw [hb] at this
    cases this

namespace Invariant
variable {g : Graph} {inv : Invariant} {w : Bound}

theorem mismatch_none {kind : TimeKind} (h : inv.mismatch? g kind = none) {v : Nat} {edge : Edge}
    (hedge : edge ∈ g.successors v inv.relation) {d : Time} (hd : edge.delta = some d) :
    kind.compatible d.kind = true := by
  have hv : v ∈ g.ids := List.mem_range.mpr (Graph.successors_lt hedge)
  have hnone := List.findSome?_eq_none_iff.mp (List.findSome?_eq_none_iff.mp h v hv) edge hedge
  rw [hd] at hnone
  dsimp only at hnone
  split at hnone
  · assumption
  · cases hnone

theorem validate_bound (h : inv.validate g = .ok ()) (hw : inv.bound = some w) :
    inv.kind.supportsBound = true ∧ w.value.checkNonNegative = .ok () ∧
      inv.mismatch? g w.value.kind = none := by
  simp only [validate, hw, Result.bind_ok] at h
  obtain ⟨_, h, _⟩ := h
  unfold checkBound at h
  split at h
  · cases h
  · rename_i hs
    split at h
    · cases h
    · rename_i hn
      split at h
      · cases h
      · rename_i hm
        exact ⟨by simpa using hs, hn, hm⟩

end Invariant

theorem Invariant.integer_of_bound {inv : Invariant} {w : Bound}
    (hb : inv.bound = none ∨ ∃ d n, inv.bound = some ⟨d, .integer n⟩) (hw : inv.bound = some w) :
    ∃ n, w.value = .integer n := by
  rcases hb with hb | ⟨d, n, hb⟩
  · rw [hb] at hw
    cases hw
  · rw [hb] at hw
    cases hw
    exact ⟨n, rfl⟩

namespace Exploration
variable {g : Graph} {inv : Invariant}

/-- A valid invariant with a whole bound, or with none, meets only whole times. -/
theorem scalar_of_validate (h : inv.validate g = .ok ())
    (hb : inv.bound = none ∨ ∃ d n, inv.bound = some ⟨d, .integer n⟩) : Scalar g inv := by
  rcases hb with hb | ⟨d, n, hb⟩
  · have hnone := Monitor.window_of_bound hb
    exact ⟨by simp [Monitor.IsScalar, hnone], fun hw => absurd hnone hw⟩
  · refine ⟨?_, fun _ v edge hedge => ?_⟩
    · intro w hw
      have := Monitor.bound_of_window hw
      rw [hb] at this
      cases this
      trivial
    · obtain ⟨_, _, hm⟩ := Invariant.validate_bound h hb
      cases hd : edge.delta with
      | none => trivial
      | some t =>
        have hkind := Invariant.mismatch_none hm hedge hd
        cases t with
        | zero | integer k => trivial
        | float x => cases hkind
        | vector v => cases hkind

/-- A valid invariant with a bound that is no double meets no double, unless the bound is `zero`,
which goes with times of every kind. -/
theorem exact_of_validate (h : inv.validate g = .ok ())
    (hb : ∀ w, inv.bound = some w → (∃ n, w.value = .integer n) ∨ ∃ v, w.value = .vector v) :
    Exact g inv := by
  have hvalue : ∀ w, (Monitor.ofInvariant inv).window = some w →
      (∃ n, w.value = .integer n) ∨ ∃ v, w.value = .vector v :=
    fun w hw => hb w (Monitor.bound_of_window hw)
  constructor
  · intro w hw
    rcases hvalue w hw with ⟨n, hn⟩ | ⟨v, hv⟩
    · rw [hn]; rfl
    · rw [hv]; rfl
  · intro htimed u edge hedge
    obtain ⟨w, hw⟩ := Option.ne_none_iff_exists'.mp htimed
    obtain ⟨_, _, hm⟩ := Invariant.validate_bound h (Monitor.bound_of_window hw)
    cases hd : edge.delta with
    | none => rfl
    | some t =>
      have hkind := Invariant.mismatch_none hm hedge hd
      cases t with
      | zero | integer n | vector v => rfl
      | float x =>
        rcases hvalue w hw with ⟨n, hn⟩ | ⟨v, hv⟩
        · simp [hn, Time.kind, TimeKind.compatible] at hkind
        · simp [hv, Time.kind, TimeKind.compatible] at hkind

end Exploration
end EventInvariants
