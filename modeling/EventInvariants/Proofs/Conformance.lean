import EventInvariants.Proofs.Verdict

namespace EventInvariants

theorem Time.checkNonNegative_of_sign {t : Time} (hf : t.isFloat = false)
    (hn : t.isNegative = false) : t.checkNonNegative = .ok () := by
  cases t with
  | float x => cases hf
  | zero | integer n | vector v => simp [checkNonNegative, hn]

namespace Path
variable {g : Graph} {inv : Invariant} {path : Path}

/-- What holds of the times of all steps holds of the times of the trace. -/
theorem trace_delta_all {P : Time → Prop} (h : ∀ s ∈ path, ∀ d, s.delta = some d → P d)
    (h0 : P .zero) (k : Nat) : P ((path.trace g inv).delta k) := by
  cases hs : path[k]? with
  | none =>
    rw [trace_past (List.getElem?_eq_none_iff.mp hs)]
    exact h0
  | some s =>
    rw [trace_delta hs]
    cases hd : s.delta with
    | none => exact h0
    | some d => exact h s (List.mem_of_getElem? hs) d hd

/-- A run of the monitor ends in the failure state if and only if the steps are judged to violate
the invariant. The steps need not follow edges, and the invariant need not be valid. -/
theorem run_failed_iff_violates {p : Phase} {c : Clock} {answer : Bool}
    (hb : ∀ w, inv.bound = some w → w.value.isFloat = false) (hne : path ≠ [])
    (hin : ∀ s ∈ path, s.node < g.size)
    (hd : ∀ s ∈ path, ∀ d, s.delta = some d → d.isFloat = false ∧ d.isNegative = false)
    (hrun : (Monitor.ofInvariant inv).run g inv path = .ok (p, c))
    (hv : violates g inv path = .ok answer) : p = .failed ↔ answer = true := by
  have hexact : (Monitor.ofInvariant inv).IsExact := fun w hw => hb w (Monitor.bound_of_window hw)
  have htimes : ∀ k, ((path.trace g inv).delta k).isFloat = false ∧
      ((path.trace g inv).delta k).isNegative = false := trace_delta_all hd ⟨rfl, rfl⟩
  have hforward : (path.trace g inv).Forward := by
    intro k j
    obtain ⟨hfloat, hsign⟩ := htimes (k + 1)
    exact Time.part_nonneg hfloat (Time.checkNonNegative_of_sign hfloat hsign) j
  exact failed_iff_judged (List.length_pos_iff.mpr hne) hin hexact (fun _ k => (htimes (k + 1)).1)
    (fun _ => hforward) hrun hv

end Path

/-- A `b` within a vector of times after every `a`. -/
def Invariant.within (v : List Int) : Invariant :=
  ⟨.alwaysFollowedBy, ⟨"a"⟩, ⟨"b"⟩, .default, some ⟨.upper, .vector v⟩⟩

/-- An `a`, another event, a second `a` and a `b`, at vector times. No edge leads back to the `a`.
-/
def Path.relapse : Path :=
  [⟨0, none⟩, ⟨1, some (.vector [2, 1])⟩, ⟨0, some (.vector [0, 3])⟩, ⟨2, some (.vector [1, 1])⟩]

theorem relapse_failed :
    (Monitor.ofInvariant (.within [3, 4])).run .loop (.within [3, 4]) Path.relapse =
        .ok (.failed, .idle) ∧
      ∃ answer, Path.violates .loop (.within [3, 4]) Path.relapse = .ok answer ∧
        answer = true := by
  have hrun : (Monitor.ofInvariant (.within [3, 4])).run .loop (.within [3, 4]) Path.relapse =
      .ok (.failed, .idle) := by cbv
  have hviol : Path.violates .loop (.within [3, 4]) Path.relapse = .ok true := by cbv
  refine ⟨hrun, true, hviol, (Path.run_failed_iff_violates ?_ ?_ ?_ ?_ hrun hviol).mp rfl⟩
  · simp [Invariant.within, Time.isFloat]
  · simp [Path.relapse]
  · simp [Path.relapse, Graph.loop, Graph.size]
  · simp [Path.relapse, Time.isFloat, Time.isNegative]

end EventInvariants
