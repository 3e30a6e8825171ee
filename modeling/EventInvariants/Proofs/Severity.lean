import EventInvariants.Monitor.Basic
import EventInvariants.Proofs.Measure

namespace EventInvariants

def Clock.IsExact : Clock → Prop
  | .running t => t.isFloat = false
  | _ => True

namespace Bound

/-- The first clock is at least as near to violating the bound as the second. -/
def Leads (w : Bound) : Clock → Clock → Prop
  | .idle, .idle => True
  | .saturated, .saturated => True
  | .running s, .running t =>
    match w.direction with
    | .upper => ∀ i, t.part i ≤ s.part i
    | .lower => ∀ i, s.part i ≤ t.part i
  | .saturated, .running _ => w.direction = .upper
  | .running _, .saturated => w.direction = .lower
  | _, _ => False

theorem Leads.refl (w : Bound) (c : Clock) : w.Leads c c := by
  cases c with
  | idle | saturated => trivial
  | running t => cases hd : w.direction <;> simp [Leads, hd]

theorem Leads.trans {w : Bound} {x y z : Clock} (hxy : w.Leads x y) (hyz : w.Leads y z) :
    w.Leads x z := by
  cases x <;> cases y <;> cases z <;> cases hd : w.direction <;>
    simp only [Leads, hd, reduceCtorEq] at hxy hyz ⊢
  · exact fun i => Int.le_trans (hyz i) (hxy i)
  · exact fun i => Int.le_trans (hxy i) (hyz i)

/-- A clock that is still in time leads no clock that is late. -/
theorem Leads.met {w : Bound} {x y : Clock} (h : w.Leads x y) (hx : w.met x = true) :
    w.met y = true := by
  cases x <;> cases y <;> cases hd : w.direction <;> simp_all [Leads, Bound.met]

theorem Leads.saturated {w : Bound} {x : Clock} (hd : w.direction = .upper)
    (h : w.Leads x .saturated) : x = .saturated := by
  cases x <;> simp_all [Leads]

theorem settle_ok {w : Bound} {t : Time} {c : Clock} (h : w.settle t = .ok c) :
    ∃ o, t.order w.value = .ok o ∧
      c = if isPast w.direction o then .saturated else .running t := by
  unfold settle at h
  rw [Result.bind_ok] at h
  obtain ⟨o, ho, h⟩ := h
  cases h
  exact ⟨o, ho, rfl⟩

theorem settle_exact {w : Bound} {t : Time} {c : Clock} (ht : t.isFloat = false)
    (h : w.settle t = .ok c) : c.IsExact := by
  obtain ⟨o, _, rfl⟩ := settle_ok h
  split
  · trivial
  · exact ht

/-- Of two times that are shown on a clock, the one nearer to a violation shows the nearer clock. -/
theorem settle_leads {w : Bound} {s t : Time} {x y : Clock} (hw : w.value.isFloat = false)
    (hs : s.isFloat = false) (ht : t.isFloat = false) (h : w.Leads (.running s) (.running t))
    (hx : w.settle s = .ok x) (hy : w.settle t = .ok y) : w.Leads x y := by
  obtain ⟨o, ho, rfl⟩ := settle_ok hx
  obtain ⟨p, hp, rfl⟩ := settle_ok hy
  have hso := Time.order_part hs hw ho
  have htp := Time.order_part ht hw hp
  cases hd : w.direction with
  | upper =>
    simp only [Leads, hd] at h
    by_cases hpast : p = .gt
    · -- the second time is over the bound, so the first is as well
      have hnot : ¬ ∀ i, t.part i ≤ w.value.part i := fun hle => (htp.1.mpr hle) hpast
      have hgt : o = .gt := by
        apply Classical.byContradiction
        intro hne
        exact hnot fun i => Int.le_trans (h i) (hso.1.mp hne i)
      simp [isPast, hgt, hpast, Leads]
    · by_cases ho' : o = .gt
      · simp [isPast, ho', hpast, Leads, hd]
      · simp [isPast, ho', hpast, Leads, hd, h]
  | lower =>
    simp only [Leads, hd] at h
    by_cases hpast : o = .lt
    · by_cases hp' : p = .lt
      · simp [isPast, hpast, hp', Leads, hd, h]
      · simp [isPast, hpast, hp', Leads, hd]
    · -- the first time has reached the bound, so the second has as well
      have hne : p ≠ .lt := htp.2.mpr fun i => Int.le_trans (hso.2.mp hpast i) (h i)
      simp [isPast, hpast, hne, Leads]

end Bound

namespace Monitor

/-- The first clock is at least as near to violating the bound; without a bound all clocks are
alike. -/
def Leads (m : Monitor) (x y : Clock) : Prop :=
  match m.window with
  | none => True
  | some w => w.Leads x y

theorem Leads.refl (m : Monitor) (c : Clock) : m.Leads c c := by
  unfold Leads
  split
  · trivial
  · exact Bound.Leads.refl _ c

theorem Leads.trans {m : Monitor} {x y z : Clock} (hxy : m.Leads x y) (hyz : m.Leads y z) :
    m.Leads x z := by
  unfold Leads at *
  split
  · trivial
  · rename_i w hw
    rw [hw] at hxy hyz
    exact Bound.Leads.trans hxy hyz

theorem severity_untimed {m : Monitor} (hm : m.window = none) (x y : Clock) :
    m.severity x y = .ok .eq := by
  simp [severity, hm]

theorem severity_running {m : Monitor} {w : Bound} {s t : Time} {o : Ordering}
    (hm : m.window = some w) (h : m.severity (.running s) (.running t) = .ok o) :
    ∃ p, s.order t = .ok p ∧
      o = match w.direction with
        | .upper => p
        | .lower => p.swap := by
  simp only [severity, hm] at h
  cases hst : s.order t with
  | error e => simp [Fault.lift, hst] at h
  | ok p =>
    refine ⟨p, rfl, ?_⟩
    cases hd : w.direction <;> simp_all [Fault.lift]

/-- Severity that can be told is the order of nearness. -/
theorem severity_leads {m : Monitor} {x y : Clock} {o : Ordering} (hx : x.IsExact)
    (hy : y.IsExact) (h : m.severity x y = .ok o) : o ≠ .lt ↔ m.Leads x y := by
  unfold Leads
  cases hm : m.window with
  | none =>
    rw [severity_untimed hm] at h
    cases h
    simp
  | some w =>
    cases x with
    | running s =>
      cases y with
      | running t =>
        obtain ⟨p, hp, rfl⟩ := severity_running hm h
        have hpart := Time.order_part hx hy hp
        cases hd : w.direction with
        | upper => simpa [Bound.Leads, hd] using hpart.2
        | lower =>
          simp only [Bound.Leads, hd]
          rw [← hpart.1]
          cases p <;> simp [Ordering.swap]
      | idle =>
        simp only [severity, hm] at h
        cases h
      | saturated =>
        simp only [severity, hm] at h
        cases hd : w.direction <;> rw [hd] at h <;> cases h <;> simp [Bound.Leads, hd]
    | idle | saturated =>
      cases y <;> cases hd : w.direction <;> simp only [severity, hm, hd] at h <;> cases h <;>
        simp [Bound.Leads, hd]

end Monitor
end EventInvariants
