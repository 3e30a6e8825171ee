import EventInvariants.Monitor.Clock
import EventInvariants.Proofs.Result
import Mathlib.Data.List.GetD

namespace EventInvariants.Time

/-- The measure of a time in direction `i`. -/
def part : Time → Nat → Int
  | .zero, _ => 0
  | .integer n, _ => n
  | .float _, _ => 0
  | .vector v, i => v.getD i 0

theorem addVectors_part {v w s : List Int} (h : addVectors? v w = some s)
    (hl : v.length = w.length) (i : Nat) : s.getD i 0 = v.getD i 0 + w.getD i 0 := by
  induction v generalizing w s i with
  | nil =>
    cases w with
    | nil =>
      cases h
      simp
    | cons y w => simp at hl
  | cons x v ih =>
    cases w with
    | nil => simp at hl
    | cons y w =>
      simp only [addVectors?, Option.bind_eq_bind, Option.bind_eq_some_iff] at h
      obtain ⟨z, hz, rest, hr, h⟩ := h
      cases h
      have hsum : z = x + y := by
        unfold Whole.add? at hz
        split at hz <;> simp_all
      cases i with
      | zero => simpa using hsum
      | succ i => simpa using ih hr (by simpa using hl) i

/-- A sum that is not refused is exact in every direction. -/
theorem add_part {s t r : Time} (hs : s.isFloat = false) (ht : t.isFloat = false)
    (h : s.add t = .ok r) : r.isFloat = false ∧ ∀ i, r.part i = s.part i + t.part i := by
  cases s with
  | zero =>
    cases h
    exact ⟨ht, fun i => by simp [part]⟩
  | float x => cases hs
  | integer m =>
    cases t with
    | zero =>
      cases h
      exact ⟨rfl, fun i => by simp [part]⟩
    | float x => cases ht
    | vector w => cases h
    | integer n =>
      simp only [add, Whole.add?] at h
      split at h
      · rename_i k hk
        cases h
        split at hk
        · cases hk
          exact ⟨rfl, fun i => rfl⟩
        · cases hk
      · cases h
  | vector v =>
    cases t with
    | zero =>
      cases h
      exact ⟨rfl, fun i => by simp [part]⟩
    | float x => cases ht
    | integer n => cases h
    | vector w =>
      simp only [add] at h
      split at h
      · cases h
      · rename_i hl
        split at h
        · rename_i u hu
          cases h
          exact ⟨rfl, fun i => addVectors_part hu (by simpa using hl) i⟩
        · cases h

theorem componentOrder_spec {sofar o : Ordering} {pairs : List (Int × Int)}
    (h : componentOrder? sofar pairs = some o) :
    (o ≠ .gt ↔ sofar ≠ .gt ∧ ∀ xy ∈ pairs, xy.1 ≤ xy.2) ∧
      (o ≠ .lt ↔ sofar ≠ .lt ∧ ∀ xy ∈ pairs, xy.2 ≤ xy.1) := by
  induction pairs generalizing sofar with
  | nil =>
    cases h
    simp
  | cons xy pairs ih =>
    obtain ⟨x, y⟩ := xy
    simp only [List.forall_mem_cons]
    rcases Int.lt_trichotomy x y with hlt | rfl | hgt
    · have hc : compare x y = .lt := Int.compare_eq_lt.mpr hlt
      have hle : x ≤ y := Int.le_of_lt hlt
      have hnot : ¬ y ≤ x := Int.not_le.mpr hlt
      cases sofar with
      | gt => simp [componentOrder?, hc] at h
      | lt | eq =>
        obtain ⟨h1, h2⟩ := ih (by simpa [componentOrder?, hc] using h)
        simp [h1, h2, hle, hnot]
    · have hc : compare x x = .eq := Int.compare_eq_eq.mpr rfl
      obtain ⟨h1, h2⟩ := ih (by simpa only [componentOrder?, hc] using h)
      simp [h1, h2]
    · have hc : compare x y = .gt := Int.compare_eq_gt.mpr hgt
      have hge : y ≤ x := Int.le_of_lt hgt
      have hnot : ¬ x ≤ y := Int.not_le.mpr hgt
      cases sofar with
      | lt => simp [componentOrder?, hc] at h
      | gt | eq =>
        obtain ⟨h1, h2⟩ := ih (by simpa [componentOrder?, hc] using h)
        simp [h1, h2, hge, hnot]

theorem zip_parts {v w : List Int} (hl : v.length = w.length) (q : Int → Int → Prop)
    (h0 : q 0 0) : (∀ xy ∈ v.zip w, q xy.1 xy.2) ↔ ∀ i, q (v.getD i 0) (w.getD i 0) := by
  induction v generalizing w with
  | nil =>
    cases w with
    | nil => simpa using h0
    | cons y w => simp at hl
  | cons x v ih =>
    cases w with
    | nil => simp at hl
    | cons y w =>
      have hr : v.length = w.length := by simpa using hl
      simp only [List.zip_cons_cons, List.forall_mem_cons, ih hr]
      constructor
      · intro h i
        obtain ⟨hx, h⟩ := h
        cases i with
        | zero => simpa using hx
        | succ i => simpa using h i
      · intro h
        exact ⟨by simpa using h 0, fun i => by simpa using h (i + 1)⟩

theorem forall_part (v : List Int) (q : Int → Prop) (h0 : q 0) :
    (∀ x ∈ v, q x) ↔ ∀ i, q (v.getD i 0) := by
  constructor
  · intro h i
    by_cases hi : i < v.length
    · rw [List.getD_eq_getElem _ _ hi]
      exact h _ (List.getElem_mem hi)
    · rw [List.getD_eq_default _ _ (by omega)]
      exact h0
  · intro h x hx
    obtain ⟨i, hi, rfl⟩ := List.getElem_of_mem hx
    rw [← List.getD_eq_getElem v 0 hi]
    exact h i

theorem decided_spec {s t : Time} {pairs : List (Int × Int)} {o : Ordering}
    (h : order.decided s t pairs = .ok o) :
    (o ≠ .gt ↔ ∀ xy ∈ pairs, xy.1 ≤ xy.2) ∧ (o ≠ .lt ↔ ∀ xy ∈ pairs, xy.2 ≤ xy.1) := by
  unfold order.decided at h
  split at h
  · rename_i p hp
    cases h
    simpa using componentOrder_spec hp
  · cases h

theorem compare_spec (m n : Int) :
    (compare m n ≠ .gt ↔ m ≤ n) ∧ (compare m n ≠ .lt ↔ n ≤ m) := by
  rw [Ne, Ne, Int.compare_eq_gt, Int.compare_eq_lt]
  omega

/-- A comparison that is not refused compares in every direction at once. -/
theorem order_part {s t : Time} {o : Ordering} (hs : s.isFloat = false) (ht : t.isFloat = false)
    (h : s.order t = .ok o) :
    (o ≠ .gt ↔ ∀ i, s.part i ≤ t.part i) ∧ (o ≠ .lt ↔ ∀ i, t.part i ≤ s.part i) := by
  cases s with
  | float x => cases hs
  | zero =>
    cases t with
    | float x => cases ht
    | zero =>
      cases h
      simp [part]
    | integer n =>
      cases h
      simpa [part] using compare_spec 0 n
    | vector w =>
      have := decided_spec h
      simp only [List.forall_mem_map, forall_part w (0 ≤ ·) (Int.le_refl 0),
        forall_part w (· ≤ 0) (Int.le_refl 0)] at this
      exact this
  | integer m =>
    cases t with
    | float x => cases ht
    | vector w => cases h
    | zero =>
      cases h
      simpa [part] using compare_spec m 0
    | integer n =>
      cases h
      simpa [part] using compare_spec m n
  | vector v =>
    cases t with
    | float x => cases ht
    | integer n => cases h
    | zero =>
      have := decided_spec h
      simp only [List.forall_mem_map, forall_part v (· ≤ 0) (Int.le_refl 0),
        forall_part v (0 ≤ ·) (Int.le_refl 0)] at this
      exact this
    | vector w =>
      simp only [order] at h
      split at h
      · cases h
      · rename_i hl
        have hl : v.length = w.length := by simpa using hl
        have := decided_spec h
        rw [zip_parts hl (· ≤ ·) (Int.le_refl 0),
          zip_parts hl (fun x y => y ≤ x) (Int.le_refl 0)] at this
        exact this

theorem order_lt_iff {s t : Time} {o : Ordering} (hs : s.isFloat = false)
    (ht : t.isFloat = false) (h : s.order t = .ok o) :
    o = .lt ↔ (∀ i, s.part i ≤ t.part i) ∧ ∃ i, s.part i < t.part i := by
  obtain ⟨hle, hge⟩ := order_part hs ht h
  have hlt : o = .lt ↔ ∃ i, s.part i < t.part i := by
    rw [← not_iff_not, ← Ne, hge]
    simp
  constructor
  · intro ho
    exact ⟨hle.mp (by simp [ho]), hlt.mp ho⟩
  · exact fun hex => hlt.mpr hex.2

theorem order_gt_iff {s t : Time} {o : Ordering} (hs : s.isFloat = false)
    (ht : t.isFloat = false) (h : s.order t = .ok o) :
    o = .gt ↔ (∀ i, t.part i ≤ s.part i) ∧ ∃ i, t.part i < s.part i := by
  obtain ⟨hle, hge⟩ := order_part hs ht h
  have hgt : o = .gt ↔ ∃ i, t.part i < s.part i := by
    rw [← not_iff_not, ← Ne, hle]
    simp
  constructor
  · intro ho
    exact ⟨hge.mp (by simp [ho]), hgt.mp ho⟩
  · exact fun hex => hgt.mpr hex.2

theorem part_nonneg {t : Time} (ht : t.isFloat = false) (h : t.checkNonNegative = .ok ())
    (i : Nat) : 0 ≤ t.part i := by
  cases t with
  | float x => cases ht
  | zero => exact Int.le_refl 0
  | integer n =>
    by_cases hn : n < 0
    · simp [checkNonNegative, isNegative, hn] at h
    · simpa [part] using hn
  | vector v =>
    apply (forall_part v (0 ≤ ·) (Int.le_refl 0)).mp
    intro x hx
    by_cases hn : x < 0
    · have hv : v.any (· < 0) = true := List.any_eq_true.mpr ⟨x, hx, by simpa using hn⟩
      simp [checkNonNegative, isNegative, hv] at h
    · omega

/-- The times that a whole number bounds: they form one line, on which every two compare. -/
def IsScalar : Time → Prop
  | .zero => True
  | .integer _ => True
  | _ => False

theorem IsScalar.not_float {t : Time} (h : t.IsScalar) : t.isFloat = false := by
  cases t with
  | float x => cases h
  | _ => rfl

theorem IsScalar.order {s t : Time} (hs : s.IsScalar) (ht : t.IsScalar) :
    ∃ o, s.order t = .ok o := by
  cases s with
  | zero | integer m =>
    cases t with
    | zero | integer n => exact ⟨_, rfl⟩
    | float x => cases ht
    | vector w => cases ht
  | float x => cases hs
  | vector v => cases hs

theorem IsScalar.part_const {t : Time} (h : t.IsScalar) (i : Nat) : t.part i = t.part 0 := by
  cases t with
  | zero | integer n => rfl
  | float x => cases h
  | vector v => cases h

end EventInvariants.Time
