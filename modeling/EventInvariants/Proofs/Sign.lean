import EventInvariants.Proofs.Readings
import Mathlib

namespace EventInvariants

namespace Time

/-- Equal to `zero`, of whatever kind. -/
def IsNull (t : Time) : Prop :=
  t.order .zero = .ok .eq

def sign (t : Time) : Time :=
  match t.order .zero with
  | .ok .gt => .integer 1
  | _ => .zero

theorem sign_not_float (t : Time) : t.sign.isFloat = false := by
  unfold sign
  split <;> rfl

theorem sign_nonneg (t : Time) : t.sign.checkNonNegative = .ok () := by
  unfold sign
  split <;> rfl

open Float.Model (UnpackedFloat)

section Double
variable {x y : Float}

theorem float_lt_iff : x < y ↔ x.toModel.unpack.compare y.toModel.unpack = some .lt := by
  change decide (x.toModel < y.toModel) = true ↔ _
  rw [decide_eq_true_iff]
  change (x.toModel.unpack.compare y.toModel.unpack == some .lt) = true ↔ _
  simp

theorem float_beq_iff : (x == y) = true ↔ x.toModel.unpack.compare y.toModel.unpack = some .eq := by
  change (x.toModel.unpack.compare y.toModel.unpack == some .eq) = true ↔ _
  simp

theorem unpack_zero : (0 : Float).toModel.unpack = .zero .positive := rfl

/-- Which sign a double has is in its first field. -/
theorem floatOrder_zero (x : Float) :
    floatOrder x 0 = match x.toModel.unpack with
      | .notANumber => .error .notANumber
      | .zero _ => .ok .eq
      | .infinity .positive => .ok .gt
      | .finite .positive _ _ _ => .ok .gt
      | .infinity .negative => .ok .lt
      | .finite .negative _ _ _ => .ok .lt := by
  simp only [floatOrder, float_lt_iff, float_beq_iff, unpack_zero]
  rcases x.toModel.unpack with s | _ | s | ⟨s, m, e, hm⟩
  · cases s <;> simp [UnpackedFloat.compare]
  · simp [UnpackedFloat.compare]
  · simp [UnpackedFloat.compare]
  · cases s <;> simp [UnpackedFloat.compare]

theorem floatOrder_null {a b : UnpackedFloat.Sign} (hx : x.toModel.unpack = .zero a)
    (hy : y.toModel.unpack = .zero b) : floatOrder x y = .ok .eq := by
  simp [floatOrder, float_lt_iff, float_beq_iff, hx, hy, UnpackedFloat.compare]

theorem null_float : (Time.float x).IsNull ↔ ∃ a, x.toModel.unpack = .zero a := by
  change floatOrder x 0 = _ ↔ _
  rw [floatOrder_zero]
  rcases x.toModel.unpack with s | _ | s | ⟨s, m, e, hm⟩
  · cases s <;> simp
  · simp
  · simp
  · cases s <;> simp

/-- A null double changes nothing in a sum but the sign of another null one. -/
theorem floatOrder_add (hx : (Time.float x).IsNull) : floatOrder (x + y) 0 = floatOrder y 0 := by
  obtain ⟨a, ha⟩ := null_float.mp hx
  have hsum : (x + y).toModel =
      Float.Model.pack (UnpackedFloat.add .binary64 x.toModel.unpack y.toModel.unpack) := rfl
  -- the lemmas on packing doubles come with the whole library only
  have hpack : Float.Model.pack y.toModel.unpack = y.toModel := by
    obtain ⟨⟨bits⟩, hvalid⟩ := y.toModel
    simp [Float.Model.pack, Float.Model.unpack, UnpackedFloat.pack_unpack_of_valid hvalid]
  have hsame : UnpackedFloat.add .binary64 x.toModel.unpack y.toModel.unpack = y.toModel.unpack →
      floatOrder (x + y) 0 = floatOrder y 0 := by
    intro h
    rw [floatOrder_zero, floatOrder_zero, hsum, h, hpack]
  rw [ha] at hsame
  cases hy : y.toModel.unpack with
  | zero b =>
    have hnull : ∃ c, (x + y).toModel.unpack = .zero c := by
      rw [hsum, ha, hy]
      obtain ⟨c, hc⟩ : ∃ c, UnpackedFloat.add .binary64 (.zero a) (.zero b) = .zero c := by
        simp only [UnpackedFloat.add]
        split
        · exact ⟨_, rfl⟩
        · exact ⟨_, rfl⟩
      rw [hc]
      exact ⟨c, UnpackedFloat.unpack_packedZero⟩
    exact (null_float.mpr hnull).trans (null_float.mpr ⟨b, hy⟩).symm
  | infinity b | notANumber | finite b m e hm =>
    apply hsame
    rw [hy]
    rfl

end Double

theorem IsNull.part {t : Time} (h : t.IsNull) (i : Nat) : t.part i = 0 := by
  cases hf : t.isFloat with
  | true => cases t <;> first | rfl | cases hf
  | false =>
    obtain ⟨hle, hge⟩ := order_part hf rfl h
    exact Int.le_antisymm (hle.mp (by simp) i) (hge.mp (by simp) i)

theorem IsNull.order {s t : Time} {o : Ordering} (hs : s.IsNull) (ht : t.IsNull)
    (h : s.order t = .ok o) : o = .eq := by
  have measured (hsf : s.isFloat = false) (htf : t.isFloat = false) : o = .eq := by
    obtain ⟨hle, hge⟩ := order_part hsf htf h
    have hgt : o ≠ .gt := hle.mpr fun i => by rw [hs.part, ht.part]
    have hlt : o ≠ .lt := hge.mpr fun i => by rw [hs.part, ht.part]
    cases o <;> simp_all
  cases s with
  | float x =>
    obtain ⟨a, ha⟩ := null_float.mp hs
    cases t with
    | zero => exact Except.ok.inj (h.symm.trans hs)
    | integer n | vector v => cases h
    | float y =>
      obtain ⟨b, hb⟩ := null_float.mp ht
      exact Except.ok.inj (h.symm.trans (floatOrder_null ha hb))
  | zero =>
    cases t with
    | zero | integer n | vector v => exact measured rfl rfl
    | float y =>
      obtain ⟨b, hb⟩ := null_float.mp ht
      exact Except.ok.inj (h.symm.trans (floatOrder_null unpack_zero hb))
  | integer m | vector u =>
    cases t with
    | zero | integer n | vector v => exact measured rfl rfl
    | float y => cases h

/-- A duration is null or positive. -/
theorem order_zero_of_nonneg {t : Time} (h : t.checkNonNegative = .ok ()) :
    ∃ o, t.order .zero = .ok o ∧ o ≠ .lt := by
  cases t with
  | zero => exact ⟨.eq, rfl, by simp⟩
  | integer n =>
    have hn := part_nonneg (t := .integer n) rfl h 0
    exact ⟨compare n 0, rfl, by rw [Ne, Int.compare_eq_lt]; exact Int.not_lt.mpr hn⟩
  | vector v =>
    have hv := part_nonneg (t := .vector v) rfl h
    obtain ⟨o, ho⟩ := InDimension.order (s := .vector v) (t := .zero) rfl trivial (.inr hv)
    exact ⟨o, ho, (order_part rfl rfl ho).2.mpr hv⟩
  | float x =>
    change ∃ o, floatOrder x 0 = .ok o ∧ o ≠ .lt
    have hnan : x.toModel.unpack.isNaN ≠ true := by
      intro hnan
      rw [checkNonNegative, if_pos (show x.isNaN = true from hnan)] at h
      cases h
    have hneg : x.toModel.unpack.compare (.zero .positive) ≠ some .lt := by
      intro hneg
      rw [← unpack_zero, ← float_lt_iff] at hneg
      rw [checkNonNegative, if_neg (show ¬ x.isNaN = true from hnan),
        if_pos (show isNegative (.float x) = true from decide_eq_true hneg)] at h
      cases h
    rw [floatOrder_zero]
    cases hu : x.toModel.unpack with
    | notANumber => simp [hu, UnpackedFloat.isNaN] at hnan
    | zero a => exact ⟨.eq, rfl, by simp⟩
    | infinity a | finite a m e hm => cases a <;> simp_all [UnpackedFloat.compare]

/-- After a null time, a sum compares with `zero` as what was added. -/
theorem IsNull.add {s d t : Time} {o : Ordering} (hs : s.IsNull) (hd : d.checkNonNegative = .ok ())
    (h : s.add d = .ok t) (ho : t.order .zero = .ok o) : d.order .zero = .ok o := by
  obtain ⟨o', ho', _⟩ := order_zero_of_nonneg hd
  have measured (hsf : s.isFloat = false) (hdf : d.isFloat = false) : d.order .zero = .ok o := by
    obtain ⟨htf, hpart⟩ := add_part hsf hdf h
    have hsame : ∀ i, t.part i = d.part i := fun i => by rw [hpart, hs.part, Int.zero_add]
    obtain ⟨hle, hge⟩ := order_part htf rfl ho
    obtain ⟨hle', hge'⟩ := order_part hdf rfl ho'
    simp only [hsame] at hle hge
    rw [ho']
    have h1 := hle.trans hle'.symm
    have h2 := hge.trans hge'.symm
    cases o <;> cases o' <;> simp_all
  cases s with
  | zero =>
    cases h
    exact ho
  | float x =>
    cases d with
    | zero =>
      cases h
      exact hs.symm.trans ho
    | integer n | vector v => cases h
    | float y =>
      simp only [Time.add] at h
      split at h
      · cases h
      · cases h
        exact (floatOrder_add hs).symm.trans ho
  | integer m | vector u =>
    cases d with
    | zero | integer n | vector v => exact measured rfl rfl
    | float y => cases h

theorem sign_order {t : Time} {o : Ordering} (h : t.order .zero = .ok o) (ho : o ≠ .lt) :
    t.sign.order .zero = .ok o := by
  unfold sign
  rw [h]
  cases o with
  | lt => exact absurd rfl ho
  | eq => rfl
  | gt => rfl

end Time

/-- The second clock is the first, its time being replaced by `zero`, which it must be equal to. -/
inductive Clock.Reduces : Clock → Clock → Prop
  | idle : Reduces .idle .idle
  | saturated : Reduces .saturated .saturated
  | running {t : Time} (h : t.IsNull) : Reduces (.running t) (.running .zero)

namespace Bound
variable {w : Bound} {c c' b : Clock} {delta t : Time}

/-- A bound of `zero` tells null times from positive ones. -/
theorem settle_reduces (hw : w.value = .zero) {o : Ordering} (ho : delta.order .zero = .ok o)
    (hlt : o ≠ .lt) (ht : t.order .zero = .ok o) (h : w.settle t = .ok c) :
    ∃ c', w.settle delta.sign = .ok c' ∧ c.Reduces c' := by
  have hsign := Time.sign_order ho hlt
  simp only [settle, hw, ht, hsign, Result.ok_bind, Result.pure_eq, Except.ok.injEq] at h ⊢
  refine ⟨_, rfl, ?_⟩
  subst h
  cases o with
  | lt => exact absurd rfl hlt
  | gt => cases hd : w.direction <;> exact .saturated
  | eq =>
    have hzero : delta.sign = .zero := by rw [Time.sign, ho]
    cases hd : w.direction with
    | lower => exact .saturated
    | upper =>
      rw [hzero]
      exact .running ht

theorem start_reduces (hw : w.value = .zero) (h : w.start = .ok c) : c.Reduces c := by
  have hnull : Time.order .zero .zero = .ok .eq := rfl
  obtain ⟨c', hc', hred⟩ := settle_reduces hw hnull (by simp) hnull h
  rw [show Time.sign .zero = .zero from rfl] at hc'
  rw [start, hc'] at h
  cases h
  exact hred

theorem advance_reduces (hw : w.value = .zero) (hd : delta.checkNonNegative = .ok ())
    (hc : c.Reduces c') (h : w.advance delta c = .ok b) :
    ∃ b', w.advance delta.sign c' = .ok b' ∧ b.Reduces b' := by
  cases hc with
  | idle =>
    cases h
    exact ⟨.idle, rfl, .idle⟩
  | saturated =>
    cases h
    exact ⟨.saturated, rfl, .saturated⟩
  | running hs =>
    obtain ⟨t, ht, h⟩ := Result.bind_ok.mp h
    obtain ⟨o, ho, hlt⟩ := Time.order_zero_of_nonneg hd
    have hto : t.order .zero = .ok o := by
      obtain ⟨o', ho', _⟩ := settle_ok h
      rw [hw] at ho'
      have := hs.add hd ht ho'
      rw [ho] at this
      cases this
      exact ho'
    exact settle_reduces hw ho hlt hto h

end Bound

namespace Monitor
variable {m : Monitor} {p q : Phase} {l : Letter} {c c' b x x' y y' : Clock} {delta : Time}

/-- The tables do not look at the time of a running clock. -/
theorem table_running (m : Monitor) (p : Phase) (l : Letter) (s t : Time) :
    m.table p (.running t) l = m.table p (.running s) l ∨
      ∃ q, m.table p (.running s) l = .ok (q, .running s) ∧
        m.table p (.running t) l = .ok (q, .running t) := by
  cases m with
  | followedBy | neverFollowedBy | precedes => exact .inl rfl
  | timedFollowedBy w =>
    cases p with
    | start | failed | matched => exact .inl rfl
    | seen =>
      obtain ⟨a, b, _⟩ := l
      cases a <;> cases b <;> cases hd : w.direction <;>
        simp [table, enterTimedFollowedBy, Bound.met, hd]
  | timedPrecedes w =>
    cases p with
    | start | failed => exact .inl rfl
    | seen | matched =>
      obtain ⟨a, b, _⟩ := l
      cases a <;> cases b <;> cases hd : w.direction <;>
        simp [table, enterTimedPrecedes, Bound.met, hd]

variable (hm : ∀ w, m.window = some w → w.value = .zero)
include hm

theorem table_reduces (hc : c.Reduces c') (h : m.table p c l = .ok (q, b)) :
    ∃ b', m.table p c' l = .ok (q, b') ∧ b.Reduces b' := by
  -- a clock that the table gives back is its own reduct, unless it is the running one
  have hself {c : Clock} (hc : c.Reduces c) (h : m.table p c l = .ok (q, b)) : b.Reduces b := by
    rcases table_clock h with rfl | rfl | ⟨w, hw, hb⟩
    · exact hc
    · exact .idle
    · exact Bound.start_reduces (hm w hw) hb
  cases hc with
  | idle => exact ⟨b, h, hself .idle h⟩
  | saturated => exact ⟨b, h, hself .saturated h⟩
  | @running s hs =>
    rcases table_running m p l s .zero with hsame | ⟨r, hr, hzero⟩
    · exact ⟨b, hsame.trans h, hself (.running rfl) (hsame.trans h)⟩
    · rw [hr] at h
      cases h
      exact ⟨.running .zero, hzero, .running hs⟩

theorem enter_reduces (hc : c.Reduces c') (h : m.enter p c l = .ok (q, b)) :
    ∃ b', m.enter p c' l = .ok (q, b') ∧ b.Reduces b' := by
  obtain ⟨⟨r, d⟩, hr, h⟩ := Result.bind_ok.mp h
  obtain ⟨d', hr', hd⟩ := table_reduces hm hc hr
  simp only [enter, hr', Result.ok_bind]
  dsimp only at h
  split at h
  · cases h
    exact ⟨.idle, by simp_all, .idle⟩
  · cases h
    exact ⟨d', by simp_all, hd⟩

/-- A step over an edge is the step over its sign. -/
theorem step_reduces (hd : m.window ≠ none → delta.checkNonNegative = .ok ()) (hc : c.Reduces c')
    (h : m.step p c l delta = .ok (q, b)) :
    ∃ b', m.step p c' l delta.sign = .ok (q, b') ∧ b.Reduces b' := by
  obtain ⟨d, hadv, h⟩ := Result.bind_ok.mp h
  obtain ⟨d', hadv', hred⟩ : ∃ d', m.advance c' delta.sign = .ok d' ∧ d.Reduces d' := by
    unfold advance at hadv ⊢
    cases hw : m.window with
    | none =>
      simp only [hw, Except.ok.injEq] at hadv ⊢
      exact ⟨c', rfl, hadv ▸ hc⟩
    | some w =>
      simp only [hw, lift_ok] at hadv ⊢
      exact Bound.advance_reduces (hm w hw) (hd (by simp [hw])) hc hadv
  rw [step, hadv']
  exact enter_reduces hm hred h

theorem initial_reduces (h : m.initial l = .ok (q, b)) : b.Reduces b := by
  obtain ⟨b', hb', hred⟩ := enter_reduces hm .idle h
  rw [initial, hb'] at h
  cases h
  exact hred

omit hm in
theorem severity_reduces {o : Ordering} (hx : x.Reduces x') (hy : y.Reduces y')
    (h : m.severity x y = .ok o) : m.severity x' y' = .ok o := by
  cases hw : m.window with
  | none => rwa [severity_untimed hw] at h ⊢
  | some w =>
    cases hx with
    | idle | saturated =>
      cases hy <;> simpa [severity, hw] using h
    | running hs =>
      cases hy with
      | idle | saturated => simpa [severity, hw] using h
      | running ht =>
        obtain ⟨r, hr, rfl⟩ := severity_running hw h
        obtain rfl := hs.order ht hr
        have hzero : Time.order .zero .zero = .ok .eq := rfl
        cases hd : w.direction <;> simp [severity, hw, hd, hzero, Fault.lift]

end Monitor
end EventInvariants
