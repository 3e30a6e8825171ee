import EventInvariants.Proofs.Arrival

namespace EventInvariants

namespace Time

/-- A vector of `n` components, or `zero`, which stands for one. -/
def InDimension (n : Nat) : Time → Prop
  | .zero => True
  | .vector v => v.length = n
  | _ => False

theorem componentOrder_total {d sofar : Ordering} {pairs : List (Int × Int)}
    (hpairs : ∀ xy ∈ pairs, compare xy.1 xy.2 = .eq ∨ compare xy.1 xy.2 = d)
    (hsofar : sofar = .eq ∨ sofar = d) : ∃ o, componentOrder? sofar pairs = some o := by
  induction pairs generalizing sofar with
  | nil => exact ⟨sofar, rfl⟩
  | cons xy pairs ih =>
    obtain ⟨x, y⟩ := xy
    obtain ⟨hxy, hrest⟩ := List.forall_mem_cons.mp hpairs
    rcases hxy with hc | hc
    · simp only [componentOrder?, hc]
      exact ih hrest hsofar
    · rcases hsofar with rfl | rfl
      · cases d <;> simp only [componentOrder?, hc] <;> exact ih hrest (by simp)
      · cases sofar <;> simp only [componentOrder?, hc, if_true] <;> exact ih hrest (by simp)

/-- Components that all go one way decide the order. -/
theorem decided_total {s t : Time} {pairs : List (Int × Int)}
    (h : (∀ xy ∈ pairs, xy.1 ≤ xy.2) ∨ ∀ xy ∈ pairs, xy.2 ≤ xy.1) :
    ∃ o, order.decided s t pairs = .ok o := by
  obtain ⟨o, ho⟩ : ∃ o, componentOrder? .eq pairs = some o := by
    rcases h with h | h
    · refine componentOrder_total (d := .lt) ?_ (.inl rfl)
      intro xy hxy
      have := h xy hxy
      rw [Int.compare_eq_eq, Int.compare_eq_lt]
      omega
    · refine componentOrder_total (d := .gt) ?_ (.inl rfl)
      intro xy hxy
      have := h xy hxy
      rw [Int.compare_eq_eq, Int.compare_eq_gt]
      omega
  exact ⟨o, by simp [order.decided, ho]⟩

/-- Times of one dimension compare if one is nowhere less than the other. -/
theorem InDimension.order {n : Nat} {s t : Time} (hs : s.InDimension n) (ht : t.InDimension n)
    (h : (∀ i, s.part i ≤ t.part i) ∨ ∀ i, t.part i ≤ s.part i) : ∃ o, s.order t = .ok o := by
  cases s with
  | integer m | float x => cases hs
  | zero =>
    cases t with
    | integer m | float x => cases ht
    | zero => exact ⟨.eq, rfl⟩
    | vector w =>
      apply decided_total
      simp only [List.forall_mem_map]
      rcases h with h | h
      · exact .inl ((forall_part w (0 ≤ ·) (Int.le_refl 0)).mpr h)
      · exact .inr ((forall_part w (· ≤ 0) (Int.le_refl 0)).mpr h)
  | vector v =>
    cases t with
    | integer m | float x => cases ht
    | zero =>
      apply decided_total
      simp only [List.forall_mem_map]
      rcases h with h | h
      · exact .inl ((forall_part v (· ≤ 0) (Int.le_refl 0)).mpr h)
      · exact .inr ((forall_part v (0 ≤ ·) (Int.le_refl 0)).mpr h)
    | vector w =>
      have hl : v.length = w.length := hs.trans ht.symm
      simp only [Time.order, hl, ne_eq, not_true_eq_false, if_false]
      apply decided_total
      rcases h with h | h
      · exact .inl ((zip_parts hl (· ≤ ·) (Int.le_refl 0)).mpr h)
      · exact .inr ((zip_parts hl (fun x y => y ≤ x) (Int.le_refl 0)).mpr h)

/-- What compares with a whole number is on the line of whole numbers. -/
theorem scalar_of_order {t : Time} {n : Int} {o : Ordering} (h : t.order (.integer n) = .ok o) :
    t.IsScalar := by
  cases t with
  | zero | integer m => trivial
  | float x => cases h
  | vector v => cases h

theorem inDimension_of_order {t : Time} {v : List Int} {o : Ordering}
    (h : t.order (.vector v) = .ok o) : t.InDimension v.length := by
  cases t with
  | zero => trivial
  | integer m => cases h
  | float x => cases h
  | vector u =>
    simp only [Time.order] at h
    split at h
    · cases h
    · rename_i hl
      change u.length = v.length
      omega

/-- Times that compare with one bound, of whole numbers or a vector, compare with each other if one
is nowhere less than the other. -/
theorem order_total {b s t : Time} {o o' : Ordering}
    (hb : (∃ n, b = .integer n) ∨ ∃ v, b = .vector v) (hs : s.order b = .ok o)
    (ht : t.order b = .ok o') (h : (∀ i, s.part i ≤ t.part i) ∨ ∀ i, t.part i ≤ s.part i) :
    ∃ o, s.order t = .ok o := by
  rcases hb with ⟨n, rfl⟩ | ⟨v, rfl⟩
  · exact (scalar_of_order hs).order (scalar_of_order ht)
  · exact (inDimension_of_order hs).order (inDimension_of_order ht) h

end Time

/-- What a clock shows has been compared with the bound. -/
def Clock.IsSettled (w : Bound) : Clock → Prop
  | .running t => w.settle t = .ok (.running t)
  | _ => True

namespace Bound
variable {w : Bound} {t delta : Time} {c c' : Clock}

theorem settle_settled (h : w.settle t = .ok c) : c.IsSettled w := by
  obtain ⟨o, _, hc⟩ := settle_ok h
  split at hc
  · subst hc
    trivial
  · subst hc
    exact h

theorem advance_settled (hc : c.IsSettled w) (h : w.advance delta c = .ok c') :
    c'.IsSettled w := by
  cases c with
  | idle | saturated =>
    cases h
    exact hc
  | running s =>
    obtain ⟨t, _, h⟩ := Result.bind_ok.mp h
    exact settle_settled h

/-- A time that is still shown is on the near side of the bound. -/
theorem settled_order (h : Clock.IsSettled w (.running t)) :
    ∃ o, t.order w.value = .ok o ∧ isPast w.direction o = false := by
  obtain ⟨o, ho, hc⟩ := settle_ok h
  cases hp : isPast w.direction o with
  | false => exact ⟨o, ho, hp⟩
  | true => simp [hp] at hc

end Bound

namespace Monitor
variable {m : Monitor} {g : Graph} {inv : Invariant} {w : Bound}

theorem enter_settled {p q : Phase} {c c' : Clock} {l : Letter} (hw : m.window = some w)
    (hc : c.IsSettled w) (h : m.enter p c l = .ok (q, c')) : c'.IsSettled w := by
  refine enter_keeps trivial ?_ hc h
  intro w' b hw' hs
  rw [hw] at hw'
  cases hw'
  exact Bound.settle_settled hs

theorem step_settled {p q : Phase} {c c' : Clock} {l : Letter} {delta : Time}
    (hw : m.window = some w) (hc : c.IsSettled w) (h : m.step p c l delta = .ok (q, c')) :
    c'.IsSettled w := by
  obtain ⟨b, hb, h⟩ := Result.bind_ok.mp h
  simp only [advance, hw, lift_ok] at hb
  exact enter_settled hw (Bound.advance_settled hc hb) h

theorem run_settled {path : Path} {p : Phase} {c : Clock} (hw : m.window = some w)
    (h : m.run g inv path = .ok (p, c)) : c.IsSettled w := by
  induction path using List.reverseRecOn generalizing p c with
  | nil =>
    cases h
    trivial
  | append_singleton path s ih =>
    rw [run_append] at h
    obtain ⟨⟨q, b⟩, hq, h⟩ := Result.bind_ok.mp h
    exact step_settled hw (ih hq) h

theorem severity_total {x y : Clock} (hw : m.window = some w) (h : w.Leads x y)
    (hrun : ∀ s t, x = .running s → y = .running t → ∃ o, s.order t = .ok o) :
    ∃ o, m.severity x y = .ok o := by
  simp only [severity, hw]
  cases x with
  | idle | saturated => cases y <;> cases hd : w.direction <;> simp_all [Bound.Leads]
  | running s =>
    cases y with
    | idle => cases h
    | saturated => simp_all [Bound.Leads]
    | running t =>
      obtain ⟨o, ho⟩ := hrun s t rfl rfl
      cases hd : w.direction <;> simp [ho, Fault.lift]

/-- A clock that leads another is told to be as severe or more, if both are settled. -/
theorem severity_of_leads {x y : Clock} (hx : x.IsExact) (hy : y.IsExact)
    (hset : ∀ w, m.window = some w → x.IsSettled w ∧ y.IsSettled w)
    (hb : ∀ w, m.window = some w → (∃ n, w.value = .integer n) ∨ ∃ v, w.value = .vector v)
    (h : m.Leads x y) : m.severity x y = .ok .eq ∨ m.severity x y = .ok .gt := by
  have hsome : ∃ o, m.severity x y = .ok o := by
    cases hw : m.window with
    | none => exact ⟨.eq, severity_untimed hw x y⟩
    | some w =>
      obtain ⟨hxset, hyset⟩ := hset w hw
      have hlead : w.Leads x y := by simpa [Leads, hw] using h
      apply severity_total hw hlead
      rintro s t rfl rfl
      obtain ⟨o, ho, _⟩ := Bound.settled_order hxset
      obtain ⟨o', ho', _⟩ := Bound.settled_order hyset
      apply Time.order_total (hb w hw) ho ho'
      cases hd : w.direction with
      | upper => exact .inr (by simpa [Bound.Leads, hd] using hlead)
      | lower => exact .inl (by simpa [Bound.Leads, hd] using hlead)
  obtain ⟨o, ho⟩ := hsome
  have hne := (severity_leads hx hy ho).mpr h
  rw [ho]
  cases o with
  | lt => exact absurd rfl hne
  | eq => exact .inl rfl
  | gt => exact .inr rfl

end Monitor
end EventInvariants
