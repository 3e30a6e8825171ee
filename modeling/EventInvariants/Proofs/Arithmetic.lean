import EventInvariants.Proofs.Idempotence

namespace EventInvariants

theorem Whole.fits_iff {n : Int} : fits n = true ↔ least ≤ n ∧ n ≤ greatest := by
  simp only [fits, Bool.and_eq_true, decide_eq_true_eq]

/-- What lies between zero and a number in range is in range. -/
theorem Whole.fits_of_le {m n : Int} (h0 : 0 ≤ m) (hle : m ≤ n) (h : fits n = true) :
    fits m = true := by
  have hleast : least ≤ 0 := by decide
  rw [fits_iff] at h ⊢
  omega

namespace Time
variable {a b c d s t p : Time} {o o' : Ordering} {u v w : List Int} {m n : Int}

/-- The sum of two times of one kind, component by component. -/
inductive Sums : Time → Time → Time → Prop where
  | zero_left (t : Time) : Sums .zero t t
  | zero_right (t : Time) : Sums t .zero t
  | integer (m n : Int) : Sums (.integer m) (.integer n) (.integer (m + n))
  | vector {v w : List Int} (h : v.length = w.length) :
    Sums (.vector v) (.vector w) (.vector (List.zipWith (· + ·) v w))

def Fits : Time → Prop
  | .integer n => Whole.fits n = true
  | .vector v => ∀ x ∈ v, Whole.fits x = true
  | .zero | .float _ => True

theorem zero_add (t : Time) : Time.zero.add t = .ok t := rfl

theorem add_zero (t : Time) : t.add .zero = .ok t := by
  cases t <;> rfl

theorem add_integer :
    (Time.integer m).add (.integer n) = .ok s ↔
      s = .integer (m + n) ∧ Whole.fits (m + n) = true := by
  by_cases h : Whole.fits (m + n) = true
  · simp [add, Whole.add?, h, eq_comm]
  · simp [add, Whole.add?, h]

theorem addVectors?_eq (v w : List Int) :
    addVectors? v w =
      if (List.zipWith (· + ·) v w).all Whole.fits then some (List.zipWith (· + ·) v w)
      else none := by
  induction v generalizing w with
  | nil => cases w <;> rfl
  | cons x v ih =>
    cases w with
    | nil => rfl
    | cons y w =>
      rw [addVectors?, ih, Whole.add?]
      by_cases hfirst : Whole.fits (x + y) = true
      · by_cases hrest : (List.zipWith (· + ·) v w).all Whole.fits = true
        · simp [hfirst, hrest]
        · simp [hfirst, hrest]
      · simp [hfirst]

theorem add_vector :
    (Time.vector v).add (.vector w) = .ok s ↔
      v.length = w.length ∧ s = .vector (List.zipWith (· + ·) v w) ∧
        ∀ x ∈ List.zipWith (· + ·) v w, Whole.fits x = true := by
  rw [add, addVectors?_eq, ← List.all_eq_true]
  by_cases hl : v.length = w.length
  · by_cases h : (List.zipWith (· + ·) v w).all Whole.fits = true
    · simp [hl, h, eq_comm]
    · simp [hl, h]
  · simp [hl]

/-- A sum that is given is exact. -/
theorem sums_of_add (ha : a.isFloat = false) (hb : b.isFloat = false) (h : a.add b = .ok s) :
    a.Sums b s ∧ (a.Fits → b.Fits → s.Fits) := by
  cases a with
  | float x => cases ha
  | zero =>
    cases h
    exact ⟨.zero_left b, fun _ hb => hb⟩
  | integer m =>
    cases b with
    | float x => cases hb
    | vector w => cases h
    | zero =>
      cases h
      exact ⟨.zero_right _, fun ha _ => ha⟩
    | integer n =>
      obtain ⟨rfl, hfits⟩ := add_integer.mp h
      exact ⟨.integer m n, fun _ _ => hfits⟩
  | vector v =>
    cases b with
    | float x => cases hb
    | integer n => cases h
    | zero =>
      cases h
      exact ⟨.zero_right _, fun ha _ => ha⟩
    | vector w =>
      obtain ⟨hl, rfl, hfits⟩ := add_vector.mp h
      exact ⟨.vector hl, fun _ _ => hfits⟩

theorem add_of_sums (h : a.Sums b s) (hs : s.Fits) : a.add b = .ok s := by
  cases h with
  | zero_left => exact zero_add _
  | zero_right => exact add_zero _
  | integer m n => exact add_integer.mpr ⟨rfl, hs⟩
  | vector hl => exact add_vector.mpr ⟨hl, rfl, hs⟩

theorem add_comm_of_ok (ha : a.isFloat = false) (hb : b.isFloat = false) (h : a.add b = .ok s) :
    b.add a = .ok s := by
  obtain ⟨hsum, _⟩ := sums_of_add ha hb h
  cases hsum with
  | zero_left => exact add_zero _
  | zero_right => exact zero_add _
  | integer m n =>
    obtain ⟨_, hfits⟩ := add_integer.mp h
    rw [Int.add_comm] at hfits ⊢
    exact add_integer.mpr ⟨rfl, hfits⟩
  | vector hl =>
    obtain ⟨_, _, hfits⟩ := add_vector.mp h
    rw [List.zipWith_comm_of_comm Int.add_comm] at hfits ⊢
    exact add_vector.mpr ⟨hl.symm, rfl, hfits⟩

theorem add_comm_iff (ha : a.isFloat = false) (hb : b.isFloat = false) :
    a.add b = .ok s ↔ b.add a = .ok s :=
  ⟨add_comm_of_ok ha hb, add_comm_of_ok hb ha⟩

theorem nonneg_of_vector (h : (Time.vector v).checkNonNegative = .ok ()) : ∀ x ∈ v, 0 ≤ x :=
  (forall_part v (0 ≤ ·) (Int.le_refl 0)).mpr (part_nonneg rfl h)

theorem zipWith_add_assoc (u v w : List Int) :
    List.zipWith (· + ·) (List.zipWith (· + ·) u v) w =
      List.zipWith (· + ·) u (List.zipWith (· + ·) v w) := by
  induction u generalizing v w with
  | nil => simp
  | cons x u ih =>
    cases v with
    | nil => simp
    | cons y v =>
      cases w with
      | nil => simp
      | cons z w => simp [ih, Int.add_assoc]

/-- If three vectors that are nowhere negative add up in range, so do the last two of them. -/
theorem fits_of_zipWith (hu : ∀ x ∈ u, 0 ≤ x) (hv : ∀ x ∈ v, 0 ≤ x) (hw : ∀ x ∈ w, 0 ≤ x)
    (hl : u.length = v.length)
    (h : ∀ x ∈ List.zipWith (· + ·) u (List.zipWith (· + ·) v w), Whole.fits x = true) :
    ∀ x ∈ List.zipWith (· + ·) v w, Whole.fits x = true := by
  induction u generalizing v w with
  | nil =>
    cases v with
    | nil => simp
    | cons y v => simp at hl
  | cons x u ih =>
    cases v with
    | nil => simp
    | cons y v =>
      cases w with
      | nil => simp
      | cons z w =>
        obtain ⟨hx, hu⟩ := List.forall_mem_cons.mp hu
        obtain ⟨hy, hv⟩ := List.forall_mem_cons.mp hv
        obtain ⟨hz, hw⟩ := List.forall_mem_cons.mp hw
        obtain ⟨hfirst, hrest⟩ := List.forall_mem_cons.mp h
        refine List.forall_mem_cons.mpr ⟨?_, ih hu hv hw (by simpa using hl) hrest⟩
        dsimp only at hfirst ⊢
        exact Whole.fits_of_le (by omega) (by omega) hfirst

/-- Sums of times that do not run backwards can be regrouped. -/
theorem add_assoc_of_ok (ha : a.isFloat = false) (hb : b.isFloat = false) (hc : c.isFloat = false)
    (ha0 : a.checkNonNegative = .ok ()) (hb0 : b.checkNonNegative = .ok ())
    (hc0 : c.checkNonNegative = .ok ()) (hp : a.add b = .ok p) (hs : p.add c = .ok s) :
    ∃ q, b.add c = .ok q ∧ a.add q = .ok s := by
  obtain ⟨hsum, _⟩ := sums_of_add ha hb hp
  cases hsum with
  | zero_left => exact ⟨s, hs, zero_add s⟩
  | zero_right => exact ⟨c, zero_add c, hs⟩
  | integer k m =>
    cases c with
    | float x => cases hc
    | vector w => cases hs
    | zero =>
      cases hs
      exact ⟨_, add_zero _, hp⟩
    | integer n =>
      obtain ⟨rfl, hfits⟩ := add_integer.mp hs
      have hk : 0 ≤ k := part_nonneg rfl ha0 0
      have hm : 0 ≤ m := part_nonneg rfl hb0 0
      have hn : 0 ≤ n := part_nonneg rfl hc0 0
      rw [Int.add_assoc] at hfits ⊢
      exact ⟨.integer (m + n),
        add_integer.mpr ⟨rfl, Whole.fits_of_le (by omega) (by omega) hfits⟩,
        add_integer.mpr ⟨rfl, hfits⟩⟩
  | @vector u v hl =>
    cases c with
    | float x => cases hc
    | integer n => cases hs
    | zero =>
      cases hs
      exact ⟨_, add_zero _, hp⟩
    | vector w =>
      obtain ⟨hl', rfl, hfits⟩ := add_vector.mp hs
      rw [List.length_zipWith] at hl'
      rw [zipWith_add_assoc] at hfits ⊢
      have hrest := fits_of_zipWith (nonneg_of_vector ha0) (nonneg_of_vector hb0)
        (nonneg_of_vector hc0) hl hfits
      refine ⟨_, add_vector.mpr ⟨by omega, rfl, hrest⟩, add_vector.mpr ⟨?_, rfl, hfits⟩⟩
      rw [List.length_zipWith]
      omega

theorem add_assoc_iff (ha : a.isFloat = false) (hb : b.isFloat = false) (hc : c.isFloat = false)
    (ha0 : a.checkNonNegative = .ok ()) (hb0 : b.checkNonNegative = .ok ())
    (hc0 : c.checkNonNegative = .ok ()) :
    (a.add b >>= fun p => p.add c) = .ok s ↔ (b.add c >>= fun q => a.add q) = .ok s := by
  simp only [Result.bind_ok]
  constructor
  · intro hleft
    obtain ⟨p, hp, hs⟩ := hleft
    exact add_assoc_of_ok ha hb hc ha0 hb0 hc0 hp hs
  · -- the other way round it is the same for the times in reverse
    intro hright
    obtain ⟨q, hq, hs⟩ := hright
    have hqf := (add_part hb hc hq).1
    obtain ⟨p, hp, hs⟩ := add_assoc_of_ok hc hb ha hc0 hb0 ha0 (add_comm_of_ok hb hc hq)
      (add_comm_of_ok ha hqf hs)
    have hpf := (add_part hb ha hp).1
    exact ⟨p, add_comm_of_ok hb ha hp, add_comm_of_ok hc hpf hs⟩

/-- What a whole number can be added to is on the line of whole numbers, and so is the sum. -/
theorem scalar_of_add (ha : a.isFloat = false) (h : a.add (.integer n) = .ok s) :
    a.IsScalar ∧ s.IsScalar := by
  obtain ⟨hsum, _⟩ := sums_of_add ha rfl h
  cases hsum <;> exact ⟨trivial, trivial⟩

theorem inDimension_of_add (ha : a.isFloat = false) (h : a.add (.vector v) = .ok s) :
    a.InDimension v.length ∧ s.InDimension v.length := by
  obtain ⟨hsum, _⟩ := sums_of_add ha rfl h
  cases hsum with
  | zero_left => exact ⟨trivial, rfl⟩
  | vector hl => exact ⟨hl, by simp [InDimension, hl]⟩

/-- What is added does not go backwards, so the sum is not less. -/
theorem order_add_self (ha : a.isFloat = false) (hd : d.isFloat = false)
    (hd0 : d.checkNonNegative = .ok ()) (h : a.add d = .ok s) :
    a.order s = .ok .lt ∨ a.order s = .ok .eq := by
  obtain ⟨hs, hpart⟩ := add_part ha hd h
  have hle : ∀ i, a.part i ≤ s.part i := by
    intro i
    have := part_nonneg hd hd0 i
    rw [hpart]
    omega
  have hsome : ∃ o, a.order s = .ok o := by
    cases d with
    | float x => cases hd
    | zero =>
      rw [add_zero] at h
      cases h
      exact order_self ha
    | integer n =>
      obtain ⟨hascalar, hsscalar⟩ := scalar_of_add ha h
      exact hascalar.order hsscalar
    | vector v =>
      obtain ⟨hadim, hsdim⟩ := inDimension_of_add ha h
      exact hadim.order hsdim (.inl hle)
  obtain ⟨o, ho⟩ := hsome
  have hne := (order_part ha hs ho).1.mpr hle
  rw [ho]
  cases o with
  | lt => exact .inl rfl
  | eq => exact .inr rfl
  | gt => exact absurd rfl hne

theorem order_eq_iff (ha : a.isFloat = false) (hb : b.isFloat = false) (h : a.order b = .ok o) :
    o = .eq ↔ ∀ i, a.part i = b.part i := by
  obtain ⟨hle, hge⟩ := order_part ha hb h
  constructor
  · intro heq i
    subst heq
    exact Int.le_antisymm (hle.mp (by simp) i) (hge.mp (by simp) i)
  · intro heq
    have hnotgt := hle.mpr fun i => Int.le_of_eq (heq i)
    have hnotlt := hge.mpr fun i => Int.le_of_eq (heq i).symm
    cases o with
    | eq => rfl
    | lt => exact absurd rfl hnotlt
    | gt => exact absurd rfl hnotgt

theorem order_swap_iff (ha : a.isFloat = false) (hb : b.isFloat = false) :
    a.order b = .ok o ↔ b.order a = .ok o.swap := by
  refine ⟨order_swap ha hb, fun h => ?_⟩
  have := order_swap hb ha h
  rwa [Ordering.swap_swap] at this

theorem order_add (ha : a.isFloat = false) (hb : b.isFloat = false) (hd : d.isFloat = false)
    (h : a.order b = .ok o) (hs : a.add d = .ok s) (ht : b.add d = .ok t) : s.order t = .ok o := by
  obtain ⟨hsf, hspart⟩ := add_part ha hd hs
  obtain ⟨htf, htpart⟩ := add_part hb hd ht
  obtain ⟨hle, hge⟩ := order_part ha hb h
  have hle' : (∀ i, s.part i ≤ t.part i) ↔ ∀ i, a.part i ≤ b.part i := by
    simp only [hspart, htpart, Int.add_le_add_iff_right]
  have hge' : (∀ i, t.part i ≤ s.part i) ↔ ∀ i, b.part i ≤ a.part i := by
    simp only [hspart, htpart, Int.add_le_add_iff_right]
  have hsome : ∃ o', s.order t = .ok o' := by
    cases d with
    | float x => cases hd
    | zero =>
      rw [add_zero] at hs ht
      cases hs
      cases ht
      exact ⟨o, h⟩
    | integer n => exact (scalar_of_add ha hs).2.order (scalar_of_add hb ht).2
    | vector v =>
      apply (inDimension_of_add ha hs).2.order (inDimension_of_add hb ht).2
      rw [hle', hge', ← hle, ← hge]
      cases o <;> simp
  obtain ⟨o', ho'⟩ := hsome
  obtain ⟨hle'', hge''⟩ := order_part hsf htf ho'
  rw [hle', ← hle] at hle''
  rw [hge', ← hge] at hge''
  rw [ho']
  cases o <;> cases o' <;> simp_all

section
variable {n : Nat}

theorem InDimension.not_float (h : t.InDimension n) : t.isFloat = false := by
  cases t with
  | float x => cases h
  | _ => rfl

theorem InDimension.part_past (h : t.InDimension n) {i : Nat} (hi : n ≤ i) : t.part i = 0 := by
  cases t with
  | zero => rfl
  | integer m | float x => cases h
  | vector v =>
    obtain rfl : v.length = n := h
    exact List.getD_eq_default _ _ hi

theorem InDimension.forall_lt (ha : a.InDimension n) (hb : b.InDimension n) (q : Int → Int → Prop)
    (h0 : q 0 0) : (∀ i < n, q (a.part i) (b.part i)) ↔ ∀ i, q (a.part i) (b.part i) := by
  constructor
  · intro h i
    rcases Nat.lt_or_ge i n with hi | hi
    · exact h i hi
    · rw [ha.part_past hi, hb.part_past hi]
      exact h0
  · exact fun h i _ => h i

theorem InDimension.exists_lt (ha : a.InDimension n) (hb : b.InDimension n) :
    (∃ i < n, a.part i < b.part i) ↔ ∃ i, a.part i < b.part i := by
  constructor
  · intro hlt
    obtain ⟨i, _, hi⟩ := hlt
    exact ⟨i, hi⟩
  · intro hlt
    obtain ⟨i, hi⟩ := hlt
    refine ⟨i, ?_, hi⟩
    apply Nat.lt_of_not_le
    intro hn
    rw [ha.part_past hn, hb.part_past hn] at hi
    exact Int.lt_irrefl 0 hi

/-- Times of one dimension compare in every component at once, or not at all. -/
theorem InDimension.order_iff (ha : a.InDimension n) (hb : b.InDimension n) :
    (a.order b = .ok .lt ↔
      (∀ i < n, a.part i ≤ b.part i) ∧ ∃ i < n, a.part i < b.part i) ∧
    (a.order b = .ok .gt ↔
      (∀ i < n, b.part i ≤ a.part i) ∧ ∃ i < n, b.part i < a.part i) ∧
    (a.order b = .ok .eq ↔ ∀ i < n, a.part i = b.part i) ∧
    (a.order b = .error (.incomparable a b) ↔
      (∃ i < n, a.part i < b.part i) ∧ ∃ i < n, b.part i < a.part i) := by
  rw [ha.forall_lt hb (· ≤ ·) (Int.le_refl 0), hb.forall_lt ha (· ≤ ·) (Int.le_refl 0),
    ha.forall_lt hb (· = ·) rfl, ha.exists_lt hb, hb.exists_lt ha]
  have haf := ha.not_float
  have hbf := hb.not_float
  refine ⟨⟨fun h => (order_lt_iff haf hbf h).mp rfl, ?_⟩,
    ⟨fun h => (order_gt_iff haf hbf h).mp rfl, ?_⟩,
    ⟨fun h => (order_eq_iff haf hbf h).mp rfl, ?_⟩, ?_, ?_⟩
  · intro hbelow
    obtain ⟨hle, hlt⟩ := hbelow
    obtain ⟨o, ho⟩ := ha.order hb (.inl hle)
    rw [ho, (order_lt_iff haf hbf ho).mpr ⟨hle, hlt⟩]
  · intro habove
    obtain ⟨hge, hgt⟩ := habove
    obtain ⟨o, ho⟩ := ha.order hb (.inr hge)
    rw [ho, (order_gt_iff haf hbf ho).mpr ⟨hge, hgt⟩]
  · intro heq
    obtain ⟨o, ho⟩ := ha.order hb (.inl fun i => Int.le_of_eq (heq i))
    rw [ho, (order_eq_iff haf hbf ho).mpr heq]
  · intro h
    apply concurrent_iff.mpr
    intro hcompare
    obtain ⟨o, ho⟩ := ha.order hb hcompare
    rw [ho] at h
    cases h
  · intro hconc
    cases h : a.order b with
    | ok o => exact absurd h (Concurrent.order haf hbf hconc o)
    | error cause => rw [ha.order_error hb h]

end
end Time

/-- Times without doubles are an ordered commutative monoid whose sums are checked: a sum is the
exact one, and it is given where it is in range; it does not depend on the order of the times nor,
if none of them runs backwards, on how they are grouped, and what is added does not make a time
less. Comparing from the other side gives the reverse, vectors compare in all their components at
once, `zero` like one of zeros, and a time that is added on both sides does not change how they
compare. -/
theorem time_ordered_monoid {a b c d : Time} (ha : a.isFloat = false) (hb : b.isFloat = false)
    (hc : c.isFloat = false) (hd : d.isFloat = false) :
    (Time.zero.add a = .ok a ∧ a.add .zero = .ok a) ∧
    (∀ s, a.add b = .ok s ↔ b.add a = .ok s) ∧
    (∀ s, a.add b = .ok s → a.Sums b s ∧ (a.Fits → b.Fits → s.Fits)) ∧
    (∀ s, a.Sums b s → s.Fits → a.add b = .ok s) ∧
    (a.checkNonNegative = .ok () → b.checkNonNegative = .ok () → c.checkNonNegative = .ok () →
      ∀ s, (a.add b >>= fun p => p.add c) = .ok s ↔ (b.add c >>= fun q => a.add q) = .ok s) ∧
    (d.checkNonNegative = .ok () → ∀ s, a.add d = .ok s →
      a.order s = .ok .lt ∨ a.order s = .ok .eq) ∧
    (∀ o, a.order b = .ok o ↔ b.order a = .ok o.swap) ∧
    (∀ n, a.InDimension n → b.InDimension n →
      (a.order b = .ok .lt ↔
        (∀ i < n, a.part i ≤ b.part i) ∧ ∃ i < n, a.part i < b.part i) ∧
      (a.order b = .ok .gt ↔
        (∀ i < n, b.part i ≤ a.part i) ∧ ∃ i < n, b.part i < a.part i) ∧
      (a.order b = .ok .eq ↔ ∀ i < n, a.part i = b.part i) ∧
      (a.order b = .error (.incomparable a b) ↔
        (∃ i < n, a.part i < b.part i) ∧ ∃ i < n, b.part i < a.part i)) ∧
    ∀ o s t, a.order b = .ok o → a.add d = .ok s → b.add d = .ok t → s.order t = .ok o := by
  exact ⟨⟨Time.zero_add a, Time.add_zero a⟩, fun s => Time.add_comm_iff ha hb,
    fun s => Time.sums_of_add ha hb, fun s => Time.add_of_sums,
    fun ha0 hb0 hc0 s => Time.add_assoc_iff ha hb hc ha0 hb0 hc0,
    fun hd0 s => Time.order_add_self ha hd hd0, fun o => Time.order_swap_iff ha hb,
    fun n => Time.InDimension.order_iff, fun o s t => Time.order_add ha hb hd⟩

theorem pair_times_ordered :
    (Time.vector [2, 2]).add (.vector [1, 2]) = .ok (.vector [3, 4]) ∧
      ((Time.vector [2, 2]).add (.vector [3, 0]) >>= fun q => (Time.vector [1, 2]).add q) =
        .ok (.vector [6, 4]) ∧
      ((Time.vector [1, 2]).order (.vector [1, 5]) = .ok .lt ∨
        (Time.vector [1, 2]).order (.vector [1, 5]) = .ok .eq) ∧
      (Time.vector [1, 2]).order (.vector [2, 2]) = .ok .lt ∧
      (Time.vector [2, 2]).order (.vector [1, 2]) = .ok .gt ∧
      (Time.vector [1, 5]).order (.vector [2, 5]) = .ok .lt ∧
      (Time.vector [1, 2]).order (.vector [0, 3]) =
        .error (.incomparable (.vector [1, 2]) (.vector [0, 3])) ∧
      Time.zero.order (.vector [0, 3]) = .ok .lt := by
  obtain ⟨_, hcomm, _, hgiven, hassoc, hgrows, hswap, hdim, hshift⟩ :=
    time_ordered_monoid (a := .vector [1, 2]) (b := .vector [2, 2]) (c := .vector [3, 0])
      (d := .vector [0, 3]) rfl rfl rfl rfl
  obtain ⟨_, _, _, _, _, _, _, hdim', _⟩ :=
    time_ordered_monoid (a := .vector [1, 2]) (b := .vector [0, 3]) (c := .zero) (d := .zero)
      rfl rfl rfl rfl
  obtain ⟨_, _, _, _, _, _, _, hdim'', _⟩ :=
    time_ordered_monoid (a := .zero) (b := .vector [0, 3]) (c := .zero) (d := .zero)
      rfl rfl rfl rfl
  have hsum : (Time.vector [1, 2]).add (.vector [2, 2]) = .ok (.vector [3, 4]) :=
    hgiven _ (.vector rfl) (by simp [Time.Fits, Whole.fits_iff, Whole.least, Whole.greatest])
  have hless : (Time.vector [1, 2]).order (.vector [2, 2]) = .ok .lt :=
    (hdim 2 rfl rfl).1.mpr (by decide)
  exact ⟨(hcomm _).mp hsum, (hassoc rfl rfl rfl _).mp rfl, hgrows rfl _ rfl, hless,
    (hswap .lt).mp hless, hshift .lt _ _ hless rfl rfl, (hdim' 2 rfl rfl).2.2.2.mpr (by decide),
    (hdim'' 2 trivial rfl).1.mpr (by decide)⟩

end EventInvariants
