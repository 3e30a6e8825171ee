import EventInvariants.Path.Basic
import EventInvariants.Proofs.Moves

namespace EventInvariants

structure Trace where
  letter : Nat → Letter
  /-- The time with which a position is entered; that of the first position does not count. -/
  delta : Nat → Time

namespace Trace

/-- The measure of the time that has passed at a position. -/
def time (t : Trace) : Nat → Nat → Int
  | 0, _ => 0
  | k + 1, j => t.time k j + (t.delta (k + 1)).part j

def span (t : Trace) (i k j : Nat) : Int :=
  t.time k j - t.time i j

def Forward (t : Trace) : Prop :=
  ∀ k j, 0 ≤ (t.delta (k + 1)).part j

/-- No `b` stands after `i` and before `n`. -/
def Open (t : Trace) (i n : Nat) : Prop :=
  ∀ x, i < x → x < n → (t.letter x).b = false

theorem Forward.time_le {t : Trace} (h : t.Forward) {i k : Nat} (hik : i ≤ k) (j : Nat) :
    t.time i j ≤ t.time k j := by
  induction k with
  | zero =>
    obtain rfl : i = 0 := by omega
    exact Int.le_refl _
  | succ k ih =>
    rcases Nat.lt_or_ge i (k + 1) with hlt | hge
    · have hstep := h k j
      have := ih (by omega)
      simp only [time]
      omega
    · obtain rfl : i = k + 1 := by omega
      exact Int.le_refl _

theorem Forward.span_mono {t : Trace} (h : t.Forward) {k n : Nat} (hkn : k ≤ n) (i j : Nat) :
    t.span i k j ≤ t.span i n j := by
  have := h.time_le hkn j
  simp only [span]
  omega

theorem Open.mono {t : Trace} {i n n' : Nat} (h : t.Open i n') (hn : n ≤ n') : t.Open i n :=
  fun x hi hx => h x hi (by omega)

theorem Open.succ {t : Trace} {i n : Nat} (h : t.Open i n) (hb : (t.letter n).b = false) :
    t.Open i (n + 1) := by
  intro x hi hx
  rcases Nat.lt_or_ge x n with hlt | hge
  · exact h x hi hlt
  · have : x = n := by omega
    rw [this]
    exact hb

theorem open_self (t : Trace) (i : Nat) : t.Open i (i + 1) := by
  intro x hi hx
  omega

theorem not_open_of_b {t : Trace} {i n : Nat} (hi : i < n) (hb : (t.letter n).b = true) :
    ¬ t.Open i (n + 1) := by
  intro h
  have := h n hi (by omega)
  rw [hb] at this
  cases this

end Trace

namespace Bound

def Late (w : Bound) (x : Nat → Int) : Prop :=
  match w.direction with
  | .upper => (∀ j, w.value.part j ≤ x j) ∧ ∃ j, w.value.part j < x j
  | .lower => (∀ j, x j ≤ w.value.part j) ∧ ∃ j, x j < w.value.part j

def InTime (w : Bound) (x : Nat → Int) : Prop :=
  match w.direction with
  | .upper => ∀ j, x j ≤ w.value.part j
  | .lower => ∀ j, w.value.part j ≤ x j

theorem Late.not_inTime {w : Bound} {x : Nat → Int} (h : w.Late x) : ¬ w.InTime x := by
  intro hi
  unfold Late at h
  unfold InTime at hi
  cases hd : w.direction <;> simp only [hd] at h hi <;> obtain ⟨_, j, hj⟩ := h <;>
    have := hi j <;> omega

theorem Late.later {w : Bound} {x y : Nat → Int} (hd : w.direction = .upper) (h : w.Late x)
    (hxy : ∀ j, x j ≤ y j) : w.Late y := by
  simp only [Late, hd] at h ⊢
  obtain ⟨hall, j, hj⟩ := h
  exact ⟨fun j => Int.le_trans (hall j) (hxy j), j, Int.lt_of_lt_of_le hj (hxy j)⟩

theorem InTime.later {w : Bound} {x y : Nat → Int} (hd : w.direction = .lower) (h : w.InTime x)
    (hxy : ∀ j, x j ≤ y j) : w.InTime y := by
  simp only [InTime, hd] at h ⊢
  exact fun j => Int.le_trans (h j) (hxy j)

/-- The clock that measures `x`. -/
structure Shows (w : Bound) (x : Nat → Int) (c : Clock) : Prop where
  busy : c ≠ .idle
  reading : ∀ t, c = .running t → t.isFloat = false ∧ ∀ j, t.part j = x j
  inTime : w.met c = true → w.InTime x
  late : w.met c = false → w.Late x

theorem late_of_order {w : Bound} {s : Time} {o : Ordering} (hw : w.value.isFloat = false)
    (hs : s.isFloat = false) (h : s.order w.value = .ok o) :
    o = Path.outOfBounds w.direction ↔ w.Late s.part := by
  unfold Late
  cases hd : w.direction with
  | upper => exact Time.order_gt_iff hs hw h
  | lower => exact Time.order_lt_iff hs hw h

theorem inTime_of_order {w : Bound} {s : Time} {o : Ordering} (hw : w.value.isFloat = false)
    (hs : s.isFloat = false) (h : s.order w.value = .ok o) :
    o ≠ Path.outOfBounds w.direction ↔ w.InTime s.part := by
  unfold InTime
  cases hd : w.direction with
  | upper => exact (Time.order_part hs hw h).1
  | lower => exact (Time.order_part hs hw h).2

theorem settle_shows {w : Bound} {s : Time} {x : Nat → Int} {c : Clock}
    (hw : w.value.isFloat = false) (hs : s.isFloat = false) (hx : ∀ j, s.part j = x j)
    (h : w.settle s = .ok c) : w.Shows x c := by
  obtain ⟨o, ho, rfl⟩ := settle_ok h
  obtain rfl : s.part = x := funext hx
  have hlate := late_of_order hw hs ho
  have hin := inTime_of_order hw hs ho
  by_cases hout : o = Path.outOfBounds w.direction
  · have hover := hlate.mp hout
    cases hd : w.direction <;> simp only [hd, Path.outOfBounds] at hout
    · refine ⟨by simp [isPast, hout], ?_, ?_, fun _ => hover⟩
      · simp [isPast, hout]
      · simp [isPast, hout, met, hd]
    · refine ⟨by simp [isPast, hout], ?_, ?_, fun _ => hover⟩
      · simp [isPast, hout, hs]
      · simp [isPast, hout, met, hd]
  · have hmet := hin.mp hout
    cases hd : w.direction <;> simp only [hd, Path.outOfBounds] at hout
    · refine ⟨by simp [isPast, hout], ?_, fun _ => hmet, ?_⟩
      · simp [isPast, hout, hs]
      · simp [isPast, hout, met, hd]
    · refine ⟨by simp [isPast, hout], ?_, fun _ => hmet, ?_⟩
      · simp [isPast, hout]
      · simp [isPast, hout, met, hd]

theorem start_shows {w : Bound} {x : Nat → Int} {c : Clock} (hw : w.value.isFloat = false)
    (hx : ∀ j, x j = 0) (h : w.start = .ok c) : w.Shows x c :=
  settle_shows (s := .zero) hw rfl (fun j => (hx j).symm) h

theorem Shows.advances {w : Bound} {x y : Nat → Int} {b c : Clock} {delta : Time}
    (hw : w.value.isFloat = false) (hd : ∀ j, 0 ≤ delta.part j)
    (hy : ∀ j, y j = x j + delta.part j) (h : w.Shows x c) (hb : w.Advances delta c b) :
    w.Shows y b := by
  have hle : ∀ j, x j ≤ y j := by
    intro j
    have := hd j
    have := hy j
    omega
  cases c with
  | idle => exact absurd rfl h.busy
  | saturated =>
    cases hb
    refine ⟨h.busy, ?_, ?_, ?_⟩
    · intro t ht
      cases ht
    · intro hm
      have hl : w.direction = .lower := by simpa [met] using hm
      exact (h.inTime hm).later hl hle
    · intro hm
      have hu : w.direction = .upper := by
        cases hdir : w.direction with
        | upper => rfl
        | lower => simp [met, hdir] at hm
      exact (h.late hm).later hu hle
  | running s =>
    obtain ⟨t, ht, hsum, hset⟩ := hb
    obtain ⟨_, hread⟩ := h.reading s rfl
    exact settle_shows hw ht (fun j => by rw [hsum, hread, hy]) hset

end Bound

namespace Monitor

/-- The `a` before `n` from which the time is measured. -/
def Anchor (direction : Direction) (t : Trace) (i n : Nat) : Prop :=
  (t.letter i).a = true ∧
    match direction with
    | .upper => ∀ x, i < x → x < n → (t.letter x).a = false
    | .lower => ∀ x, x < i → (t.letter x).a = false

/-- The invariant fails at position `k`, whatever follows. -/
def FailsAt (t : Trace) (k : Nat) : Monitor → Prop
  | .followedBy =>
    (t.letter k).terminal = true ∧ ∃ i ≤ k, (t.letter i).a = true ∧ t.Open i (k + 1)
  | .neverFollowedBy => (t.letter k).b = true ∧ ∃ i < k, (t.letter i).a = true
  | .precedes => (t.letter k).b = true ∧ ∀ i ≤ k, (t.letter i).a = false
  | .timedFollowedBy w =>
    ∃ i ≤ k, (t.letter i).a = true ∧
      ((t.letter k).terminal = true ∧ t.Open i (k + 1) ∨
        i < k ∧ t.Open i k ∧ ((t.letter k).b = true ∨ w.direction = .upper) ∧
          w.Late (t.span i k))
  | .timedPrecedes w =>
    (t.letter k).b = true ∧ (t.letter k).a = false ∧
      ((∀ i < k, (t.letter i).a = false) ∨
        ∃ i < k, Anchor w.direction t i k ∧ w.Late (t.span i k))

end Monitor
end EventInvariants
