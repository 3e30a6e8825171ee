import EventInvariants.Proofs.Trace

namespace EventInvariants

namespace Trace

/-- No `a` before `n`. -/
def Silent (t : Trace) (n : Nat) : Prop :=
  ∀ i < n, (t.letter i).a = false

/-- Every `a` before `n` has its `b` there. -/
def Settled (t : Trace) (n : Nat) : Prop :=
  ∀ i < n, (t.letter i).a = true → ¬ t.Open i n

theorem Silent.succ {t : Trace} {n : Nat} (h : t.Silent n) (ha : (t.letter n).a = false) :
    t.Silent (n + 1) := by
  intro i hi
  rcases Nat.lt_or_ge i n with hlt | hge
  · exact h i hlt
  · have : i = n := by omega
    rw [this]
    exact ha

theorem Settled.not_open {t : Trace} {i n : Nat} (h : t.Settled n) (hi : i < n)
    (ha : (t.letter i).a = true) : ¬ t.Open i (n + 1) :=
  fun ho => h i hi ha (ho.mono (by omega))

theorem Settled.succ {t : Trace} {n : Nat} (h : t.Settled n) (ha : (t.letter n).a = false) :
    t.Settled (n + 1) := by
  intro i hi hai
  rcases Nat.lt_or_ge i n with hlt | hge
  · exact h.not_open hlt hai
  · have : i = n := by omega
    rw [this, ha] at hai
    cases hai

/-- A `b` settles every `a` before it. -/
theorem settled_of_b {t : Trace} {n : Nat} (hb : (t.letter n).b = true)
    (ha : (t.letter n).a = false) : t.Settled (n + 1) := by
  intro i hi hai
  rcases Nat.lt_or_ge i n with hlt | hge
  · exact not_open_of_b hlt hb
  · have : i = n := by omega
    rw [this, ha] at hai
    cases hai

theorem span_self (t : Trace) (k j : Nat) : t.span k k j = 0 := by
  simp [span]

end Trace

namespace Monitor

/-- The waiting `a` on which the clock runs: under an upper bound the oldest one, under a lower
bound the newest. -/
def Waiting (w : Bound) (t : Trace) (n i : Nat) : Prop :=
  (t.letter i).a = true ∧ t.Open i n ∧
    match w.direction with
    | .upper => ∀ x < i, (t.letter x).a = true → ¬ t.Open x n
    | .lower => ∀ x, i < x → x < n → (t.letter x).a = false

/-- What a state says of the positions before `n`, when its clock shows the time at position `k`. -/
def Known (t : Trace) (n k : Nat) (p : Phase) (c : Clock) : Monitor → Prop
  | .followedBy =>
    match p with
    | .start => t.Settled n
    | .seen => ∃ i < n, (t.letter i).a = true ∧ t.Open i n
    | _ => False
  | .neverFollowedBy | .precedes =>
    match p with
    | .start => t.Silent n
    | .seen => ∃ i < n, (t.letter i).a = true
    | _ => False
  | .timedFollowedBy w =>
    match p with
    | .start => t.Settled n
    | .seen => ∃ i < n, Waiting w t n i ∧ w.Shows (t.span i k) c
    | _ => False
  | .timedPrecedes w =>
    match p with
    | .start => t.Silent n
    | .seen | .matched => ∃ i < n, Anchor w.direction t i n ∧ w.Shows (t.span i k) c
    | .failed => False

/-- A state after position `k` that is right: failure where the invariant fails, and otherwise one
that knows the trace so far. -/
def Judges (m : Monitor) (t : Trace) (k : Nat) (q : Phase) (c : Clock) : Prop :=
  q = .failed ∧ m.FailsAt t k ∨ q ≠ .failed ∧ ¬ m.FailsAt t k ∧ m.Known t (k + 1) k q c

theorem followedBy_judges {t : Trace} {k : Nat} {p q : Phase} {b c : Clock}
    (h : Known t k k p b .followedBy)
    (he : Monitor.followedBy.enter p b (t.letter k) = .ok (q, c)) :
    Monitor.followedBy.Judges t k q c := by
  obtain ⟨r, d, hr, he⟩ := enter_ok he
  simp only [table, Result.bind_ok] at hr
  obtain ⟨s, hs, hr⟩ := hr
  cases hr
  have hpend (i : Nat) (hi : i ≤ k) (ha : (t.letter i).a = true) (ho : t.Open i (k + 1))
      (hseen : r = .seen) : Monitor.followedBy.Judges t k q c := by
    rcases he with ⟨_, _, ht, rfl, _⟩ | ⟨hn, rfl, rfl⟩
    · exact Or.inl ⟨rfl, ht, i, hi, ha, ho⟩
    · subst hseen
      have hterm : ¬ (t.letter k).terminal = true := fun ht => hn ⟨rfl, rfl, ht⟩
      exact Or.inr ⟨by simp, fun hf => hterm hf.1, i, by omega, ha, ho⟩
  have hdone (hset : t.Settled (k + 1)) (hstart : r = .start) :
      Monitor.followedBy.Judges t k q c := by
    subst hstart
    rcases he with ⟨_, hs, _⟩ | ⟨_, rfl, rfl⟩
    · cases hs
    · refine Or.inr ⟨by simp, ?_, hset⟩
      intro h
      obtain ⟨_, i, hi, ha, ho⟩ := h
      exact hset i (by omega) ha ho
  cases p with
  | start =>
    cases ha : (t.letter k).a with
    | true =>
      simp only [enterFollowedBy, ha] at hs
      cases hs
      exact hpend k (Nat.le_refl k) ha (t.open_self k) rfl
    | false =>
      simp only [enterFollowedBy, ha] at hs
      cases hs
      exact hdone (Trace.Settled.succ h ha) rfl
  | seen =>
    obtain ⟨i, hi, hai, ho⟩ := h
    cases ha : (t.letter k).a with
    | true =>
      simp only [enterFollowedBy, ha] at hs
      cases hs
      exact hpend k (Nat.le_refl k) ha (t.open_self k) rfl
    | false =>
      cases hb : (t.letter k).b with
      | true =>
        simp only [enterFollowedBy, ha, hb] at hs
        cases hs
        exact hdone (Trace.settled_of_b hb ha) rfl
      | false =>
        simp only [enterFollowedBy, ha, hb] at hs
        cases hs
        exact hpend i (by omega) hai (ho.succ hb) rfl
  | matched => cases h
  | failed => cases h

theorem neverFollowedBy_judges {t : Trace} {k : Nat} {p q : Phase} {b c : Clock}
    (h : Known t k k p b .neverFollowedBy)
    (he : Monitor.neverFollowedBy.enter p b (t.letter k) = .ok (q, c)) :
    Monitor.neverFollowedBy.Judges t k q c := by
  obtain ⟨r, d, hr, he⟩ := enter_ok he
  rcases he with ⟨hw, _⟩ | ⟨_, rfl, rfl⟩
  · cases hw
  simp only [table, Result.bind_ok] at hr
  obtain ⟨s, hs, hr⟩ := hr
  cases hr
  cases p with
  | start =>
    have hnot : ¬ Monitor.neverFollowedBy.FailsAt t k := by
      intro h
      obtain ⟨_, i, hi, ha⟩ := h
      rw [h i hi] at ha
      cases ha
    cases ha : (t.letter k).a with
    | true =>
      simp only [enterNeverFollowedBy, ha] at hs
      cases hs
      exact Or.inr ⟨by simp, hnot, k, by omega, ha⟩
    | false =>
      simp only [enterNeverFollowedBy, ha] at hs
      cases hs
      exact Or.inr ⟨by simp, hnot, Trace.Silent.succ h ha⟩
  | seen =>
    obtain ⟨i, hi, ha⟩ := h
    cases hb : (t.letter k).b with
    | true =>
      simp only [enterNeverFollowedBy, hb] at hs
      cases hs
      exact Or.inl ⟨rfl, hb, i, hi, ha⟩
    | false =>
      simp only [enterNeverFollowedBy, hb] at hs
      cases hs
      refine Or.inr ⟨by simp, ?_, i, by omega, ha⟩
      intro h
      obtain ⟨hb', _⟩ := h
      rw [hb] at hb'
      cases hb'
  | matched => cases h
  | failed => cases h

theorem precedes_judges {t : Trace} {k : Nat} {p q : Phase} {b c : Clock}
    (h : Known t k k p b .precedes)
    (he : Monitor.precedes.enter p b (t.letter k) = .ok (q, c)) :
    Monitor.precedes.Judges t k q c := by
  obtain ⟨r, d, hr, he⟩ := enter_ok he
  rcases he with ⟨hw, _⟩ | ⟨_, rfl, rfl⟩
  · cases hw
  simp only [table, Result.bind_ok] at hr
  obtain ⟨s, hs, hr⟩ := hr
  cases hr
  have hseen (i : Nat) (hi : i ≤ k) (ha : (t.letter i).a = true) (hq : q = .seen) :
      Monitor.precedes.Judges t k q .idle := by
    subst hq
    refine Or.inr ⟨by simp, ?_, i, by omega, ha⟩
    intro h
    obtain ⟨_, hno⟩ := h
    rw [hno i hi] at ha
    cases ha
  cases p with
  | start =>
    cases ha : (t.letter k).a with
    | true =>
      simp only [enterPrecedes, ha] at hs
      cases hs
      exact hseen k (Nat.le_refl k) ha rfl
    | false =>
      have hsilent : t.Silent (k + 1) := Trace.Silent.succ h ha
      cases hb : (t.letter k).b with
      | true =>
        simp only [enterPrecedes, ha, hb] at hs
        cases hs
        exact Or.inl ⟨rfl, hb, fun i hi => hsilent i (by omega)⟩
      | false =>
        simp only [enterPrecedes, ha, hb] at hs
        cases hs
        refine Or.inr ⟨by simp, ?_, hsilent⟩
        intro h
        obtain ⟨hb', _⟩ := h
        rw [hb] at hb'
        cases hb'
  | seen =>
    obtain ⟨i, hi, ha⟩ := h
    cases hs
    exact hseen i (by omega) ha rfl
  | matched => cases h
  | failed => cases h

section Timed
variable {w : Bound} {t : Trace}

theorem span_le (ht : t.Forward) {i x : Nat} (hix : i ≤ x) (k j : Nat) :
    t.span x k j ≤ t.span i k j := by
  have := ht.time_le hix j
  simp only [Trace.span]
  omega

/-- If the `a` on the clock is in time, so is every other that waits. -/
theorem Waiting.not_late (ht : t.Forward) {i k x : Nat} (hi : Waiting w t k i)
    (hin : w.InTime (t.span i k)) (hx : x < k) (ha : (t.letter x).a = true) (ho : t.Open x k) :
    ¬ w.Late (t.span x k) := by
  obtain ⟨_, _, hord⟩ := hi
  intro hl
  cases hd : w.direction with
  | upper =>
    simp only [hd] at hord
    have hle : i ≤ x := by
      apply Nat.not_lt.mp
      exact fun hlt => hord x hlt ha ho
    exact (hl.later hd (span_le ht hle k)).not_inTime hin
  | lower =>
    simp only [hd] at hord
    have hle : x ≤ i := by
      apply Nat.not_lt.mp
      intro hlt
      rw [hord x hlt hx] at ha
      cases ha
    exact hl.not_inTime (hin.later hd (span_le ht hle k))

/-- An `a` that starts the clock anew, when no older one counts any more. -/
theorem waiting_self {k : Nat} (ha : (t.letter k).a = true)
    (hold : w.direction = .upper → ∀ x < k, (t.letter x).a = true → ¬ t.Open x (k + 1)) :
    Waiting w t (k + 1) k := by
  refine ⟨ha, t.open_self k, ?_⟩
  cases hd : w.direction with
  | upper => exact hold hd
  | lower =>
    intro x hx hk
    omega

theorem Waiting.succ {i k : Nat} (hi : Waiting w t k i) (hb : (t.letter k).b = false)
    (ha : w.direction = .lower → (t.letter k).a = false) : Waiting w t (k + 1) i := by
  obtain ⟨hai, ho, hord⟩ := hi
  refine ⟨hai, ho.succ hb, ?_⟩
  cases hd : w.direction with
  | upper =>
    simp only [hd] at hord
    exact fun x hx hax hox => hord x hx hax (hox.mono (by omega))
  | lower =>
    simp only [hd] at hord
    intro x hx hk
    rcases Nat.lt_or_ge x k with hlt | hge
    · exact hord x hx hlt
    · have : x = k := by omega
      rw [this]
      exact ha hd

/-- No wait ends out of bounds at `k`. -/
def NoneLate (w : Bound) (t : Trace) (k : Nat) : Prop :=
  ∀ i < k, (t.letter i).a = true → t.Open i k →
    (t.letter k).b = true ∨ w.direction = .upper → ¬ w.Late (t.span i k)

theorem not_failsAt {k : Nat} (hlate : NoneLate w t k)
    (hend : (t.letter k).terminal = true → t.Settled (k + 1)) :
    ¬ (Monitor.timedFollowedBy w).FailsAt t k := by
  intro h
  rcases h with ⟨i, hi, ha, ⟨hterm, ho⟩ | ⟨hlt, ho, hor, hl⟩⟩
  · exact hend hterm i (by omega) ha ho
  · exact hlate i hlt ha ho hor hl

section
variable {k : Nat} {r q : Phase} {c d : Clock}

theorem timedFollowedBy_seen {i : Nat} (hi : i ≤ k) (hwait : Waiting w t (k + 1) i)
    (hshow : w.Shows (t.span i k) d) (hlate : NoneLate w t k)
    (he : (Monitor.timedFollowedBy w).Closes (t.letter k) .seen d q c) :
    (Monitor.timedFollowedBy w).Judges t k q c := by
  rcases he with ⟨_, _, hterm, rfl, _⟩ | ⟨hn, rfl, rfl⟩
  · exact Or.inl ⟨rfl, i, hi, hwait.1, Or.inl ⟨hterm, hwait.2.1⟩⟩
  · have hend : ¬ (t.letter k).terminal = true := fun hterm => hn ⟨rfl, rfl, hterm⟩
    exact Or.inr ⟨by simp, not_failsAt hlate (fun hterm => absurd hterm hend),
      i, by omega, hwait, hshow⟩

theorem timedFollowedBy_start (hset : t.Settled (k + 1)) (hlate : NoneLate w t k)
    (he : (Monitor.timedFollowedBy w).Closes (t.letter k) .start d q c) :
    (Monitor.timedFollowedBy w).Judges t k q c := by
  rcases he with ⟨_, hs, _⟩ | ⟨_, rfl, rfl⟩
  · cases hs
  · exact Or.inr ⟨by simp, not_failsAt hlate (fun _ => hset), hset⟩

theorem timedFollowedBy_failed (hf : (Monitor.timedFollowedBy w).FailsAt t k)
    (he : (Monitor.timedFollowedBy w).Closes (t.letter k) .failed d q c) :
    (Monitor.timedFollowedBy w).Judges t k q c := by
  rcases he with ⟨_, hs, _⟩ | ⟨_, rfl, _⟩
  · cases hs
  · exact Or.inl ⟨rfl, hf⟩

theorem timedFollowedBy_restart (hw : w.value.isFloat = false)
    (hold : w.direction = .upper → ∀ x < k, (t.letter x).a = true → ¬ t.Open x (k + 1))
    (hlate : NoneLate w t k) (ha : (t.letter k).a = true)
    (hr : restart w = .ok (r, d))
    (he : (Monitor.timedFollowedBy w).Closes (t.letter k) r d q c) :
    (Monitor.timedFollowedBy w).Judges t k q c := by
  obtain ⟨rfl, hs⟩ := restart_ok.mp hr
  exact timedFollowedBy_seen (Nat.le_refl k) (waiting_self ha hold)
    (Bound.start_shows hw (t.span_self k) hs) hlate he

end

theorem timedFollowedBy_judges {k : Nat} {p q : Phase} {b c : Clock} (ht : t.Forward)
    (hw : w.value.isFloat = false) (h : Known t k k p b (.timedFollowedBy w))
    (he : (Monitor.timedFollowedBy w).enter p b (t.letter k) = .ok (q, c)) :
    (Monitor.timedFollowedBy w).Judges t k q c := by
  obtain ⟨r, d, hr, hclose⟩ := enter_ok he
  cases p with
  | matched => cases h
  | failed => cases h
  | start =>
    have hlate : NoneLate w t k := fun i hi ha ho _ => absurd ho (h i hi ha)
    cases ha : (t.letter k).a with
    | true =>
      simp only [table, enterTimedFollowedBy, ha] at hr
      exact timedFollowedBy_restart hw (fun _ x hx hax => Trace.Settled.not_open h hx hax) hlate
        ha hr hclose
    | false =>
      simp only [table, enterTimedFollowedBy, ha] at hr
      cases hr
      exact timedFollowedBy_start (Trace.Settled.succ h ha) hlate hclose
  | seen =>
    obtain ⟨i, hi, hwait, hshow⟩ := h
    have hai := hwait.1
    have ho := hwait.2.1
    have hlate (hm : w.met b = true) : NoneLate w t k :=
      fun x hx hax hox _ => hwait.not_late ht (hshow.inTime hm) hx hax hox
    cases hb : (t.letter k).b with
    | true =>
      cases hm : w.met b with
      | false =>
        simp only [table, enterTimedFollowedBy, hb, hm] at hr
        cases hr
        exact timedFollowedBy_failed
          ⟨i, by omega, hai, Or.inr ⟨hi, ho, Or.inl hb, hshow.late hm⟩⟩ hclose
      | true =>
        cases ha : (t.letter k).a with
        | true =>
          simp only [table, enterTimedFollowedBy, hb, hm, ha] at hr
          exact timedFollowedBy_restart hw (fun _ x hx _ => Trace.not_open_of_b hx hb) (hlate hm)
            ha hr hclose
        | false =>
          simp only [table, enterTimedFollowedBy, hb, hm, ha] at hr
          cases hr
          exact timedFollowedBy_start (Trace.settled_of_b hb ha) (hlate hm) hclose
    | false =>
      cases hd : w.direction with
      | upper =>
        cases b with
        | idle => exact absurd rfl hshow.busy
        | saturated =>
          simp only [table, enterTimedFollowedBy, hb, hd] at hr
          cases hr
          have hm : w.met .saturated = false := by simp [Bound.met, hd]
          exact timedFollowedBy_failed
            ⟨i, by omega, hai, Or.inr ⟨hi, ho, Or.inr hd, hshow.late hm⟩⟩ hclose
        | running s =>
          simp only [table, enterTimedFollowedBy, hb, hd] at hr
          cases hr
          have hm : w.met (.running s) = true := by simp [Bound.met, hd]
          exact timedFollowedBy_seen (by omega) (hwait.succ hb (by simp [hd])) hshow (hlate hm)
            hclose
      | lower =>
        have hnone : NoneLate w t k := by
          intro x _ _ _ hor
          simp [hb, hd] at hor
        cases ha : (t.letter k).a with
        | true =>
          simp only [table, enterTimedFollowedBy, hb, hd, ha] at hr
          exact timedFollowedBy_restart hw (by simp [hd]) hnone ha hr hclose
        | false =>
          simp only [table, enterTimedFollowedBy, hb, hd, ha] at hr
          cases hr
          exact timedFollowedBy_seen (by omega) (hwait.succ hb (fun _ => ha)) hshow hnone hclose

theorem Anchor.unique {d : Direction} {i x k : Nat} (hi : Anchor d t i k) (hx : Anchor d t x k)
    (hik : i < k) (hxk : x < k) : i = x := by
  obtain ⟨hai, hi⟩ := hi
  obtain ⟨hax, hx⟩ := hx
  rcases Nat.lt_trichotomy i x with hlt | rfl | hgt
  · cases d with
    | upper => simp [hi x hlt hxk] at hax
    | lower => simp [hx i hlt] at hai
  · rfl
  · cases d with
    | upper => simp [hx i hgt hik] at hai
    | lower => simp [hi x hgt] at hax

theorem Anchor.succ {d : Direction} {i k : Nat} (hi : Anchor d t i k)
    (ha : d = .upper → (t.letter k).a = false) : Anchor d t i (k + 1) := by
  obtain ⟨hai, hi⟩ := hi
  refine ⟨hai, ?_⟩
  cases d with
  | lower => exact hi
  | upper =>
    intro x hx hk
    rcases Nat.lt_or_ge x k with hlt | hge
    · exact hi x hx hlt
    · have : x = k := by omega
      rw [this]
      exact ha rfl

theorem anchor_self {d : Direction} {k : Nat} (ha : (t.letter k).a = true)
    (hold : d = .lower → t.Silent k) : Anchor d t k (k + 1) := by
  refine ⟨ha, ?_⟩
  cases d with
  | upper =>
    intro x hx hk
    omega
  | lower => exact hold rfl

theorem not_failsAt_of_a {k : Nat} (ha : (t.letter k).a = true) :
    ¬ (Monitor.timedPrecedes w).FailsAt t k := by
  intro h
  obtain ⟨_, ha', _⟩ := h
  rw [ha] at ha'
  cases ha'

theorem not_failsAt_of_b {k : Nat} (hb : (t.letter k).b = false) :
    ¬ (Monitor.timedPrecedes w).FailsAt t k := by
  intro h
  obtain ⟨hb', _⟩ := h
  rw [hb] at hb'
  cases hb'

theorem timedPrecedes_restart {k : Nat} {q : Phase} {c : Clock} (hw : w.value.isFloat = false)
    (hold : w.direction = .lower → t.Silent k) (ha : (t.letter k).a = true)
    (hr : restart w = .ok (q, c)) :
    (Monitor.timedPrecedes w).Judges t k q c := by
  obtain ⟨rfl, hs⟩ := restart_ok.mp hr
  exact Or.inr ⟨by simp, not_failsAt_of_a ha, k, by omega, anchor_self ha hold,
    Bound.start_shows hw (t.span_self k) hs⟩

theorem timedPrecedes_judges {k : Nat} {p q : Phase} {b c : Clock}
    (hw : w.value.isFloat = false) (h : Known t k k p b (.timedPrecedes w))
    (he : (Monitor.timedPrecedes w).enter p b (t.letter k) = .ok (q, c)) :
    (Monitor.timedPrecedes w).Judges t k q c := by
  obtain ⟨r, d, hr, he⟩ := enter_ok he
  rcases he with ⟨hwait, _⟩ | ⟨_, rfl, rfl⟩
  · cases hwait
  cases p with
  | failed => cases h
  | start =>
    cases ha : (t.letter k).a with
    | true =>
      simp only [table, enterTimedPrecedes, ha] at hr
      exact timedPrecedes_restart hw (fun _ => h) ha hr
    | false =>
      cases hb : (t.letter k).b with
      | true =>
        simp only [table, enterTimedPrecedes, ha, hb] at hr
        cases hr
        exact Or.inl ⟨rfl, hb, ha, Or.inl h⟩
      | false =>
        simp only [table, enterTimedPrecedes, ha, hb] at hr
        cases hr
        exact Or.inr ⟨by simp, not_failsAt_of_b hb, Trace.Silent.succ h ha⟩
  | seen | matched =>
    obtain ⟨i, hi, hanch, hshow⟩ := h
    cases ha : (t.letter k).a with
    | true =>
      cases hd : w.direction with
      | upper =>
        simp only [table, enterTimedPrecedes, ha, hd] at hr
        exact timedPrecedes_restart hw (by simp [hd]) ha hr
      | lower =>
        simp only [table, enterTimedPrecedes, ha, hd] at hr
        cases hr
        exact Or.inr ⟨by simp, not_failsAt_of_a ha, i, by omega, hanch.succ (by simp [hd]), hshow⟩
    | false =>
      have hnext : Anchor w.direction t i (k + 1) := hanch.succ (fun _ => ha)
      cases hb : (t.letter k).b with
      | false =>
        simp only [table, enterTimedPrecedes, ha, hb] at hr
        cases hr
        exact Or.inr ⟨by simp, not_failsAt_of_b hb, i, by omega, hnext, hshow⟩
      | true =>
        cases hm : w.met b with
        | false =>
          simp only [table, enterTimedPrecedes, ha, hb, hm] at hr
          cases hr
          exact Or.inl ⟨rfl, hb, ha, Or.inr ⟨i, hi, hanch, hshow.late hm⟩⟩
        | true =>
          simp only [table, enterTimedPrecedes, ha, hb, hm] at hr
          cases hr
          refine Or.inr ⟨by simp, ?_, i, by omega, hnext, hshow⟩
          intro h
          rcases h with ⟨_, _, hsil | ⟨x, hx, hax, hl⟩⟩
          · have := hanch.1
            rw [hsil i hi] at this
            cases this
          · rw [← hanch.unique hax hi hx] at hl
            exact hl.not_inTime (hshow.inTime hm)

end Timed

/-- Time passes between two letters: the state knows the same positions, at a later time. -/
theorem Known.advances {m : Monitor} {t : Trace} {n k : Nat} {p : Phase} {b c : Clock}
    (hm : m.IsExact) (ht : m.window ≠ none → t.Forward) (h : m.Known t n k p c)
    (hb : m.Advances (t.delta (k + 1)) c b) : m.Known t n (k + 1) p b := by
  have hspan (i j : Nat) : t.span i (k + 1) j = t.span i k j + (t.delta (k + 1)).part j := by
    simp only [Trace.span, Trace.time]
    omega
  cases m with
  | followedBy | neverFollowedBy | precedes => exact h
  | timedFollowedBy w =>
    cases p with
    | seen =>
      obtain ⟨i, hi, hwait, hshow⟩ := h
      exact ⟨i, hi, hwait, hshow.advances (hm w rfl) (ht (by simp [window]) k) (hspan i) hb⟩
    | _ => exact h
  | timedPrecedes w =>
    cases p with
    | seen | matched =>
      obtain ⟨i, hi, hanch, hshow⟩ := h
      exact ⟨i, hi, hanch, hshow.advances (hm w rfl) (ht (by simp [window]) k) (hspan i) hb⟩
    | _ => exact h

theorem enter_judges {m : Monitor} {t : Trace} {k : Nat} {p q : Phase} {b c : Clock}
    (hm : m.IsExact) (ht : m.window ≠ none → t.Forward) (h : m.Known t k k p b)
    (he : m.enter p b (t.letter k) = .ok (q, c)) : m.Judges t k q c := by
  cases m with
  | followedBy => exact followedBy_judges h he
  | neverFollowedBy => exact neverFollowedBy_judges h he
  | precedes => exact precedes_judges h he
  | timedFollowedBy w => exact timedFollowedBy_judges (ht (by simp [window])) (hm w rfl) h he
  | timedPrecedes w => exact timedPrecedes_judges (hm w rfl) h he

/-- The states and clocks in which a monitor can be after reading positions `0` to `k`. -/
inductive Runs (m : Monitor) (t : Trace) : Nat → Phase → Clock → Prop where
  | first {p : Phase} {c : Clock} (h : m.initial (t.letter 0) = .ok (p, c)) : Runs m t 0 p c
  | next {k : Nat} {p q : Phase} {c c' : Clock} (h : Runs m t k p c)
      (move : m.Moves p c (t.letter (k + 1)) (t.delta (k + 1)) q c') : Runs m t (k + 1) q c'

theorem known_start (m : Monitor) (t : Trace) : m.Known t 0 0 .start .idle := by
  cases m <;> intro i hi <;> omega

theorem Runs.exact {m : Monitor} {t : Trace} {k : Nat} {p : Phase} {c : Clock}
    (h : m.Runs t k p c) : c.IsExact := by
  induction h with
  | first h => exact enter_exact (c := .idle) trivial h
  | next _ move ih => exact move.exact ih

theorem enter_failed {m : Monitor} {q : Phase} {c c' : Clock} {l : Letter}
    (h : m.enter .failed c l = .ok (q, c')) : q = .failed := by
  obtain ⟨r, b, hr, h⟩ := enter_ok h
  have hf : r = .failed := by
    cases m <;> cases hr <;> rfl
  rcases h with ⟨_, _, _, hq, _⟩ | ⟨_, hq, _⟩
  · exact hq
  · exact hq.trans hf

theorem Moves.failed {m : Monitor} {q : Phase} {c c' : Clock} {l : Letter} {delta : Time}
    (h : m.Moves .failed c l delta q c') : q = .failed := by
  obtain ⟨b, _, h⟩ := h
  exact enter_failed h

theorem Runs.judged {m : Monitor} {t : Trace} {k : Nat} {p : Phase} {c : Clock}
    (hm : m.IsExact) (ht : m.window ≠ none → t.Forward) (h : m.Runs t k p c) :
    p = .failed ∧ (∃ n ≤ k, m.FailsAt t n) ∨
      p ≠ .failed ∧ (∀ n ≤ k, ¬ m.FailsAt t n) ∧ m.Known t (k + 1) k p c := by
  induction h with
  | first h =>
    rcases enter_judges hm ht (known_start m t) h with ⟨hp, hf⟩ | ⟨hp, hf, hk⟩
    · exact Or.inl ⟨hp, 0, Nat.le_refl 0, hf⟩
    · refine Or.inr ⟨hp, ?_, hk⟩
      intro n hn
      rw [Nat.le_zero.mp hn]
      exact hf
  | @next k p q c c' _ move ih =>
    rcases ih with ⟨rfl, n, hn, hf⟩ | ⟨_, hno, hk⟩
    · exact Or.inl ⟨move.failed, n, by omega, hf⟩
    · obtain ⟨b, hb, he⟩ := move
      rcases enter_judges hm ht (hk.advances hm ht hb) he with ⟨hq, hf⟩ | ⟨hq, hf, hk⟩
      · exact Or.inl ⟨hq, k + 1, Nat.le_refl _, hf⟩
      · refine Or.inr ⟨hq, ?_, hk⟩
        intro n hn
        rcases Nat.lt_or_ge n (k + 1) with hlt | hge
        · exact hno n (by omega)
        · have : n = k + 1 := by omega
          rw [this]
          exact hf

/-- A run is in the failure state exactly if the invariant has failed at a position it has read. -/
theorem Runs.failed_iff {m : Monitor} {t : Trace} {k : Nat} {p : Phase} {c : Clock}
    (hm : m.IsExact) (ht : m.window ≠ none → t.Forward) (h : m.Runs t k p c) :
    p = .failed ↔ ∃ n ≤ k, m.FailsAt t n := by
  rcases h.judged hm ht with ⟨hp, hf⟩ | ⟨hp, hno, _⟩
  · exact ⟨fun _ => hf, fun _ => hp⟩
  · refine ⟨fun he => absurd he hp, ?_⟩
    intro h
    obtain ⟨n, hn, hf⟩ := h
    exact absurd hf (hno n hn)

end Monitor
end EventInvariants
