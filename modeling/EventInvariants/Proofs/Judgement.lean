import EventInvariants.Proofs.Run

namespace EventInvariants.Path

theorem mem_positions {i j x : Nat} : x ∈ positions i j ↔ i ≤ x ∧ x < j := by
  simp only [positions, List.mem_range'_1]
  omega

section
variable {g : Graph} {inv : Invariant} {path : Path}

def Inside (g : Graph) (path : Path) : Prop :=
  ∀ s ∈ path, s.node < g.size

theorem letterAt_eq (hin : Inside g path) (i : Nat) :
    letterAt g inv path.toArray i = .ok ((path.trace g inv).letter i) := by
  simp only [letterAt, trace, List.getElem?_toArray]
  cases hs : path[i]? with
  | none => rfl
  | some s => simp [hin s (List.mem_of_getElem? hs)]

theorem isA_eq (hin : Inside g path) (i : Nat) :
    isA g inv path.toArray i = .ok ((path.trace g inv).letter i).a := by
  simp [isA, letterAt_eq hin]

theorem isB_eq (hin : Inside g path) (i : Nat) :
    isB g inv path.toArray i = .ok ((path.trace g inv).letter i).b := by
  simp [isB, letterAt_eq hin]

theorem isTerminal_eq (hin : Inside g path) (i : Nat) :
    isTerminal g inv path.toArray i = .ok ((path.trace g inv).letter i).terminal := by
  simp [isTerminal, letterAt_eq hin]

theorem any_positions {q : Nat → Bool} {i j : Nat} :
    (positions i j).any q = true ↔ ∃ x, i ≤ x ∧ x < j ∧ q x = true := by
  simp only [List.any_eq_true, mem_positions, and_assoc]

theorem any_b_iff {t : Trace} {i n : Nat} :
    (positions (i + 1) n).any (fun x => (t.letter x).b) = false ↔ t.Open i n := by
  rw [← Bool.not_eq_true, any_positions]
  constructor
  · intro h x hi hx
    cases hb : (t.letter x).b with
    | false => rfl
    | true => exact absurd ⟨x, hi, hx, hb⟩ h
  · intro hopen h
    obtain ⟨x, hi, hx, hb⟩ := h
    rw [hopen x hi hx] at hb
    cases hb

theorem breaksNeverFollowedBy_iff (hin : Inside g path) :
    ∃ v, breaksNeverFollowedBy g inv path.toArray = .ok v ∧
      (v = true ↔ ∃ k < path.length, Monitor.neverFollowedBy.FailsAt (path.trace g inv) k) := by
  let t := path.trace g inv
  refine ⟨(positions 0 path.length).any fun i =>
    (t.letter i).a && (positions (i + 1) path.length).any fun j => (t.letter j).b, ?_, ?_⟩
  · simp only [breaksNeverFollowedBy, List.size_toArray]
    apply Result.anyM_eq
    intro i _
    rw [isA_eq hin, Result.ok_bind, Result.anyM_eq (fun j _ => isB_eq hin j)]
    cases ((path.trace g inv).letter i).a <;> rfl
  · simp only [any_positions, Bool.and_eq_true]
    constructor
    · intro h
      obtain ⟨i, _, _, ha, j, hij, hj, hb⟩ := h
      exact ⟨j, hj, hb, i, hij, ha⟩
    · intro h
      obtain ⟨j, hj, hb, i, hi, ha⟩ := h
      exact ⟨i, Nat.zero_le i, by omega, ha, j, hi, hj, hb⟩

theorem breaksPrecedes_iff (hin : Inside g path) :
    ∃ v, breaksPrecedes g inv path.toArray = .ok v ∧
      (v = true ↔ ∃ k < path.length, Monitor.precedes.FailsAt (path.trace g inv) k) := by
  let t := path.trace g inv
  refine ⟨(positions 0 path.length).any fun j =>
    (t.letter j).b && !(positions 0 (j + 1)).any fun i => (t.letter i).a, ?_, ?_⟩
  · simp only [breaksPrecedes, List.size_toArray]
    apply Result.anyM_eq
    intro j _
    rw [isB_eq hin, Result.ok_bind, Result.anyM_eq (fun i _ => isA_eq hin i)]
    cases ((path.trace g inv).letter j).b <;> rfl
  · simp only [any_positions, Bool.and_eq_true, Bool.not_eq_true', List.any_eq_false, mem_positions]
    constructor
    · intro h
      obtain ⟨j, _, hj, hb, hno⟩ := h
      exact ⟨j, hj, hb, fun i hi => by simpa using hno i ⟨Nat.zero_le i, by omega⟩⟩
    · intro h
      obtain ⟨j, hj, hb, hno⟩ := h
      refine ⟨j, Nat.zero_le j, hj, hb, ?_⟩
      intro i hi
      simp [t, hno i (by omega)]

theorem breaksFollowedBy_iff (hin : Inside g path) :
    ∃ v, breaksFollowedBy g inv path.toArray = .ok v ∧
      (v = true ↔ ∃ k < path.length, Monitor.followedBy.FailsAt (path.trace g inv) k) := by
  let t := path.trace g inv
  refine ⟨(positions 0 path.length).any fun i =>
    (t.letter i).a && (positions i path.length).any fun k =>
      (t.letter k).terminal && !(positions (i + 1) (k + 1)).any fun x => (t.letter x).b, ?_, ?_⟩
  · simp only [breaksFollowedBy, List.size_toArray]
    apply Result.anyM_eq
    intro i _
    rw [isA_eq hin, Result.ok_bind]
    cases ((path.trace g inv).letter i).a with
    | false => rfl
    | true =>
      apply Result.anyM_eq
      intro k _
      rw [isTerminal_eq hin, Result.ok_bind, Result.anyM_eq (fun x _ => isB_eq hin x)]
      cases ((path.trace g inv).letter k).terminal <;> rfl
  · simp only [any_positions, Bool.and_eq_true, Bool.not_eq_true', any_b_iff]
    constructor
    · intro h
      obtain ⟨i, _, _, ha, k, hik, hk, hterm, ho⟩ := h
      exact ⟨k, hk, hterm, i, hik, ha, ho⟩
    · intro h
      obtain ⟨k, hk, hterm, i, hi, ha, ho⟩ := h
      exact ⟨i, Nat.zero_le i, by omega, ha, k, hi, hk, hterm, ho⟩

theorem find_positions {q : Nat → Bool} {i n j : Nat} (h : (positions i n).find? q = some j) :
    i ≤ j ∧ j < n ∧ q j = true ∧ ∀ x, i ≤ x → x < j → q x = false := by
  simp only [positions, List.find?_range'_eq_some, List.mem_range'_1, Bool.not_eq_true'] at h
  obtain ⟨hq, hmem, hno⟩ := h
  exact ⟨by omega, by omega, hq, hno⟩

theorem find_positions_reverse {q : Nat → Bool} {n j : Nat}
    (h : (positions 0 n).reverse.find? q = some j) :
    j < n ∧ q j = true ∧ ∀ x, j < x → x < n → q x = false := by
  induction n with
  | zero => cases h
  | succ n ih =>
    have hsplit : (positions 0 (n + 1)).reverse = n :: (positions 0 n).reverse := by
      simp [positions, List.range'_concat]
    rw [hsplit, List.find?_cons] at h
    cases hn : q n with
    | true =>
      simp only [hn, Option.some.injEq] at h
      subst h
      exact ⟨by omega, hn, by omega⟩
    | false =>
      simp only [hn] at h
      obtain ⟨hj, hq, hno⟩ := ih h
      refine ⟨by omega, hq, ?_⟩
      intro x hjx hx
      rcases Nat.lt_or_ge x n with hlt | hge
      · exact hno x hjx hlt
      · have : x = n := by omega
        rw [this]
        exact hn

/-- The sum of the times between two positions measures the span between them. -/
theorem elapsed_part (hd : ∀ k, ((path.trace g inv).delta (k + 1)).isFloat = false) {i n : Nat}
    {r : Time} (h : elapsed path.toArray i (i + n) = .ok r) :
    r.isFloat = false ∧ ∀ x, r.part x = (path.trace g inv).span i (i + n) x := by
  have hlist : (path.toArray.extract (i + 1) (i + n + 1)).toList = (path.drop (i + 1)).take n := by
    simp [show i + n + 1 - (i + 1) = n by omega]
  rw [elapsed, hlist] at h
  clear hlist
  induction n generalizing r with
  | zero =>
    cases h
    exact ⟨rfl, fun x => (Trace.span_self _ i x).symm⟩
  | succ n ih =>
    rw [List.take_add_one, List.foldlM_append, Result.bind_ok] at h
    obtain ⟨s, hs, h⟩ := h
    obtain ⟨hsf, hsp⟩ := ih hs
    have hindex : i + 1 + n = i + n + 1 := by omega
    have hadd : s.add ((path.trace g inv).delta (i + n + 1)) = .ok r := by
      rw [List.getElem?_drop, hindex] at h
      simp only [trace]
      cases hstep : path[i + n + 1]? with
      | none =>
        simp only [hstep, Option.toList_none, List.foldlM_nil] at h
        cases h
        cases r <;> rfl
      | some step => simpa [hstep, Result.bind_ok] using h
    obtain ⟨hrf, hrp⟩ := Time.add_part hsf (hd (i + n)) hadd
    refine ⟨hrf, fun x => ?_⟩
    have htime : (path.trace g inv).time (i + (n + 1)) x =
        (path.trace g inv).time (i + n) x + ((path.trace g inv).delta (i + n + 1)).part x := rfl
    rw [hrp, hsp, Trace.span, Trace.span, htime]
    omega

theorem timeIs_iff (hd : ∀ k, ((path.trace g inv).delta (k + 1)).isFloat = false) {w : Bound}
    (hw : w.value.isFloat = false) {i j : Nat} (hij : i ≤ j) {v : Bool}
    (h : timeIs path.toArray (outOfBounds w.direction) w i j = .ok v) :
    v = true ↔ w.Late ((path.trace g inv).span i j) := by
  obtain ⟨n, rfl⟩ := Nat.exists_eq_add_of_le hij
  unfold timeIs at h
  cases hr : elapsed path.toArray i (i + n) with
  | error e => simp [hr] at h
  | ok r =>
    obtain ⟨hrf, hrp⟩ := elapsed_part hd hr
    cases ho : r.order w.value with
    | error e => simp [hr, ho] at h
    | ok o =>
      simp only [hr, ho, Except.ok.injEq] at h
      subst h
      rw [decide_eq_true_iff, Bound.late_of_order hw hrf ho, funext hrp]

theorem anyM_positions {p : Nat → Except PathError Bool} {P : Nat → Prop} {i n : Nat} {v : Bool}
    (hp : ∀ k v, i ≤ k → k < n → p k = .ok v → (v = true ↔ P k))
    (h : (positions i n).anyM p = .ok v) : v = true ↔ ∃ k, i ≤ k ∧ k < n ∧ P k := by
  cases v with
  | true =>
    obtain ⟨k, hk, hpk⟩ := Result.anyM_true h
    obtain ⟨hi, hn⟩ := mem_positions.mp hk
    simp only [true_iff]
    exact ⟨k, hi, hn, (hp k true hi hn hpk).mp rfl⟩
  | false =>
    simp only [Bool.false_eq_true, false_iff]
    intro h
    obtain ⟨k, hi, hn, hP⟩ := h
    have := (hp k false hi hn (Result.anyM_false h k (mem_positions.mpr ⟨hi, hn⟩))).mpr hP
    cases this

theorem anchor_spec (hin : Inside g path) (inv : Invariant) (d : Direction) (j : Nat) :
    ∃ r, anchor? g inv path.toArray d j = .ok r ∧
      (r = none → ∀ i < j, ((path.trace g inv).letter i).a = false) ∧
      ∀ i, r = some i → i < j ∧ Monitor.Anchor d (path.trace g inv) i j := by
  cases d with
  | upper =>
    refine ⟨_, Result.findM?_eq fun i _ => isA_eq hin i, ?_, ?_⟩
    · intro h i hi
      simpa using List.find?_eq_none.mp h i (by simp [mem_positions, hi])
    · intro i h
      obtain ⟨hi, ha, hno⟩ := find_positions_reverse h
      exact ⟨hi, ha, hno⟩
  | lower =>
    refine ⟨_, Result.findM?_eq fun i _ => isA_eq hin i, ?_, ?_⟩
    · intro h i hi
      simpa using List.find?_eq_none.mp h i (by simp [mem_positions, hi])
    · intro i h
      obtain ⟨_, hi, ha, hno⟩ := find_positions h
      exact ⟨hi, ha, fun x hx => hno x (Nat.zero_le x) hx⟩

theorem breaksTimedPrecedes_iff (hin : Inside g path)
    (hd : ∀ k, ((path.trace g inv).delta (k + 1)).isFloat = false) {w : Bound}
    (hw : w.value.isFloat = false) {v : Bool}
    (h : breaksTimedPrecedes g inv path.toArray w = .ok v) :
    v = true ↔ ∃ k < path.length, (Monitor.timedPrecedes w).FailsAt (path.trace g inv) k := by
  rw [breaksTimedPrecedes, List.size_toArray] at h
  suffices hbody : _ from by simpa using anyM_positions hbody h
  clear h v
  intro j v _ hj h
  rw [isB_eq hin, isA_eq hin, Result.ok_bind, Result.ok_bind] at h
  simp only [Monitor.FailsAt]
  by_cases hb : ((path.trace g inv).letter j).b = false
  · simp only [hb, Bool.not_false, if_true] at h
    cases h
    simp [hb]
  by_cases ha : ((path.trace g inv).letter j).a = true
  · simp only [hb, ha, Bool.not_true, Bool.false_eq_true, if_false, if_true] at h
    cases h
    simp [ha]
  rw [Bool.not_eq_false] at hb
  rw [Bool.not_eq_true] at ha
  obtain ⟨r, hr, hnone, hsome⟩ := anchor_spec hin inv w.direction j
  simp only [hb, ha, Bool.not_true, Bool.false_eq_true, if_false, hr, Result.ok_bind] at h
  cases r with
  | none =>
    cases h
    simp only [true_iff]
    exact ⟨hb, ha, .inl (hnone rfl)⟩
  | some i =>
    obtain ⟨hij, hanchor⟩ := hsome i rfl
    rw [timeIs_iff hd hw (Nat.le_of_lt hij) h]
    constructor
    · intro hlate
      exact ⟨hb, ha, .inr ⟨i, hij, hanchor, hlate⟩⟩
    · intro h
      rcases h with ⟨_, _, hno | ⟨x, hx, hx', hlate⟩⟩
      · have ha := hanchor.1
        rw [hno i hij] at ha
        cases ha
      · rwa [hanchor.unique hx' hij hx]

end

section
variable {t : Trace} {w : Bound} {i n : Nat}

/-- The `a` at `i` is the reason why bounded response fails at `k`. -/
def FailsFrom (w : Bound) (t : Trace) (i k : Nat) : Prop :=
  (t.letter i).a = true ∧
    ((t.letter k).terminal = true ∧ t.Open i (k + 1) ∨
      i < k ∧ t.Open i k ∧ ((t.letter k).b = true ∨ w.direction = .upper) ∧ w.Late (t.span i k))

/-- The `b` that answers an `a` at `i`, or the end of the path. -/
theorem answer_spec :
    let answer := (positions (i + 1) n).find? fun x => (t.letter x).b
    t.Open i (answer.getD n) ∧
      ∀ j, answer = some j → i < j ∧ j < n ∧ (t.letter j).b = true := by
  intro answer
  cases hj : answer with
  | none =>
    refine ⟨?_, by simp⟩
    intro x hi hx
    simpa using List.find?_eq_none.mp hj x (mem_positions.mpr ⟨hi, hx⟩)
  | some j =>
    obtain ⟨hi, hn, hb, hno⟩ := find_positions hj
    refine ⟨fun x hx => hno x hx, ?_⟩
    intro x hx
    cases hx
    exact ⟨hi, hn, hb⟩

/-- An `a` that is answered by the `b` at `j`, before any trace ends, fails by its time. -/
theorem failsFrom_answered (ht : t.Forward) (ha : (t.letter i).a = true) {j : Nat} (hij : i < j)
    (hj : j < n) (hb : (t.letter j).b = true) (hopen : t.Open i j)
    (hgo : ∀ k, i ≤ k → k < j → (t.letter k).terminal = false) :
    (∃ k < n, i ≤ k ∧ FailsFrom w t i k) ↔ w.Late (t.span i j) := by
  constructor
  · intro h
    rcases h with ⟨k, hk, hik, _, ⟨hend, ho⟩ | ⟨hlt, ho, hwhy, hlate⟩⟩
    · rcases Nat.lt_or_ge k j with hkj | hjk
      · rw [hgo k hik hkj] at hend
        cases hend
      · rw [ho j hij (by omega)] at hb
        cases hb
    · rcases Nat.lt_trichotomy k j with hkj | rfl | hjk
      · -- the time was over an upper bound before the answer came, so it is when it comes
        rcases hwhy with hbk | hup
        · rw [hopen k hlt hkj] at hbk
          cases hbk
        · exact hlate.later hup (ht.span_mono (Nat.le_of_lt hkj) i)
      · exact hlate
      · rw [ho j hij hjk] at hb
        cases hb
  · intro hlate
    exact ⟨j, hj, Nat.le_of_lt hij, ha, .inr ⟨hij, hopen, .inl hb, hlate⟩⟩

/-- An `a` that is not answered, on a path where no trace ends, fails under an upper bound. -/
theorem failsFrom_unanswered (ha : (t.letter i).a = true) (hopen : t.Open i n)
    (hgo : ∀ k, i ≤ k → k < n → (t.letter k).terminal = false) :
    (∃ k < n, i ≤ k ∧ FailsFrom w t i k) ↔
      w.direction = .upper ∧ ∃ k, i + 1 ≤ k ∧ k < n ∧ w.Late (t.span i k) := by
  constructor
  · intro h
    rcases h with ⟨k, hk, hik, _, ⟨hend, _⟩ | ⟨hlt, _, hwhy, hlate⟩⟩
    · rw [hgo k hik hk] at hend
      cases hend
    · rcases hwhy with hbk | hup
      · rw [hopen k hlt hk] at hbk
        cases hbk
      · exact ⟨hup, k, hlt, hk, hlate⟩
  · intro h
    obtain ⟨hup, k, hik, hk, hlate⟩ := h
    have ho := hopen.mono (Nat.le_of_lt hk)
    exact ⟨k, hk, by omega, ha, .inr ⟨hik, ho, .inr hup, hlate⟩⟩

end

section
variable {g : Graph} {inv : Invariant} {path : Path}

theorem breaksTimedFollowedBy_iff (hin : Inside g path)
    (hd : ∀ k, ((path.trace g inv).delta (k + 1)).isFloat = false)
    (hf : (path.trace g inv).Forward) {w : Bound} (hw : w.value.isFloat = false) {v : Bool}
    (h : breaksTimedFollowedBy g inv path.toArray w = .ok v) :
    v = true ↔ ∃ k < path.length, (Monitor.timedFollowedBy w).FailsAt (path.trace g inv) k := by
  rw [breaksTimedFollowedBy, List.size_toArray] at h
  let t := path.trace g inv
  suffices hbody : ∀ i v, 0 ≤ i → i < path.length → _ →
      (v = true ↔ ∃ k < path.length, i ≤ k ∧ FailsFrom w t i k) by
    rw [anyM_positions hbody h]
    constructor
    · intro h
      obtain ⟨i, _, _, k, hk, hik, hfail⟩ := h
      exact ⟨k, hk, i, hik, hfail⟩
    · intro h
      obtain ⟨k, hk, i, hik, hfail⟩ := h
      exact ⟨i, Nat.zero_le i, by omega, k, hk, hik, hfail⟩
  clear h v
  intro i v _ hi h
  obtain ⟨hopen, hanswer⟩ := answer_spec (t := t) (i := i) (n := path.length)
  rw [isA_eq hin, Result.ok_bind, Result.findM?_eq (fun x _ => isB_eq hin x), Result.ok_bind,
    Result.anyM_eq (fun x _ => isTerminal_eq hin x), Result.ok_bind] at h
  change (if !(t.letter i).a then _ else _) = _ at h
  generalize hfind : (positions (i + 1) path.length).find? (fun x => (t.letter x).b) = answer
    at hopen hanswer
  simp only [t] at hfind
  simp only [hfind] at h
  by_cases ha : (t.letter i).a = false
  · simp only [ha, Bool.not_false, if_true] at h
    cases h
    simp [FailsFrom, ha]
  rw [Bool.not_eq_false] at ha
  simp only [ha, Bool.not_true, Bool.false_eq_true, if_false] at h
  split at h
  · rename_i hterm
    cases h
    obtain ⟨k, hik, hk, hend⟩ := any_positions.mp hterm
    have hle : answer.getD path.length ≤ path.length := by
      cases answer with
      | none => exact Nat.le_refl _
      | some j => exact Nat.le_of_lt (hanswer j rfl).2.1
    simp only [true_iff]
    exact ⟨k, by omega, hik, ha, .inl ⟨hend, hopen.mono hk⟩⟩
  rename_i hterm
  have hgo : ∀ k, i ≤ k → k < answer.getD path.length → (t.letter k).terminal = false := by
    intro k hik hk
    apply Bool.eq_false_iff.mpr
    intro hend
    exact hterm (any_positions.mpr ⟨k, hik, hk, hend⟩)
  cases answer with
  | some j =>
    obtain ⟨hij, hj, hb⟩ := hanswer j rfl
    rw [timeIs_iff hd hw (Nat.le_of_lt hij) h, failsFrom_answered hf ha hij hj hb hopen hgo]
  | none =>
    rw [Option.getD_none] at hopen hgo
    rw [failsFrom_unanswered ha hopen hgo]
    cases hdir : w.direction with
    | upper =>
      simp only [hdir] at h
      simp only [true_and]
      refine anyM_positions (fun k v hik _ hv => ?_) h
      exact timeIs_iff hd hw (by omega) (by rw [hdir]; exact hv)
    | lower =>
      simp only [hdir] at h
      cases h
      simp

/-- The judgement of a path without a bound is always given, and it is right. -/
theorem violates_untimed (hin : Inside g path) (hb : inv.bound = none) :
    ∃ v, violates g inv path = .ok v ∧ (v = true ↔
      ∃ k < path.length, (Monitor.ofInvariant inv).FailsAt (path.trace g inv) k) := by
  cases hk : inv.kind <;> simp only [violates, Monitor.ofInvariant, hk, hb]
  · exact breaksFollowedBy_iff hin
  · exact breaksNeverFollowedBy_iff hin
  · exact breaksPrecedes_iff hin

/-- A judgement that is given is right. -/
theorem violates_iff (hin : Inside g path) (hw : (Monitor.ofInvariant inv).IsExact)
    (hd : (Monitor.ofInvariant inv).window ≠ none →
      ∀ k, ((path.trace g inv).delta (k + 1)).isFloat = false)
    (hf : (Monitor.ofInvariant inv).window ≠ none → (path.trace g inv).Forward) {v : Bool}
    (h : violates g inv path = .ok v) :
    v = true ↔ ∃ k < path.length, (Monitor.ofInvariant inv).FailsAt (path.trace g inv) k := by
  have given {r : Except PathError Bool} {P : Prop} (ht : ∃ v, r = .ok v ∧ (v = true ↔ P))
      (h : r = .ok v) : v = true ↔ P := by
    obtain ⟨v', hv', hiff⟩ := ht
    rw [h] at hv'
    cases hv'
    exact hiff
  cases hb : inv.bound with
  | none => exact given (violates_untimed hin hb) h
  | some w =>
    cases hk : inv.kind with
    | alwaysFollowedBy =>
      simp only [violates, Monitor.ofInvariant, hk, hb] at h hw hd hf ⊢
      have hsome : (Monitor.timedFollowedBy w).window ≠ none := by simp [Monitor.window]
      exact breaksTimedFollowedBy_iff hin (hd hsome) (hf hsome) (hw w rfl) h
    | neverFollowedBy =>
      simp only [violates, Monitor.ofInvariant, hk] at h ⊢
      exact given (breaksNeverFollowedBy_iff hin) h
    | alwaysPrecedes =>
      simp only [violates, Monitor.ofInvariant, hk, hb] at h hw hd ⊢
      have hsome : (Monitor.timedPrecedes w).window ≠ none := by simp [Monitor.window]
      exact breaksTimedPrecedes_iff hin (hd hsome) (hw w rfl) h

/-- A monitor that reads the path to its end has failed if the path is judged to violate the
invariant, and only then. -/
theorem failed_iff_judged (hpos : 0 < path.length) (hin : Inside g path)
    (hw : (Monitor.ofInvariant inv).IsExact)
    (hd : (Monitor.ofInvariant inv).window ≠ none →
      ∀ k, ((path.trace g inv).delta (k + 1)).isFloat = false)
    (hf : (Monitor.ofInvariant inv).window ≠ none → (path.trace g inv).Forward) {p : Phase}
    {c : Clock} (hrun : (Monitor.ofInvariant inv).run g inv path = .ok (p, c)) {v : Bool}
    (h : violates g inv path = .ok v) : p = .failed ↔ v = true := by
  rw [Monitor.run_failed_iff hpos hw hd hf hrun, violates_iff hin hw hd hf h]

end
end EventInvariants.Path
