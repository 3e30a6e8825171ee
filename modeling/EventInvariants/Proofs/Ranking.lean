import EventInvariants.Proofs.Built
import EventInvariants.Proofs.Concurrency
import EventInvariants.Proofs.Failure
import Mathlib.Data.List.Permutation
import Mathlib.Data.List.Zip

namespace EventInvariants

namespace Time

theorem componentOrder_swap (sofar : Ordering) (pairs : List (Int × Int)) :
    componentOrder? sofar.swap (pairs.map Prod.swap) =
      (componentOrder? sofar pairs).map Ordering.swap := by
  induction pairs generalizing sofar with
  | nil => rfl
  | cons xy pairs ih =>
    obtain ⟨x, y⟩ := xy
    have hswap : compare y x = (compare x y).swap := (Int.compare_swap x y).symm
    have hlt : componentOrder? .gt (pairs.map Prod.swap) = _ := ih .lt
    have heq : componentOrder? .eq (pairs.map Prod.swap) = _ := ih .eq
    have hgt : componentOrder? .lt (pairs.map Prod.swap) = _ := ih .gt
    simp only [List.map_cons, Prod.swap_prod_mk, componentOrder?, hswap]
    cases compare x y <;> cases sofar <;> simp [hlt, heq, hgt]

theorem decided_swap {s t : Time} {pairs : List (Int × Int)} {o : Ordering}
    (h : order.decided s t pairs = .ok o) :
    order.decided t s (pairs.map Prod.swap) = .ok o.swap := by
  unfold order.decided at *
  rw [show componentOrder? .eq (pairs.map Prod.swap) = _ from componentOrder_swap .eq pairs]
  cases hp : componentOrder? .eq pairs with
  | none => simp [hp] at h
  | some p =>
    simp only [hp, Except.ok.injEq] at h
    subst h
    rfl

theorem order_swap {s t : Time} {o : Ordering} (hs : s.isFloat = false) (ht : t.isFloat = false)
    (h : s.order t = .ok o) : t.order s = .ok o.swap := by
  cases s with
  | float x => cases hs
  | zero =>
    cases t with
    | float x => cases ht
    | zero =>
      cases h
      rfl
    | integer n =>
      cases h
      exact congrArg Except.ok (Int.compare_swap 0 n).symm
    | vector w => simpa [Time.order, Function.comp_def] using decided_swap h
  | integer m =>
    cases t with
    | float x => cases ht
    | vector w => cases h
    | zero =>
      cases h
      exact congrArg Except.ok (Int.compare_swap m 0).symm
    | integer n =>
      cases h
      exact congrArg Except.ok (Int.compare_swap m n).symm
  | vector v =>
    cases t with
    | float x => cases ht
    | integer n => cases h
    | zero => simpa [Time.order, Function.comp_def] using decided_swap h
    | vector w =>
      simp only [Time.order] at h ⊢
      split at h
      · cases h
      · rename_i hl
        rw [if_neg (fun hne => hl (Ne.symm hne)), ← List.zip_swap]
        exact decided_swap h

end Time

namespace Monitor
variable {m : Monitor} {p : Phase} {x y : Clock} {o : Ordering}

theorem severity_swap (hx : x.IsExact) (hy : y.IsExact) (h : m.severity x y = .ok o) :
    m.severity y x = .ok o.swap := by
  cases hw : m.window with
  | none =>
    rw [severity_untimed hw] at h ⊢
    cases h
    rfl
  | some w =>
    cases x with
    | running s =>
      cases y with
      | running t =>
        obtain ⟨q, hq, rfl⟩ := severity_running hw h
        simp only [severity, hw, Time.order_swap hx hy hq, Fault.lift]
        cases hd : w.direction <;> rfl
      | idle =>
        simp only [severity, hw] at h
        cases h
      | saturated =>
        simp only [severity, hw] at h ⊢
        cases hd : w.direction <;> rw [hd] at h <;> cases h <;> rfl
    | idle | saturated =>
      cases y <;> cases hd : w.direction <;> simp only [severity, hw, hd] at h ⊢ <;> cases h <;>
        rfl

/-- Where no time is measured, clocks are all alike. -/
theorem Carries.severity_idle (hx : m.Carries p x) (hy : m.Carries p y)
    (hp : m.isTiming p = false) : m.severity x y = .ok .eq := by
  obtain rfl := hx.idle.mpr hp
  obtain rfl := hy.idle.mpr hp
  unfold Monitor.severity
  cases m.window with
  | none => rfl
  | some w => cases hd : w.direction <;> simp [hd]

end Monitor

namespace Entry
variable {m : Monitor} {x y : Entry}

/-- The first entry has the shorter history and the milder clock. -/
def Before (m : Monitor) (x y : Entry) : Prop :=
  x.length < y.length ∧ m.severity x.clock y.clock = .ok .lt

theorem beats_false_iff :
    beats m x y = .ok false ↔
      (x.length ≤ y.length → m.severity x.clock y.clock = .ok .lt) := by
  unfold beats
  split
  · rename_i hle
    cases m.severity x.clock y.clock with
    | error fault => simp [hle]
    | ok o => simp [hle]
  · rename_i hle
    simp [hle]

/-- Of two entries neither of which makes the other superfluous, one comes before the other. -/
theorem before_or_before (hx : x.clock.IsExact) (hy : y.clock.IsExact)
    (hxy : beats m x y = .ok false) (hyx : beats m y x = .ok false) :
    x.Before m y ∨ y.Before m x := by
  rw [beats_false_iff] at hxy hyx
  rcases Nat.lt_trichotomy x.length y.length with hlt | heq | hgt
  · exact .inl ⟨hlt, hxy (Nat.le_of_lt hlt)⟩
  · -- at one length, each clock would be milder than the other
    have hmilder := Monitor.severity_swap hx hy (hxy (Nat.le_of_eq heq))
    rw [hyx (Nat.le_of_eq heq.symm)] at hmilder
    cases hmilder
  · exact .inr ⟨hgt, hyx (Nat.le_of_lt hgt)⟩

theorem Before.not_beats (hx : x.clock.IsExact) (hy : y.clock.IsExact) (h : x.Before m y) :
    ((∃ o, m.severity x.clock y.clock = .ok o) ∧ ∃ o, m.severity y.clock x.clock = .ok o) ∧
      beats m x y = .ok false ∧ beats m y x = .ok false := by
  obtain ⟨hlt, hsev⟩ := h
  refine ⟨⟨⟨_, hsev⟩, _, Monitor.severity_swap hx hy hsev⟩, ?_, ?_⟩
  · rw [beats_false_iff]
    exact fun _ => hsev
  · rw [beats_false_iff]
    exact fun hle => absurd hlt (Nat.not_lt.mpr hle)

end Entry

namespace Frontier
variable {m : Monitor} {new : Entry} {f f' kept : Frontier}

/-- Every entry comes before those behind it. -/
def Ranked (m : Monitor) (f : Frontier) : Prop :=
  f.Pairwise (Entry.Before m)

theorem Ranked.sorted (h : f.Ranked m) : Sorted f :=
  h.imp fun hxy => Nat.le_of_lt hxy.1

theorem survivors_unbeaten (h : survivors? m new f = .ok (some kept)) :
    ∀ x ∈ kept, Entry.beats m new x = .ok false := by
  induction f generalizing kept with
  | nil =>
    cases h
    simp
  | cons old rest ih =>
    rw [survivors?, Result.bind_ok] at h
    obtain ⟨won, _, h⟩ := h
    cases won with
    | true => cases h
    | false =>
      obtain ⟨lost, hlost, h⟩ := Result.bind_ok.mp h
      obtain ⟨r, hr, h⟩ := Result.bind_ok.mp h
      cases r with
      | none => cases h
      | some others =>
        cases h
        intro x hx
        cases lost with
        | true => exact ih hr x hx
        | false =>
          rcases List.mem_cons.mp hx with rfl | hx
          · exact hlost
          · exact ih hr x hx

theorem insert_ranked (hf : f.Ranked m) (hnew : ∀ x ∈ f, x.Before m new ∨ new.Before m x) :
    (insert new f).Ranked m := by
  induction f with
  | nil => exact List.pairwise_singleton _ new
  | cons e f ih =>
    obtain ⟨hhead, htail⟩ := List.pairwise_cons.mp hf
    obtain ⟨he, hrest⟩ := List.forall_mem_cons.mp hnew
    rw [insert_cons]
    split
    · rename_i hle
      have hbefore : e.Before m new := by
        rcases he with he | he
        · exact he
        · exact absurd he.1 (Nat.not_lt.mpr hle)
      refine List.pairwise_cons.mpr ⟨?_, ih htail hrest⟩
      intro x hx
      rcases mem_insert.mp hx with rfl | hx
      · exact hbefore
      · exact hhead x hx
    · -- the new entry stands first, and what is behind `e` is longer still
      rename_i hgt
      refine List.pairwise_cons.mpr ⟨?_, hf⟩
      intro x hx
      rcases hnew x hx with hx' | hx'
      · rcases List.mem_cons.mp hx with rfl | hx
        · exact absurd (Nat.le_of_lt hx'.1) hgt
        · have hlong := (hhead x hx).1
          have hshort := hx'.1
          omega
      · exact hx'

/-- A new entry is compared with all others, so that it finds its rank among them. -/
theorem offer_ranked (hf : f.Ranked m) (hexact : ∀ x ∈ f, x.clock.IsExact)
    (hnew : new.clock.IsExact) (h : f.offer? m new = .ok (some f')) : f'.Ranked m := by
  rw [offer?, Result.bind_ok] at h
  obtain ⟨r, hr, h⟩ := h
  cases r with
  | none => cases h
  | some kept =>
    cases h
    obtain ⟨hsub, hbeat, _⟩ := survivors_some hr
    apply insert_ranked (hf.sublist hsub)
    intro x hx
    have hmem := hsub.subset hx
    exact Entry.before_or_before (hexact x hmem) hnew (hbeat x hmem) (survivors_unbeaten hr x hx)

end Frontier

namespace StateSet
variable {m : Monitor} {s : StateSet}

/-- Each state's entries are ranked and have clocks that the state can have. -/
structure Ranked (m : Monitor) (s : StateSet) : Prop where
  carries : ∀ p, ∀ e ∈ s.frontier p, m.Carries p e.clock
  ranked : ∀ p, (s.frontier p).Ranked m

theorem offer_ranked {p : Phase} {e : Entry} {t : StateSet} (hs : s.Ranked m)
    (he : m.Carries p e.clock) (h : s.offer? m p e = .ok (some t)) (q : Phase) :
    (t.frontier q).Ranked m := by
  rw [offer?, Result.bind_ok] at h
  obtain ⟨r, hr, h⟩ := h
  cases r with
  | none => cases h
  | some f =>
    cases h
    rw [frontier_update]
    split
    · exact Frontier.offer_ranked (hs.ranked p) (fun x hx => (hs.carries p x hx).exact) he.exact hr
    · exact hs.ranked q

/-- No operation spoils the ranks, whatever the bound, if no clock reads a double. -/
theorem upheld_ranked_of {allowed : Time → Prop}
    (hallowed : m.window ≠ none → ∀ d, allowed d → d.isFloat = false) :
    Upheld m allowed m.Carries (fun _ => True) (Ranked m) := by
  have hclocks : Upheld m allowed m.Carries (fun _ => True)
      (fun s => ∀ p, ∀ e ∈ s.frontier p, m.Carries p e.clock) := by
    apply upheld_clocks
    · intro l
      exact Result.ends_of_ok fun _ hr => Monitor.Carries.initial hr
    · intro p c l delta hc hd
      apply Result.ends_of_ok
      intro r hr
      refine hc.step (fun hw => ?_) hr
      cases delta with
      | none => rfl
      | some d => exact hallowed hw d (hd d rfl)
    · intro p x y _ _
      exact Result.ends_of_ok fun _ _ => trivial
  refine ⟨⟨hclocks.empty, by simp [Frontier.Ranked]⟩, fun hs => hclocks.clock hs.carries,
    hclocks.read, hclocks.step, ?_⟩
  intro s p e hs he
  apply Result.ends_of_ok
  intro r hr
  refine ⟨(hclocks.offer hs.carries he).of_eq_ok hr, ?_⟩
  cases r with
  | none => exact hs.ranked
  | some t => exact offer_ranked hs he hr

theorem upheld_ranked (m : Monitor) :
    Upheld m (fun d => d.isFloat = false) m.Carries (fun _ => True) (Ranked m) :=
  upheld_ranked_of fun _ _ hd => hd

theorem Ranked.sorted (hs : s.Ranked m) : s.Sorted :=
  fun p => (hs.ranked p).sorted

theorem Ranked.single {p : Phase} (hs : s.Ranked m) (hp : m.isTiming p = false) :
    (s.frontier p).length ≤ 1 := by
  have hranked := hs.ranked p
  have hcarries := hs.carries p
  match hf : s.frontier p with
  | [] => exact Nat.zero_le 1
  | [_] => exact Nat.le_refl 1
  | x :: y :: rest =>
    rw [hf] at hranked hcarries
    have hxy := (List.pairwise_cons.mp hranked).1 y List.mem_cons_self
    have halike := (hcarries x List.mem_cons_self).severity_idle
      (hcarries y (List.mem_cons_of_mem x List.mem_cons_self)) hp
    rw [hxy.2] at halike
    cases halike

end StateSet

/-- However a set was made along edges without doubles, merges that were refused half-way included,
its frontiers are ranked: histories grow strictly, and each clock is strictly milder than those
behind it. So any two entries compare and neither makes the other superfluous, there is one entry at
most where no time is measured, and the history that a set gives for a state is a shortest one. -/
theorem frontier_ranked {m : Monitor} {s : StateSet}
    (h : s.Built m (fun d => d.isFloat = false)) (p : Phase) :
    ((s.frontier p).Pairwise fun x y =>
        x.length < y.length ∧ m.severity x.clock y.clock = .ok .lt) ∧
      ((s.frontier p).Pairwise fun x y =>
        ((∃ o, m.severity x.clock y.clock = .ok o) ∧ ∃ o, m.severity y.clock x.clock = .ok o) ∧
          Entry.beats m x y = .ok false ∧ Entry.beats m y x = .ok false) ∧
      (m.isTimed = false ∨ p = .start ∨ p = .failed → (s.frontier p).length ≤ 1) ∧
      ∀ e ∈ s.frontier p, ∃ shortest, s.history? p = some shortest ∧
        (∃ x ∈ s.frontier p, x.history = shortest) ∧ shortest.length ≤ e.length := by
  have hs := (StateSet.upheld_ranked m).built h
  refine ⟨hs.ranked p, ?_, ?_, ?_⟩
  · apply List.Pairwise.imp_of_mem _ (hs.ranked p)
    intro x y hx hy hxy
    exact hxy.not_beats (hs.carries p x hx).exact (hs.carries p y hy).exact
  · intro hp
    apply hs.single
    rcases hp with ht | rfl | rfl
    · cases p <;> simp [Monitor.isTiming, ht]
    · rfl
    · rfl
  · intro e he
    obtain ⟨shortest, hshortest, hle⟩ := StateSet.history_le hs.sorted he
    exact ⟨shortest, hshortest, StateSet.history_mem hshortest, hle⟩

/-- An `a` is followed by a `b` within five of each of two times. -/
def Monitor.twofold : Monitor :=
  .timedFollowedBy ⟨.upper, .vector [5, 5]⟩

/-- The second set brings a path without an `a`, which is taken in, and then a time of `(0,1)` that
does not compare with `(1,0)`. -/
theorem halted_merge_ranked :
    ∃ s t : StateSet, s.Built .twofold (fun d => d.isFloat = false) ∧
      t.Built .twofold (fun d => d.isFloat = false) ∧
      (s.merge .twofold t).2 =
        .error (.time (.incomparable (.vector [1, 0]) (.vector [0, 1]))) ∧
      (s.merge .twofold t).1.start.length = 1 ∧ s.start.length = 0 ∧
      (s.merge .twofold t).1.seen.length = 2 ∧
      ∀ p, ((s.merge .twofold t).1.frontier p).Pairwise fun x y =>
        x.length < y.length ∧ Monitor.twofold.severity x.clock y.clock = .ok .lt := by
  have hrun : (do
      let s ← StateSet.initial .twofold 0 ⟨true, false, false⟩
      let s' ← s.transition .twofold 1 ⟨false, false, false⟩ (some (.vector [1, 0]))
      let r ← s'.begin? .twofold 1 ⟨true, false, false⟩
      let t ← StateSet.initial .twofold 2 ⟨false, false, false⟩
      let r' ← t.begin? .twofold 3 ⟨true, false, false⟩
      let t' ← (r'.getD t).transition .twofold 1 ⟨false, false, false⟩ (some (.vector [0, 1]))
      let u := (r.getD s').merge .twofold t'
      return (u.2, u.1.start.length, (r.getD s').start.length, u.1.seen.length)) =
        .ok (.error (.time (.incomparable (.vector [1, 0]) (.vector [0, 1]))), 1, 0, 2) := by cbv
  obtain ⟨s, hs, hrun⟩ := Result.bind_ok.mp hrun
  obtain ⟨s', hs', hrun⟩ := Result.bind_ok.mp hrun
  obtain ⟨r, hr, hrun⟩ := Result.bind_ok.mp hrun
  obtain ⟨t, ht, hrun⟩ := Result.bind_ok.mp hrun
  obtain ⟨r', hr', hrun⟩ := Result.bind_ok.mp hrun
  obtain ⟨t', ht', hrun⟩ := Result.bind_ok.mp hrun
  simp only [Result.pure_eq, Except.ok.injEq, Prod.mk.injEq] at hrun
  obtain ⟨hfault, hstart, hbefore, hseen⟩ := hrun
  have hleft : (r.getD s').Built .twofold (fun d => d.isFloat = false) :=
    .begin (.transition (.initial hs) (by simp [Time.isFloat]) hs') hr
  have hright : t'.Built .twofold (fun d => d.isFloat = false) :=
    .transition (.begin (.initial ht) hr') (by simp [Time.isFloat]) ht'
  exact ⟨_, _, hleft, hright, hfault, hstart, hbefore, hseen,
    fun p => (frontier_ranked (.merge hleft hright) p).1⟩

end EventInvariants
