import EventInvariants.Proofs.Ranking

namespace EventInvariants

theorem Time.order_self {t : Time} (ht : t.isFloat = false) : ∃ o, t.order t = .ok o := by
  cases t with
  | float x => cases ht
  | zero => exact ⟨_, rfl⟩
  | integer n => exact ⟨_, rfl⟩
  | vector v =>
    have hv : (Time.vector v).InDimension v.length := rfl
    exact hv.order hv (.inl fun _ => Int.le_refl _)

namespace Monitor
variable {m : Monitor} {p : Phase} {x y z : Clock}

/-- A bound that lets two times run, one of them further from `zero` towards a violation, has a
kind of its own. -/
theorem Carries.bound_of_ahead {s : Time} {w : Bound} (hw : m.window = some w)
    (hs : m.Carries p (.running s)) (hzero : m.Carries p (.running .zero))
    (h : m.severity (.running s) (.running .zero) = .ok .gt) :
    (∃ n, w.value = .integer n) ∨ ∃ v, w.value = .vector v := by
  obtain ⟨o, ho, hgt⟩ := severity_running hw h
  obtain ⟨o', ho', hnear⟩ := Bound.settled_order (hs.settled w hw)
  obtain ⟨o₀, ho₀, hnear₀⟩ := Bound.settled_order (hzero.settled w hw)
  cases hv : w.value with
  | integer n => exact .inl ⟨n, rfl⟩
  | vector v => exact .inr ⟨v, rfl⟩
  | zero =>
    rw [hv] at ho' ho₀
    rw [ho] at ho'
    cases ho'
    cases ho₀
    cases hd : w.direction <;> simp_all [Bound.isPast]
  | float b =>
    rw [hv] at ho'
    cases s with
    | zero =>
      cases ho
      cases hd : w.direction <;> simp [hd] at hgt
    | integer n | vector v => cases ho'
    | float x => exact absurd hs.exact (by simp [Clock.IsExact, Time.isFloat])

/-- A clock that is ahead of another is ahead of all that the other leads. In particular it compares
with them, though times of different dimensions may both compare with `zero`. -/
theorem Carries.severity_trans {o : Ordering} (hx : m.Carries p x) (hy : m.Carries p y)
    (hz : m.Carries p z) (hxy : m.severity x y = .ok .gt) (hyz : m.severity y z = .ok o)
    (ho : o ≠ .lt) : ∃ o', m.severity x z = .ok o' ∧ o' ≠ .lt := by
  have hlead : m.Leads x z := ((severity_leads hx.exact hy.exact hxy).mp (by simp)).trans
    ((severity_leads hy.exact hz.exact hyz).mp ho)
  suffices ∃ o', m.severity x z = .ok o' by
    obtain ⟨o', ho'⟩ := this
    exact ⟨o', ho', (severity_leads hx.exact hz.exact ho').mpr hlead⟩
  rcases severity_cases m (hx.idle.trans hz.idle.symm) with hok | ⟨s, t, cause, rfl, rfl, hst, _⟩
  · exact hok
  · exfalso
    obtain ⟨w, hw⟩ := Option.ne_none_iff_exists'.mp hx.timed
    cases y with
    | idle =>
      have hidle := hx.idle.mpr (hy.idle.mp rfl)
      cases hidle
    | saturated =>
      -- one of the two comparisons goes against the direction of the bound
      cases hd : w.direction <;> simp_all [Monitor.severity]
    | running r =>
      obtain ⟨a, ha, _⟩ := severity_running hw hxy
      obtain ⟨b, hb, _⟩ := severity_running hw hyz
      have hb' := Time.order_swap hy.exact hz.exact hb
      have hparts : (∀ i, s.part i ≤ t.part i) ∨ ∀ i, t.part i ≤ s.part i := by
        simp only [Leads, hw, Bound.Leads] at hlead
        cases hd : w.direction with
        | upper => exact .inr (by simpa [hd] using hlead)
        | lower => exact .inl (by simpa [hd] using hlead)
      have hsome : ∃ o', s.order t = .ok o' := by
        cases r with
        | float c => exact absurd hy.exact (by simp [Clock.IsExact, Time.isFloat])
        | integer n => exact Time.order_total (.inl ⟨n, rfl⟩) ha hb' hparts
        | vector v => exact Time.order_total (.inr ⟨v, rfl⟩) ha hb' hparts
        | zero =>
          obtain ⟨_, hs, _⟩ := Bound.settled_order (hx.settled w hw)
          obtain ⟨_, ht, _⟩ := Bound.settled_order (hz.settled w hw)
          exact Time.order_total (hx.bound_of_ahead hw hy hxy) hs ht hparts
      obtain ⟨o', ho'⟩ := hsome
      rw [ho'] at hst
      cases hst

end Monitor

namespace Entry
variable {m : Monitor} {p : Phase} {x y z : Entry}

theorem beats_true_iff : beats m x y = .ok true ↔
    x.length ≤ y.length ∧ ∃ o, m.severity x.clock y.clock = .ok o ∧ o ≠ .lt := by
  unfold beats
  split
  · rename_i hle
    cases m.severity x.clock y.clock with
    | error fault => simp [hle]
    | ok o => simp [hle]
  · rename_i hle
    simp [hle]

theorem beats_self (hx : m.Carries p x.clock) : beats m x x = .ok true := by
  obtain ⟨o, ho⟩ : ∃ o, m.severity x.clock x.clock = .ok o := by
    rcases Monitor.severity_cases m (Iff.refl (x.clock = .idle)) with
      hok | ⟨s, t, cause, hs, ht, hst, _⟩
    · exact hok
    · have hexact := hx.exact
      rw [hs] at ht hexact
      cases ht
      obtain ⟨o, ho⟩ := Time.order_self hexact
      rw [ho] at hst
      cases hst
  refine beats_true_iff.mpr ⟨Nat.le_refl _, o, ho, ?_⟩
  exact (Monitor.severity_leads hx.exact hx.exact ho).mpr (.refl m _)

/-- What takes the place of an entry at one length makes superfluous all that the entry did. -/
theorem beats_of_replaced (hx : m.Carries p x.clock) (hy : m.Carries p y.clock)
    (hz : m.Carries p z.clock) (hlen : x.length = y.length) (hyx : beats m y x = .ok false)
    (hyz : beats m y z = .ok true) : beats m x z = .ok true := by
  obtain ⟨hle, o, ho, hne⟩ := beats_true_iff.mp hyz
  have hmilder := beats_false_iff.mp hyx (Nat.le_of_eq hlen.symm)
  have hahead := Monitor.severity_swap hy.exact hx.exact hmilder
  exact beats_true_iff.mpr ⟨hlen ▸ hle, hx.severity_trans hy hz hahead ho hne⟩

end Entry

namespace Frontier
variable {m : Monitor} {p : Phase} {new e : Entry} {f : Frontier}

/-- The frontier turns an entry away: one of its entries makes it superfluous, and those that are
shorter compare with it. -/
def Repels (m : Monitor) (f : Frontier) (e : Entry) : Prop :=
  ∃ x ∈ f, Entry.beats m x e = .ok true ∧
    ∀ y ∈ f, y.length < x.length → Entry.beats m y e = .ok false

theorem Repels.survivors (hf : f.Ranked m) (h : f.Repels m e) : survivors? m e f = .ok none := by
  obtain ⟨x, hx, hbeat, hshort⟩ := h
  induction f with
  | nil => cases hx
  | cons old rest ih =>
    obtain ⟨hhead, htail⟩ := List.pairwise_cons.mp hf
    rw [survivors?]
    rcases List.mem_cons.mp hx with rfl | hx
    · rw [hbeat]
      rfl
    · have hlt := (hhead x hx).1
      have hle := (Entry.beats_true_iff.mp hbeat).1
      have hmilder := hshort old List.mem_cons_self hlt
      have hlonger : Entry.beats m e old = .ok false :=
        Entry.beats_false_iff.mpr fun h => absurd h (by omega)
      rw [hmilder, hlonger, Result.ok_bind, if_neg Bool.false_ne_true, Result.ok_bind,
        ih htail hx fun y hy => hshort y (List.mem_cons_of_mem old hy)]
      rfl

theorem repels_of_survivors (hf : f.Ranked m) (h : survivors? m e f = .ok none) :
    f.Repels m e := by
  induction f with
  | nil => cases h
  | cons old rest ih =>
    obtain ⟨hhead, htail⟩ := List.pairwise_cons.mp hf
    rw [survivors?, Result.bind_ok] at h
    obtain ⟨won, hwon, h⟩ := h
    cases won with
    | true =>
      refine ⟨old, List.mem_cons_self, hwon, ?_⟩
      intro y hy hlt
      rcases List.mem_cons.mp hy with rfl | hy
      · omega
      · have := (hhead y hy).1
        omega
    | false =>
      obtain ⟨_, _, h⟩ := Result.bind_ok.mp h
      obtain ⟨r, hr, h⟩ := Result.bind_ok.mp h
      cases r with
      | some kept => cases h
      | none =>
        obtain ⟨x, hx, hbeat, hshort⟩ := ih htail hr
        refine ⟨x, List.mem_cons_of_mem old hx, hbeat, ?_⟩
        intro y hy hlt
        rcases List.mem_cons.mp hy with rfl | hy
        · exact hwon
        · exact hshort y hy hlt

/-- Once an entry has been offered, it is turned away. -/
theorem repels_of_offer {r : Option Frontier} (hf : f.Ranked m) (he : m.Carries p e.clock)
    (h : f.offer? m e = .ok r) : (r.getD f).Repels m e := by
  cases r with
  | none =>
    rw [offer?, Result.bind_ok] at h
    obtain ⟨r, hr, h⟩ := h
    cases r with
    | none => exact repels_of_survivors hf hr
    | some kept => cases h
  | some f' =>
    obtain ⟨hbeat, _, hmem, hfrom, _⟩ := offer_some h
    refine ⟨e, hmem, Entry.beats_self he, ?_⟩
    intro y hy hlt
    rcases hfrom y hy with rfl | hy
    · omega
    · exact hbeat y hy

theorem Repels.offer {r : Option Frontier} (hf : ∀ x ∈ f, m.Carries p x.clock)
    (he : m.Carries p e.clock) (hnew : m.Carries p new.clock) (hlen : e.length ≤ new.length)
    (h : f.Repels m e) (hoffer : f.offer? m new = .ok r) : (r.getD f).Repels m e := by
  cases r with
  | none => exact h
  | some f' =>
    obtain ⟨x, hx, hbeat, hshort⟩ := h
    obtain ⟨hunbeaten, hkept, hmem, hfrom, _⟩ := offer_some hoffer
    have hle := (Entry.beats_true_iff.mp hbeat).1
    have hshort' : ∀ y ∈ f', y.length < x.length → Entry.beats m y e = .ok false := by
      intro y hy hlt
      rcases hfrom y hy with rfl | hy
      · omega
      · exact hshort y hy hlt
    rcases hkept x hx with hin | hlost
    · exact ⟨x, hin, hbeat, hshort'⟩
    · -- the new entry is as long as the one it removes, so it is strictly nearer to a violation
      have hlen' : new.length = x.length :=
        Nat.le_antisymm (Entry.beats_true_iff.mp hlost).1 (Nat.le_trans hle hlen)
      refine ⟨new, hmem, ?_, hlen' ▸ hshort'⟩
      exact Entry.beats_of_replaced hnew (hf x hx) he hlen' (hunbeaten x hx) hbeat

end Frontier

namespace StateSet
variable {m : Monitor} {s t u : StateSet} {p q : Phase} {e new : Entry}
  {l : List (Phase × Entry)} {added : Bool}

theorem offer_frontier {r : Option StateSet} (h : s.offer? m p e = .ok r) :
    ∃ r', (s.frontier p).offer? m e = .ok r' ∧ ∀ q,
      (r.getD s).frontier q = if q = p then r'.getD (s.frontier p) else s.frontier q := by
  rw [offer?, Result.bind_ok] at h
  obtain ⟨r', hr', h⟩ := h
  cases h
  refine ⟨r', hr', fun q => ?_⟩
  cases r' with
  | none =>
    split
    · rename_i hq
      rw [hq]
      rfl
    · rfl
  | some f => exact frontier_update s f p q

theorem offerAll_cons_ok (h : s.offerAll m ((p, e) :: l) = (u, .ok added)) :
    ∃ r added', s.offer? m p e = .ok r ∧ (r.getD s).offerAll m l = (u, .ok added') := by
  rw [offerAll] at h
  split at h
  · cases h
  · rename_i hr
    exact ⟨none, added, hr, h⟩
  · rename_i s' hr
    cases hrest : s'.offerAll m l with
    | mk v answer =>
      rw [hrest] at h
      cases answer with
      | error fault => cases h
      | ok b =>
        cases h
        exact ⟨some s', b, hr, hrest⟩

theorem Ranked.offer {r : Option StateSet} (hs : s.Ranked m) (he : m.Carries p e.clock)
    (h : s.offer? m p e = .ok r) : (r.getD s).Ranked m :=
  ((upheld_ranked m).offer hs he).of_eq_ok h

theorem Ranked.offer_repels {r : Option StateSet} (hs : s.Ranked m) (he : m.Carries p e.clock)
    (h : s.offer? m p e = .ok r) : ((r.getD s).frontier p).Repels m e := by
  obtain ⟨r', hr', hset⟩ := offer_frontier h
  rw [hset, if_pos rfl]
  exact Frontier.repels_of_offer (hs.ranked p) he hr'

theorem Ranked.repels_offer {r : Option StateSet} (hs : s.Ranked m) (he : m.Carries p e.clock)
    (hnew : m.Carries q new.clock) (hlen : p = q → e.length ≤ new.length)
    (hrep : (s.frontier p).Repels m e) (h : s.offer? m q new = .ok r) :
    ((r.getD s).frontier p).Repels m e := by
  obtain ⟨r', hr', hset⟩ := offer_frontier h
  rw [hset]
  split
  · rename_i hpq
    subst hpq
    exact hrep.offer (hs.carries p) he hnew (hlen rfl) hr'
  · exact hrep

/-- An entry that is turned away before longer ones are offered is turned away after them. -/
theorem Ranked.repels_offerAll (hs : s.Ranked m) (he : m.Carries p e.clock)
    (hl : ∀ q x, (q, x) ∈ l → m.Carries q x.clock ∧ (p = q → e.length ≤ x.length))
    (hrep : (s.frontier p).Repels m e) (h : s.offerAll m l = (u, .ok added)) :
    (u.frontier p).Repels m e := by
  induction l generalizing s added with
  | nil =>
    cases h
    exact hrep
  | cons first rest ih =>
    obtain ⟨q, new⟩ := first
    obtain ⟨hnew, hlen⟩ := hl q new List.mem_cons_self
    obtain ⟨r, added', hr, hrest⟩ := offerAll_cons_ok h
    exact ih (hs.offer hnew hr) (fun q x hx => hl q x (List.mem_cons_of_mem _ hx))
      (hs.repels_offer he hnew hlen hrep hr) hrest

/-- What is offered in the order of histories is turned away from then on. -/
theorem Ranked.offerAll_repels (hs : s.Ranked m)
    (hl : ∀ p e, (p, e) ∈ l → m.Carries p e.clock)
    (hsort : l.Pairwise fun x y => x.1 = y.1 → x.2.length ≤ y.2.length)
    (h : s.offerAll m l = (u, .ok added)) :
    ∀ p e, (p, e) ∈ l → (u.frontier p).Repels m e := by
  induction l generalizing s added with
  | nil => simp
  | cons first rest ih =>
    obtain ⟨q, new⟩ := first
    obtain ⟨hhead, htail⟩ := List.pairwise_cons.mp hsort
    have hnew := hl q new List.mem_cons_self
    have hrest : ∀ p e, (p, e) ∈ rest → m.Carries p e.clock :=
      fun p e he => hl p e (List.mem_cons_of_mem _ he)
    obtain ⟨r, added', hr, hall⟩ := offerAll_cons_ok h
    have hs' := hs.offer hnew hr
    intro p e he
    rcases List.mem_cons.mp he with heq | he
    · cases heq
      exact hs'.repels_offerAll hnew (fun p e he => ⟨hrest p e he, hhead (p, e) he⟩)
        (hs.offer_repels hnew hr) hall
    · exact ih hs' hrest htail hall p e he

theorem Ranked.offerAll_repelled (hs : s.Ranked m)
    (hrep : ∀ p e, (p, e) ∈ l → (s.frontier p).Repels m e) :
    s.offerAll m l = (s, .ok false) := by
  induction l with
  | nil => rfl
  | cons first rest ih =>
    obtain ⟨p, e⟩ := first
    have hnone : s.offer? m p e = .ok none := by
      rw [offer?, Frontier.offer?, (hrep p e List.mem_cons_self).survivors (hs.ranked p)]
      rfl
    rw [offerAll, hnone]
    exact ih fun q x hx => hrep q x (List.mem_cons_of_mem _ hx)

theorem Sorted.entries (hs : s.Sorted) :
    s.entries.Pairwise fun x y => x.1 = y.1 → x.2.length ≤ y.2.length := by
  refine List.pairwise_flatMap.mpr ⟨?_, ?_⟩
  · intro p _
    refine List.pairwise_map.mpr ((hs p).imp ?_)
    intro x y hle _
    exact hle
  · have hnodup : phases.Nodup := by decide
    apply hnodup.imp
    intro p q hne x hx y hy heq
    obtain ⟨_, _, rfl⟩ := List.mem_map.mp hx
    obtain ⟨_, _, rfl⟩ := List.mem_map.mp hy
    exact absurd heq hne

end StateSet

/-- A merge that is not refused makes the second set known for good: merging it again is not refused
either and changes nothing. This is so for vector times too, some of which do not compare. -/
theorem merge_idempotent {m : Monitor} {s t : StateSet} {improved : Bool}
    (hs : s.Built m (fun d => d.isFloat = false)) (ht : t.Built m (fun d => d.isFloat = false))
    (h : (s.merge m t).2 = .ok improved) :
    (s.merge m t).1.merge m t = ((s.merge m t).1, .ok false) := by
  have hsr := (StateSet.upheld_ranked m).built hs
  have htr := (StateSet.upheld_ranked m).built ht
  have hur := (StateSet.upheld_ranked m).built (hs.merge ht)
  have hcarries : ∀ p e, (p, e) ∈ t.entries → m.Carries p e.clock :=
    fun p e he => htr.carries p e (StateSet.mem_entries.mp he)
  apply hur.offerAll_repelled
  exact hsr.offerAll_repels hcarries htr.sorted.entries (Prod.ext rfl h)

/-- The second set brings a time of `(1,0)` after one edge, which goes in front of the first set's
`(1,1)` after two, and `(2,1)` after two, which takes the place of `(1,1)`. -/
theorem reordered_merge_idempotent :
    ∃ s t : StateSet, s.Built .twofold (fun d => d.isFloat = false) ∧
      t.Built .twofold (fun d => d.isFloat = false) ∧
      s.seen.map Entry.clock = [.running (.vector [1, 1])] ∧
      (s.merge .twofold t).2 = .ok true ∧
      (s.merge .twofold t).1.seen.map Entry.clock =
        [.running (.vector [1, 0]), .running (.vector [2, 1])] ∧
      (s.merge .twofold t).1.merge .twofold t = ((s.merge .twofold t).1, .ok false) := by
  have hrun : (do
      let a ← StateSet.initial .twofold 0 ⟨true, false, false⟩
      let b ← a.transition .twofold 1 ⟨false, false, false⟩ (some (.vector [1, 0]))
      let s ← b.transition .twofold 2 ⟨false, false, false⟩ (some (.vector [0, 1]))
      let c ← a.transition .twofold 3 ⟨false, false, false⟩ (some (.vector [1, 1]))
      let d ← c.transition .twofold 2 ⟨false, false, false⟩ (some (.vector [1, 0]))
      let e ← a.transition .twofold 2 ⟨false, false, false⟩ (some (.vector [1, 0]))
      let t := (d.merge .twofold e).1
      return (s.seen.map Entry.clock, (s.merge .twofold t).2,
        (s.merge .twofold t).1.seen.map Entry.clock)) =
      .ok ([.running (.vector [1, 1])], .ok true,
        [.running (.vector [1, 0]), .running (.vector [2, 1])]) := by cbv
  obtain ⟨a, ha, hrun⟩ := Result.bind_ok.mp hrun
  obtain ⟨b, hb, hrun⟩ := Result.bind_ok.mp hrun
  obtain ⟨s, hs, hrun⟩ := Result.bind_ok.mp hrun
  obtain ⟨c, hc, hrun⟩ := Result.bind_ok.mp hrun
  obtain ⟨d, hd, hrun⟩ := Result.bind_ok.mp hrun
  obtain ⟨e, he, hrun⟩ := Result.bind_ok.mp hrun
  simp only [Result.pure_eq, Except.ok.injEq, Prod.mk.injEq] at hrun
  obtain ⟨hbefore, hmerge, hafter⟩ := hrun
  have hleft : s.Built .twofold (fun d => d.isFloat = false) :=
    .transition (.transition (.initial ha) (by simp [Time.isFloat]) hb) (by simp [Time.isFloat]) hs
  have hlong : d.Built .twofold (fun d => d.isFloat = false) :=
    .transition (.transition (.initial ha) (by simp [Time.isFloat]) hc) (by simp [Time.isFloat]) hd
  have hshort : e.Built .twofold (fun d => d.isFloat = false) :=
    .transition (.initial ha) (by simp [Time.isFloat]) he
  have hright := hlong.merge hshort
  exact ⟨s, _, hleft, hright, hbefore, hmerge, hafter, merge_idempotent hleft hright hmerge⟩

end EventInvariants
