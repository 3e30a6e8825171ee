import EventInvariants.Proofs.Ranking
import Mathlib.Data.List.Forall2

namespace EventInvariants

namespace Monitor
variable {m : Monitor} {p : Phase} {x y : Clock}

theorem Carries.severity_scalar (hb : ∀ w, m.window = some w → ∃ n, w.value = .integer n)
    (hx : m.Carries p x) (hy : m.Carries p y) : ∃ o, m.severity x y = .ok o := by
  rcases hx.severity hy fun w hw => .inl (hb w hw) with hok | ⟨s, t, rfl, rfl, hconc, _⟩
  · exact hok
  · exact absurd hconc (hx.not_concurrent_scalar hy hb)

end Monitor

namespace Entry
variable {m : Monitor} {p : Phase} {x y z : Entry}

/-- Histories of one length, and clocks that are equally near to violating the bound. -/
def Alike (m : Monitor) (x y : Entry) : Prop :=
  x.length = y.length ∧ m.severity x.clock y.clock = .ok .eq

/-- A history that is no longer, and a clock that is at least as near to violating the bound. -/
def Dominates (m : Monitor) (x y : Entry) : Prop :=
  x.length ≤ y.length ∧
    (m.severity x.clock y.clock = .ok .eq ∨ m.severity x.clock y.clock = .ok .gt)

/-- An entry of the pool that no other one dominates, unless the two are alike. -/
def Undominated (m : Monitor) (pool : List Entry) (e : Entry) : Prop :=
  e ∈ pool ∧ ∀ x ∈ pool, x.Dominates m e → x.Alike m e

theorem Alike.symm (hx : x.clock.IsExact) (hy : y.clock.IsExact) (h : x.Alike m y) :
    y.Alike m x :=
  ⟨h.1.symm, Monitor.severity_swap hx hy h.2⟩

section
variable (hb : ∀ w, m.window = some w → ∃ n, w.value = .integer n)
include hb

theorem dominates_iff (hx : m.Carries p x.clock) (hy : m.Carries p y.clock) :
    x.Dominates m y ↔ x.length ≤ y.length ∧ m.Leads x.clock y.clock := by
  obtain ⟨o, ho⟩ := hx.severity_scalar hb hy
  rw [Dominates, ← Monitor.severity_leads hx.exact hy.exact ho, ho]
  cases o <;> simp

theorem alike_iff (hx : m.Carries p x.clock) (hy : m.Carries p y.clock) :
    x.Alike m y ↔ x.Dominates m y ∧ y.Dominates m x := by
  obtain ⟨o, ho⟩ := hx.severity_scalar hb hy
  have hswap := Monitor.severity_swap hx.exact hy.exact ho
  rw [Alike, Dominates, Dominates, ho, hswap, Nat.le_antisymm_iff]
  cases o <;> simp

theorem Dominates.trans (hx : m.Carries p x.clock) (hy : m.Carries p y.clock)
    (hz : m.Carries p z.clock) (hxy : x.Dominates m y) (hyz : y.Dominates m z) :
    x.Dominates m z := by
  rw [dominates_iff hb hx hy] at hxy
  rw [dominates_iff hb hy hz] at hyz
  exact (dominates_iff hb hx hz).mpr ⟨Nat.le_trans hxy.1 hyz.1, hxy.2.trans hyz.2⟩

theorem beats_eq_false_iff (hx : m.Carries p x.clock) (hy : m.Carries p y.clock) :
    beats m x y = .ok false ↔ ¬ x.Dominates m y := by
  obtain ⟨o, ho⟩ := hx.severity_scalar hb hy
  rw [beats_false_iff, Dominates, ho]
  cases o <;> simp

end
end Entry

namespace Frontier
variable {m : Monitor} {f f' : Frontier} {x y : Entry}

/-- Among ranked entries none dominates another one. -/
theorem Ranked.eq_of_dominates (hf : f.Ranked m) (hx : x ∈ f) (hy : y ∈ f)
    (h : x.Dominates m y) : x = y := by
  have hshort : f.Pairwise fun u w => u.Dominates m w → u = w := by
    apply hf.imp
    rintro u w ⟨_, hmild⟩ ⟨_, hsev | hsev⟩ <;> rw [hmild] at hsev <;> cases hsev
  have hlong : f.Pairwise fun u w => w.Dominates m u → w = u := by
    apply hf.imp
    intro u w hbefore hdom
    exact absurd hbefore.1 (Nat.not_lt.mpr hdom.1)
  exact List.Pairwise.forall_of_forall_of_flip (fun _ _ _ => rfl) hshort hlong hx hy h

theorem Ranked.eq_head (hf : Ranked m (x :: f)) (hy : y ∈ x :: f) (hle : y.length ≤ x.length) :
    y = x := by
  rcases List.mem_cons.mp hy with rfl | hy
  · rfl
  · exact absurd ((List.pairwise_cons.mp hf).1 y hy).1 (Nat.not_lt.mpr hle)

/-- Ranked frontiers with like entries have them in one order. -/
theorem Ranked.forall₂_alike (hf : f.Ranked m) (hf' : f'.Ranked m)
    (hto : ∀ x ∈ f, ∃ y ∈ f', x.Alike m y) (hfrom : ∀ y ∈ f', ∃ x ∈ f, x.Alike m y) :
    List.Forall₂ (Entry.Alike m) f f' := by
  induction f generalizing f' with
  | nil =>
    cases f' with
    | nil => exact .nil
    | cons y rest' =>
      obtain ⟨x, hx, _⟩ := hfrom y List.mem_cons_self
      cases hx
  | cons x rest ih =>
    cases f' with
    | nil =>
      obtain ⟨y, hy, _⟩ := hto x List.mem_cons_self
      cases hy
    | cons y rest' =>
      obtain ⟨hx, hrest⟩ := List.pairwise_cons.mp hf
      obtain ⟨hy, hrest'⟩ := List.pairwise_cons.mp hf'
      -- the first histories are the shortest ones of both, so the first entries are alike
      have hfirst : x.Alike m y := by
        obtain ⟨y', hy', hxy⟩ := hto x List.mem_cons_self
        obtain ⟨x', hx', hyx⟩ := hfrom y List.mem_cons_self
        rcases Nat.le_total x.length y.length with hle | hle
        · obtain rfl := hf'.eq_head hy' (hxy.1 ▸ hle)
          exact hxy
        · obtain rfl := hf.eq_head hx' (hyx.1.symm ▸ hle)
          exact hyx
      refine .cons hfirst (ih hrest hrest' ?_ ?_)
      · intro x' hx'
        obtain ⟨y', hy', hxy⟩ := hto x' (List.mem_cons_of_mem x hx')
        rcases List.mem_cons.mp hy' with rfl | hy'
        · exact absurd (hx x' hx').1 (Nat.not_lt.mpr (Nat.le_of_eq (hxy.1.trans hfirst.1.symm)))
        · exact ⟨y', hy', hxy⟩
      · intro y' hy'
        obtain ⟨x', hx', hxy⟩ := hfrom y' (List.mem_cons_of_mem y hy')
        rcases List.mem_cons.mp hx' with rfl | hx'
        · exact absurd (hy y' hy').1 (Nat.not_lt.mpr (Nat.le_of_eq (hxy.1.symm.trans hfirst.1)))
        · exact ⟨x', hx', hxy⟩

end Frontier

namespace StateSet
variable {m : Monitor} {s t u : StateSet} {p : Phase} {e : Entry} {l l' : List StateSet}

/-- The sets of a list put together by merges, in the order of the list and in any groups. -/
inductive Merged (m : Monitor) : List StateSet → StateSet → Prop where
  | single (s : StateSet) : Merged m [s] s
  | merge {l l' : List StateSet} {s t : StateSet} (hs : Merged m l s) (ht : Merged m l' t) :
      Merged m (l ++ l') (s.merge m t).1

/-- The entries of several sets for one state. -/
def pool (l : List StateSet) (p : Phase) : List Entry :=
  l.flatMap fun s => s.frontier p

/-- A set that holds entries of the others only and covers all of them. -/
structure Spans (m : Monitor) (l : List StateSet) (u : StateSet) : Prop where
  mem : ∀ p, ∀ e ∈ u.frontier p, e ∈ pool l p
  covers : ∀ p, ∀ e ∈ pool l p, u.Covers m p e.length e.clock

theorem carries_of_pool (hl : ∀ a ∈ l, a.Ranked m) (he : e ∈ pool l p) :
    m.Carries p e.clock := by
  obtain ⟨a, ha, he⟩ := List.mem_flatMap.mp he
  exact (hl a ha).carries p e he

theorem Spans.perm (h : Spans m l u) (hperm : l.Perm l') : Spans m l' u := by
  have hpool : ∀ p e, e ∈ pool l p ↔ e ∈ pool l' p := by simp [pool, hperm.mem_iff]
  refine ⟨fun p e he => (hpool p e).mp (h.mem p e he), fun p e he => ?_⟩
  exact h.covers p e ((hpool p e).mpr he)

theorem Merged.built {allowed : Time → Prop} (h : Merged m l s)
    (hl : ∀ a ∈ l, a.Built m allowed) : s.Built m allowed := by
  induction h with
  | single s => exact hl s List.mem_cons_self
  | merge _ _ ihs iht =>
    apply Built.merge
    · exact ihs fun a ha => hl a (List.mem_append_left _ ha)
    · exact iht fun a ha => hl a (List.mem_append_right _ ha)

section
variable (hb : ∀ w, m.window = some w → ∃ n, w.value = .integer n)
include hb

theorem Ranked.merge_total (hs : s.Ranked m) (ht : t.Ranked m) :
    ∃ improved, (s.merge m t).2 = .ok improved := by
  have hsev : ∀ {p x y}, m.Carries p x → m.Carries p y →
      Result.Ends (fun _ => True) (fun _ => False) (m.severity x y) := by
    intro p x y hx hy
    obtain ⟨o, ho⟩ := hx.severity_scalar hb hy
    rw [ho]
    trivial
  have hends := (offerAll_ends (P := m.Carries) (offer_clocks hsev) hs.carries fun p e he =>
    ht.carries p e (mem_entries.mp he)).2
  obtain ⟨improved, hok, _⟩ := hends.total
  exact ⟨improved, hok⟩

theorem Ranked.covers_iff (hs : s.Ranked m) (he : m.Carries p e.clock) :
    s.Covers m p e.length e.clock ↔ ∃ x ∈ s.frontier p, x.Dominates m e := by
  apply exists_congr
  intro x
  apply and_congr_right
  intro hx
  exact (Entry.dominates_iff hb (hs.carries p x hx) he).symm

theorem Ranked.merge_learns (hs : s.Ranked m) (ht : t.Ranked m) :
    Learns m s t.entries (s.merge m t).1 ∧
      ∃ improved, (s.merge m t).2 = .ok improved ∧ (improved = true ↔
        ∃ p, ∃ e ∈ t.frontier p, ¬ s.Covers m p e.length e.clock) := by
  obtain ⟨improved, hok⟩ := hs.merge_total hb ht
  obtain ⟨hlearn, hsame, hgain⟩ := StateSet.merge_learns (u := (s.merge m t).1)
    (fun p e he => (hs.carries p e he).exact) (fun p e he => (ht.carries p e he).exact)
    (Prod.ext rfl hok)
  refine ⟨hlearn, improved, hok, hgain, ?_⟩
  rintro ⟨p, e, he, hnew⟩
  cases improved with
  | true => rfl
  | false =>
    have hcovers := hlearn.covers p e (mem_entries.mpr he)
    rw [hsame rfl] at hcovers
    exact absurd hcovers hnew

theorem Merged.spans (h : Merged m l s) (hl : ∀ a ∈ l, a.Built m (fun d => d.isFloat = false)) :
    Spans m l s := by
  induction h with
  | single s => exact ⟨by simp [pool], by simpa [pool] using fun p e he => covers_of_mem m he⟩
  | @merge l l' s t hs ht ihs iht =>
    have hleft := fun a ha => hl a (List.mem_append_left l' ha)
    have hright := fun a ha => hl a (List.mem_append_right l ha)
    obtain ⟨hlearn, _⟩ := ((upheld_ranked m).built (hs.built hleft)).merge_learns hb
      ((upheld_ranked m).built (ht.built hright))
    refine ⟨?_, ?_⟩
    · intro p e he
      simp only [pool, List.flatMap_append]
      rcases hlearn.mem p e he with he | ⟨he, _⟩
      · exact List.mem_append_left _ ((ihs hleft).mem p e he)
      · exact List.mem_append_right _ ((iht hright).mem p e (mem_entries.mp he))
    · intro p e he
      simp only [pool, List.flatMap_append] at he
      rcases List.mem_append.mp he with he | he
      · exact hlearn.grows p _ _ ((ihs hleft).covers p e he)
      · obtain ⟨x, hx, hle, hlead⟩ := (iht hright).covers p e he
        exact (hlearn.covers p x (mem_entries.mpr hx)).mono hle hlead

theorem Spans.undominated (h : Spans m l u) (hu : u.Ranked m)
    (hl : ∀ a ∈ l, a.Ranked m) (he : e ∈ u.frontier p) : e.Undominated m (pool l p) := by
  refine ⟨h.mem p e he, fun x hx hdom => ?_⟩
  have hec := hu.carries p e he
  have hxc := carries_of_pool hl hx
  -- what covers `x` dominates `e` as well, and so it is `e`
  obtain ⟨y, hy, hyx⟩ := (hu.covers_iff hb hxc).mp (h.covers p x hx)
  have hye := hyx.trans hb (hu.carries p y hy) hxc hec hdom
  obtain rfl := (hu.ranked p).eq_of_dominates hy he hye
  exact (Entry.alike_iff hb hxc hec).mpr ⟨hdom, hyx⟩

theorem Spans.exists_alike (h : Spans m l u) (hu : u.Ranked m) (hl : ∀ a ∈ l, a.Ranked m)
    (he : e.Undominated m (pool l p)) : ∃ x ∈ u.frontier p, x.Alike m e := by
  obtain ⟨x, hx, hdom⟩ := (hu.covers_iff hb (carries_of_pool hl he.1)).mp (h.covers p e he.1)
  exact ⟨x, hx, he.2 x (h.mem p x hx) hdom⟩

theorem Spans.forall₂_alike (hs : Spans m l s) (ht : Spans m l t) (hsr : s.Ranked m)
    (htr : t.Ranked m) (hl : ∀ a ∈ l, a.Ranked m) (p : Phase) :
    List.Forall₂ (Entry.Alike m) (s.frontier p) (t.frontier p) := by
  apply (hsr.ranked p).forall₂_alike (htr.ranked p)
  · intro x hx
    obtain ⟨y, hy, hyx⟩ := ht.exists_alike hb htr hl (hs.undominated hb hsr hl hx)
    exact ⟨y, hy, hyx.symm (htr.carries p y hy).exact (hsr.carries p x hx).exact⟩
  · intro y hy
    exact hs.exists_alike hb hsr hl (ht.undominated hb htr hl hy)

end
end StateSet

/-- With an integer bound, or none, a merge is never refused. It leaves the entries of both sets
that no other one dominates, those that are alike counting as one, and it tells whether the second
set had an entry that no entry of the first makes superfluous. So sets that are put together in any
order and in any groups come out alike. -/
theorem merge_undominated {m : Monitor} (hb : ∀ w, m.window = some w → ∃ n, w.value = .integer n) :
    (∀ s t : StateSet, s.Built m (fun d => d.isFloat = false) →
      t.Built m (fun d => d.isFloat = false) →
      (∃ improved, (s.merge m t).2 = .ok improved ∧
        (improved = true ↔ ∃ p, ∃ e ∈ t.frontier p, ∀ x ∈ s.frontier p,
          Entry.beats m x e = .ok false)) ∧
      ∀ p,
        (∀ e ∈ (s.merge m t).1.frontier p, e.Undominated m (s.frontier p ++ t.frontier p)) ∧
        ∀ e, e.Undominated m (s.frontier p ++ t.frontier p) →
          ∃ x ∈ (s.merge m t).1.frontier p, x.Alike m e) ∧
    ∀ (l l' : List StateSet) (s t : StateSet), l.Perm l' →
      (∀ a ∈ l, a.Built m (fun d => d.isFloat = false)) →
      StateSet.Merged m l s → StateSet.Merged m l' t →
      ∀ p, List.Forall₂ (Entry.Alike m) (s.frontier p) (t.frontier p) := by
  have hranked := fun s => (StateSet.upheld_ranked m).built (s := s)
  constructor
  · intro s t hs ht
    constructor
    · obtain ⟨_, improved, hok, hiff⟩ := (hranked s hs).merge_learns hb (hranked t ht)
      refine ⟨improved, hok, hiff.trans ?_⟩
      apply exists_congr
      intro p
      apply exists_congr
      intro e
      apply and_congr_right
      intro he
      have hec := (hranked t ht).carries p e he
      rw [(hranked s hs).covers_iff hb hec]
      simp only [not_exists, not_and]
      apply forall₂_congr
      intro x hx
      exact (Entry.beats_eq_false_iff hb ((hranked s hs).carries p x hx) hec).symm
    · intro p
      have hboth : ∀ a ∈ [s, t], a.Built m (fun d => d.isFloat = false) := by simp [hs, ht]
      have hspans := ((StateSet.Merged.single s).merge (.single t)).spans hb hboth
      have hpool : s.frontier p ++ t.frontier p = StateSet.pool [s, t] p := by
        simp [StateSet.pool]
      have hu := hranked _ (hs.merge ht)
      have hl := fun a ha => hranked a (hboth a ha)
      rw [hpool]
      constructor
      · intro e he
        exact hspans.undominated hb hu hl he
      · intro e he
        exact hspans.exists_alike hb hu hl he
  · intro l l' s t hperm hl hs ht p
    have hl' : ∀ a ∈ l', a.Built m (fun d => d.isFloat = false) :=
      fun a ha => hl a (hperm.mem_iff.mpr ha)
    exact (hs.spans hb hl).forall₂_alike hb ((ht.spans hb hl').perm hperm.symm)
      (hranked s (hs.built hl)) (hranked t (ht.built hl')) (fun a ha => hranked a (hl a ha)) p

/-- An `a` is followed by a `b` within five. -/
def Monitor.withinFive : Monitor :=
  .timedFollowedBy ⟨.upper, .integer 5⟩

/-- Two sets have paths of one length, the first at time `0` after an edge and the second at its
very start; the third has a longer path at time `3`. Either way round two entries stay, but the
shorter one is not the same. -/
theorem regrouped_merges_alike :
    ∃ s t u : StateSet,
      (∀ a ∈ [s, t, u], a.Built .withinFive (fun d => d.isFloat = false)) ∧
      (s.merge .withinFive t).2 = .ok false ∧ (s.merge .withinFive u).2 = .ok true ∧
      ((s.merge .withinFive (t.merge .withinFive u).1).1.seen.map Entry.clock =
        [.running (.integer 0), .running (.integer 3)]) ∧
      (((u.merge .withinFive t).1.merge .withinFive s).1.seen.map Entry.clock =
        [.running .zero, .running (.integer 3)]) ∧
      ∀ p, List.Forall₂ (Entry.Alike .withinFive)
        ((s.merge .withinFive (t.merge .withinFive u).1).1.frontier p)
        (((u.merge .withinFive t).1.merge .withinFive s).1.frontier p) := by
  have hrun : (do
      let a ← StateSet.initial .withinFive 0 ⟨true, false, false⟩
      let s ← a.transition .withinFive 1 ⟨false, false, false⟩ (some (.integer 0))
      let x ← StateSet.initial .withinFive 2 ⟨false, false, false⟩
      let t ← x.transition .withinFive 1 ⟨true, false, false⟩ (some (.integer 1))
      let b ← a.transition .withinFive 3 ⟨false, false, false⟩ (some (.integer 1))
      let u ← b.transition .withinFive 1 ⟨false, false, false⟩ (some (.integer 2))
      return ((s.merge .withinFive t).2, (s.merge .withinFive u).2,
        (s.merge .withinFive (t.merge .withinFive u).1).1.seen.map Entry.clock,
        ((u.merge .withinFive t).1.merge .withinFive s).1.seen.map Entry.clock)) =
      .ok (.ok false, .ok true, [.running (.integer 0), .running (.integer 3)],
        [.running .zero, .running (.integer 3)]) := by cbv
  obtain ⟨a, ha, hrun⟩ := Result.bind_ok.mp hrun
  obtain ⟨s, hs, hrun⟩ := Result.bind_ok.mp hrun
  obtain ⟨x, hx, hrun⟩ := Result.bind_ok.mp hrun
  obtain ⟨t, ht, hrun⟩ := Result.bind_ok.mp hrun
  obtain ⟨b, hb, hrun⟩ := Result.bind_ok.mp hrun
  obtain ⟨u, hu, hrun⟩ := Result.bind_ok.mp hrun
  simp only [Result.pure_eq, Except.ok.injEq, Prod.mk.injEq] at hrun
  obtain ⟨hst, hsu, hfirst, hsecond⟩ := hrun
  have hsbuilt : s.Built .withinFive (fun d => d.isFloat = false) :=
    .transition (.initial ha) (by simp [Time.isFloat]) hs
  have htbuilt : t.Built .withinFive (fun d => d.isFloat = false) :=
    .transition (.initial hx) (by simp [Time.isFloat]) ht
  have hubuilt : u.Built .withinFive (fun d => d.isFloat = false) :=
    .transition (.transition (.initial ha) (by simp [Time.isFloat]) hb) (by simp [Time.isFloat]) hu
  have hbuilt : ∀ c ∈ [s, t, u], c.Built .withinFive (fun d => d.isFloat = false) := by
    simp [hsbuilt, htbuilt, hubuilt]
  refine ⟨s, t, u, hbuilt, hst, hsu, hfirst, hsecond, ?_⟩
  apply (merge_undominated (m := .withinFive) _).2 [s, t, u] [u, t, s] _ _ _ hbuilt
  · exact (StateSet.Merged.single s).merge ((StateSet.Merged.single t).merge (.single u))
  · exact ((StateSet.Merged.single u).merge (.single t)).merge (.single s)
  · intro w hw
    cases hw
    exact ⟨5, rfl⟩
  · exact (List.reverse_perm [s, t, u]).symm

end EventInvariants
