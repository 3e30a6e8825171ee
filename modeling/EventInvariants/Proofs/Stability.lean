import EventInvariants.Proofs.Concurrency
import EventInvariants.Proofs.Pruning

namespace EventInvariants

namespace Frontier
variable {m : Monitor} {new : Entry} {f : Frontier}

/-- The entries that a new one is compared with: they stand in front, up to the first that leads
it. -/
def Meets (m : Monitor) (new : Entry) : Frontier → Entry → Prop
  | [], _ => False
  | old :: rest, x => x = old ∨ ¬ m.Leads old.clock new.clock ∧ Meets m new rest x

theorem Meets.mem {x : Entry} (h : Meets m new f x) : x ∈ f := by
  induction f with
  | nil => cases h
  | cons old rest ih =>
    rcases h with rfl | ⟨_, h⟩
    · exact List.mem_cons_self
    · exact List.mem_cons_of_mem old (ih h)

/-- One that a new entry meets is concurrent with it. -/
def Clash (m : Monitor) (new : Entry) (f : Frontier) (s t : Time) : Prop :=
  ∃ x, Meets m new f x ∧ x.clock = .running s ∧ new.clock = .running t ∧ s.Concurrent t

theorem not_clash_cons {p : Phase} {old : Entry} {o : Ordering} {s t : Time}
    (hold : m.Carries p old.clock) (hnew : m.Carries p new.clock)
    (ho : m.severity old.clock new.clock = .ok o)
    (hrest : ¬ m.Leads old.clock new.clock → ¬ Clash m new f s t) :
    ¬ Clash m new (old :: f) s t := by
  rintro ⟨x, rfl | ⟨hbehind, hmeet⟩, hs, ht, hconc⟩
  · rw [hs] at hold ho
    rw [ht] at hnew ho
    exact hold.not_concurrent hnew ho hconc
  · exact hrest hbehind ⟨x, hmeet, hs, ht, hconc⟩

/-- An entry that is covered is found superfluous, unless it meets one that is concurrent. -/
theorem survivors_covered {p : Phase}
    (hb : ∀ w, m.window = some w → (∃ n, w.value = .integer n) ∨ ∃ v, w.value = .vector v)
    (hnew : m.Carries p new.clock) (hf : ∀ x ∈ f, m.Carries p x.clock) (hsort : Sorted f)
    (hcov : ∃ x ∈ f, x.length ≤ new.length ∧ m.Leads x.clock new.clock) :
    survivors? m new f = .ok none ∧ (∀ s t, ¬ Clash m new f s t) ∨
      ∃ s t, Clash m new f s t ∧ survivors? m new f = .error (.time (.incomparable s t)) := by
  induction f with
  | nil => simp at hcov
  | cons old rest ih =>
    obtain ⟨hhead, htail⟩ := List.pairwise_cons.mp hsort
    obtain ⟨hold, hrest⟩ := List.forall_mem_cons.mp hf
    have hle : old.length ≤ new.length := by
      obtain ⟨x, hx, hlen, _⟩ := hcov
      rcases List.mem_cons.mp hx with rfl | hx
      · exact hlen
      · exact Nat.le_trans (hhead x hx) hlen
    rw [survivors?, Entry.beats, if_pos hle]
    rcases hold.severity hnew hb with ⟨o, ho⟩ | ⟨s, t, hs, ht, hconc, herr⟩
    · have hnearer := Monitor.severity_leads hold.exact hnew.exact ho
      rw [ho]
      by_cases hlt : o = .lt
      · -- the old entry is behind, so that one of the rest makes the new one superfluous
        subst hlt
        have hbehind : ¬ m.Leads old.clock new.clock := fun h => hnearer.mpr h rfl
        have hcov' : ∃ x ∈ rest, x.length ≤ new.length ∧ m.Leads x.clock new.clock := by
          obtain ⟨x, hx, hlen, hlead⟩ := hcov
          rcases List.mem_cons.mp hx with rfl | hx
          · exact absurd hlead hbehind
          · exact ⟨x, hx, hlen, hlead⟩
        obtain ⟨lost, hlost⟩ : ∃ lost, Entry.beats m new old = .ok lost := by
          unfold Entry.beats
          split
          · obtain ⟨o', ho'⟩ := hold.severity_symm hnew hb ⟨_, ho⟩
            exact ⟨o' != .lt, by rw [ho']; rfl⟩
          · exact ⟨false, rfl⟩
        simp only [Result.ok_bind, Result.pure_eq, bne_self_eq_false, Bool.false_eq_true,
          if_false, hlost]
        rcases ih hrest htail hcov' with ⟨hnone, hclear⟩ | ⟨s, t, ⟨x, hmeet, hclock⟩, herr⟩
        · exact .inl ⟨by rw [hnone]; rfl,
            fun s t => not_clash_cons hold hnew ho fun _ => hclear s t⟩
        · exact .inr ⟨s, t, ⟨x, .inr ⟨hbehind, hmeet⟩, hclock⟩, by rw [herr]; rfl⟩
      · exact .inl ⟨by simp [hlt],
          fun s t => not_clash_cons hold hnew ho fun h => absurd (hnearer.mp hlt) h⟩
    · exact .inr ⟨s, t, ⟨old, .inl rfl, hs, ht, hconc⟩, by rw [herr]; rfl⟩

end Frontier

namespace StateSet
variable {m : Monitor} {s t : StateSet} {p : Phase} {e : Entry}

theorem isSubset_of_covers
    (h : ∀ p, ∀ e ∈ t.frontier p, s.Covers m p e.length e.clock) : t.isSubset s = true := by
  refine List.all_eq_true.mpr fun p _ => ?_
  simp only [Bool.or_eq_true, List.isEmpty_iff, Bool.not_eq_true', List.isEmpty_eq_false_iff]
  rcases List.eq_nil_or_concat (t.frontier p) with hnil | ⟨l, e, he⟩
  · exact .inl hnil
  · obtain ⟨x, hx, _⟩ := h p e (by simp [he])
    exact .inr (List.ne_nil_of_mem hx)

section
variable (hb : ∀ w, m.window = some w → (∃ n, w.value = .integer n) ∨ ∃ v, w.value = .vector v)
  (hs : ∀ p, ∀ x ∈ s.frontier p, m.Carries p x.clock) (hsort : s.Sorted)
include hb hs hsort

theorem offer_covered (he : m.Carries p e.clock) (hcov : s.Covers m p e.length e.clock) :
    s.offer? m p e = .ok none ∧ (∀ a b, ¬ Frontier.Clash m e (s.frontier p) a b) ∨
      ∃ a b, Frontier.Clash m e (s.frontier p) a b ∧
        s.offer? m p e = .error (.time (.incomparable a b)) := by
  rw [offer?, Frontier.offer?]
  rcases Frontier.survivors_covered hb he (hs p) (hsort p) hcov with
    ⟨hnone, hclear⟩ | ⟨a, b, hclash, herr⟩
  · exact .inl ⟨by rw [hnone]; rfl, hclear⟩
  · exact .inr ⟨a, b, hclash, by rw [herr]; rfl⟩

/-- Covered entries leave the set as it is, whether or not one of them is refused. -/
theorem offerAll_covered {l : List (Phase × Entry)}
    (hl : ∀ p e, (p, e) ∈ l → m.Carries p e.clock ∧ s.Covers m p e.length e.clock) :
    s.offerAll m l = (s, .ok false) ∧
        (∀ p e, (p, e) ∈ l → ∀ a b, ¬ Frontier.Clash m e (s.frontier p) a b) ∨
      ∃ p e a b, (p, e) ∈ l ∧ Frontier.Clash m e (s.frontier p) a b ∧
        s.offerAll m l = (s, .error (.time (.incomparable a b))) := by
  induction l with
  | nil => exact .inl ⟨rfl, by simp⟩
  | cons first rest ih =>
    obtain ⟨p, e⟩ := first
    obtain ⟨he, hcov⟩ := hl p e List.mem_cons_self
    rw [offerAll]
    rcases offer_covered hb hs hsort he hcov with ⟨hnone, hclear⟩ | ⟨a, b, hclash, herr⟩
    · rw [hnone]
      rcases ih fun q x hx => hl q x (List.mem_cons_of_mem _ hx) with
        ⟨hsame, hall⟩ | ⟨q, x, a, b, hx, hclash, herr⟩
      · refine .inl ⟨hsame, fun q x hx => ?_⟩
        rcases List.mem_cons.mp hx with heq | hx
        · cases heq
          exact hclear
        · exact hall q x hx
      · exact .inr ⟨q, x, a, b, List.mem_cons_of_mem _ hx, hclash, herr⟩
    · rw [herr]
      exact .inr ⟨p, e, a, b, List.mem_cons_self, hclash, rfl⟩

end

theorem frontier_of_isEmpty (h : s.isEmpty = true) (p : Phase) : s.frontier p = [] := by
  have := List.all_eq_true.mp h p (by cases p <;> simp [phases])
  simpa using this

end StateSet

namespace Exploration
variable {g : Graph} {inv : Invariant} {f : Fixpoint} {limit u : Nat} {edge : Edge}

/-- What is known at `u` can be passed along the edge, and the target covers what comes of it. -/
def Repeats (g : Graph) (inv : Invariant) (u : Nat) (known : StateSet) (edge : Edge)
    (target : StateSet) : Prop :=
  known.isEmpty = false → ∃ offered, propagate g inv u known edge = .ok offered ∧
    ∀ p, ∀ e ∈ offered.frontier p, target.Covers (Monitor.ofInvariant inv) p e.length e.clock

theorem repeats_lasting (g : Graph) (inv : Invariant) : Lasting g inv (Repeats g inv) where
  taught _ _ hoffered ht _ :=
    ⟨_, hoffered, fun p e he => ht.learns.covers p e (StateSet.mem_entries.mpr he)⟩
  mono h hgrow hne := by
    obtain ⟨offered, hoffered, hcov⟩ := h hne
    exact ⟨offered, hoffered, fun p e he => hgrow p _ _ (hcov p e he)⟩

/-- What the edge makes of the set at `u` meets, at the target, a time that is concurrent with its
own. -/
def Clash (g : Graph) (inv : Invariant) (σ : Nat → StateSet) (u : Nat) (edge : Edge)
    (s t : Time) : Prop :=
  ∃ offered p, ∃ e ∈ offered.frontier p, propagate g inv u (σ u) edge = .ok offered ∧
    Frontier.Clash (Monitor.ofInvariant inv) e ((σ edge.target).frontier p) s t

/-- Passing the set at `u` along the edge again neither fails nor changes anything. -/
def Unchanged (g : Graph) (inv : Invariant) (σ : Nat → StateSet) (u : Nat) (edge : Edge) : Prop :=
  ∃ offered, propagate g inv u (σ u) edge = .ok offered ∧
    offered.isSubset (σ edge.target) = true ∧
    (σ edge.target).merge (Monitor.ofInvariant inv) offered = (σ edge.target, .ok false)

theorem Unchanged.stable (h : Unchanged g inv f.set u edge) :
    isStableEdge g inv f u edge = .ok true := by
  obtain ⟨offered, hoffered, hsub, hmerge⟩ := h
  simp [isStableEdge, hoffered, hsub, hmerge]

theorem explore_carries (hx : Exact g inv) (hf : explore g inv limit = .ok f) :
    ∀ v p, ∀ e ∈ (f.set v).frontier p, (Monitor.ofInvariant inv).Carries p e.clock :=
  fun v p e he => ((explore_sound hx hf).1 v p e he).carries hx

section
variable (hx : Exact g inv)
  (hcarries : ∀ v p, ∀ e ∈ (f.set v).frontier p, (Monitor.ofInvariant inv).Carries p e.clock)
  (hedge : edge ∈ g.successors u inv.relation)
include hx hcarries hedge

theorem Clash.carries {s t : Time} (h : Clash g inv f.set u edge s t) :
    s.Concurrent t ∧ ∃ p, (Monitor.ofInvariant inv).Carries p (.running s) ∧
      (Monitor.ofInvariant inv).Carries p (.running t) := by
  obtain ⟨offered, p, e, he, hoffered, x, hmeet, hs, ht, hconc⟩ := h
  refine ⟨hconc, p, ?_, ?_⟩
  · rw [← hs]
    exact hcarries edge.target p x hmeet.mem
  · rw [← ht]
    exact propagate_carries hx (hcarries u) hedge hoffered he

/-- One edge, when all its source knows has been passed along it. -/
theorem unchanged_or_clash
    (hb : ∀ w, inv.bound = some w → (∃ n, w.value = .integer n) ∨ ∃ v, w.value = .vector v)
    (hsort : (f.set edge.target).Sorted) (hne : (f.set u).isEmpty = false)
    (hrep : Repeats g inv u (f.set u) edge (f.set edge.target)) :
    Unchanged g inv f.set u edge ∧ (∀ s t, ¬ Clash g inv f.set u edge s t) ∨
      ∃ s t, Clash g inv f.set u edge s t ∧
        isStableEdge g inv f u edge = .error (.time u edge.target (.incomparable s t)) := by
  obtain ⟨offered, hoffered, hcov⟩ := hrep hne
  have hsub := StateSet.isSubset_of_covers hcov
  have hentries : ∀ p e, (p, e) ∈ offered.entries → (Monitor.ofInvariant inv).Carries p e.clock ∧
      (f.set edge.target).Covers (Monitor.ofInvariant inv) p e.length e.clock := by
    intro p e he
    rw [StateSet.mem_entries] at he
    exact ⟨propagate_carries hx (hcarries u) hedge hoffered he, hcov p e he⟩
  rcases StateSet.offerAll_covered (fun w hw => hb w (Monitor.bound_of_window hw))
    (hcarries edge.target) hsort hentries with ⟨hsame, hclear⟩ | ⟨p, e, s, t, he, hclash, herr⟩
  · refine .inl ⟨⟨offered, hoffered, hsub, hsame⟩, ?_⟩
    rintro s t ⟨offered', p, e, he, hoffered', hclash⟩
    rw [hoffered] at hoffered'
    cases hoffered'
    exact hclear p e (StateSet.mem_entries.mpr he) s t hclash
  · refine .inr ⟨s, t, ⟨offered, p, e, StateSet.mem_entries.mp he, hoffered, hclash⟩, ?_⟩
    simp only [isStableEdge, hoffered, Result.ok_bind, hsub, StateSet.merge, herr]
    rfl

end

/-- At a node that was not reached, nothing is passed on. -/
theorem not_clash_of_isEmpty {s t : Time} (hx : Exact g inv)
    (hedge : edge ∈ g.successors u inv.relation) (h : (f.set u).isEmpty = true) :
    ¬ Clash g inv f.set u edge s t := by
  rintro ⟨offered, p, e, he, hoffered, _⟩
  have hnone := StateSet.frontier_of_isEmpty h
  obtain ⟨_, hfrom, _⟩ := StateSet.transition_spec (s := f.set u)
    (fun p e he => by simp [hnone] at he) (fun hw => hx.delta hw u edge hedge)
    (propagate_ok hoffered).2
  obtain ⟨q, x, hmem, _⟩ := hfrom p e he
  simp [hnone] at hmem

/-- If no edge is answered with no, all edges are stable or one fails. -/
theorem isStable_cases
    (h : ∀ u, (f.set u).isEmpty = false → ∀ edge ∈ g.successors u inv.relation,
      isStableEdge g inv f u edge = .ok true ∨ ∃ e, isStableEdge g inv f u edge = .error e) :
    isStable g inv f = .ok true ∧ (∀ u, (f.set u).isEmpty = false →
        ∀ edge ∈ g.successors u inv.relation, isStableEdge g inv f u edge = .ok true) ∨
      ∃ u, (f.set u).isEmpty = false ∧ ∃ edge ∈ g.successors u inv.relation, ∃ e,
        isStableEdge g inv f u edge = .error e ∧ isStable g inv f = .error e := by
  have hnode : ∀ u, (f.set u).isEmpty = true ∨ (f.set u).isEmpty = false := by simp
  unfold isStable
  rcases Result.allM_error (l := g.ids) (p := fun u => if (f.set u).isEmpty then .ok true
      else (g.successors u inv.relation).allM (isStableEdge g inv f u)) (by
    intro u _
    rcases hnode u with hempty | hne
    · exact .inl (by simp [hempty])
    · simp only [hne, Bool.false_eq_true, if_false]
      rcases Result.allM_error (h u hne) with hall | ⟨edge, _, e, _, herr⟩
      · exact .inl hall
      · exact .inr ⟨e, herr⟩) with hall | ⟨u, _, e, herr, hstable⟩
  · refine .inl ⟨hall, fun u hne edge hedge => ?_⟩
    have hu := Result.allM_true.mp hall u (List.mem_range.mpr (Graph.successors_lt hedge))
    simp only [hne, Bool.false_eq_true, if_false] at hu
    exact Result.allM_true.mp hu edge hedge
  · rcases hnode u with hempty | hne
    · simp [hempty] at herr
    · simp only [hne, Bool.false_eq_true, if_false] at herr
      rcases Result.allM_error (h u hne) with hall | ⟨edge, hedge, e', hedge', herr'⟩
      · rw [hall] at herr
        cases herr
      · rw [herr'] at herr
        cases herr
        exact .inr ⟨u, hne, edge, hedge, e, hedge', hstable⟩

/-- What was explored to the end is stable, unless somewhere concurrent times meet. -/
theorem stable_or_clash (hx : Exact g inv)
    (hb : ∀ w, inv.bound = some w → (∃ n, w.value = .integer n) ∨ ∃ v, w.value = .vector v)
    (hf : explore g inv limit = .ok f) (hl : f.limit = none) :
    isStable g inv f = .ok true ∧ (∀ u, ∀ edge ∈ g.successors u inv.relation,
        ((f.set u).isEmpty = false → Unchanged g inv f.set u edge) ∧
          ∀ s t, ¬ Clash g inv f.set u edge s t) ∨
      ∃ u, ∃ edge ∈ g.successors u inv.relation, ∃ s t, Clash g inv f.set u edge s t ∧
        isStable g inv f = .error (.time u edge.target (.incomparable s t)) := by
  have hsort := (explore_sound hx hf).2
  obtain ⟨s, _, _, hsteady, hset, _, hqueue⟩ := explore_steady hx (repeats_lasting g inv)
    (fun _ _ _ hne => by cases hne) hf
  have hedges : ∀ u, (f.set u).isEmpty = false → ∀ edge ∈ g.successors u inv.relation,
      Unchanged g inv f.set u edge ∧ (∀ s t, ¬ Clash g inv f.set u edge s t) ∨
        ∃ s t, Clash g inv f.set u edge s t ∧
          isStableEdge g inv f u edge = .error (.time u edge.target (.incomparable s t)) := by
    intro u hne edge hedge
    apply unchanged_or_clash hx (explore_carries hx hf) hedge hb (hsort edge.target) hne
    rw [hset]
    exact hsteady u (by simp [hqueue hl]) edge hedge
  have hanswer : ∀ u, (f.set u).isEmpty = false → ∀ edge ∈ g.successors u inv.relation,
      isStableEdge g inv f u edge = .ok true ∨ ∃ e, isStableEdge g inv f u edge = .error e := by
    intro u hne edge hedge
    rcases hedges u hne edge hedge with ⟨hsame, _⟩ | ⟨s, t, _, herr⟩
    · exact .inl hsame.stable
    · exact .inr ⟨_, herr⟩
  rcases isStable_cases hanswer with ⟨hstable, hall⟩ | ⟨u, hne, edge, hedge, e, herr, hstable⟩
  · refine .inl ⟨hstable, fun u edge hedge => ?_⟩
    cases hne : (f.set u).isEmpty with
    | true => exact ⟨by simp, fun s t => not_clash_of_isEmpty hx hedge hne⟩
    | false =>
      rcases hedges u hne edge hedge with ⟨hsame, hclear⟩ | ⟨s, t, _, herr⟩
      · exact ⟨fun _ => hsame, hclear⟩
      · rw [hall u hne edge hedge] at herr
        cases herr
  · rcases hedges u hne edge hedge with ⟨hsame, _⟩ | ⟨s, t, hclash, herr'⟩
    · rw [hsame.stable] at herr
      cases herr
    · rw [herr'] at herr
      cases herr
      exact .inr ⟨u, edge, hedge, s, t, hclash, hstable⟩

end Exploration

/-- Without a bound or with one of whole numbers, exploration ends in a fixpoint: passing any set
along any edge once more is possible and adds neither a state nor an entry. -/
theorem scalar_fixpoint_stable {g : Graph} {inv : Invariant} {limit : Nat} {f : Fixpoint}
    (hb : inv.bound = none ∨ ∃ d n, inv.bound = some ⟨d, .integer n⟩)
    (hf : explore g inv limit = .ok f) (hl : f.limit = none) :
    Exploration.isStable g inv f = .ok true ∧
      ∀ u, (f.set u).isEmpty = false → ∀ edge ∈ g.successors u inv.relation,
        Exploration.Unchanged g inv f.set u edge := by
  have hscalar : ∀ w, inv.bound = some w → ∃ n, w.value = .integer n :=
    fun _ hw => Invariant.integer_of_bound hb hw
  have hx := (Exploration.scalar_of_validate (Exploration.explore_seed hf).1 hb).exact
  rcases Exploration.stable_or_clash hx (fun w hw => .inl (hscalar w hw)) hf hl with
    ⟨hstable, hall⟩ | ⟨u, edge, hedge, s, t, hclash, _⟩
  · exact ⟨hstable, fun u hne edge hedge => (hall u edge hedge).1 hne⟩
  · obtain ⟨hconc, p, hs, ht⟩ := hclash.carries hx (Exploration.explore_carries hx hf) hedge
    exact absurd hconc
      (hs.not_concurrent_scalar ht fun w hw => hscalar w (Monitor.bound_of_window hw))

theorem loop_stable :
    ∃ f, explore .loop (.response .upper 3) 0 = .ok f ∧ f.limit = none ∧
      Exploration.isStable .loop (.response .upper 3) f = .ok true ∧
      ∀ u, (f.set u).isEmpty = false → ∀ edge ∈ Graph.loop.successors u .default,
        Exploration.Unchanged .loop (.response .upper 3) f.set u edge := by
  have hend : (explore .loop (.response .upper 3) 0).map Fixpoint.limit = .ok none := by cbv
  obtain ⟨f, hf, hl⟩ := Result.map_ok.mp hend
  exact ⟨f, hf, hl, scalar_fixpoint_stable (.inr ⟨.upper, 3, rfl⟩) hf hl⟩

/-- At vector times, what was explored to the end is stable if and only if nowhere an entry that is
passed on again meets one that is concurrent with it; and only such an entry makes it fail. -/
theorem vector_fixpoint_stable_iff {g : Graph} {inv : Invariant} {limit : Nat} {f : Fixpoint}
    {d : Direction} {b : List Int} (hb : inv.bound = some ⟨d, .vector b⟩)
    (hf : explore g inv limit = .ok f) (hl : f.limit = none) :
    (Exploration.isStable g inv f = .ok true ↔
        ∀ u, ∀ edge ∈ g.successors u inv.relation, ∀ s t,
          ¬ Exploration.Clash g inv f.set u edge s t) ∧
      (Exploration.isStable g inv f ≠ .ok true →
        ∃ u, ∃ edge ∈ g.successors u inv.relation, ∃ s t,
          Exploration.Clash g inv f.set u edge s t ∧
          Exploration.isStable g inv f = .error (.time u edge.target (.incomparable s t))) := by
  have hvector : ∀ w, inv.bound = some w →
      (∃ n, w.value = .integer n) ∨ ∃ v, w.value = .vector v := by
    intro w hw
    rw [hb] at hw
    cases hw
    exact .inr ⟨b, rfl⟩
  have hx := Exploration.exact_of_validate (Exploration.explore_seed hf).1 hvector
  rcases Exploration.stable_or_clash hx hvector hf hl with
    ⟨hstable, hall⟩ | ⟨u, edge, hedge, s, t, hclash, herr⟩
  · exact ⟨⟨fun _ u edge hedge => (hall u edge hedge).2, fun _ => hstable⟩,
      fun hne => absurd hstable hne⟩
  · refine ⟨⟨fun hstable => ?_, fun hclear => absurd hclash (hclear u edge hedge s t)⟩,
      fun _ => ⟨u, edge, hedge, s, t, hclash, herr⟩⟩
    rw [herr] at hstable
    cases hstable

/-- Two nodes with an `a` lead to a last one, the first by way of another node, from which two edges
go on, and the second at once. All nodes but the last are initial. -/
def Graph.crossing : Graph where
  nodes := #[⟨⟨"a"⟩, true, false, #[⟨1, .default, some (.vector [0, 0])⟩]⟩,
    ⟨⟨"x"⟩, true, false, #[⟨3, .default, some (.vector [1, 1])⟩,
      ⟨3, .default, some (.vector [0, 1])⟩]⟩,
    ⟨⟨"a"⟩, true, false, #[⟨3, .default, some (.vector [1, 0])⟩]⟩,
    ⟨⟨"x"⟩, false, false, #[]⟩]
  target_lt := by simp

/-- The path of time `(0,1)` was dropped for the one of `(1,1)`. When it is offered again, the
shorter one of `(1,0)` has come to stand before that. -/
theorem crossing_unstable :
    (∃ f, explore .lanes (.within [5, 5]) 0 = .ok f ∧ f.limit = none ∧
        ∀ u, ∀ edge ∈ Graph.lanes.successors u .default, ∀ s t,
          ¬ Exploration.Clash .lanes (.within [5, 5]) f.set u edge s t) ∧
      ∃ f, explore .crossing (.within [5, 5]) 0 = .ok f ∧ f.limit = none ∧
        Exploration.isStable .crossing (.within [5, 5]) f =
          .error (.time 1 3 (.incomparable (.vector [1, 0]) (.vector [0, 1]))) ∧
        ∃ u, ∃ edge ∈ Graph.crossing.successors u .default, ∃ s t,
          Exploration.Clash .crossing (.within [5, 5]) f.set u edge s t := by
  have hlanes : (explore .lanes (.within [5, 5]) 0).map (fun f =>
      (f.limit, Exploration.isStable .lanes (.within [5, 5]) f)) = .ok (none, .ok true) := by cbv
  have hcrossing : (explore .crossing (.within [5, 5]) 0).map (fun f =>
      (f.limit, Exploration.isStable .crossing (.within [5, 5]) f)) =
        .ok (none, .error (.time 1 3 (.incomparable (.vector [1, 0]) (.vector [0, 1])))) := by cbv
  constructor
  · obtain ⟨f, hf, hend⟩ := Result.map_ok.mp hlanes
    obtain ⟨hl, hstable⟩ := Prod.mk.inj hend
    exact ⟨f, hf, hl, (vector_fixpoint_stable_iff rfl hf hl).1.mp hstable⟩
  · obtain ⟨f, hf, hend⟩ := Result.map_ok.mp hcrossing
    obtain ⟨hl, herr⟩ := Prod.mk.inj hend
    obtain ⟨u, edge, hedge, s, t, hclash, _⟩ :=
      (vector_fixpoint_stable_iff rfl hf hl).2 (by rw [herr]; simp)
    exact ⟨f, hf, hl, herr, u, edge, hedge, s, t, hclash⟩

end EventInvariants
