import EventInvariants.Proofs.Reduction
import EventInvariants.Proofs.Validation

namespace EventInvariants

theorem Entry.length_le_of_beats {m : Monitor} {x y : Entry} (h : beats m x y = .ok true) :
    x.length ≤ y.length := by
  unfold beats at h
  split at h
  · assumption
  · cases h

namespace StateSet
variable {m : Monitor} {s t u : StateSet} {p : Phase} {e : Entry}

/-- Every state that the first set reaches is reached in the second, by a history that is no
longer. Clocks are not looked at. -/
structure Improves (s t : StateSet) : Prop where
  sooner : ∀ p, ∀ x ∈ s.frontier p, ∃ y ∈ t.frontier p, y.length ≤ x.length
  sorted : s.Sorted → t.Sorted

theorem Improves.refl (s : StateSet) : Improves s s where
  sooner _ x hx := ⟨x, hx, Nat.le_refl _⟩
  sorted h := h

theorem Improves.trans (hst : Improves s t) (htu : Improves t u) : Improves s u where
  sooner p x hx := by
    obtain ⟨y, hy, hyx⟩ := hst.sooner p x hx
    obtain ⟨z, hz, hzy⟩ := htu.sooner p y hy
    exact ⟨z, hz, Nat.le_trans hzy hyx⟩
  sorted h := htu.sorted (hst.sorted h)

theorem offer_improves {r : Option StateSet} (h : s.offer? m p e = .ok r) :
    Improves s (r.getD s) := by
  have hsorted := offer_sorted h
  rw [offer?, Result.bind_ok] at h
  obtain ⟨r, hr, h⟩ := h
  cases h
  cases r with
  | none => exact .refl s
  | some f =>
    obtain ⟨_, hkept, hnew, _, _⟩ := Frontier.offer_some hr
    refine ⟨?_, hsorted⟩
    intro q x hx
    simp only [Option.map_some, Option.getD_some, frontier_update]
    split
    · rename_i hq
      subst hq
      -- what is dropped makes room for an entry that is no longer
      rcases hkept x hx with hin | hlost
      · exact ⟨x, hin, Nat.le_refl _⟩
      · exact ⟨e, hnew, Entry.length_le_of_beats hlost⟩
    · exact ⟨x, hx, Nat.le_refl _⟩

theorem offerAll_improves (m : Monitor) (s : StateSet) (l : List (Phase × Entry)) :
    Improves s (s.offerAll m l).1 := by
  induction l generalizing s with
  | nil => exact .refl s
  | cons first rest ih =>
    obtain ⟨p, e⟩ := first
    rw [offerAll]
    split
    · exact .refl s
    · exact ih s
    · rename_i s' hr
      exact (offer_improves hr).trans (ih s')

end StateSet

namespace Exploration
variable {g : Graph} {inv : Invariant} {s s' : State} {v : Nat}

theorem write_improves {t : StateSet} (h : (s.set v).Improves t) (w : Nat) :
    (s.set w).Improves (({ s with sets := s.sets.setIfInBounds v t } : State).set w) := by
  unfold State.set at *
  simp only [Array.getD_eq_getD_getElem?, Array.getElem?_setIfInBounds] at *
  by_cases hw : v = w
  · subst hw
    by_cases hlt : v < s.sets.size
    · simpa [hlt] using h
    · simpa [hlt] using StateSet.Improves.refl .empty
  · simpa [hw] using StateSet.Improves.refl _

theorem follow_improves {known : StateSet} {edge : Edge}
    (h : follow g inv v known s edge = .ok s') :
    s'.iterations = s.iterations ∧ ∀ w, (s.set w).Improves (s'.set w) := by
  rw [follow, Result.bind_ok] at h
  obtain ⟨offered, _, h⟩ := h
  dsimp only at h
  have himproves := StateSet.offerAll_improves (Monitor.ofInvariant inv) (s.set edge.target)
    offered.entries
  split at h
  · cases h
  · rename_i merged _ hmerge
    rw [show (s.set edge.target).offerAll (Monitor.ofInvariant inv) offered.entries = _ from hmerge]
      at himproves
    have hwrite := write_improves himproves
    split at h
    · cases h
      exact ⟨rfl, hwrite⟩
    · cases h
      exact ⟨rfl, hwrite⟩

theorem visit_improves {rest : List Nat} (h : visit g inv s v rest = .ok s') :
    s'.iterations = s.iterations + 1 ∧ ∀ w, (s.set w).Improves (s'.set w) := by
  refine Result.foldlM_keeps (I := fun _ s₁ => s₁.iterations = s.iterations + 1 ∧
    ∀ w, (s.set w).Improves (s₁.set w)) _ ⟨rfl, fun w => .refl _⟩ ?_ h
  intro _ edge _ s₁ s₂ _ hI h
  obtain ⟨hiter, himproves⟩ := hI
  obtain ⟨hiter₂, himproves₂⟩ := follow_improves h
  exact ⟨hiter₂.trans hiter, fun w => (himproves w).trans (himproves₂ w)⟩

theorem seedNode_improves (h : seedNode g inv s v = .ok s') :
    s'.iterations = s.iterations ∧ ∀ w, (s.set w).Improves (s'.set w) := by
  unfold seedNode at h
  split at h
  · cases h
  · cases h
    exact ⟨rfl, fun w => .refl _⟩
  · rename_i t hbegin
    cases h
    rw [StateSet.begin?, Result.bind_ok] at hbegin
    obtain ⟨_, _, hoffer⟩ := hbegin
    exact ⟨rfl, write_improves (StateSet.offer_improves hoffer)⟩

theorem seed_sorted (h : seed g inv = .ok s) : s.iterations = 0 ∧ ∀ w, (s.set w).Sorted := by
  refine Result.foldlM_keeps (I := fun _ s => s.iterations = 0 ∧ ∀ w, (s.set w).Sorted) _
    ⟨rfl, (blank_sound g inv).sorted⟩ ?_ h
  intro _ v _ s₁ s₂ _ hI h
  obtain ⟨hiter, hsorted⟩ := hI
  obtain ⟨hiter₂, himproves⟩ := seedNode_improves h
  exact ⟨hiter₂.trans hiter, fun w => (himproves w).sorted (hsorted w)⟩

theorem run_improves {limit fuel : Nat} {f : Fixpoint} (h : run g inv limit fuel s = .ok f) :
    s.iterations ≤ f.iterations ∧ ∀ w, (s.set w).Improves (f.set w) := by
  obtain ⟨s', ⟨hle, himproves⟩, hsets, hiter, _⟩ := run_keeps
    (I := fun s' => s.iterations ≤ s'.iterations ∧ ∀ w, (s.set w).Improves (s'.set w))
    (fun s₁ v rest s₂ hI _ hvisit => by
      obtain ⟨hle, himproves⟩ := hI
      obtain ⟨hiter, himproves₂⟩ := visit_improves hvisit
      exact ⟨by omega, fun w => (himproves w).trans (himproves₂ w)⟩)
    ⟨Nat.le_refl _, fun w => .refl _⟩ h
  rw [hiter]
  refine ⟨hle, fun w => ?_⟩
  rw [Fixpoint.set, hsets]
  exact himproves w

/-- Under a limit of `k` exploration ends as it does without one, or it stops after `k` visits, from
where exploration without a limit goes on. -/
theorem run_cut (g : Graph) (inv : Invariant) {k : Nat} (hk : 0 < k) (fuel : Nat)
    (hle : s.iterations ≤ k) :
    run g inv k fuel s = run g inv 0 fuel s ∨
      ∃ s' v rest fuel', (∀ w, (s.set w).Improves (s'.set w)) ∧ s'.iterations = k ∧
        run g inv k fuel s = .ok ⟨s'.sets, k, some .iterations⟩ ∧
        run g inv 0 fuel s = visit g inv s' v rest >>= run g inv 0 fuel' := by
  induction fuel generalizing s with
  | zero => exact .inl rfl
  | succ fuel ih =>
    cases hq : s.queue with
    | nil => exact .inl (by simp [run, hq])
    | cons v rest =>
      by_cases hcut : k ≤ s.iterations
      · obtain rfl : s.iterations = k := Nat.le_antisymm hle hcut
        refine .inr ⟨s, v, rest, fuel, fun w => .refl _, rfl, ?_, ?_⟩
        · simp [run, hq, hk]
        · simp [run, hq]
      · have hstep : ∀ limit, limit = 0 ∨ limit = k → run g inv limit (fuel + 1) s =
            visit g inv s v rest >>= run g inv limit fuel := by
          intro limit hlimit
          rcases hlimit with rfl | rfl <;> simp [run, hq, hcut]
        rw [hstep 0 (.inl rfl), hstep k (.inr rfl)]
        cases hvisit : visit g inv s v rest with
        | error e => exact .inl rfl
        | ok s₁ =>
          obtain ⟨hiter, himproves⟩ := visit_improves hvisit
          rcases ih (s := s₁) (by omega) with heq | ⟨s', w, more, fuel', hs', hrest⟩
          · exact .inl heq
          · exact .inr ⟨s', w, more, fuel', fun w => (himproves w).trans (hs' w), hrest⟩

/-- Under a limit of `k` exploration gives what it gives without one, or it stops after `k` visits,
which exploration without a limit goes beyond. -/
theorem explore_cut (g : Graph) (inv : Invariant) {k : Nat} (hk : 0 < k) :
    explore g inv k = explore g inv 0 ∨
      ∃ f, explore g inv k = .ok f ∧ f.iterations = k ∧ f.limit = some .iterations ∧
        (∀ w, (f.set w).Sorted) ∧ ∀ f', explore g inv 0 = .ok f' →
          k < f'.iterations ∧ ∀ w, (f.set w).Improves (f'.set w) := by
  unfold explore
  cases inv.validate g with
  | error cause => exact .inl rfl
  | ok _ =>
    simp only [exploreValid]
    cases hseed : seed g inv with
    | error e => exact .inl rfl
    | ok s =>
      obtain ⟨hiter, hsorted⟩ := seed_sorted hseed
      rcases run_cut g inv hk (visitBound g inv) (hiter.trans_le (Nat.zero_le k)) with
        heq | ⟨s', v, rest, fuel, himproves, hstop, hcut, hon⟩
      · exact .inl heq
      · refine .inr ⟨_, hcut, rfl, rfl, fun w => (himproves w).sorted (hsorted w), ?_⟩
        intro f' hf'
        obtain ⟨s₁, hvisit, hrun⟩ := Result.bind_ok.mp (hon.symm.trans hf')
        obtain ⟨hnext, hs₁⟩ := visit_improves hvisit
        obtain ⟨hle, hf'⟩ := run_improves hrun
        exact ⟨by omega, fun w => (hs₁ w).trans (hf' w)⟩

theorem run_out {fuel : Nat} {f : Fixpoint} (h : run g inv 0 fuel s = .ok f) :
    f.limit = none ∨ ∃ s', Relation.ReflTransGen (Visits g inv) s s' ∧
      s'.iterations = s.iterations + fuel := by
  induction fuel generalizing s with
  | zero => exact .inr ⟨s, .refl, rfl⟩
  | succ fuel ih =>
    rw [run] at h
    split at h
    · cases h
      exact .inl rfl
    · rename_i v rest hq
      obtain ⟨s₁, hvisit, h⟩ := Result.bind_ok.mp h
      obtain ⟨hiter, _⟩ := visit_improves hvisit
      rcases ih h with hnone | ⟨s', hvisits, hcount⟩
      · exact .inl hnone
      · exact .inr ⟨s', .head ⟨v, rest, hq, hvisit⟩ hvisits, by omega⟩

/-- Without a limit exploration ends for want of nodes to visit, if the bound is no double. -/
theorem explore_unlimited {f : Fixpoint}
    (hb : ∀ w, inv.bound = some w → w.value.isFloat = false) (h : explore g inv 0 = .ok f) :
    f.limit = none := by
  obtain ⟨hvalid, s, hseed, hrun⟩ := explore_seed h
  by_cases hzero : ∀ w, (Monitor.ofInvariant inv).window = some w → w.value = .zero
  · rcases run_out hrun with hnone | ⟨s', hvisits, hcount⟩
    · exact hnone
    · have := visits_lt_of_zero hzero hseed hvisits
      omega
  · -- a bound of another kind keeps doubles out of the relation
    obtain ⟨w, hw⟩ := not_forall.mp hzero
    obtain ⟨hw, hvalue⟩ := Classical.not_imp.mp hw
    have hbound := Monitor.bound_of_window hw
    have hx : Exact g inv := by
      apply exact_of_validate hvalid
      intro w' hw'
      rw [hbound] at hw'
      cases hw'
      cases hv : w.value with
      | zero => exact absurd hv hvalue
      | integer n => exact .inl ⟨n, rfl⟩
      | vector v => exact .inr ⟨v, rfl⟩
      | float x =>
        have := hb w hbound
        rw [hv] at this
        cases this
    obtain ⟨n, sample, hsample, hn⟩ := exists_sample hx
    exact explore_limit hx hsample hn h

end Exploration

/-- What reaches every state as soon or sooner reports a failure that is no longer. -/
theorem Fixpoint.shortestFailure_improves {f f' : Fixpoint} {h : History}
    (hsorted : ∀ w, (f.set w).Sorted) (himproves : ∀ w, (f.set w).Improves (f'.set w))
    (hf : f.shortestFailure? = some h) :
    ∃ h', f'.shortestFailure? = some h' ∧ h'.length ≤ h.length := by
  obtain ⟨v, e, he, rfl⟩ := shortestFailure_mem hf
  obtain ⟨x, hx, hle⟩ := (himproves v).sooner .failed e he
  obtain ⟨h', hf', hle'⟩ := shortestFailure_le (fun w => (himproves w).sorted (hsorted w)) hx
  exact ⟨h', hf', Nat.le_trans hle' hle⟩

theorem Fixpoint.outcome_iterations (f : Fixpoint) : f.outcome.iterations = f.iterations := by
  unfold outcome
  split <;> rfl

theorem Fixpoint.outcome_inconclusive {f : Fixpoint} {reason : Limit} {n : Nat}
    (h : f.outcome = .inconclusive reason n) : f.limit ≠ none ∧ n = f.iterations := by
  unfold outcome at h
  cases hs : f.shortestFailure? with
  | some k => simp [hs] at h
  | none =>
    cases hl : f.limit with
    | none => simp [hs, hl] at h
    | some r =>
      simp only [hs, hl, Outcome.inconclusive.injEq] at h
      exact ⟨by simp, h.2.symm⟩

section
variable {g : Graph} {inv : Invariant} {k : Nat}

/-- A violation that has been found is one without a limit, by a path that is no longer. -/
theorem violated_of_improves {f : Fixpoint} {c : Option Counterexample} {n : Nat}
    (hsorted : ∀ w, (f.set w).Sorted)
    (hon : ∀ f', explore g inv 0 = .ok f' → ∀ w, (f.set w).Improves (f'.set w))
    (h : f.outcome = .violated c n) : ∃ x, c = some x ∧
      ((∃ e, checkByExploration g inv 0 = .error e) ∨
        ∃ y n', checkByExploration g inv 0 = .ok (.violated (some y) n') ∧
          y.length ≤ x.length) := by
  obtain ⟨x, hx, ho⟩ := Fixpoint.outcome_violated (f := f) (by rw [h]; rfl)
  rw [h] at ho
  cases ho
  refine ⟨_, rfl, ?_⟩
  cases hu : explore g inv 0 with
  | error e => exact .inl ⟨e, by simp [checkByExploration, hu]⟩
  | ok f' =>
    obtain ⟨y, hy, hle⟩ := Fixpoint.shortestFailure_improves hsorted (hon f' hu) hx
    refine .inr ⟨.ofHistory y, f'.iterations, ?_, ?_⟩
    · simp [checkByExploration, hu, Fixpoint.outcome, hy]
    · simpa [Counterexample.length, Counterexample.ofHistory, History.length_steps] using hle

/-- A limit never falsifies a verdict. Under a limit of `k` visits, an invariant that holds does so
without a limit, a violation is one without a limit and has no longer path there, and nothing is
left open unless `k` visits are too few. -/
theorem limit_never_falsifies (hk : 1 ≤ k)
    (hb : ∀ w, inv.bound = some w → w.value.isFloat = false) :
    (∀ n, checkByExploration g inv k = .ok (.holds n) →
        checkByExploration g inv 0 = .ok (.holds n)) ∧
      (∀ c n, checkByExploration g inv k = .ok (.violated c n) → ∃ x, c = some x ∧
        ((∃ e, checkByExploration g inv 0 = .error e) ∨
          ∃ y n', checkByExploration g inv 0 = .ok (.violated (some y) n') ∧
            y.length ≤ x.length)) ∧
      (∀ reason n, checkByExploration g inv k = .ok (.inconclusive reason n) → n = k ∧
        ((∃ e, checkByExploration g inv 0 = .error e) ∨
          ∃ o, checkByExploration g inv 0 = .ok o ∧ k < o.iterations)) ∧
      ∀ o, checkByExploration g inv 0 = .ok o → o.iterations ≤ k →
        checkByExploration g inv k = .ok o := by
  rcases Exploration.explore_cut g inv hk with heq | ⟨f, hf, hiter, hlimit, hsorted, hon⟩
  · have hsame : checkByExploration g inv k = checkByExploration g inv 0 := by
      rw [checkByExploration, checkByExploration, heq]
    rw [hsame]
    refine ⟨fun n h => h, ?_, ?_, fun o h _ => h⟩
    · intro c n h
      obtain ⟨f, _, ho⟩ := checkByExploration_ok h
      obtain ⟨x, _, hx⟩ := Fixpoint.outcome_violated (f := f) (by rw [ho]; rfl)
      rw [ho] at hx
      cases hx
      exact ⟨_, rfl, .inr ⟨_, _, h, Nat.le_refl _⟩⟩
    · intro reason n h
      obtain ⟨f, hf, ho⟩ := checkByExploration_ok h
      exact absurd (Exploration.explore_unlimited hb hf) (Fixpoint.outcome_inconclusive ho).1
  · have hcut : checkByExploration g inv k = .ok f.outcome := by simp [checkByExploration, hf]
    rw [hcut]
    refine ⟨?_, ?_, ?_, ?_⟩
    · intro n h
      obtain ⟨_, hnone⟩ := Fixpoint.outcome_holds (f := f) (by rw [Except.ok.inj h]; rfl)
      rw [hlimit] at hnone
      cases hnone
    · intro c n h
      exact violated_of_improves hsorted (fun f' hu => (hon f' hu).2) (Except.ok.inj h)
    · intro reason n h
      obtain ⟨_, hn⟩ := Fixpoint.outcome_inconclusive (Except.ok.inj h)
      refine ⟨hn.trans hiter, ?_⟩
      cases hu : explore g inv 0 with
      | error e => exact .inl ⟨e, by simp [checkByExploration, hu]⟩
      | ok f' =>
        refine .inr ⟨f'.outcome, by simp [checkByExploration, hu], ?_⟩
        rw [Fixpoint.outcome_iterations]
        exact (hon f' hu).1
    · intro o h hle
      obtain ⟨f', hu, rfl⟩ := checkByExploration_ok h
      rw [Fixpoint.outcome_iterations] at hle
      have := (hon f' hu).1
      omega

end

/-- On the loop, four visits are too few to find the violation, five find it and seven are all. -/
theorem loop_limited :
    (checkByExploration .loop (.response .upper 3) 4 = .ok (.inconclusive .iterations 4) ∧
        ∃ o, checkByExploration .loop (.response .upper 3) 0 = .ok o ∧ 4 < o.iterations) ∧
      (checkByExploration .loop (.response .upper 3) 5 = .ok (.violated (some ⟨Path.turns 4⟩) 5) ∧
        ∃ y n, checkByExploration .loop (.response .upper 3) 0 = .ok (.violated (some y) n) ∧
          y.length ≤ (Counterexample.mk (Path.turns 4)).length) ∧
      checkByExploration .loop (.response .upper 3) 7 = .ok (.violated (some ⟨Path.turns 4⟩) 7) ∧
      checkByExploration .loop (.response .lower 2) 3 = .ok (.holds 3) ∧
      checkByExploration .loop (.response .lower 2) 0 = .ok (.holds 3) := by
  have hbound : ∀ d n w, (Invariant.response d n).bound = some w → w.value.isFloat = false := by
    rintro d n _ ⟨⟩
    rfl
  have hall : checkByExploration .loop (.response .upper 3) 0 =
      .ok (.violated (some ⟨Path.turns 4⟩) 7) := by cbv
  have hopen : checkByExploration .loop (.response .upper 3) 4 =
      .ok (.inconclusive .iterations 4) := by cbv
  have hfound : checkByExploration .loop (.response .upper 3) 5 =
      .ok (.violated (some ⟨Path.turns 4⟩) 5) := by cbv
  have hholds : checkByExploration .loop (.response .lower 2) 3 = .ok (.holds 3) := by cbv
  have herror : ¬ ∃ e, checkByExploration .loop (.response .upper 3) 0 = .error e := by simp [hall]
  obtain ⟨_, _, hmore, _⟩ :=
    limit_never_falsifies (g := .loop) (k := 4) (by decide) (hbound .upper 3)
  obtain ⟨_, hviolated, _⟩ :=
    limit_never_falsifies (g := .loop) (k := 5) (by decide) (hbound .upper 3)
  obtain ⟨_, _, _, henough⟩ :=
    limit_never_falsifies (g := .loop) (k := 7) (by decide) (hbound .upper 3)
  obtain ⟨hkept, _⟩ :=
    limit_never_falsifies (g := .loop) (k := 3) (by decide) (hbound .lower 2)
  obtain ⟨_, ⟨⟩, hshorter⟩ := hviolated _ _ hfound
  exact ⟨⟨hopen, (hmore _ _ hopen).2.resolve_left herror⟩,
    ⟨hfound, hshorter.resolve_left herror⟩, henough _ hall (by decide), hholds, hkept 3 hholds⟩

end EventInvariants
