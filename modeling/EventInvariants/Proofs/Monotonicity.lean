import EventInvariants.Proofs.Agreement
import EventInvariants.Proofs.Termination

namespace EventInvariants

/-- The invariant with another bound in place of its own. -/
def Invariant.withBound (inv : Invariant) (bound : Option Bound) : Invariant :=
  { inv with bound := bound }

namespace Bound
variable {w w' : Bound}

/-- Both bounds are on one side, and a time that is out of the second is out of the first. -/
structure Tighter (w w' : Bound) : Prop where
  direction : w.direction = w'.direction
  late : ∀ x, w'.Late x → w.Late x

theorem tighter_upper {m n : Int} (h : m ≤ n) :
    Tighter ⟨.upper, .integer m⟩ ⟨.upper, .integer n⟩ where
  direction := rfl
  late x hx := by
    obtain ⟨hall, j, hj⟩ := hx
    exact ⟨fun i => Int.le_trans h (hall i), j, Int.lt_of_le_of_lt h hj⟩

theorem tighter_lower {m n : Int} (h : m ≤ n) :
    Tighter ⟨.lower, .integer n⟩ ⟨.lower, .integer m⟩ where
  direction := rfl
  late x hx := by
    obtain ⟨hall, j, hj⟩ := hx
    exact ⟨fun i => Int.le_trans (hall i) h, j, Int.lt_of_lt_of_le hj h⟩

end Bound

namespace Monitor
variable {w w' : Bound} {t : Trace} {k : Nat}

theorem FailsAt.tighten_followedBy (h : w.Tighter w') (hf : (timedFollowedBy w').FailsAt t k) :
    (timedFollowedBy w).FailsAt t k := by
  obtain ⟨i, hi, ha, hend | ⟨hlt, hopen, hwhy, hlate⟩⟩ := hf
  · exact ⟨i, hi, ha, .inl hend⟩
  · rw [← h.direction] at hwhy
    exact ⟨i, hi, ha, .inr ⟨hlt, hopen, hwhy, h.late _ hlate⟩⟩

theorem FailsAt.tighten_precedes (h : w.Tighter w') (hf : (timedPrecedes w').FailsAt t k) :
    (timedPrecedes w).FailsAt t k := by
  obtain ⟨hb, ha, hno | ⟨i, hi, hanchor, hlate⟩⟩ := hf
  · exact ⟨hb, ha, .inl hno⟩
  · rw [← h.direction] at hanchor
    exact ⟨hb, ha, .inr ⟨i, hi, hanchor, h.late _ hlate⟩⟩

theorem FailsAt.tighten {inv : Invariant} (h : w.Tighter w')
    (hf : (ofInvariant (inv.withBound (some w'))).FailsAt t k) :
    (ofInvariant (inv.withBound (some w))).FailsAt t k := by
  obtain ⟨kind, a, b, relation, bound⟩ := inv
  cases kind with
  | alwaysFollowedBy => exact hf.tighten_followedBy h
  | neverFollowedBy => exact hf
  | alwaysPrecedes => exact hf.tighten_precedes h

/-- A wait that the end of the trace cuts off, or a `b` without an `a`, is a failure under every
bound. -/
theorem FailsAt.bounded {inv : Invariant}
    (hf : (ofInvariant (inv.withBound none)).FailsAt t k) (w : Bound) :
    (ofInvariant (inv.withBound (some w))).FailsAt t k := by
  obtain ⟨kind, a, b, relation, bound⟩ := inv
  cases kind with
  | alwaysFollowedBy =>
    obtain ⟨hend, i, hi, ha, hopen⟩ := hf
    exact ⟨i, hi, ha, .inl ⟨hend, hopen⟩⟩
  | neverFollowedBy => exact hf
  | alwaysPrecedes =>
    obtain ⟨hb, hno⟩ := hf
    exact ⟨hb, hno k (Nat.le_refl k), .inl fun i hi => hno i (Nat.le_of_lt hi)⟩

end Monitor

namespace Exploration
variable {g : Graph} {inv : Invariant} {limit : Nat} {f : Fixpoint}

theorem Arrives.fails {σ : Nat → StateSet} {v : Nat} {e : Entry} (hx : Exact g inv)
    (h : Arrives g inv σ v .failed e) : Path.Fails g inv e.history.steps := by
  apply (Monitor.run_failed_iff h.route.pos hx.bound ?_ (fun hw => h.forward hx hw) h.run).mp rfl
  exact fun hw => h.route.delta (P := fun d => d.isFloat = false) (hx.delta hw) rfl

/-- Exploration that was not stopped reports a failure if and only if some route fails. -/
theorem shortestFailure_iff_fails (hsc : Scalar g inv) (h : explore g inv limit = .ok f)
    (hl : f.limit = none) : f.shortestFailure? ≠ none ↔
      ∃ path, Path.Route g inv.relation Eq path ∧ Path.Fails g inv path := by
  constructor
  · intro hsome
    obtain ⟨k, hk⟩ := Option.ne_none_iff_exists'.mp hsome
    obtain ⟨v, e, harr, _⟩ := failure_arrives hsc.exact h hk
    exact ⟨e.history.steps, harr.route, harr.fails hsc.exact⟩
  · intro hfails
    obtain ⟨path, hroute, k, hk, hfail⟩ := hfails
    obtain ⟨s, hs, hset⟩ := explore_converged hsc.exact h hl
    obtain ⟨w, x, hmem, _⟩ :=
      failure_of_fails hsc hs hroute (fun _ _ _ _ _ hd => hd) hk hfail
    rw [← hset] at hmem
    obtain ⟨k, hk, _⟩ := Fixpoint.shortestFailure_le (explore_sound hsc.exact h).2 hmem
    simp [hk]

/-- Without a limit the verdict is whether no route fails. -/
theorem verdict_holds_iff {o : Outcome}
    (hb : inv.bound = none ∨ ∃ d n, inv.bound = some ⟨d, .integer n⟩)
    (h : checkByExploration g inv 0 = .ok o) :
    o.verdict = .holds ↔
      ¬ ∃ path, Path.Route g inv.relation Eq path ∧ Path.Fails g inv path := by
  obtain ⟨f, hf, rfl⟩ := checkByExploration_ok h
  have hsc := scalar_of_validate (explore_seed hf).1 hb
  obtain ⟨n, sample, hsample, hn⟩ := exists_sample hsc.exact
  have hl : f.limit = none := explore_limit hsc.exact hsample hn hf
  rw [← shortestFailure_iff_fails hsc hf hl, Fixpoint.outcome]
  cases f.shortestFailure? <;> simp [hl, Outcome.verdict]

end Exploration

theorem Invariant.validate_withBound_none {g : Graph} {inv : Invariant} {w : Option Bound}
    (h : (inv.withBound w).validate g = .ok ()) : (inv.withBound none).validate g = .ok () := by
  cases w with
  | none => exact h
  | some w =>
    obtain ⟨_, _, h⟩ := Result.bind_ok.mp h
    exact h

section
variable {g : Graph} {inv : Invariant}

theorem holds_of_tighter {d : Direction} {m n : Int} {o o' : Outcome}
    (ht : Bound.Tighter ⟨d, .integer m⟩ ⟨d, .integer n⟩)
    (h : checkByExploration g (inv.withBound (some ⟨d, .integer m⟩)) 0 = .ok o)
    (ho : o.verdict = .holds)
    (h' : checkByExploration g (inv.withBound (some ⟨d, .integer n⟩)) 0 = .ok o') :
    o'.verdict = .holds := by
  have hnone := (Exploration.verdict_holds_iff (.inr ⟨d, m, rfl⟩) h).mp ho
  apply (Exploration.verdict_holds_iff (.inr ⟨d, n, rfl⟩) h').mpr
  intro hfails
  obtain ⟨path, hroute, k, hk, hfail⟩ := hfails
  exact hnone ⟨path, hroute, k, hk, hfail.tighten ht⟩

theorem holds_of_bounded {d : Direction} {n : Int} {o : Outcome}
    (h : checkByExploration g (inv.withBound (some ⟨d, .integer n⟩)) 0 = .ok o)
    (ho : o.verdict = .holds) :
    ∃ o', checkByExploration g (inv.withBound none) 0 = .ok o' ∧ o'.verdict = .holds := by
  obtain ⟨f, hf, _⟩ := checkByExploration_ok h
  have hv := Invariant.validate_withBound_none (Exploration.explore_seed hf).1
  have hsc := Exploration.scalar_of_validate hv (.inl rfl)
  obtain ⟨f', hf'⟩ := Exploration.explore_total (Monitor.window_of_bound rfl) hsc.exact hv 0
  have h' : checkByExploration g (inv.withBound none) 0 = .ok f'.outcome := by
    simp [checkByExploration, hf']
  have hnone := (Exploration.verdict_holds_iff (.inr ⟨d, n, rfl⟩) h).mp ho
  refine ⟨f'.outcome, h', (Exploration.verdict_holds_iff (.inl rfl) h').mpr ?_⟩
  intro hfails
  obtain ⟨path, hroute, k, hk, hfail⟩ := hfails
  exact hnone ⟨path, hroute, k, hk, hfail.bounded _⟩

end

/-- Verdicts are monotone in the bound. An invariant that holds under an upper bound holds under
every larger one for which there is a verdict, one that holds under a lower bound holds under every
smaller one, and one that holds under any bound holds without it. -/
theorem verdict_monotone (g : Graph) (inv : Invariant) {m n : Int} (hmn : m ≤ n) :
    (∀ o o', checkByExploration g (inv.withBound (some ⟨.upper, .integer m⟩)) 0 = .ok o →
        o.verdict = .holds →
        checkByExploration g (inv.withBound (some ⟨.upper, .integer n⟩)) 0 = .ok o' →
        o'.verdict = .holds) ∧
      (∀ o o', checkByExploration g (inv.withBound (some ⟨.lower, .integer n⟩)) 0 = .ok o →
        o.verdict = .holds →
        checkByExploration g (inv.withBound (some ⟨.lower, .integer m⟩)) 0 = .ok o' →
        o'.verdict = .holds) ∧
      ∀ d k o, checkByExploration g (inv.withBound (some ⟨d, .integer k⟩)) 0 = .ok o →
        o.verdict = .holds →
        ∃ o', checkByExploration g (inv.withBound none) 0 = .ok o' ∧ o'.verdict = .holds := by
  refine ⟨?_, ?_, ?_⟩
  · intro o o' h ho h'
    exact holds_of_tighter (Bound.tighter_upper hmn) h ho h'
  · intro o o' h ho h'
    exact holds_of_tighter (Bound.tighter_lower hmn) h ho h'
  · intro d k o h ho
    exact holds_of_bounded h ho

/-- A ring of an `a`, another event and a `b`, with a slow edge from the `a` to the `b`. -/
def Graph.ring : Graph where
  nodes := #[⟨⟨"a"⟩, true, false,
      #[⟨1, .default, some (.integer 1)⟩, ⟨2, .default, some (.integer 3)⟩]⟩,
    ⟨⟨"x"⟩, false, false, #[⟨2, .default, some (.integer 1)⟩]⟩,
    ⟨⟨"b"⟩, false, true, #[⟨0, .default, some (.integer 0)⟩]⟩]
  target_lt := by simp

theorem ring_monotone :
    (∃ o o', checkByExploration .ring (.response .upper 3) 0 = .ok o ∧ o.verdict = .holds ∧
        checkByExploration .ring (.response .upper 7) 0 = .ok o' ∧ o'.verdict = .holds) ∧
      (∃ o o', checkByExploration .ring (.response .lower 2) 0 = .ok o ∧ o.verdict = .holds ∧
        checkByExploration .ring (.response .lower 1) 0 = .ok o' ∧ o'.verdict = .holds) ∧
      ∃ o, checkByExploration .ring ((Invariant.response .upper 3).withBound none) 0 = .ok o ∧
        o.verdict = .holds := by
  have hupper : checkByExploration .ring (.response .upper 3) 0 = .ok (.holds 3) := by cbv
  have hlarger : checkByExploration .ring (.response .upper 7) 0 = .ok (.holds 3) := by cbv
  have hlower : checkByExploration .ring (.response .lower 2) 0 = .ok (.holds 3) := by cbv
  have hsmaller : checkByExploration .ring (.response .lower 1) 0 = .ok (.holds 3) := by cbv
  obtain ⟨hup, _, hnone⟩ :=
    verdict_monotone .ring (.response .upper 3) (show (3 : Int) ≤ 7 by decide)
  obtain ⟨_, hlow, _⟩ :=
    verdict_monotone .ring (.response .upper 3) (show (1 : Int) ≤ 2 by decide)
  refine ⟨⟨_, _, hupper, rfl, hlarger, ?_⟩, ⟨_, _, hlower, rfl, hsmaller, ?_⟩, ?_⟩
  · exact hup _ _ hupper rfl hlarger
  · exact hlow _ _ hlower rfl hsmaller
  · exact hnone .upper 3 _ hupper rfl

end EventInvariants
