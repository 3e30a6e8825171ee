import EventInvariants.Check
import EventInvariants.Proofs.Convergence
import EventInvariants.Proofs.Failure
import EventInvariants.Proofs.Untimed
import EventInvariants.Proofs.Validation
import Mathlib.Data.List.Permutation

namespace EventInvariants

theorem Fixpoint.outcome_violated {f : Fixpoint} (h : f.outcome.verdict = .violated) :
    ∃ k, f.shortestFailure? = some k ∧
      f.outcome = .violated (some (.ofHistory k)) f.iterations := by
  unfold outcome at *
  cases hf : f.shortestFailure? with
  | some k => exact ⟨k, rfl, rfl⟩
  | none => cases hl : f.limit <;> simp [hf, hl, Outcome.verdict] at h

theorem Fixpoint.outcome_holds {f : Fixpoint} (h : f.outcome.verdict = .holds) :
    f.shortestFailure? = none ∧ f.limit = none := by
  unfold outcome at h
  cases hf : f.shortestFailure? with
  | some k => simp [hf, Outcome.verdict] at h
  | none =>
    cases hl : f.limit with
    | some reason => simp [hf, hl, Outcome.verdict] at h
    | none => exact ⟨rfl, rfl⟩

theorem checkByExploration_ok {g : Graph} {inv : Invariant} {limit : Nat} {o : Outcome}
    (h : checkByExploration g inv limit = .ok o) :
    ∃ f, explore g inv limit = .ok f ∧ f.outcome = o := by
  obtain ⟨f, hf, h⟩ := Result.bind_ok.mp h
  cases h
  exact ⟨f, hf, rfl⟩

theorem Time.beq_self {t : Time} (ht : t.isFloat = false) : (t == t) = true := by
  change Time.beq t t = true
  cases t <;> simp_all [Time.beq, Time.isFloat]

/-- A route that takes the times of its edges is accepted if each of them equals itself. -/
theorem Path.Route.isPath {g : Graph} {relation : Relation} {path : Path}
    (hself : ∀ v, ∀ edge ∈ g.successors v relation, (edge.delta == edge.delta) = true)
    (h : Route g relation Eq path) : Path.isPath g relation path = true := by
  apply isPath_iff.mpr
  apply h.mono
  intro v edge hedge d hd
  rw [← hd]
  exact hself v edge hedge

namespace Exploration
variable {g : Graph} {inv : Invariant} {f : Fixpoint} {limit : Nat}

theorem exact_of_times
    (hg : ∀ node ∈ g.nodes, ∀ edge ∈ node.edges, ∀ d, edge.delta = some d → d.isFloat = false)
    (hb : ∀ w, inv.bound = some w → w.value.isFloat = false) : Exact g inv where
  bound w hw := hb w (Monitor.bound_of_window hw)
  delta _ v edge hedge := by
    obtain ⟨node, hnode, hmem⟩ := Graph.mem_successors hedge
    cases hd : edge.delta with
    | none => rfl
    | some d => exact hg node hnode edge hmem d hd

/-- Where the monitor reads times, those that are equal as values are the same. -/
theorem tells_beq (hx : Exact g inv) : Tells g inv fun x y => (x == y) = true := by
  intro hw v edge hedge d hd
  have hfloat := hx.delta hw v edge hedge
  cases he : edge.delta with
  | none =>
    rw [he] at hd
    cases d with
    | none => rfl
    | some t => cases hd
  | some s =>
    rw [he] at hd hfloat
    cases d with
    | none => cases hd
    | some t => exact congrArg some (Time.eq_of_beq hfloat hd)

theorem explore_converged (hx : Exact g inv) (h : explore g inv limit = .ok f)
    (hl : f.limit = none) : ∃ s, Converged g inv s ∧ f.set = s.set := by
  obtain ⟨s, hs, hstart, hsteady, hset, _, hqueue⟩ := explore_ok hx h
  refine ⟨s, ⟨hs, hstart, fun w => hsteady w ?_⟩, hset⟩
  rw [hqueue hl]
  exact List.not_mem_nil

/-- No route that violates the invariant is shorter than the failure that is reported. -/
theorem shortestFailure_of_violates {same : Option Time → Option Time → Prop}
    (hsc : Scalar g inv) (h : explore g inv limit = .ok f) (hl : f.limit = none) {path : Path}
    (hroute : Path.Route g inv.relation same path) (hsame : Tells g inv same)
    (hv : Path.violates g inv path = .ok true) :
    ∃ k, f.shortestFailure? = some k ∧ k.length ≤ path.length := by
  obtain ⟨s, hs, hset⟩ := explore_converged hsc.exact h hl
  obtain ⟨w, x, hx, hlen⟩ := failure_of_violates hsc hs hroute hsame hv
  rw [← hset] at hx
  obtain ⟨k, hk, hle⟩ := Fixpoint.shortestFailure_le (explore_sound hsc.exact h).2 hx
  exact ⟨k, hk, Nat.le_trans hle hlen⟩

/-- An invariant that holds, without a bound or with a whole one, is violated by no accepted path.
-/
theorem not_violates_of_holds {o : Outcome} {path : Path}
    (hb : inv.bound = none ∨ ∃ d k, inv.bound = some ⟨d, .integer k⟩)
    (h : checkByExploration g inv limit = .ok o) (ho : o.verdict = .holds)
    (hp : Path.isPath g inv.relation path = true) : Path.violates g inv path ≠ .ok true := by
  obtain ⟨f, hf, rfl⟩ := checkByExploration_ok h
  obtain ⟨hnone, hl⟩ := Fixpoint.outcome_holds ho
  have hsc := scalar_of_validate (explore_seed hf).1 hb
  intro hv
  obtain ⟨k, hk, _⟩ := shortestFailure_of_violates hsc hf hl (Path.isPath_iff.mp hp)
    (tells_beq hsc.exact) hv
  rw [hnone] at hk
  cases hk

theorem sampled_untimed (hw : (Monitor.ofInvariant inv).window = none) :
    Sampled g inv 1 fun _ => .idle := by
  have hleads : ∀ x y, (Monitor.ofInvariant inv).Leads x y := by
    intro x y
    simp [Monitor.Leads, hw]
  intro σ v p e _
  exact ⟨0, Nat.one_pos, hleads _ _, hleads _ _⟩

theorem failure_arrives {k : History} (hx : Exact g inv) (h : explore g inv limit = .ok f)
    (hk : f.shortestFailure? = some k) :
    ∃ v e, Arrives g inv f.set v .failed e ∧ e.history = k := by
  obtain ⟨v, e, he, rfl⟩ := Fixpoint.shortestFailure_mem hk
  exact ⟨v, e, (explore_sound hx h).1 v .failed e he, rfl⟩

/-- An entry that has failed is a violating path; it is judged so where it can be judged. -/
theorem Arrives.violates {σ : Nat → StateSet} {v : Nat} {e : Entry} (hx : Exact g inv)
    (h : Arrives g inv σ v .failed e) {answer : Bool}
    (hv : Path.violates g inv e.history.steps = .ok answer) : answer = true := by
  have hd : (Monitor.ofInvariant inv).window ≠ none →
      ∀ k, ((Path.trace g inv e.history.steps).delta (k + 1)).isFloat = false := fun hw =>
    h.route.delta (P := fun d => d.isFloat = false) (hx.delta hw) rfl
  exact (Path.failed_iff_judged h.route.pos h.route.inside hx.bound hd (fun hw => h.forward hx hw)
    h.run hv).mp rfl

theorem Arrives.violates_of_untimed {σ : Nat → StateSet} {v : Nat} {e : Entry} (hx : Exact g inv)
    (hb : inv.bound = none) (h : Arrives g inv σ v .failed e) :
    Path.violates g inv e.history.steps = .ok true := by
  obtain ⟨answer, hv, _⟩ := Path.violates_untimed h.route.inside hb
  rw [h.violates hx hv] at hv
  exact hv

/-- The monitor has not failed on the way to the failure that is reported. -/
theorem not_failed_before {v : Nat} {e : Entry} {q : Phase} {b : Clock} {n : Nat}
    (hx : Exact g inv) (h : explore g inv limit = .ok f)
    (hk : f.shortestFailure? = some e.history) (harr : Arrives g inv f.set v .failed e)
    (hn : 0 < n) (hlt : n < e.history.length)
    (hrun : (Monitor.ofInvariant inv).run g inv (e.history.steps.take n) = .ok (q, b)) :
    q ≠ .failed := by
  -- a failure on the way is still covered where it was, and would have been reported
  intro hq
  rw [hq] at hrun
  obtain ⟨w, x, hmem, hlen, _⟩ := harr.part hn (Nat.le_of_lt hlt) hrun
  obtain ⟨k, hk', hle⟩ := Fixpoint.shortestFailure_le (explore_sound hx h).2 hmem
  rw [hk] at hk'
  cases hk'
  omega

end Exploration

/-- A time that differs from every time, itself included. -/
def Time.nan : Time :=
  .float (Float.ofBits 0x7ff8000000000000)

theorem Time.nan_beq (t : Time) : (Time.nan == t) = false := by
  have hnan : (Float.ofBits 0x7ff8000000000000).toModel.unpack = .notANumber := rfl
  change Time.beq Time.nan t = false
  cases t with
  | zero | integer n | vector v => rfl
  | float x =>
    simp only [Time.nan, Time.beq, BEq.beq, Float.beq, Float.Model.beq, hnan]
    rfl

def Graph.pair (delta : Time) : Graph :=
  .timedTrace [(⟨"a"⟩, none), (⟨"b"⟩, some delta)]

def Invariant.never : Invariant :=
  ⟨.neverFollowedBy, ⟨"a"⟩, ⟨"b"⟩, .default, none⟩

theorem Graph.pair_delta {delta : Time} {v : Nat} {edge : Edge}
    (h : edge ∈ (Graph.pair delta).successors v .default) : edge.delta = some delta := by
  rcases v with _ | _ | v
  · cases List.mem_singleton.mp h
    rfl
  · cases h
  · cases h

/-- From an `a` by way of a node with an edge to itself to a `b`, one unit of time a step. -/
def Graph.loop : Graph where
  nodes := #[⟨⟨"a"⟩, true, false, #[⟨1, .default, some (.integer 1)⟩]⟩,
    ⟨⟨"x"⟩, false, false, #[⟨1, .default, some (.integer 1)⟩, ⟨2, .default, some (.integer 1)⟩]⟩,
    ⟨⟨"b"⟩, false, true, #[]⟩]
  target_lt := by simp

/-- The path that stays in the loop for `n` steps. -/
def Path.turns (n : Nat) : Path :=
  ⟨0, none⟩ :: List.replicate n ⟨1, some (.integer 1)⟩

def Invariant.response (direction : Direction) (n : Int) : Invariant :=
  ⟨.alwaysFollowedBy, ⟨"a"⟩, ⟨"b"⟩, .default, some ⟨direction, .integer n⟩⟩

section
variable {g : Graph} {inv : Invariant} {limit : Nat}

/-- Without a bound and without a limit, exploration always gives a verdict, and it is exact: the
invariant is violated if and only if some route violates it. The routes are the accepted paths,
unless the time of an edge differs from itself as a value. -/
theorem untimed_verdict_exact (hb : inv.bound = none) (hv : inv.validate g = .ok ()) :
    ∃ o, checkByExploration g inv 0 = .ok o ∧ (o.verdict = .violated ∨ o.verdict = .holds) ∧
      (o.verdict = .violated ↔
        ∃ path, Path.Route g inv.relation Eq path ∧ Path.violates g inv path = .ok true) ∧
      ((∀ v, ∀ edge ∈ g.successors v inv.relation, (edge.delta == edge.delta) = true) →
        (o.verdict = .violated ↔
          ∃ path, Path.isPath g inv.relation path = true ∧ Path.violates g inv path = .ok true)) ∧
      ((∃ path, Path.isPath g inv.relation path = true ∧ Path.violates g inv path = .ok true) →
        o.verdict = .violated) := by
  have hw : (Monitor.ofInvariant inv).window = none := Monitor.window_of_bound hb
  have hsc := Exploration.scalar_of_validate hv (.inl hb)
  obtain ⟨f, hf⟩ := Exploration.explore_total hw hsc.exact hv 0
  have hl : f.limit = none := Exploration.explore_limit hsc.exact
    (Exploration.sampled_untimed hw) (by simp [Exploration.clocks, hb]) hf
  have hfound : ∀ {same : Option Time → Option Time → Prop} {path : Path},
      Path.Route g inv.relation same path → Path.violates g inv path = .ok true →
      f.outcome.verdict = .violated := by
    intro same path hroute hviol
    obtain ⟨k, hk, _⟩ := Exploration.shortestFailure_of_violates hsc hf hl hroute
      (fun htimed => absurd hw htimed) hviol
    simp [Fixpoint.outcome, hk, Outcome.verdict]
  have hroute : f.outcome.verdict = .violated →
      ∃ path, Path.Route g inv.relation Eq path ∧ Path.violates g inv path = .ok true := by
    intro ho
    obtain ⟨k, hk, _⟩ := Fixpoint.outcome_violated ho
    obtain ⟨v, e, harr, rfl⟩ := Exploration.failure_arrives hsc.exact hf hk
    exact ⟨e.history.steps, harr.route, harr.violates_of_untimed hsc.exact hb⟩
  have haccepted : (∃ path, Path.isPath g inv.relation path = true ∧
      Path.violates g inv path = .ok true) → f.outcome.verdict = .violated := by
    intro h
    obtain ⟨path, hpath, hviol⟩ := h
    exact hfound (Path.isPath_iff.mp hpath) hviol
  refine ⟨f.outcome, by rw [checkByExploration, hf]; rfl, ?_, ⟨hroute, ?_⟩, ?_, haccepted⟩
  · cases hs : f.shortestFailure? with
    | none => simp [Fixpoint.outcome, hs, hl, Outcome.verdict]
    | some k => simp [Fixpoint.outcome, hs, Outcome.verdict]
  · intro h
    obtain ⟨path, hpath, hviol⟩ := h
    exact hfound hpath hviol
  · intro hself
    refine ⟨fun ho => ?_, haccepted⟩
    obtain ⟨path, hpath, hviol⟩ := hroute ho
    exact ⟨path, hpath.isPath hself, hviol⟩

theorem loop_never_exact :
    Invariant.never.validate .loop = .ok () ∧ ∃ o, checkByExploration .loop .never 0 = .ok o ∧
      (o.verdict = .violated ↔ ∃ path, Path.Route .loop .default Eq path ∧
        Path.violates .loop .never path = .ok true) ∧
      (o.verdict = .violated ↔ ∃ path, Path.isPath .loop .default path = true ∧
        Path.violates .loop .never path = .ok true) := by
  have hv : Invariant.never.validate .loop = .ok () := by cbv
  have hself : ∀ v, ∀ edge ∈ Graph.loop.successors v .default,
      (edge.delta == edge.delta) = true := by
    intro v edge hedge
    rcases v with _ | _ | _ | v
    · cases List.mem_singleton.mp hedge
      rfl
    · rcases List.mem_pair.mp hedge with rfl | rfl
      · rfl
      · rfl
    · cases hedge
    · cases hedge
  obtain ⟨o, ho, _, hroute, haccepted, _⟩ := untimed_verdict_exact rfl hv
  exact ⟨hv, o, ho, hroute, haccepted hself⟩

/-- An edge whose time differs from itself is taken by exploration but by no accepted path. -/
theorem nan_edge_not_accepted :
    Invariant.never.bound = none ∧ Invariant.never.validate (.pair .nan) = .ok () ∧
      (checkByExploration (.pair .nan) .never 0).map Outcome.verdict = .ok .violated ∧
      ¬ ∃ path, Path.isPath (.pair .nan) Invariant.never.relation path = true ∧
        Path.violates (.pair .nan) .never path = .ok true := by
  have hb : Invariant.never.bound = none := rfl
  -- no time is looked at, so that none has to be evaluated
  have hvalid (t : Time) : Invariant.never.validate (.pair t) = .ok () := by cbv
  have hviolated (t : Time) :
      (checkByExploration (.pair t) .never 0).map Outcome.verdict = .ok .violated := by cbv
  refine ⟨hb, hvalid .nan, hviolated .nan, ?_⟩
  intro h
  obtain ⟨path, hpath, hv⟩ := h
  have hroute := Path.isPath_iff.mp hpath
  have hone : path.length = 1 := by
    have hpos := hroute.pos
    apply Classical.byContradiction
    intro hlen
    have h0 := List.getElem?_eq_getElem (show 0 < path.length from hpos)
    have h1 := List.getElem?_eq_getElem (show 0 + 1 < path.length by omega)
    obtain ⟨edge, hedge, _, hd⟩ := hroute.edge 0 _ _ h0 h1
    rw [Graph.pair_delta hedge] at hd
    cases hs : path[0 + 1].delta with
    | none =>
      rw [hs] at hd
      cases hd
    | some t =>
      rw [hs] at hd
      exact Bool.false_ne_true ((Time.nan_beq t).symm.trans hd)
  obtain ⟨v, hv', hiff⟩ := Path.violates_untimed hroute.inside hb
  rw [hv] at hv'
  cases hv'
  obtain ⟨k, hk, _, i, hi, _⟩ := hiff.mp rfl
  omega

/-- A bounded invariant that holds is violated by no path, however long. -/
theorem no_violation_of_holds {o : Outcome} {d : Direction} {n : Int}
    (hb : inv.bound = some ⟨d, .integer n⟩) (h : checkByExploration g inv limit = .ok o)
    (ho : o.verdict = .holds) (path : Path) (hp : Path.isPath g inv.relation path = true) :
    Path.violates g inv path ≠ .ok true :=
  Exploration.not_violates_of_holds (.inr ⟨d, n, hb⟩) h ho hp

theorem loop_lower_kept :
    checkByExploration .loop (.response .lower 2) 0 = .ok (.holds 3) ∧
      Path.isPath .loop .default (Path.turns 9 ++ [⟨2, some (.integer 1)⟩]) = true ∧
      Path.violates .loop (.response .lower 2) (Path.turns 9 ++ [⟨2, some (.integer 1)⟩]) ≠
        .ok true := by
  have hcheck : checkByExploration .loop (.response .lower 2) 0 = .ok (.holds 3) := by cbv
  have hpath : Path.isPath .loop .default (Path.turns 9 ++ [⟨2, some (.integer 1)⟩]) = true := by
    cbv
  exact ⟨hcheck, hpath, no_violation_of_holds rfl hcheck rfl _ hpath⟩

/-- When exploration converges, its counterexample is no longer than any violating path. -/
theorem counterexample_shortest {f : Fixpoint} {c : Counterexample} {n : Nat}
    (hb : inv.bound = none ∨ ∃ d k, inv.bound = some ⟨d, .integer k⟩)
    (hf : explore g inv limit = .ok f) (hl : f.limit = none)
    (h : checkByExploration g inv limit = .ok (.violated (some c) n)) (path : Path)
    (hp : Path.isPath g inv.relation path = true)
    (hv : Path.violates g inv path = .ok true) : c.length ≤ path.length := by
  have hsc := Exploration.scalar_of_validate (Exploration.explore_seed hf).1 hb
  obtain ⟨k, hk, hle⟩ := Exploration.shortestFailure_of_violates hsc hf hl (Path.isPath_iff.mp hp)
    (Exploration.tells_beq hsc.exact) hv
  obtain ⟨f', hf', ho⟩ := checkByExploration_ok h
  rw [hf] at hf'
  cases hf'
  simp only [Fixpoint.outcome, hk] at ho
  cases ho
  rw [Counterexample.length, Counterexample.ofHistory, History.length_steps]
  exact hle

theorem loop_upper_shortest :
    checkByExploration .loop (.response .upper 3) 0 = .ok (.violated (some ⟨Path.turns 4⟩) 7) ∧
      (explore .loop (.response .upper 3) 0).map Fixpoint.limit = .ok none ∧
      Path.isPath .loop .default (Path.turns 5) = true ∧
      Path.violates .loop (.response .upper 3) (Path.turns 5) = .ok true ∧
      (Counterexample.mk (Path.turns 4)).length ≤ (Path.turns 5).length := by
  have hcheck : checkByExploration .loop (.response .upper 3) 0 =
      .ok (.violated (some ⟨Path.turns 4⟩) 7) := by cbv
  have hlimit : (explore .loop (.response .upper 3) 0).map Fixpoint.limit = .ok none := by cbv
  have hpath : Path.isPath .loop .default (Path.turns 5) = true := by cbv
  have hviol : Path.violates .loop (.response .upper 3) (Path.turns 5) = .ok true := by cbv
  cases hf : explore .loop (.response .upper 3) 0 with
  | error e =>
    rw [hf] at hlimit
    cases hlimit
  | ok f =>
    rw [hf] at hlimit
    exact ⟨hcheck, hlimit, hpath, hviol, counterexample_shortest (.inr ⟨.upper, 3, rfl⟩) hf
      (Except.ok.inj hlimit) hcheck _ hpath hviol⟩

/-- A violation is shown by a path of the graph on which the monitor fails at the last step and not
before, and which is never judged to keep the invariant. -/
theorem counterexample_genuine {o : Outcome}
    (hg : ∀ node ∈ g.nodes, ∀ edge ∈ node.edges, ∀ d, edge.delta = some d → d.isFloat = false)
    (hb : ∀ w, inv.bound = some w → w.value.isFloat = false)
    (h : checkByExploration g inv limit = .ok o) (ho : o.verdict = .violated) :
    ∃ c, o.counterexample? = some c ∧ Path.isPath g inv.relation c.steps = true ∧
      (inv.bound = none → Path.violates g inv c.steps = .ok true) ∧
      Path.violates g inv c.steps ≠ .ok false ∧
      (∃ b, (Monitor.ofInvariant inv).run g inv c.steps = .ok (.failed, b)) ∧
      ∀ k, 0 < k → k < c.length → ∃ q b,
        (Monitor.ofInvariant inv).run g inv (c.steps.take k) = .ok (q, b) ∧ q ≠ .failed := by
  obtain ⟨f, hf, rfl⟩ := checkByExploration_ok h
  obtain ⟨k, hk, ho⟩ := Fixpoint.outcome_violated ho
  have hx := Exploration.exact_of_times hg hb
  obtain ⟨v, e, harr, rfl⟩ := Exploration.failure_arrives hx hf hk
  refine ⟨.ofHistory e.history, by rw [ho]; rfl, ?_, ?_, ?_, ⟨_, harr.run⟩, ?_⟩
  · apply harr.route.isPath
    intro w edge hedge
    obtain ⟨node, hnode, hmem⟩ := Graph.mem_successors hedge
    cases hdelta : edge.delta with
    | none => rfl
    | some t => exact Time.beq_self (hg node hnode edge hmem t hdelta)
  · intro hnone
    exact harr.violates_of_untimed hx hnone
  · intro hv
    have := harr.violates hx hv
    cases this
  · intro n hn hlt
    rw [Counterexample.length, Counterexample.ofHistory, History.length_steps] at hlt
    obtain ⟨q, b, hrun⟩ := Monitor.run_take harr.run n
    exact ⟨q, b, hrun, Exploration.not_failed_before hx hf hk harr hn hlt hrun⟩

theorem loop_upper_genuine :
    checkByExploration .loop (.response .upper 3) 5 = .ok (.violated (some ⟨Path.turns 4⟩) 5) ∧
      Path.isPath .loop .default (Path.turns 4) = true ∧
      Path.violates .loop (.response .upper 3) (Path.turns 4) ≠ .ok false ∧
      ∀ k, 0 < k → k < 5 → ∃ q b,
        (Monitor.ofInvariant (.response .upper 3)).run .loop (.response .upper 3)
          ((Path.turns 4).take k) = .ok (q, b) ∧ q ≠ .failed := by
  have hcheck : checkByExploration .loop (.response .upper 3) 5 =
      .ok (.violated (some ⟨Path.turns 4⟩) 5) := by cbv
  obtain ⟨c, hc, hpath, _, hviol, _, hpre⟩ := counterexample_genuine
    (by simp [Graph.loop, Time.isFloat]) (by simp [Invariant.response, Time.isFloat]) hcheck rfl
  cases hc
  exact ⟨hcheck, hpath, hviol, hpre⟩

end
end EventInvariants
