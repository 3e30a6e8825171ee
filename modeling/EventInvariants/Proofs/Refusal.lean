import EventInvariants.Proofs.Agreement
import EventInvariants.Proofs.Discipline
import EventInvariants.Proofs.Termination
import EventInvariants.Proofs.Union

namespace EventInvariants

namespace Time

/-- A whole number that is not negative; `zero` is one. -/
def IsCount : Time → Prop
  | .zero => True
  | .integer k => 0 ≤ k
  | _ => False

theorem IsCount.scalar {t : Time} (h : t.IsCount) : t.IsScalar := by
  cases t with
  | zero | integer k => trivial
  | float x | vector v => cases h

theorem IsCount.part_nonneg {t : Time} (h : t.IsCount) (i : Nat) : 0 ≤ t.part i := by
  cases t with
  | zero => exact Int.le_refl 0
  | integer k => exact h
  | float x | vector v => cases h

/-- The sum is out of range, and it would be from any start up to `n`. -/
def Overflows (n : Int) (delta : Time) (cause : TimeError) : Prop :=
  cause = .overflow ∧ ∃ k, delta = .integer k ∧ Whole.greatest < n + k

theorem add_ends {s delta : Time} {n : Int} (hs : s.IsScalar) (hpos : 0 ≤ s.part 0)
    (hle : s.part 0 ≤ n) (hd : delta.IsCount) :
    Result.Ends IsScalar (Overflows n delta) (s.add delta) := by
  cases s with
  | float x | vector v => cases hs
  | zero => exact hd.scalar
  | integer j =>
    cases delta with
    | float x | vector v => cases hd
    | zero => trivial
    | integer k =>
      have hj : 0 ≤ j := hpos
      have hk : 0 ≤ k := hd
      have hjn : j ≤ n := hle
      by_cases hfits : Whole.fits (j + k) = true
      · simp only [add, Whole.add?, hfits, if_true]
        trivial
      · have hlarge : Whole.greatest < n + k := by
          have hleast : Whole.least ≤ 0 := by decide
          simp only [Whole.fits, Bool.and_eq_true, decide_eq_true_eq] at hfits
          omega
        simp only [add, Whole.add?, hfits, Bool.false_eq_true, if_false]
        exact ⟨rfl, k, rfl, hlarge⟩

end Time

namespace Monitor
variable {m : Monitor} {p : Phase} {c : Clock} {w : Bound} {n : Int} {delta : Time}

/-- A clock that state `p` can have while times go forward. -/
structure Counts (m : Monitor) (p : Phase) (c : Clock) : Prop extends m.Carries p c where
  phase : p ∈ m.phases
  nonneg : c.IsNonneg

section
variable (hw : m.window = some w) (hn : w.value = .integer n)
include hw hn

theorem isScalar_of_integer : m.IsScalar := by
  intro w' hw'
  rw [hw] at hw'
  cases hw'
  rw [hn]
  trivial

theorem Counts.severity {x y : Clock} (hx : m.Counts p x) (hy : m.Counts p y) :
    ∃ o, m.severity x y = .ok o := by
  refine hx.toCarries.severity_scalar ?_ hy.toCarries
  intro w' hw'
  rw [hw] at hw'
  cases hw'
  exact ⟨n, hn⟩

theorem Counts.initial (l : Letter) :
    Result.Ends (fun r => m.Counts r.1 r.2) (fun _ => False) (m.initial l) := by
  obtain ⟨q, c, henter, hq⟩ :=
    enter_total (isScalar_of_integer hw hn).start (start_mem_phases m) .idle l
  rw [Monitor.initial, henter]
  exact ⟨.initial henter, hq, enter_nonneg (c := .idle) trivial henter⟩

theorem Counts.advance (hc : m.Counts p c) (hd : delta.IsCount) :
    Result.Ends (fun _ => True) (fun fault => ∃ cause, Time.Overflows n delta cause ∧
      fault = .time cause) (m.advance c delta) := by
  have hbound : w.value.IsScalar := isScalar_of_integer hw hn w hw
  simp only [Monitor.advance, hw]
  cases c with
  | idle | saturated => trivial
  | running s =>
    obtain ⟨o, ho, _⟩ := Bound.settled_order (hc.settled w hw)
    have hle := Bound.settled_part_le hbound.not_float hc.exact (hc.settled w hw) 0
    rw [hn] at ho hle
    have hsum := Time.add_ends (Time.scalar_of_order ho) (hc.nonneg 0) hle hd
    simp only [Bound.advance]
    cases hadd : s.add delta with
    | error cause => exact ⟨cause, hsum.of_eq_error hadd, rfl⟩
    | ok t =>
      obtain ⟨c', hset, _⟩ := Bound.settle_total hbound (hsum.of_eq_ok hadd)
      rw [Result.ok_bind, hset]
      trivial

theorem Counts.step (hc : m.Counts p c) (hd : delta.IsCount) (l : Letter) :
    Result.Ends (fun r => m.Counts r.1 r.2) (fun fault => ∃ cause, Time.Overflows n delta cause ∧
      fault = .time cause) (m.step p c l delta) := by
  have hadvance := hc.advance hw hn hd
  cases hb : m.advance c delta with
  | error fault =>
    simp only [Monitor.step, hb]
    exact hadvance.of_eq_error hb
  | ok b =>
    obtain ⟨q, c', henter, hq⟩ := enter_total (isScalar_of_integer hw hn).start hc.phase b l
    have hstep : m.step p c l delta = .ok (q, c') := by
      simp only [Monitor.step, hb, Result.ok_bind, henter]
    have hfloat := hd.scalar.not_float
    rw [hstep]
    exact ⟨hc.toCarries.step (fun _ => hfloat) hstep, hq,
      step_nonneg hw hfloat hd.part_nonneg hc.exact hc.nonneg hstep⟩

end
end Monitor

namespace StateSet
variable {m : Monitor} {w : Bound} {n : Int}

/-- Along edges that take `delta`, an operation fails only if that time is too large. -/
theorem upheld_counts {delta : Time} (hw : m.window = some w) (hn : w.value = .integer n)
    (hd : delta.IsCount) : Upheld m (fun d => d = delta) m.Counts
      (fun fault => ∃ cause, Time.Overflows n delta cause ∧ fault = .time cause)
      (fun s => ∀ p, ∀ e ∈ s.frontier p, m.Counts p e.clock) := by
  apply upheld_clocks
  · intro l
    obtain ⟨r, hr, hcounts⟩ := (Monitor.Counts.initial hw hn l).total
    rw [hr]
    exact hcounts
  · intro p c l taken hc htaken
    cases taken with
    | some d =>
      obtain rfl := htaken d rfl
      exact hc.step hw hn hd l
    | none =>
      -- without a time nothing is added, so that nothing is too large
      have hcount : Time.zero.IsCount := trivial
      have hzero := hc.step hw hn hcount l
      cases hstep : m.step p c l .zero with
      | ok r =>
        rw [Option.getD_none, hstep]
        exact hzero.of_eq_ok hstep
      | error fault =>
        obtain ⟨_, ⟨_, k, hk, _⟩, _⟩ := hzero.of_eq_error hstep
        cases hk
  · intro p x y hx hy
    obtain ⟨o, ho⟩ := hx.severity hw hn hy
    rw [ho]
    trivial

end StateSet

namespace Exploration
variable {g : Graph} {inv : Invariant} {s s' : State} {known : StateSet} {u v : Nat} {edge : Edge}

/-- What is wrong with an edge that leaves `source`, the bound being `n`, and the error that says
so. -/
inductive Blames (n : Int) (source : Nat) (edge : Edge) : CheckError → Prop where
  | missing (h : edge.delta = none) : Blames n source edge (.missingDelta source edge.target)
  | negative {k : Int} (h : edge.delta = some (.integer k)) (hk : k < 0) :
      Blames n source edge (.time source edge.target (.negative (.integer k)))
  | overflow {k : Int} (h : edge.delta = some (.integer k)) (hk : Whole.greatest < n + k) :
      Blames n source edge (.time source edge.target .overflow)

/-- The error is the fault of an edge that leaves a node which is reached. -/
def Accounted (g : Graph) (inv : Invariant) (n : Int) (e : CheckError) : Prop :=
  ∃ u edge, Closure.Reached g inv.relation u ∧ edge ∈ g.successors u inv.relation ∧
    Blames n u edge e

theorem follow_error {e : CheckError} (h : follow g inv u known s edge = .error e) :
    propagate g inv u known edge = .error e ∨
      ∃ offered fault, propagate g inv u known edge = .ok offered ∧
        ((s.set edge.target).merge (Monitor.ofInvariant inv) offered).2 = .error fault := by
  cases hoffered : propagate g inv u known edge with
  | error e' =>
    simp only [follow, hoffered, Result.error_bind, Except.error.injEq] at h
    exact .inl (by rw [h])
  | ok offered =>
    refine .inr ⟨offered, ?_⟩
    simp only [follow, hoffered, Result.ok_bind] at h
    split at h
    · rename_i fault hmerge
      exact ⟨fault, rfl, by rw [hmerge]⟩
    · split at h <;> cases h

/-- Only sound states come up, and only nodes that are reached are queued. -/
structure Charted (g : Graph) (inv : Invariant) (s : State) : Prop extends Sound g inv s where
  queue : ∀ v ∈ s.queue, Closure.Reached g inv.relation v

section
variable {d : Direction} {n : Int} (hb : inv.bound = some ⟨d, .integer n⟩)
  (hv : inv.validate g = .ok ())
include hb hv

theorem window_of_validate : (Monitor.ofInvariant inv).window = some ⟨d, .integer n⟩ := by
  obtain ⟨hsupports, _, _⟩ := Invariant.validate_bound hv hb
  unfold Monitor.ofInvariant
  cases hkind : inv.kind with
  | neverFollowedBy => simp [hkind, Kind.supportsBound] at hsupports
  | alwaysFollowedBy | alwaysPrecedes => simp [hb, Monitor.window]

theorem edgeDelta_ends (hedge : edge ∈ g.successors u inv.relation) :
    Result.Ends (fun delta => ∃ t, delta = some t ∧ edge.delta = some t ∧ t.IsCount)
      (Blames n u edge) (edgeDelta inv u edge) := by
  have hw := window_of_validate hb hv
  have hscalar := (scalar_of_validate hv (.inr ⟨d, n, hb⟩)).delta (by simp [hw]) u edge hedge
  have htimed : (Monitor.ofInvariant inv).isTimed = true := by simp [Monitor.isTimed, hw]
  simp only [edgeDelta, htimed, Bool.not_true, Bool.false_eq_true, if_false]
  cases hdelta : edge.delta with
  | none => exact .missing hdelta
  | some t =>
    rw [hdelta] at hscalar
    cases t with
    | float x | vector v => cases hscalar
    | zero => exact ⟨.zero, rfl, rfl, trivial⟩
    | integer k =>
      by_cases hk : k < 0
      · simp only [Time.checkNonNegative, Time.isNegative, hk, decide_true, if_true]
        exact .negative hdelta hk
      · simp only [Time.checkNonNegative, Time.isNegative, hk, decide_false, Bool.false_eq_true,
          if_false]
        exact ⟨.integer k, rfl, rfl, Int.not_lt.mp hk⟩

theorem Arrives.counts {σ : Nat → StateSet} {p : Phase} {e : Entry} (h : Arrives g inv σ v p e) :
    (Monitor.ofInvariant inv).Counts p e.clock := by
  have hw := window_of_validate hb hv
  induction h with
  | @start v p c _ hread =>
    exact (Monitor.Counts.initial hw rfl (g.letter inv v)).of_eq_ok hread
  | @next u p q e edge c _ hedge hdelta hstep _ ih =>
    obtain ⟨t, _, ht, hcount⟩ := (edgeDelta_ends hb hv hedge).of_eq_ok hdelta
    rw [ht] at hstep
    exact (ih.step hw rfl hcount (g.letter inv edge.target)).of_eq_ok hstep

/-- What an edge makes of a set: it fails only through its own fault. -/
theorem propagate_blames (hedge : edge ∈ g.successors u inv.relation)
    (hknown : ∀ p, ∀ e ∈ known.frontier p, (Monitor.ofInvariant inv).Counts p e.clock) :
    Result.Ends (fun offered => ∀ p, ∀ e ∈ offered.frontier p,
      (Monitor.ofInvariant inv).Counts p e.clock) (Blames n u edge)
      (propagate g inv u known edge) := by
  have hw := window_of_validate hb hv
  apply (edgeDelta_ends hb hv hedge).bind
  rintro _ ⟨t, rfl, ht, hcount⟩
  have htaken : ∀ d, some t = some d → d = t := fun d hd => (Option.some.inj hd).symm
  have htransition := (StateSet.upheld_counts hw rfl hcount).transition hknown htaken edge.target
    (g.letter inv edge.target)
  apply htransition.mapError
  rintro _ ⟨_, ⟨rfl, k, rfl, hlarge⟩, rfl⟩
  exact .overflow ht hlarge

theorem follow_blames (hu : Closure.Reached g inv.relation u)
    (hedge : edge ∈ g.successors u inv.relation) (hs : Charted g inv s)
    (hknown : ∀ p, ∀ e ∈ known.frontier p, Arrives g inv s.set u p e) :
    Result.Ends (fun s' => Charted g inv s' ∧
      ∀ w, StateSet.Grows (Monitor.ofInvariant inv) (s.set w) (s'.set w)) (Blames n u edge)
      (follow g inv u known s edge) := by
  have hw := window_of_validate hb hv
  have hx := (scalar_of_validate hv (.inr ⟨d, n, hb⟩)).exact
  have hpropagate := propagate_blames hb hv hedge fun p e he => (hknown p e he).counts hb hv
  cases hfollow : follow g inv u known s edge with
  | ok s' =>
    obtain ⟨hs', offered, _, ht⟩ := follow_sound hx hs.toSound hknown hedge hfollow
    refine ⟨⟨hs', ?_⟩, ht.grows⟩
    intro v hmem
    rcases ht.queue with ⟨hq, _⟩ | ⟨hq, _⟩
    · exact hs.queue v (hq ▸ hmem)
    · rcases List.mem_append.mp (hq ▸ hmem) with hmem | hmem
      · exact hs.queue v hmem
      · cases List.mem_singleton.mp hmem
        obtain ⟨first, hfirst, hops⟩ := hu
        exact ⟨first, hfirst, hops.tail ⟨rfl, ⟨edge, hedge, rfl⟩, rfl⟩⟩
  | error e =>
    rcases follow_error hfollow with herror | ⟨offered, fault, hoffered, hmerge⟩
    · exact hpropagate.of_eq_error herror
    · -- clocks of whole numbers compare, so that no merge is refused
      have hcount : Time.zero.IsCount := trivial
      have htarget := fun p e he => (hs.arrives edge.target p e he).counts hb hv
      obtain ⟨_, ⟨_, _, hzero, _⟩, _⟩ := ((StateSet.upheld_counts hw rfl hcount).merge htarget
        (hpropagate.of_eq_ok hoffered)).2.of_eq_error hmerge
      cases hzero

theorem visit_accounted {rest : List Nat} (hs : Charted g inv s) (hq : s.queue = v :: rest) :
    Result.Ends (Charted g inv) (Accounted g inv n) (visit g inv s v rest) := by
  have hstart : Charted g inv { s.dequeue v rest with iterations := s.iterations + 1 } := by
    obtain ⟨hsize, hqsize, hflag, hnodup⟩ := hs.shape.dequeue hq
    refine ⟨⟨⟨hsize, hqsize, hflag, hnodup⟩, hs.arrives, hs.sorted⟩, ?_⟩
    intro w hw
    exact hs.queue w (by rw [hq]; exact List.mem_cons_of_mem v hw)
  have hreached := hs.queue v (by rw [hq]; exact List.mem_cons_self)
  have hfold : Result.Ends (fun s₁ => Charted g inv s₁ ∧
      ∀ w, StateSet.Grows (Monitor.ofInvariant inv) (s.set w) (s₁.set w)) (Accounted g inv n)
      (visit g inv s v rest) := by
    refine Result.Ends.foldlM (I := fun _ s₁ => Charted g inv s₁ ∧
      ∀ w, StateSet.Grows (Monitor.ofInvariant inv) (s.set w) (s₁.set w))
      (g.successors v inv.relation) ⟨hstart, fun w => .refl _ _⟩ ?_
    rintro done edge later s₁ hsplit ⟨hs₁, hgrow⟩
    have hedge : edge ∈ g.successors v inv.relation := by simp [hsplit]
    apply (follow_blames hb hv hreached hedge hs₁
      fun p e he => (hs.arrives v p e he).mono hgrow).imp
    · rintro s₂ ⟨hs₂, hgrow₂⟩
      exact ⟨hs₂, fun w => (hgrow w).trans (hgrow₂ w)⟩
    · intro e he
      exact ⟨v, edge, hreached, hedge, he⟩
  exact hfold.imp (fun _ h => h.1) fun _ h => h

theorem seed_charted : ∃ s, seed g inv = .ok s ∧ Charted g inv s := by
  have hw := window_of_validate hb hv
  have hx := (scalar_of_validate hv (.inr ⟨d, n, hb⟩)).exact
  have hfold : Result.Ends (fun s => Sound g inv s ∧ s.queue = g.initialNodes) (fun _ => False)
      (seed g inv) := by
    refine Result.Ends.foldlM (I := fun done s => Sound g inv s ∧ s.queue = done)
      g.initialNodes ⟨blank_sound g inv, rfl⟩ ?_
    rintro done v rest s hsplit ⟨hs, rfl⟩
    have hinit : g.isInitial v = true := Graph.mem_initialNodes.mp (by simp [hsplit])
    have hout : v ∉ s.queue := initialNodes_fresh hsplit
    have hcounts := fun p e he => (hs.arrives v p e he).counts hb hv
    have hcount : Time.zero.IsCount := trivial
    have hbegin := (StateSet.upheld_counts hw rfl hcount).begin hcounts v (g.letter inv v)
    cases hnode : seedNode g inv s v with
    | ok s' =>
      obtain ⟨hs', hqueue, _⟩ := seedNode_ok hx hs hinit hout hnode
      exact ⟨hs', hqueue⟩
    | error e =>
      unfold seedNode at hnode
      split at hnode
      · rename_i hr
        obtain ⟨_, ⟨_, _, hzero, _⟩, _⟩ := hbegin.of_eq_error hr
        cases hzero
      · cases hnode
      · cases hnode
  obtain ⟨s, hseed, hs, hqueue⟩ := hfold.total
  refine ⟨s, hseed, hs, ?_⟩
  intro v hmem
  rw [hqueue] at hmem
  exact ⟨v, Graph.mem_initialNodes.mp hmem, .refl⟩

theorem explore_accounted (limit : Nat) :
    Result.Ends (fun _ => True) (Accounted g inv n) (explore g inv limit) := by
  obtain ⟨s, hseed, hs⟩ := seed_charted hb hv
  simp only [explore, hv, exploreValid, hseed, Result.ok_bind]
  exact run_ends_visits (fun _ _ _ hs hq => visit_accounted hb hv hs hq) hs limit _

end

/-- Exploration that has converged has come to every node that is reached. -/
theorem Converged.found (hs : Converged g inv s) (h : Closure.Reached g inv.relation v) :
    ∃ p e, e ∈ (s.set v).frontier p := by
  obtain ⟨first, hfirst, hops⟩ := h
  induction hops with
  | refl =>
    obtain ⟨p, _, _, e, he, _⟩ := hs.started first hfirst
    exact ⟨p, e, he⟩
  | tail _ hop ih =>
    obtain ⟨p, x, hx⟩ := ih
    obtain ⟨_, ⟨edge, hedge, rfl⟩, _⟩ := hop
    obtain ⟨_, q, _, _, e, he, _⟩ := hs.passed _ edge hedge p x hx
    exact ⟨q, e, he⟩

end Exploration

/-- With a whole bound, exploration without a limit answers only if every edge that leaves a reached
node has a time, and one that is not negative. It is stopped only by an edge that leaves a reached
node, and the error names that edge and what is wrong with it: no time, a negative one, or one that
is out of range when the bound is added. -/
theorem timed_errors_accounted {g : Graph} {inv : Invariant} {d : Direction} {n : Int}
    (hb : inv.bound = some ⟨d, .integer n⟩) (hv : inv.validate g = .ok ()) :
    (∀ f, explore g inv 0 = .ok f → ∀ u, Closure.Reached g inv.relation u →
      ∀ edge ∈ g.successors u inv.relation,
        edge.delta = some .zero ∨ ∃ k, edge.delta = some (.integer k) ∧ 0 ≤ k) ∧
      ∀ e, explore g inv 0 = .error e → ∃ u edge, Closure.Reached g inv.relation u ∧
        edge ∈ g.successors u inv.relation ∧ Exploration.Blames n u edge e := by
  constructor
  · intro f hf u hu edge hedge
    have hx := (Exploration.scalar_of_validate hv (.inr ⟨d, n, hb⟩)).exact
    obtain ⟨_, _, hsample, hfew⟩ := Exploration.exists_sample hx
    have hl := Exploration.explore_limit hx hsample hfew hf
    obtain ⟨s, hs, _⟩ := Exploration.explore_converged hx hf hl
    obtain ⟨p, e, he⟩ := hs.found hu
    obtain ⟨hdelta, _⟩ := hs.passed u edge hedge p e he
    obtain ⟨t, _, ht, hcount⟩ := (Exploration.edgeDelta_ends hb hv hedge).of_eq_ok hdelta
    rw [ht]
    cases t with
    | zero => exact .inl rfl
    | integer k => exact .inr ⟨k, rfl, hcount⟩
    | float x | vector v => cases hcount
  · intro e he
    exact (Exploration.explore_accounted hb hv 0).of_eq_error he

/-- An `a`, one unit later an `x`, and after `delta` a `b`. No route leads to the last node, and the
edge that leaves it has no time. -/
def Graph.strain (delta : Time) : Graph where
  nodes := #[⟨⟨"a"⟩, true, false, #[⟨1, .default, some (.integer 1)⟩]⟩,
    ⟨⟨"x"⟩, false, false, #[⟨2, .default, some delta⟩]⟩, ⟨⟨"b"⟩, false, true, #[]⟩,
    ⟨⟨"x"⟩, false, false, #[⟨2, .default, none⟩]⟩]
  target_lt := by simp

theorem strain_accounted :
    explore (.strain (.integer Whole.greatest)) (.response .upper 5) 0 =
        .error (.time 1 2 .overflow) ∧
      (∃ u edge, Closure.Reached (.strain (.integer Whole.greatest)) .default u ∧
        edge ∈ (Graph.strain (.integer Whole.greatest)).successors u .default ∧
        Exploration.Blames 5 u edge (.time 1 2 .overflow)) ∧
      ∃ f, explore (.strain (.integer 2)) (.response .upper 5) 0 = .ok f ∧
        ∀ u, Closure.Reached (.strain (.integer 2)) .default u →
          ∀ edge ∈ (Graph.strain (.integer 2)).successors u .default,
            edge.delta = some .zero ∨ ∃ k, edge.delta = some (.integer k) ∧ 0 ≤ k := by
  have hlarge : explore (.strain (.integer Whole.greatest)) (.response .upper 5) 0 =
      .error (.time 1 2 .overflow) := by cbv
  have hlimit : (explore (.strain (.integer 2)) (.response .upper 5) 0).map Fixpoint.limit =
      .ok none := by cbv
  obtain ⟨f, hf, _⟩ := Result.map_ok.mp hlimit
  exact ⟨hlarge, (timed_errors_accounted rfl (by cbv)).2 _ hlarge, f, hf,
    (timed_errors_accounted rfl (by cbv)).1 f hf⟩

end EventInvariants
