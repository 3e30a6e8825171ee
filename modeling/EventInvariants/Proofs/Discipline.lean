import EventInvariants.Proofs.Built
import EventInvariants.Proofs.Verdict
import EventInvariants.Proofs.Progress
import EventInvariants.Proofs.Concurrency

namespace EventInvariants

def Fault.IsTime (fault : Fault) : Prop :=
  ∃ cause, fault = .time cause

theorem Fault.isTime_of_lift {α : Type} {x : Except TimeError α} {fault : Fault}
    (h : Fault.lift x = .error fault) : fault.IsTime := by
  cases x with
  | ok a => cases h
  | error cause => exact ⟨cause, (Except.error.inj h).symm⟩

namespace Monitor
variable {m : Monitor} {p : Phase} {c x y : Clock}

/-- The state is one of the monitor's, and the clock is idle unless the state measures time. -/
structure Suits (m : Monitor) (p : Phase) (c : Clock) : Prop where
  phase : p ∈ m.phases
  idle : c = .idle ↔ m.isTiming p = false

theorem index_lt (hp : p ∈ m.phases) : m.index p < m.phases.length :=
  List.idxOf_lt_length_iff.mpr hp

theorem Suits.enter (h : m.Suits p c) (l : Letter) :
    Result.Ends (fun r => m.Suits r.1 r.2) Fault.IsTime (m.enter p c l) := by
  have hends := enter_ends h.phase c l
  cases henter : m.enter p c l with
  | ok r => exact ⟨hends.of_eq_ok henter, enter_idle h.idle henter⟩
  | error fault =>
    obtain ⟨_, cause, _, _, hfault⟩ := hends.of_eq_error henter
    exact ⟨cause, hfault⟩

theorem Suits.initial (m : Monitor) (l : Letter) :
    Result.Ends (fun r => m.Suits r.1 r.2) Fault.IsTime (m.initial l) := by
  apply Suits.enter
  exact ⟨start_mem_phases m, by simp [isTiming]⟩

theorem Suits.step (h : m.Suits p c) (l : Letter) (delta : Time) :
    Result.Ends (fun r => m.Suits r.1 r.2) Fault.IsTime (m.step p c l delta) := by
  have hadvance : Result.Ends (m.Suits p) Fault.IsTime (m.advance c delta) := by
    cases hb : m.advance c delta with
    | ok b => exact ⟨h.phase, (advance_idle hb).trans h.idle⟩
    | error fault =>
      unfold advance at hb
      split at hb
      · exact Fault.isTime_of_lift hb
      · cases hb
  apply hadvance.bind
  intro b hb
  exact hb.enter l

/-- Clocks of one state are both idle or neither is. -/
theorem Suits.severity (hx : m.Suits p x) (hy : m.Suits p y) :
    Result.Ends (fun _ => True) Fault.IsTime (m.severity x y) := by
  rcases severity_cases m (hx.idle.trans hy.idle.symm) with ⟨o, ho⟩ | ⟨_, _, cause, _, _, _, hsev⟩
  · rw [ho]
    trivial
  · rw [hsev]
    exact ⟨cause, rfl⟩

end Monitor

namespace StateSet
variable {m : Monitor} {s : StateSet}

theorem upheld_suits (m : Monitor) : Upheld m (fun _ => True) m.Suits Fault.IsTime
    (fun s => ∀ p, ∀ e ∈ s.frontier p, m.Suits p e.clock) := by
  apply upheld_clocks
  · exact Monitor.Suits.initial m
  · intro p c l delta hc _
    exact hc.step l _
  · intro p x y hx hy
    exact hx.severity hy

theorem Built.suits (h : s.Built m (fun _ => True)) :
    ∀ p, ∀ e ∈ s.frontier p, m.Suits p e.clock :=
  (upheld_suits m).built h

theorem Built.begin_ends (h : s.Built m (fun _ => True)) (v : Nat) (l : Letter) :
    Result.Ends (fun r => (r.getD s).Built m (fun _ => True)) Fault.IsTime (s.begin? m v l) := by
  cases hr : s.begin? m v l with
  | ok r => exact .begin h hr
  | error fault => exact ((upheld_suits m).begin h.suits v l).of_eq_error hr

theorem Built.transition_ends (h : s.Built m (fun _ => True)) (v : Nat) (l : Letter)
    (delta : Option Time) :
    Result.Ends (Built m (fun _ => True)) Fault.IsTime (s.transition m v l delta) := by
  cases hr : s.transition m v l delta with
  | ok t => exact .transition h (fun _ _ => trivial) hr
  | error fault =>
    exact ((upheld_suits m).transition h.suits (fun _ _ => trivial) v l).of_eq_error hr

end StateSet

namespace Exploration
variable {g : Graph} {inv : Invariant} {s s' : State} {u v : Nat} {known : StateSet} {edge : Edge}

/-- There is a place for each node, and the sets are made by operations. -/
structure Orderly (g : Graph) (inv : Invariant) (s : State) : Prop where
  shape : Shape g s
  built : ∀ v, (s.set v).Built (Monitor.ofInvariant inv) (fun _ => True)

theorem Orderly.write {t : StateSet} (h : Orderly g inv s) (hv : v < g.size)
    (ht : t.Built (Monitor.ofInvariant inv) (fun _ => True)) :
    Orderly g inv { s with sets := s.sets.setIfInBounds v t } where
  shape := h.shape.write v t
  built w := by
    rw [set_write h.shape.sets_size hv]
    split
    · exact ht
    · exact h.built w

theorem Orderly.enqueue (h : Orderly g inv s) (hv : v < g.size) (hout : v ∉ s.queue) :
    Orderly g inv (s.enqueue v) where
  shape := h.shape.enqueue hv hout
  built := h.built

theorem ofFault_ne_broken (source target : Nat) {fault : Fault} (h : fault.IsTime) :
    CheckError.ofFault source target fault ≠ .broken := by
  obtain ⟨cause, rfl⟩ := h
  simp [CheckError.ofFault]

theorem propagate_ends (hknown : known.Built (Monitor.ofInvariant inv) (fun _ => True)) (u : Nat)
    (edge : Edge) : Result.Ends (StateSet.Built (Monitor.ofInvariant inv) (fun _ => True))
      (· ≠ .broken) (propagate g inv u known edge) := by
  have hdelta : Result.Ends (fun _ => True) (· ≠ .broken) (edgeDelta inv u edge) := by
    unfold edgeDelta
    repeat' split
    all_goals simp
  apply hdelta.bind
  intro delta _
  apply (hknown.transition_ends edge.target (g.letter inv edge.target) delta).mapError
  intro fault hfault
  exact ofFault_ne_broken u edge.target hfault

theorem follow_ends (hs : Orderly g inv s)
    (hknown : known.Built (Monitor.ofInvariant inv) (fun _ => True))
    (hedge : edge ∈ g.successors u inv.relation) :
    Result.Ends (Orderly g inv) (· ≠ .broken) (follow g inv u known s edge) := by
  have hlt := Graph.successors_target_lt hedge
  apply (propagate_ends hknown u edge).bind
  intro offered hoffered
  have hmerged := StateSet.Built.merge (hs.built edge.target) hoffered
  have hfault := ((StateSet.upheld_suits _).merge (hs.built edge.target).suits hoffered.suits).2
  dsimp only
  split
  · rename_i hmerge
    exact ofFault_ne_broken u edge.target (hfault.of_eq_error (by rw [hmerge]))
  · rename_i merged improved hmerge
    rw [hmerge] at hmerged
    have hwrite := hs.write hlt hmerged
    split
    · rename_i hq
      apply hwrite.enqueue hlt
      rw [Bool.and_eq_true, Bool.not_eq_true', ← Bool.not_eq_true] at hq
      exact fun hin => hq.2 ((hwrite.shape.flag edge.target).mpr hin)
    · exact hwrite

theorem visit_ends {rest : List Nat} (hs : Orderly g inv s) (hq : s.queue = v :: rest) :
    Result.Ends (Orderly g inv) (· ≠ .broken) (visit g inv s v rest) := by
  have hstart : Orderly g inv { s.dequeue v rest with iterations := s.iterations + 1 } := by
    obtain ⟨hsize, hqsize, hflag, hnodup⟩ := hs.shape.dequeue hq
    exact ⟨⟨hsize, hqsize, hflag, hnodup⟩, hs.built⟩
  refine Result.Ends.foldlM (I := fun _ => Orderly g inv) (g.successors v inv.relation) hstart ?_
  intro done edge later s₁ hsplit hs₁
  exact follow_ends hs₁ (hs.built v) (by simp [hsplit])

theorem seedNode_ends (hs : Orderly g inv s) (hv : v < g.size) (hout : v ∉ s.queue) :
    Result.Ends (fun s' => Orderly g inv s' ∧ s'.queue = s.queue ++ [v]) (· ≠ .broken)
      (seedNode g inv s v) := by
  have hbegin := (hs.built v).begin_ends v (g.letter inv v)
  unfold seedNode
  split
  · rename_i hr
    exact ofFault_ne_broken v v (hbegin.of_eq_error hr)
  · exact ⟨hs.enqueue hv hout, rfl⟩
  · rename_i t hr
    have ht : t.Built (Monitor.ofInvariant inv) (fun _ => True) := hbegin.of_eq_ok hr
    exact ⟨(hs.write hv ht).enqueue hv hout, rfl⟩

theorem seed_ends (g : Graph) (inv : Invariant) :
    Result.Ends (Orderly g inv) (· ≠ .broken) (seed g inv) := by
  have hblank : Orderly g inv (blank g) := by
    refine ⟨(blank_sound g inv).shape, fun v => ?_⟩
    rw [blank_set]
    exact .empty
  have hfold : Result.Ends (fun s => Orderly g inv s ∧ s.queue = g.initialNodes) (· ≠ .broken)
      (seed g inv) := by
    refine Result.Ends.foldlM (I := fun done s => Orderly g inv s ∧ s.queue = done)
      g.initialNodes ⟨hblank, rfl⟩ ?_
    rintro done v rest s hsplit ⟨hs, rfl⟩
    have hv : v < g.size := Graph.isInitial_lt (Graph.mem_initialNodes.mp (by simp [hsplit]))
    exact seedNode_ends hs hv (initialNodes_fresh hsplit)
  exact hfold.imp (fun _ h => h.1) fun _ h => h

theorem run_ends_visits {I : State → Prop} {bad : CheckError → Prop}
    (hvisit : ∀ s v rest, I s → s.queue = v :: rest → Result.Ends I bad (visit g inv s v rest))
    (hs : I s) (limit fuel : Nat) : Result.Ends (fun _ => True) bad (run g inv limit fuel s) := by
  induction fuel generalizing s with
  | zero => trivial
  | succ fuel ih =>
    rw [run]
    split
    · trivial
    · rename_i v rest hq
      split
      · trivial
      · apply (hvisit s v rest hs hq).bind
        intro s' hs'
        exact ih hs'

/-- However many visits follow each other, the state stays orderly. -/
theorem visits_orderly (hs : Orderly g inv s) (h : Relation.ReflTransGen (Visits g inv) s s') :
    Orderly g inv s' := by
  induction h with
  | refl => exact hs
  | tail _ hvisits ih =>
    obtain ⟨v, rest, hq, hvisit⟩ := hvisits
    exact (visit_ends ih hq).of_eq_ok hvisit

theorem explore_ends_orderly (g : Graph) (inv : Invariant) (limit : Nat) :
    Result.Ends (fun _ => True) (· ≠ .broken) (explore g inv limit) := by
  unfold explore
  split
  · simp
  · apply (seed_ends g inv).bind
    intro s hs
    exact run_ends_visits (fun _ _ _ hs hq => visit_ends hs hq) hs limit _

end Exploration

/-- The situations that monitors rule out never come up, whatever the bound is and whatever times
are read. In every set the states are the monitor's own, those that measure no time have idle clocks
and the others have clocks that run or are saturated, so that an operation can fail only on times;
and exploration neither fails in another way nor leaves the graph's nodes. -/
theorem monitor_never_broken (inv : Invariant) :
    (∀ v l fault, StateSet.initial (Monitor.ofInvariant inv) v l = .error fault → fault.IsTime) ∧
      (∀ s : StateSet, s.Built (Monitor.ofInvariant inv) (fun _ => True) →
        (∀ p, p = .start ∨ p = .failed → ∀ e ∈ s.frontier p, e.clock = .idle) ∧
        ((Monitor.ofInvariant inv).isTimed = true → ∀ p, p = .seen ∨ p = .matched →
          ∀ e ∈ s.frontier p, e.clock = .saturated ∨ ∃ t, e.clock = .running t) ∧
        (∀ p, s.frontier p ≠ [] →
          (Monitor.ofInvariant inv).index p < (Monitor.ofInvariant inv).phases.length) ∧
        (∀ v l fault, s.begin? (Monitor.ofInvariant inv) v l = .error fault → fault.IsTime) ∧
        (∀ v l delta fault, s.transition (Monitor.ofInvariant inv) v l delta = .error fault →
          fault.IsTime) ∧
        ∀ t : StateSet, t.Built (Monitor.ofInvariant inv) (fun _ => True) →
          ∀ fault, (s.merge (Monitor.ofInvariant inv) t).2 = .error fault → fault.IsTime) ∧
      ∀ g : Graph, g.size ≤ 2 ^ 32 →
        (∀ limit, explore g inv limit ≠ .error .broken) ∧
        ∀ s₀ s, Exploration.seed g inv = .ok s₀ →
          Relation.ReflTransGen (Exploration.Visits g inv) s₀ s →
          s.sets.size = g.size ∧ s.queued.size = g.size ∧
            ∀ v ∈ s.queue, v < g.size ∧ Node.place v = v ∧
              ∀ edge ∈ g.successors v inv.relation,
                edge.target < g.size ∧ Node.place edge.target = edge.target := by
  have hup := StateSet.upheld_suits (Monitor.ofInvariant inv)
  refine ⟨fun v l fault h => (hup.initial v l).of_eq_error h, ?_, ?_⟩
  · intro s hs
    refine ⟨?_, ?_, ?_, ?_, ?_, ?_⟩
    · intro p hp e he
      apply (hs.suits p e he).idle.mpr
      rcases hp with rfl | rfl <;> rfl
    · intro ht p hp e he
      have hidle := (hs.suits p e he).idle
      cases hc : e.clock with
      | saturated => exact .inl rfl
      | running t => exact .inr ⟨t, rfl⟩
      | idle =>
        have hnot := hidle.mp hc
        rcases hp with rfl | rfl <;> simp [Monitor.isTiming, ht] at hnot
    · intro p hne
      obtain ⟨e, he⟩ := List.exists_mem_of_ne_nil _ hne
      exact Monitor.index_lt (hs.suits p e he).phase
    · exact fun v l fault h => (hs.begin_ends v l).of_eq_error h
    · exact fun v l delta fault h => (hs.transition_ends v l delta).of_eq_error h
    · exact fun t ht fault h => (hup.merge hs.suits ht.suits).2.of_eq_error h
  · intro g hg
    have hplace : ∀ v, v < g.size → Node.place v = v :=
      fun v hv => Nat.mod_eq_of_lt (Nat.lt_of_lt_of_le hv hg)
    constructor
    · intro limit h
      exact (Exploration.explore_ends_orderly g inv limit).of_eq_error h rfl
    · intro s₀ s hseed hvisits
      have hs := Exploration.visits_orderly ((Exploration.seed_ends g inv).of_eq_ok hseed) hvisits
      refine ⟨hs.shape.sets_size, hs.shape.queued_size, ?_⟩
      intro v hv
      have hlt := hs.shape.lt hv
      refine ⟨hlt, hplace v hlt, fun edge hedge => ?_⟩
      have htarget := Graph.successors_target_lt hedge
      exact ⟨htarget, hplace _ htarget⟩

/-- A bound below zero is over as soon as it is measured. -/
theorem negative_bound_disciplined :
    ∃ s : StateSet, s.Built (.ofInvariant (.response .upper (-1))) (fun _ => True) ∧
      s.seen.map Entry.clock = [.saturated] ∧
      (∀ v l delta fault, s.transition (.ofInvariant (.response .upper (-1))) v l delta =
        .error fault → fault.IsTime) ∧
      (∀ fault, (s.merge (.ofInvariant (.response .upper (-1))) s).2 = .error fault →
        fault.IsTime) ∧
      Graph.loop.size ≤ 2 ^ 32 ∧ ∀ limit, explore .loop (.response .upper 3) limit ≠
        .error .broken := by
  have hrun : (do
      let s ← StateSet.initial (.ofInvariant (.response .upper (-1))) 0 ⟨true, false, false⟩
      return s.seen.map Entry.clock) = .ok [.saturated] := by cbv
  obtain ⟨s, hs, hseen⟩ := Result.bind_ok.mp hrun
  have hbuilt : s.Built (.ofInvariant (.response .upper (-1))) (fun _ => True) := .initial hs
  obtain ⟨_, _, _, _, htransition, hmerge⟩ := (monitor_never_broken _).2.1 s hbuilt
  exact ⟨s, hbuilt, Except.ok.inj hseen, htransition, hmerge s hbuilt, by decide,
    ((monitor_never_broken _).2.2 .loop (by decide)).1⟩

end EventInvariants
