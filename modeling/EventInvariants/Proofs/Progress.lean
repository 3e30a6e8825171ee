import EventInvariants.Proofs.Run

namespace EventInvariants

namespace Monitor
variable {m : Monitor} {p : Phase}

/-- The one fault with which a letter can stop a monitor: its clock does not start. -/
def StartFault (m : Monitor) (fault : Fault) : Prop :=
  ∃ w cause, m.window = some w ∧ w.start = .error cause ∧ fault = .time cause

theorem restart_ends {w : Bound} (hw : m.window = some w) (hm : .seen ∈ m.phases) :
    Result.Ends (fun r => r.1 ∈ m.phases) m.StartFault (restart w) := by
  unfold restart
  cases hstart : w.start with
  | ok c => exact hm
  | error cause => exact ⟨w, cause, hw, hstart, rfl⟩

/-- In every state that the monitor has, the tables answer with such a state. -/
theorem table_ends (hp : p ∈ m.phases) (c : Clock) (l : Letter) :
    Result.Ends (fun r => r.1 ∈ m.phases) m.StartFault (m.table p c l) := by
  obtain ⟨a, b, terminal⟩ := l
  cases m with
  | followedBy | neverFollowedBy | precedes =>
    cases p with
    | matched => simp [phases] at hp
    | start | seen | failed =>
      cases a <;> cases b <;>
        simp [table, enterFollowedBy, enterNeverFollowedBy, enterPrecedes, phases]
  | timedFollowedBy w =>
    have hrestart := restart_ends (m := .timedFollowedBy w) rfl (by simp [phases])
    simp only [table]
    cases p with
    | matched => simp [phases] at hp
    | start | seen | failed =>
      simp only [enterTimedFollowedBy]
      repeat' split
      all_goals first
        | exact hrestart
        | simp [phases]
  | timedPrecedes w =>
    have hrestart := restart_ends (m := .timedPrecedes w) rfl (by simp [phases])
    simp only [table]
    cases p with
    | start | seen | matched | failed =>
      simp only [enterTimedPrecedes]
      repeat' split
      all_goals first
        | exact hrestart
        | simp [phases]

theorem start_mem_phases (m : Monitor) : .start ∈ m.phases := by
  cases m <;> simp [phases]

theorem failed_mem_phases (m : Monitor) : .failed ∈ m.phases := by
  cases m <;> simp [phases]

theorem enter_ends (hp : p ∈ m.phases) (c : Clock) (l : Letter) :
    Result.Ends (fun r => r.1 ∈ m.phases) m.StartFault (m.enter p c l) := by
  apply (table_ends hp c l).bind
  rintro ⟨q, c'⟩ hq
  dsimp only
  split
  · exact failed_mem_phases m
  · exact hq

theorem enter_total (hm : ∀ w, m.window = some w → ∃ b, w.start = .ok b) (hp : p ∈ m.phases)
    (c : Clock) (l : Letter) : ∃ q c', m.enter p c l = .ok (q, c') ∧ q ∈ m.phases := by
  have hends := enter_ends hp c l
  cases henter : m.enter p c l with
  | ok r => exact ⟨r.1, r.2, rfl, hends.of_eq_ok henter⟩
  | error fault =>
    obtain ⟨w, cause, hw, hstart, _⟩ := hends.of_eq_error henter
    obtain ⟨b, hb⟩ := hm w hw
    rw [hstart] at hb
    cases hb

theorem step_total (hm : m.window = none) (hp : p ∈ m.phases) (c : Clock) (l : Letter)
    (delta : Time) : ∃ q c', m.step p c l delta = .ok (q, c') ∧ q ∈ m.phases := by
  simp only [step, advance, hm, Result.ok_bind]
  exact enter_total (by simp [hm]) hp c l

/-- Without a bound every path can be run through, and no clock runs. -/
theorem run_total (g : Graph) (inv : Invariant) (hw : m.window = none) (path : Path) :
    ∃ p, m.run g inv path = .ok (p, .idle) ∧ p ∈ m.phases := by
  induction path using List.reverseRecOn with
  | nil => exact ⟨.start, rfl, start_mem_phases m⟩
  | append_singleton path s ih =>
    obtain ⟨p, hp, hmem⟩ := ih
    obtain ⟨q, c, hq, hmem⟩ := step_total hw hmem .idle (g.letter inv s.node) (s.delta.getD .zero)
    have hc : c = .idle := by
      simp only [step, advance, hw, Result.ok_bind] at hq
      exact enter_keeps (P := fun c => c = .idle) rfl (by simp [hw]) rfl hq
    rw [hc] at hq
    exact ⟨q, by rw [run_append, hp]; exact hq, hmem⟩

theorem run_idle {g : Graph} {inv : Invariant} (hw : m.window = none) {path : Path} {c : Clock}
    (h : m.run g inv path = .ok (p, c)) : c = .idle := by
  obtain ⟨q, hq, _⟩ := run_total g inv hw path
  rw [h, Except.ok.injEq, Prod.mk.injEq] at hq
  exact hq.2

end Monitor

def Clock.IsScalar : Clock → Prop
  | .running s => s.IsScalar
  | _ => True

namespace Bound
variable {w : Bound}

theorem settle_total {s : Time} (hw : w.value.IsScalar) (hs : s.IsScalar) :
    ∃ c, w.settle s = .ok c ∧ c.IsScalar := by
  obtain ⟨o, ho⟩ := hs.order hw
  simp only [settle, ho, Result.ok_bind]
  split
  · exact ⟨.saturated, rfl, trivial⟩
  · exact ⟨.running s, rfl, hs⟩

theorem advances_total {delta : Time} {c : Clock} (hw : w.value.IsScalar) (hd : delta.IsScalar)
    (hc : c.IsScalar) : ∃ c', w.Advances delta c c' ∧ c'.IsScalar := by
  cases c with
  | idle | saturated => exact ⟨_, rfl, trivial⟩
  | running s =>
    obtain ⟨c', hset, hc'⟩ :=
      settle_total (s := .integer (s.part 0 + delta.part 0)) hw trivial
    refine ⟨c', ⟨_, rfl, ?_, hset⟩, hc'⟩
    intro i
    rw [Time.IsScalar.part_const hc i, hd.part_const i]
    rfl

end Bound

namespace Monitor
variable {m : Monitor}

def IsScalar (m : Monitor) : Prop :=
  ∀ w, m.window = some w → w.value.IsScalar

theorem IsScalar.exact (hm : m.IsScalar) : m.IsExact :=
  fun w hw => (hm w hw).not_float

theorem IsScalar.start (hm : m.IsScalar) : ∀ w, m.window = some w → ∃ b, w.start = .ok b := by
  intro w hw
  obtain ⟨b, hb, _⟩ := Bound.settle_total (s := .zero) (hm w hw) trivial
  exact ⟨b, hb⟩

theorem enter_scalar {p q : Phase} {c c' : Clock} {l : Letter} (hc : c.IsScalar)
    (h : m.enter p c l = .ok (q, c')) : c'.IsScalar := by
  refine enter_keeps trivial ?_ hc h
  intro w b _ hs
  obtain ⟨o, _, rfl⟩ := Bound.settle_ok hs
  split <;> trivial

/-- Under a whole bound every trace can be run through, if sums are never refused. -/
theorem runs_total (hm : m.IsScalar) {t : Trace}
    (ht : m.window ≠ none → ∀ k, (t.delta (k + 1)).IsScalar) (k : Nat) :
    ∃ p c, m.Runs t k p c ∧ p ∈ m.phases ∧ c.IsScalar := by
  induction k with
  | zero =>
    obtain ⟨p, c, h, hp⟩ := enter_total hm.start (start_mem_phases m) .idle (t.letter 0)
    exact ⟨p, c, .first h, hp, enter_scalar (c := .idle) trivial h⟩
  | succ k ih =>
    obtain ⟨p, c, hrun, hp, hc⟩ := ih
    obtain ⟨b, hb, hbs⟩ : ∃ b, m.Advances (t.delta (k + 1)) c b ∧ b.IsScalar := by
      unfold Advances
      cases hw : m.window with
      | none => exact ⟨c, rfl, hc⟩
      | some w => exact Bound.advances_total (hm w hw) (ht (by simp [hw]) k) hc
    obtain ⟨q, c', h, hq⟩ := enter_total hm.start hp b (t.letter (k + 1))
    exact ⟨q, c', .next hrun ⟨b, hb, h⟩, hq, enter_scalar hbs h⟩

end Monitor
end EventInvariants
