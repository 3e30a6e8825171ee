import EventInvariants.Proofs.Readings
import EventInvariants.Proofs.Worklist

namespace EventInvariants

namespace Time

/-- Each time is ahead of the other in some direction. -/
def Concurrent (s t : Time) : Prop :=
  (∃ i, s.part i < t.part i) ∧ ∃ i, t.part i < s.part i

theorem concurrent_iff {s t : Time} :
    s.Concurrent t ↔ ¬ ((∀ i, s.part i ≤ t.part i) ∨ ∀ i, t.part i ≤ s.part i) := by
  simp only [Concurrent, not_or, not_forall, Int.not_le]
  exact and_comm

theorem Concurrent.symm {s t : Time} (h : s.Concurrent t) : t.Concurrent s :=
  ⟨h.2, h.1⟩

theorem IsScalar.not_concurrent {s t : Time} (hs : s.IsScalar) (ht : t.IsScalar) :
    ¬ s.Concurrent t := by
  rintro ⟨⟨i, hi⟩, j, hj⟩
  rw [hs.part_const, ht.part_const] at hi hj
  omega

theorem Concurrent.order {s t : Time} (hs : s.isFloat = false) (ht : t.isFloat = false)
    (h : s.Concurrent t) (o : Ordering) : s.order t ≠ .ok o := by
  intro ho
  obtain ⟨hle, hge⟩ := order_part hs ht ho
  apply concurrent_iff.mp h
  cases o with
  | lt | eq => exact .inl (hle.mp (by simp))
  | gt => exact .inr (hge.mp (by simp))

theorem decided_error {s t : Time} {pairs : List (Int × Int)} {cause : TimeError}
    (h : order.decided s t pairs = .error cause) : cause = .incomparable s t := by
  unfold order.decided at h
  split at h
  · cases h
  · cases h
    rfl

theorem InDimension.order_error {n : Nat} {s t : Time} {cause : TimeError} (hs : s.InDimension n)
    (ht : t.InDimension n) (h : s.order t = .error cause) : cause = .incomparable s t := by
  cases s with
  | integer m | float x => cases hs
  | zero =>
    cases t with
    | integer m | float x => cases ht
    | zero => cases h
    | vector w => exact decided_error h
  | vector v =>
    cases t with
    | integer m | float x => cases ht
    | zero => exact decided_error h
    | vector w =>
      have hl : v.length = w.length := hs.trans ht.symm
      simp only [Time.order, hl, ne_eq, not_true_eq_false, if_false] at h
      exact decided_error h

/-- Times that compare with one bound, of whole numbers or a vector, are concurrent if they do not
compare with each other. -/
theorem order_error {b s t : Time} {o o' : Ordering} {cause : TimeError}
    (hb : (∃ n, b = .integer n) ∨ ∃ v, b = .vector v) (hs : s.order b = .ok o)
    (ht : t.order b = .ok o') (h : s.order t = .error cause) :
    s.Concurrent t ∧ cause = .incomparable s t := by
  constructor
  · rw [concurrent_iff]
    intro hle
    obtain ⟨o, ho⟩ := order_total hb hs ht hle
    rw [ho] at h
    cases h
  · rcases hb with ⟨n, rfl⟩ | ⟨v, rfl⟩
    · obtain ⟨o, ho⟩ := (scalar_of_order hs).order (scalar_of_order ht)
      rw [ho] at h
      cases h
    · exact (inDimension_of_order hs).order_error (inDimension_of_order ht) h

end Time

theorem Bound.settle_ne_idle {w : Bound} {t : Time} {c : Clock} (h : w.settle t = .ok c) :
    c ≠ .idle := by
  obtain ⟨o, _, rfl⟩ := settle_ok h
  split <;> simp

theorem Bound.advance_idle {w : Bound} {delta : Time} {c c' : Clock}
    (h : w.advance delta c = .ok c') : c' = .idle ↔ c = .idle := by
  cases c with
  | idle | saturated =>
    cases h
    rfl
  | running s =>
    obtain ⟨t, _, h⟩ := Result.bind_ok.mp h
    simp [settle_ne_idle h]

namespace Monitor
variable {m : Monitor} {p q : Phase} {c c' x y : Clock} {l : Letter} {w : Bound}

/-- The states in which a bounded invariant measures time. -/
def isTiming (m : Monitor) : Phase → Bool
  | .seen | .matched => m.isTimed
  | .start | .failed => false

theorem table_idle (hc : c = .idle ↔ m.isTiming p = false) (h : m.table p c l = .ok (q, c')) :
    c' = .idle ↔ m.isTiming q = false := by
  have hrestart {w : Bound} (hw : m.window = some w) (h : restart w = .ok (q, c')) :
      c' = .idle ↔ m.isTiming q = false := by
    obtain ⟨rfl, hstart⟩ := restart_ok.mp h
    simp [Bound.settle_ne_idle hstart, isTiming, isTimed, hw]
  cases m with
  | followedBy | neverFollowedBy | precedes =>
    simp only [table, Result.bind_ok] at h
    obtain ⟨r, _, h⟩ := h
    cases h
    cases q <;> simp [isTiming, isTimed, window]
  | timedFollowedBy w =>
    cases p <;> simp only [table, enterTimedFollowedBy] at h
    all_goals repeat' first | split at h | cases h
    all_goals first
      | exact hrestart rfl h
      | simp_all [isTiming]
  | timedPrecedes w =>
    cases p <;> simp only [table, enterTimedPrecedes] at h
    all_goals repeat' first | split at h | cases h
    all_goals first
      | exact hrestart rfl h
      | simp_all [isTiming]

theorem enter_idle (hc : c = .idle ↔ m.isTiming p = false) (h : m.enter p c l = .ok (q, c')) :
    c' = .idle ↔ m.isTiming q = false := by
  obtain ⟨r, b, hr, h⟩ := enter_ok h
  rcases h with ⟨_, _, _, rfl, rfl⟩ | ⟨_, rfl, rfl⟩
  · simp [isTiming]
  · exact table_idle hc hr

theorem advance_idle {delta : Time} (h : m.advance c delta = .ok c') :
    c' = .idle ↔ c = .idle := by
  unfold advance at h
  split at h
  · exact Bound.advance_idle (lift_ok.mp h)
  · cases h
    rfl

/-- A clock that state `p` can have. -/
structure Carries (m : Monitor) (p : Phase) (c : Clock) : Prop where
  exact : c.IsExact
  settled : ∀ w, m.window = some w → c.IsSettled w
  idle : c = .idle ↔ m.isTiming p = false

theorem Carries.initial (h : m.initial l = .ok (q, c')) : m.Carries q c' where
  exact := enter_exact (c := .idle) trivial h
  settled _ hw := enter_settled hw (c := .idle) trivial h
  idle := enter_idle (p := .start) (c := .idle) (by simp [isTiming]) h

theorem Carries.step {delta : Time} (hd : m.window ≠ none → delta.isFloat = false)
    (hc : m.Carries p c) (h : m.step p c l delta = .ok (q, c')) : m.Carries q c' where
  exact := (moves_of_step hd hc.exact h).exact hc.exact
  settled w hw := step_settled hw (hc.settled w hw) h
  idle := by
    obtain ⟨b, hb, henter⟩ := Result.bind_ok.mp h
    exact enter_idle ((advance_idle hb).trans hc.idle) henter

theorem Carries.timed {s : Time} (h : m.Carries p (.running s)) : m.window ≠ none := by
  intro hw
  have htiming : m.isTiming p = false := by cases p <;> simp [isTiming, isTimed, hw]
  have := h.idle.mpr htiming
  cases this

/-- Of clocks that are both idle or both not, only times can fail to compare. -/
theorem severity_cases (m : Monitor) (hidle : x = .idle ↔ y = .idle) :
    (∃ o, m.severity x y = .ok o) ∨ ∃ s t cause, x = .running s ∧ y = .running t ∧
      s.order t = .error cause ∧ m.severity x y = .error (.time cause) := by
  cases hw : m.window with
  | none => exact .inl ⟨.eq, severity_untimed hw x y⟩
  | some w =>
    cases x with
    | idle =>
      obtain rfl := hidle.mp rfl
      cases hd : w.direction <;> simp [Monitor.severity, hw, hd]
    | saturated => cases y <;> cases hd : w.direction <;> simp_all [Monitor.severity]
    | running s =>
      cases y with
      | idle => simp at hidle
      | saturated => cases hd : w.direction <;> simp [Monitor.severity, hw, hd]
      | running t =>
        cases hst : s.order t with
        | ok o => cases hd : w.direction <;> simp [Monitor.severity, hw, hd, hst, Fault.lift]
        | error cause =>
          refine .inr ⟨s, t, cause, rfl, rfl, hst, ?_⟩
          simp [Monitor.severity, hw, hst, Fault.lift]

/-- Two clocks of one state compare unless both show times, which are concurrent. -/
theorem Carries.severity (hx : m.Carries p x) (hy : m.Carries p y)
    (hb : ∀ w, m.window = some w → (∃ n, w.value = .integer n) ∨ ∃ v, w.value = .vector v) :
    (∃ o, m.severity x y = .ok o) ∨ ∃ s t, x = .running s ∧ y = .running t ∧ s.Concurrent t ∧
      m.severity x y = .error (.time (.incomparable s t)) := by
  rcases severity_cases m (hx.idle.trans hy.idle.symm) with hok | ⟨s, t, cause, rfl, rfl, hst, hsev⟩
  · exact .inl hok
  · obtain ⟨w, hw⟩ := Option.ne_none_iff_exists'.mp hx.timed
    obtain ⟨_, ho, _⟩ := Bound.settled_order (hx.settled w hw)
    obtain ⟨_, ho', _⟩ := Bound.settled_order (hy.settled w hw)
    obtain ⟨hconc, rfl⟩ := Time.order_error (hb w hw) ho ho' hst
    exact .inr ⟨s, t, rfl, rfl, hconc, hsev⟩

theorem Carries.not_concurrent {s t : Time} {o : Ordering} (hx : m.Carries p (.running s))
    (hy : m.Carries p (.running t)) (h : m.severity (.running s) (.running t) = .ok o) :
    ¬ s.Concurrent t := by
  obtain ⟨w, hw⟩ := Option.ne_none_iff_exists'.mp hx.timed
  obtain ⟨o', ho', _⟩ := severity_running hw h
  exact fun hconc => hconc.order hx.exact hy.exact o' ho'

theorem Carries.not_concurrent_scalar {s t : Time} (hx : m.Carries p (.running s))
    (hy : m.Carries p (.running t)) (hb : ∀ w, m.window = some w → ∃ n, w.value = .integer n) :
    ¬ s.Concurrent t := by
  obtain ⟨w, hw⟩ := Option.ne_none_iff_exists'.mp hx.timed
  obtain ⟨n, hn⟩ := hb w hw
  obtain ⟨_, hs, _⟩ := Bound.settled_order (hx.settled w hw)
  obtain ⟨_, ht, _⟩ := Bound.settled_order (hy.settled w hw)
  rw [hn] at hs ht
  exact (Time.scalar_of_order hs).not_concurrent (Time.scalar_of_order ht)

theorem Carries.severity_symm (hx : m.Carries p x) (hy : m.Carries p y)
    (hb : ∀ w, m.window = some w → (∃ n, w.value = .integer n) ∨ ∃ v, w.value = .vector v)
    (h : ∃ o, m.severity x y = .ok o) : ∃ o, m.severity y x = .ok o := by
  rcases hy.severity hx hb with hok | ⟨t, s, rfl, rfl, hconc, _⟩
  · exact hok
  · obtain ⟨o, ho⟩ := h
    exact absurd hconc.symm (hx.not_concurrent hy ho)

end Monitor

namespace Exploration
variable {g : Graph} {inv : Invariant} {p : Phase} {e : Entry}

theorem Arrives.carries {σ : Nat → StateSet} {v : Nat} (hx : Exact g inv)
    (h : Arrives g inv σ v p e) : (Monitor.ofInvariant inv).Carries p e.clock := by
  induction h with
  | start _ hread => exact .initial hread
  | next _ hedge _ hstep _ ih => exact ih.step (fun hw => hx.delta hw _ _ hedge) hstep

theorem propagate_carries {known offered : StateSet} {u : Nat} {edge : Edge} (hx : Exact g inv)
    (hknown : ∀ p, ∀ e ∈ known.frontier p, (Monitor.ofInvariant inv).Carries p e.clock)
    (hedge : edge ∈ g.successors u inv.relation)
    (h : propagate g inv u known edge = .ok offered) (he : e ∈ offered.frontier p) :
    (Monitor.ofInvariant inv).Carries p e.clock := by
  have hdelta := fun hw => hx.delta hw u edge hedge
  obtain ⟨_, hfrom, _⟩ := StateSet.transition_spec (fun p e he => (hknown p e he).exact) hdelta
    (propagate_ok h).2
  obtain ⟨q, x, hmem, c, hstep, rfl⟩ := hfrom p e he
  exact (hknown q x hmem).step hdelta hstep

end Exploration
end EventInvariants
