import EventInvariants.Proofs.Severity

namespace EventInvariants

/-- The clock after `delta`, its time being the exact sum. -/
def Bound.Advances (w : Bound) (delta : Time) : Clock → Clock → Prop
  | .running s, c =>
    ∃ t : Time, t.isFloat = false ∧ (∀ i, t.part i = s.part i + delta.part i) ∧ w.settle t = .ok c
  | c, c' => c' = c

namespace Monitor

def Advances (m : Monitor) (delta : Time) (c c' : Clock) : Prop :=
  match m.window with
  | some w => w.Advances delta c c'
  | none => c' = c

/-- The monitor goes from one state and clock to others over an edge that takes `delta`, reading
the letter that the edge leads to. -/
def Moves (m : Monitor) (p : Phase) (c : Clock) (l : Letter) (delta : Time) (q : Phase)
    (c' : Clock) : Prop :=
  ∃ b, m.Advances delta c b ∧ m.enter p b l = .ok (q, c')

theorem lift_ok {α : Type} {x : Except TimeError α} {a : α} :
    Fault.lift x = .ok a ↔ x = .ok a := by
  cases x <;> simp [Fault.lift]

theorem advances_of_advance {m : Monitor} {c c' : Clock} {delta : Time}
    (hd : m.window ≠ none → delta.isFloat = false) (hc : c.IsExact)
    (h : m.advance c delta = .ok c') : m.Advances delta c c' := by
  unfold Advances
  unfold advance at h
  cases hm : m.window with
  | none =>
    simp only [hm, Except.ok.injEq] at h
    exact h.symm
  | some w =>
    simp only [hm] at h
    rw [lift_ok] at h
    cases c with
    | idle | saturated =>
      cases h
      rfl
    | running s =>
      simp only [Bound.advance, Result.bind_ok] at h
      obtain ⟨t, ht, h⟩ := h
      obtain ⟨hf, hsum⟩ := Time.add_part hc (hd (by simp [hm])) ht
      exact ⟨t, hf, hsum, h⟩

theorem moves_of_step {m : Monitor} {p q : Phase} {c c' : Clock} {l : Letter} {delta : Time}
    (hd : m.window ≠ none → delta.isFloat = false) (hc : c.IsExact)
    (h : m.step p c l delta = .ok (q, c')) : m.Moves p c l delta q c' := by
  simp only [step, Result.bind_ok] at h
  obtain ⟨b, hb, h⟩ := h
  exact ⟨b, advances_of_advance hd hc hb, h⟩

/-- What the end of the trace makes of the table's answer: a wait that it cuts off is a failure. -/
def Closes (m : Monitor) (l : Letter) (r : Phase) (b : Clock) (q : Phase) (c : Clock) : Prop :=
  m.awaits = true ∧ r = .seen ∧ l.terminal = true ∧ q = .failed ∧ c = .idle ∨
    ¬ (m.awaits = true ∧ r = .seen ∧ l.terminal = true) ∧ q = r ∧ c = b

theorem enter_ok {m : Monitor} {p q : Phase} {c c' : Clock} {l : Letter}
    (h : m.enter p c l = .ok (q, c')) :
    ∃ r b, m.table p c l = .ok (r, b) ∧ m.Closes l r b q c' := by
  simp only [enter, Result.bind_ok] at h
  obtain ⟨⟨r, b⟩, hr, h⟩ := h
  refine ⟨r, b, hr, ?_⟩
  by_cases hw : m.awaits = true ∧ r = .seen ∧ l.terminal = true
  · simp only [hw, decide_true, Bool.and_self, ↓reduceIte, Result.pure_eq, Except.ok.injEq,
      Prod.mk.injEq] at h
    exact Or.inl ⟨hw.1, hw.2.1, hw.2.2, h.1.symm, h.2.symm⟩
  · have hf : (m.awaits && decide (r = .seen) && l.terminal) = false := by
      apply Bool.eq_false_iff.mpr
      intro ht
      simp only [Bool.and_eq_true, decide_eq_true_eq] at ht
      exact hw ⟨ht.1.1, ht.1.2, ht.2⟩
    simp only [hf, Bool.false_eq_true, ↓reduceIte, Result.pure_eq, Except.ok.injEq,
      Prod.mk.injEq] at h
    exact Or.inr ⟨hw, h.1.symm, h.2.symm⟩

theorem restart_ok {w : Bound} {q : Phase} {c : Clock} :
    restart w = .ok (q, c) ↔ q = .seen ∧ w.start = .ok c := by
  simp only [restart, Result.bind_ok, lift_ok, Result.pure_eq, Except.ok.injEq, Prod.mk.injEq]
  constructor
  · intro h
    obtain ⟨b, hb, rfl, rfl⟩ := h
    exact ⟨rfl, hb⟩
  · intro h
    exact ⟨c, h.2, h.1.symm, rfl⟩

theorem table_clock {m : Monitor} {p q : Phase} {c c' : Clock} {l : Letter}
    (h : m.table p c l = .ok (q, c')) :
    c' = c ∨ c' = .idle ∨ ∃ w, m.window = some w ∧ w.start = .ok c' := by
  cases m with
  | followedBy | neverFollowedBy | precedes =>
    simp only [table, Result.bind_ok] at h
    obtain ⟨r, _, h⟩ := h
    cases h
    exact Or.inr (Or.inl rfl)
  | timedFollowedBy w =>
    cases p <;> simp only [table, enterTimedFollowedBy] at h
    all_goals repeat' first | split at h | cases h
    all_goals first
      | exact Or.inl rfl
      | exact Or.inr (Or.inl rfl)
      | exact Or.inr (Or.inr ⟨w, rfl, (restart_ok.mp h).2⟩)
  | timedPrecedes w =>
    cases p <;> simp only [table, enterTimedPrecedes] at h
    all_goals repeat' first | split at h | cases h
    all_goals first
      | exact Or.inl rfl
      | exact Or.inr (Or.inl rfl)
      | exact Or.inr (Or.inr ⟨w, rfl, (restart_ok.mp h).2⟩)

/-- What is true of the clock that is read, of no clock and of a clock that starts is true after a
letter. -/
theorem enter_keeps {m : Monitor} {P : Clock → Prop} {p q : Phase} {c c' : Clock} {l : Letter}
    (hidle : P .idle) (hstart : ∀ w b, m.window = some w → w.start = .ok b → P b) (hc : P c)
    (h : m.enter p c l = .ok (q, c')) : P c' := by
  obtain ⟨r, b, hr, h⟩ := enter_ok h
  have hb : P b := by
    rcases table_clock hr with rfl | rfl | ⟨w, hw, hs⟩
    · exact hc
    · exact hidle
    · exact hstart w b hw hs
  rcases h with ⟨_, _, _, _, rfl⟩ | ⟨_, _, rfl⟩
  · exact hidle
  · exact hb

theorem enter_exact {m : Monitor} {p q : Phase} {c c' : Clock} {l : Letter} (hc : c.IsExact)
    (h : m.enter p c l = .ok (q, c')) : c'.IsExact := by
  refine enter_keeps trivial ?_ hc h
  intro w b _ hs
  exact Bound.settle_exact rfl hs

theorem Moves.exact {m : Monitor} {p q : Phase} {c c' : Clock} {l : Letter} {delta : Time}
    (hc : c.IsExact) (h : m.Moves p c l delta q c') : c'.IsExact := by
  obtain ⟨b, hb, h⟩ := h
  refine enter_exact ?_ h
  unfold Advances at hb
  split at hb
  · cases c with
    | idle | saturated =>
      cases hb
      trivial
    | running s =>
      obtain ⟨t, ht, _, hs⟩ := hb
      exact Bound.settle_exact ht hs
  · exact hb ▸ hc

theorem followedBy_leads {w : Bound} {p q q' : Phase} {x y x' y' : Clock} {l : Letter}
    (h : w.Leads x y) (hx : enterTimedFollowedBy w x l p = .ok (q, x'))
    (hy : enterTimedFollowedBy w y l p = .ok (q', y')) :
    q = .failed ∨ q = q' ∧ w.Leads x' y' := by
  have alike (he : enterTimedFollowedBy w x l p = enterTimedFollowedBy w y l p) :
      q = .failed ∨ q = q' ∧ w.Leads x' y' := by
    rw [he, hy] at hx
    cases hx
    exact Or.inr ⟨rfl, Bound.Leads.refl w _⟩
  cases p with
  | start => exact alike rfl
  | failed => exact alike rfl
  | matched => cases hx
  | seen =>
    by_cases hb : l.b = true
    · by_cases hm : w.met x = true
      · exact alike (by simp [enterTimedFollowedBy, hb, hm, h.met hm])
      · simp only [enterTimedFollowedBy, hb, hm] at hx
        cases hx
        exact Or.inl rfl
    · cases hd : w.direction with
      | upper =>
        by_cases hs : x = .saturated
        · simp only [enterTimedFollowedBy, hb, hd, hs] at hx
          cases hx
          exact Or.inl rfl
        · have hs' : y ≠ .saturated := fun he => hs (Bound.Leads.saturated hd (he ▸ h))
          simp only [enterTimedFollowedBy, hb, hd] at hx hy
          cases hx
          cases hy
          exact Or.inr ⟨rfl, h⟩
      | lower =>
        by_cases ha : l.a = true
        · exact alike (by simp [enterTimedFollowedBy, hb, hd, ha])
        · simp only [enterTimedFollowedBy, hb, hd, ha] at hx hy
          cases hx
          cases hy
          exact Or.inr ⟨rfl, h⟩

theorem precedes_leads {w : Bound} {p q q' : Phase} {x y x' y' : Clock} {l : Letter}
    (h : w.Leads x y) (hx : enterTimedPrecedes w x l p = .ok (q, x'))
    (hy : enterTimedPrecedes w y l p = .ok (q', y')) :
    q = .failed ∨ q = q' ∧ w.Leads x' y' := by
  have alike (he : enterTimedPrecedes w x l p = enterTimedPrecedes w y l p) :
      q = .failed ∨ q = q' ∧ w.Leads x' y' := by
    rw [he, hy] at hx
    cases hx
    exact Or.inr ⟨rfl, Bound.Leads.refl w _⟩
  cases p with
  | start => exact alike rfl
  | failed => exact alike rfl
  | seen | matched =>
    by_cases ha : l.a = true
    · cases hd : w.direction with
      | upper => exact alike (by simp [enterTimedPrecedes, ha, hd])
      | lower =>
        simp only [enterTimedPrecedes, ha, hd] at hx hy
        cases hx
        cases hy
        exact Or.inr ⟨rfl, h⟩
    · by_cases hb : l.b = true
      · by_cases hm : w.met x = true
        · simp only [enterTimedPrecedes, ha, hb, hm, h.met hm] at hx hy
          cases hx
          cases hy
          exact Or.inr ⟨rfl, h⟩
        · simp only [enterTimedPrecedes, ha, hb, hm] at hx
          cases hx
          exact Or.inl rfl
      · simp only [enterTimedPrecedes, ha, hb] at hx hy
        cases hx
        cases hy
        exact Or.inr ⟨rfl, h⟩

/-- The tables keep the lead: the leading clock fails, or both clocks take the same way. -/
theorem table_leads {m : Monitor} {p q q' : Phase} {x y x' y' : Clock} {l : Letter}
    (h : m.Leads x y) (hx : m.table p x l = .ok (q, x')) (hy : m.table p y l = .ok (q', y')) :
    q = .failed ∨ q = q' ∧ m.Leads x' y' := by
  cases m with
  | followedBy | neverFollowedBy | precedes =>
    have he := hx.symm.trans hy
    cases he
    exact Or.inr ⟨rfl, Leads.refl _ _⟩
  | timedFollowedBy w => exact followedBy_leads h hx hy
  | timedPrecedes w => exact precedes_leads h hx hy

theorem enter_leads {m : Monitor} {p q q' : Phase} {x y x' y' : Clock} {l : Letter}
    (h : m.Leads x y) (hx : m.enter p x l = .ok (q, x')) (hy : m.enter p y l = .ok (q', y')) :
    q = .failed ∨ q = q' ∧ m.Leads x' y' := by
  obtain ⟨r, b, hr, hx⟩ := enter_ok hx
  obtain ⟨r', b', hr', hy⟩ := enter_ok hy
  rcases hx with ⟨_, _, _, rfl, _⟩ | ⟨hn, rfl, rfl⟩
  · exact Or.inl rfl
  · rcases table_leads h hr hr' with hf | ⟨rfl, hl⟩
    · exact Or.inl hf
    · rcases hy with ⟨ha, hs, ht, _, _⟩ | ⟨_, rfl, rfl⟩
      · exact absurd ⟨ha, hs, ht⟩ hn
      · exact Or.inr ⟨rfl, hl⟩

/-- Bounds of doubles are left out: what they compare is rounded. -/
def IsExact (m : Monitor) : Prop :=
  ∀ w, m.window = some w → w.value.isFloat = false

theorem Advances.leads {m : Monitor} {x y x' y' : Clock} {delta : Time} (hm : m.IsExact)
    (h : m.Leads x y) (hx : m.Advances delta x x') (hy : m.Advances delta y y') :
    m.Leads x' y' := by
  unfold Advances Leads at *
  cases hw : m.window with
  | none => trivial
  | some w =>
    simp only [hw] at h hx hy ⊢
    have hv := hm w hw
    cases x with
    | idle =>
      cases y with
      | idle => exact hx ▸ hy ▸ h
      | _ => cases h
    | saturated =>
      cases hx
      cases y with
      | idle => cases h
      | saturated => exact hy ▸ h
      | running t =>
        obtain ⟨u, _, _, hu⟩ := hy
        obtain ⟨o, _, rfl⟩ := Bound.settle_ok hu
        split
        · trivial
        · exact h
    | running s =>
      obtain ⟨u, hu, hsum, hset⟩ := hx
      cases y with
      | idle => cases h
      | saturated =>
        cases hy
        obtain ⟨o, _, rfl⟩ := Bound.settle_ok hset
        split
        · trivial
        · exact h
      | running t =>
        obtain ⟨u', hu', hsum', hset'⟩ := hy
        refine Bound.settle_leads hv hu hu' ?_ hset hset'
        cases hd : w.direction <;> simp only [Bound.Leads, hd] at h ⊢ <;> intro i <;>
          rw [hsum, hsum'] <;> have := h i <;> omega

theorem Moves.leads {m : Monitor} {p q q' : Phase} {x y x' y' : Clock} {l : Letter}
    {delta : Time} (hm : m.IsExact) (h : m.Leads x y) (hx : m.Moves p x l delta q x')
    (hy : m.Moves p y l delta q' y') : q = .failed ∨ q = q' ∧ m.Leads x' y' := by
  obtain ⟨b, hb, hx⟩ := hx
  obtain ⟨b', hb', hy⟩ := hy
  exact enter_leads (Advances.leads hm h hb hb') hx hy

end Monitor
end EventInvariants
