import EventInvariants.Proofs.Frontier

namespace EventInvariants

theorem Entry.beats_fault {m : Monitor} {x y : Entry} {fault : Fault}
    (h : beats m x y = .error fault) : m.severity x.clock y.clock = .error fault := by
  unfold beats at h
  split at h
  · cases ho : m.severity x.clock y.clock with
    | ok o => simp [ho] at h
    | error f => simpa [ho] using h
  · cases h

theorem Frontier.survivors_fault {m : Monitor} {new : Entry} {f : Frontier} {fault : Fault}
    (h : survivors? m new f = .error fault) :
    ∃ x ∈ f, m.severity x.clock new.clock = .error fault ∨
      m.severity new.clock x.clock = .error fault := by
  induction f with
  | nil => cases h
  | cons old rest ih =>
    rw [survivors?] at h
    cases hwon : Entry.beats m old new with
    | error f =>
      simp only [hwon, Result.error_bind, Except.error.injEq] at h
      subst h
      exact ⟨old, List.mem_cons_self, .inl (Entry.beats_fault hwon)⟩
    | ok won =>
      rw [hwon, Result.ok_bind] at h
      cases won with
      | true => cases h
      | false =>
        rw [if_neg Bool.false_ne_true] at h
        cases hlost : Entry.beats m new old with
        | error f =>
          simp only [hlost, Result.error_bind, Except.error.injEq] at h
          subst h
          exact ⟨old, List.mem_cons_self, .inr (Entry.beats_fault hlost)⟩
        | ok lost =>
          rw [hlost, Result.ok_bind] at h
          cases hrest : survivors? m new rest with
          | error f =>
            simp only [hrest, Result.error_bind, Except.error.injEq] at h
            subst h
            obtain ⟨x, hx, hsev⟩ := ih hrest
            exact ⟨x, List.mem_cons_of_mem old hx, hsev⟩
          | ok r =>
            rw [hrest, Result.ok_bind] at h
            cases r <;> cases h

namespace StateSet

/-- The sets that operations make, one after another in any order, along edges without a time or
with an allowed one. A merge that is refused half-way leaves what it has added. -/
inductive Built (m : Monitor) (allowed : Time → Prop) : StateSet → Prop where
  | empty : Built m allowed .empty
  | initial {s : StateSet} {v : Nat} {l : Letter} (h : StateSet.initial m v l = .ok s) :
      Built m allowed s
  | begin {s : StateSet} {v : Nat} {l : Letter} {r : Option StateSet} (hs : Built m allowed s)
      (h : s.begin? m v l = .ok r) : Built m allowed (r.getD s)
  | transition {s t : StateSet} {v : Nat} {l : Letter} {delta : Option Time}
      (hs : Built m allowed s) (hd : ∀ d, delta = some d → allowed d)
      (h : s.transition m v l delta = .ok t) : Built m allowed t
  | merge {s t : StateSet} (hs : Built m allowed s) (ht : Built m allowed t) :
      Built m allowed (s.merge m t).1

/-- What offers keep of sets, if `P` is true of the clocks; and how an operation may fail. -/
structure Upheld (m : Monitor) (allowed : Time → Prop) (P : Phase → Clock → Prop)
    (bad : Fault → Prop) (I : StateSet → Prop) : Prop where
  empty : I .empty
  clock : ∀ {s p e}, I s → e ∈ s.frontier p → P p e.clock
  read : ∀ l, Result.Ends (fun r => P r.1 r.2) bad (m.initial l)
  step : ∀ {p c} l delta, P p c → (∀ d, delta = some d → allowed d) →
    Result.Ends (fun r => P r.1 r.2) bad (m.step p c l (delta.getD .zero))
  offer : ∀ {s p e}, I s → P p e.clock →
    Result.Ends (fun r => I (r.getD s)) bad (s.offer? m p e)

section
variable {m : Monitor} {allowed : Time → Prop} {P : Phase → Clock → Prop} {bad : Fault → Prop}
  {I : StateSet → Prop} {s t : StateSet} {p : Phase} {e : Entry}

theorem offerAll_ends {l : List (Phase × Entry)}
    (hoffer : ∀ {s p e}, I s → P p e.clock →
      Result.Ends (fun r => I (r.getD s)) bad (s.offer? m p e))
    (hs : I s) (hl : ∀ p e, (p, e) ∈ l → P p e.clock) :
    I (s.offerAll m l).1 ∧ Result.Ends (fun _ => True) bad (s.offerAll m l).2 := by
  induction l generalizing s with
  | nil => exact ⟨hs, trivial⟩
  | cons first rest ih =>
    obtain ⟨p, e⟩ := first
    have hfirst := hoffer (s := s) hs (hl p e List.mem_cons_self)
    have hrest : ∀ q x, (q, x) ∈ rest → P q x.clock :=
      fun q x hx => hl q x (List.mem_cons_of_mem _ hx)
    rw [offerAll]
    split
    · rename_i hr
      exact ⟨hs, hfirst.of_eq_error hr⟩
    · exact ih hs hrest
    · rename_i s' hr
      have hs' : I s' := hfirst.of_eq_ok hr
      obtain ⟨hI, hend⟩ := ih hs' hrest
      refine ⟨hI, ?_⟩
      change Result.Ends _ bad ((s'.offerAll m rest).2.map fun _ => true)
      cases hanswer : (s'.offerAll m rest).2 with
      | ok b => trivial
      | error fault => exact hend.of_eq_error hanswer

namespace Upheld
variable (h : Upheld m allowed P bad I)
include h

theorem begin (hs : I s) (v : Nat) (l : Letter) :
    Result.Ends (fun r => I (r.getD s)) bad (s.begin? m v l) := by
  apply (h.read l).bind
  intro r hr
  exact h.offer (e := ⟨.root v, r.2⟩) hs hr

theorem initial (v : Nat) (l : Letter) : Result.Ends I bad (StateSet.initial m v l) := by
  apply (h.begin h.empty v l).bind
  intro r hr
  exact hr

theorem transition {delta : Option Time} (hs : I s) (hd : ∀ d, delta = some d → allowed d)
    (v : Nat) (l : Letter) : Result.Ends I bad (s.transition m v l delta) := by
  refine Result.Ends.foldlM (I := fun _ => I) s.entries h.empty ?_
  rintro done ⟨p, e⟩ rest next hsplit hnext
  have he : e ∈ s.frontier p := mem_entries.mp (by simp [hsplit])
  apply (h.step l delta (h.clock hs he) hd).bind
  intro r hr
  apply (h.offer (e := ⟨e.history.extend v delta, r.2⟩) hnext hr).bind
  intro r hr
  exact hr

theorem merge (hs : I s) (ht : I t) :
    I (s.merge m t).1 ∧ Result.Ends (fun _ => True) bad (s.merge m t).2 :=
  offerAll_ends h.offer hs fun _ _ he => h.clock ht (mem_entries.mp he)

theorem built (hs : s.Built m allowed) : I s := by
  induction hs with
  | empty => exact h.empty
  | initial hr => exact (h.initial _ _).of_eq_ok hr
  | begin _ hr ih => exact (h.begin ih _ _).of_eq_ok hr
  | transition _ hd hr ih => exact (h.transition ih hd _ _).of_eq_ok hr
  | merge _ _ ihs iht => exact (h.merge ihs iht).1

end Upheld

theorem mem_offer {r : Option StateSet} {q : Phase} {x : Entry} (h : s.offer? m p e = .ok r)
    (hx : x ∈ (r.getD s).frontier q) : x ∈ s.frontier q ∨ q = p ∧ x = e := by
  rw [offer?, Result.bind_ok] at h
  obtain ⟨r, hr, h⟩ := h
  cases h
  cases r with
  | none => exact .inl hx
  | some f =>
    obtain ⟨_, _, _, hmem, _⟩ := Frontier.offer_some hr
    simp only [Option.map_some, Option.getD_some, frontier_update] at hx
    split at hx
    · rename_i hq
      subst hq
      rcases hmem x hx with rfl | hx
      · exact .inr ⟨rfl, rfl⟩
      · exact .inl hx
    · exact .inl hx

/-- A fault of an offer is a fault in comparing the clock with one that the state holds. -/
theorem offer_fault {fault : Fault} (h : s.offer? m p e = .error fault) :
    ∃ x ∈ s.frontier p, m.severity x.clock e.clock = .error fault ∨
      m.severity e.clock x.clock = .error fault := by
  apply Frontier.survivors_fault
  cases hr : Frontier.survivors? m e (s.frontier p) with
  | ok r => simp [offer?, Frontier.offer?, hr] at h
  | error f => simpa [offer?, Frontier.offer?, hr] using h

/-- Offers keep what is true of all clocks, and fail only where two of them do not compare. -/
theorem offer_clocks
    (hsev : ∀ {p x y}, P p x → P p y → Result.Ends (fun _ => True) bad (m.severity x y))
    (hs : ∀ p, ∀ x ∈ s.frontier p, P p x.clock) (he : P p e.clock) :
    Result.Ends (fun r => ∀ p, ∀ x ∈ (r.getD s).frontier p, P p x.clock) bad
      (s.offer? m p e) := by
  cases hr : s.offer? m p e with
  | error fault =>
    obtain ⟨x, hx, hfault | hfault⟩ := offer_fault hr
    · exact (hsev (hs p x hx) he).of_eq_error hfault
    · exact (hsev he (hs p x hx)).of_eq_error hfault
  | ok r =>
    intro q x hx
    rcases mem_offer hr hx with hx | ⟨rfl, rfl⟩
    · exact hs q x hx
    · exact he

/-- What is true of the clocks of every path is true of the clocks in every set. -/
theorem upheld_clocks (hread : ∀ l, Result.Ends (fun r => P r.1 r.2) bad (m.initial l))
    (hstep : ∀ {p c} l delta, P p c → (∀ d, delta = some d → allowed d) →
      Result.Ends (fun r => P r.1 r.2) bad (m.step p c l (delta.getD .zero)))
    (hsev : ∀ {p x y}, P p x → P p y → Result.Ends (fun _ => True) bad (m.severity x y)) :
    Upheld m allowed P bad (fun s => ∀ p, ∀ e ∈ s.frontier p, P p e.clock) where
  empty := by simp
  clock hs he := hs _ _ he
  read := hread
  step := hstep
  offer := offer_clocks hsev

end
end StateSet
end EventInvariants
