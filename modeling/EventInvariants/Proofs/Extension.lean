import EventInvariants.Proofs.Conformance

namespace EventInvariants

namespace Trace
variable {t t' : Trace} {n i k : Nat}

/-- The traces are the same before position `n`. -/
structure Agrees (t t' : Trace) (n : Nat) : Prop where
  letter : ∀ k < n, t.letter k = t'.letter k
  delta : ∀ k < n, t.delta k = t'.delta k

theorem Agrees.time (h : t.Agrees t' n) (hk : k < n) : t.time k = t'.time k := by
  induction k with
  | zero => rfl
  | succ k ih =>
    funext j
    rw [Trace.time, Trace.time, ih (by omega), h.delta (k + 1) hk]

theorem Agrees.span (h : t.Agrees t' n) (hi : i < n) (hk : k < n) :
    t.span i k = t'.span i k := by
  funext j
  rw [Trace.span, Trace.span, h.time hi, h.time hk]

theorem Agrees.stays_open (h : t.Agrees t' n) (hk : k ≤ n) (hopen : t.Open i k) : t'.Open i k := by
  intro x hi hx
  rw [← h.letter x (by omega)]
  exact hopen x hi hx

end Trace

namespace Monitor
variable {m : Monitor} {t t' : Trace} {n i k : Nat} {d : Direction}

theorem Anchor.agrees (h : t.Agrees t' n) (hi : i < n) (hk : k ≤ n) (ha : Anchor d t i k) :
    Anchor d t' i k := by
  obtain ⟨hletter, hnone⟩ := ha
  refine ⟨by rw [← h.letter i hi]; exact hletter, ?_⟩
  cases d with
  | upper =>
    intro x hix hx
    rw [← h.letter x (by omega)]
    exact hnone x hix hx
  | lower =>
    intro x hx
    rw [← h.letter x (by omega)]
    exact hnone x hx

/-- A failure shows in what the trace is up to its position. -/
theorem FailsAt.agrees (h : t.Agrees t' n) (hk : k < n) (hf : m.FailsAt t k) : m.FailsAt t' k := by
  have hletter : ∀ x ≤ k, t.letter x = t'.letter x := fun x hx => h.letter x (by omega)
  cases m with
  | followedBy =>
    obtain ⟨hend, i, hi, ha, hopen⟩ := hf
    rw [hletter k (Nat.le_refl k)] at hend
    rw [hletter i hi] at ha
    exact ⟨hend, i, hi, ha, h.stays_open hk hopen⟩
  | neverFollowedBy =>
    obtain ⟨hb, i, hi, ha⟩ := hf
    rw [hletter k (Nat.le_refl k)] at hb
    rw [hletter i (Nat.le_of_lt hi)] at ha
    exact ⟨hb, i, hi, ha⟩
  | precedes =>
    obtain ⟨hb, hnone⟩ := hf
    rw [hletter k (Nat.le_refl k)] at hb
    refine ⟨hb, fun i hi => ?_⟩
    rw [← hletter i hi]
    exact hnone i hi
  | timedFollowedBy w =>
    obtain ⟨i, hi, ha, hwhy⟩ := hf
    rw [hletter k (Nat.le_refl k)] at hwhy
    rw [hletter i hi] at ha
    refine ⟨i, hi, ha, ?_⟩
    rcases hwhy with ⟨hend, hopen⟩ | ⟨hlt, hopen, hdue, hlate⟩
    · exact .inl ⟨hend, h.stays_open hk hopen⟩
    · rw [h.span (by omega) hk] at hlate
      exact .inr ⟨hlt, h.stays_open (Nat.le_of_lt hk) hopen, hdue, hlate⟩
  | timedPrecedes w =>
    obtain ⟨hb, ha, hwhy⟩ := hf
    rw [hletter k (Nat.le_refl k)] at hb ha
    refine ⟨hb, ha, ?_⟩
    rcases hwhy with hnone | ⟨i, hi, hanchor, hlate⟩
    · refine .inl fun i hi => ?_
      rw [← hletter i (Nat.le_of_lt hi)]
      exact hnone i hi
    · rw [h.span (by omega) hk] at hlate
      exact .inr ⟨i, hi, hanchor.agrees h (by omega) (Nat.le_of_lt hk), hlate⟩

end Monitor

def PathError.IsTime : PathError → Prop
  | .time _ => True
  | .outside _ => False

theorem Result.anyM_ends {ε α : Type} {bad : ε → Prop} {p : α → Except ε Bool} {l : List α}
    (h : ∀ a ∈ l, Ends (fun _ => True) bad (p a)) : Ends (fun _ => True) bad (l.anyM p) := by
  induction l with
  | nil => trivial
  | cons a l ih =>
    obtain ⟨ha, hl⟩ := List.forall_mem_cons.mp h
    rw [anyM_cons]
    apply ha.bind
    intro found _
    cases found with
    | true => trivial
    | false => exact ih hl

namespace Path
variable {g : Graph} {inv : Invariant} {path rest : Path}

theorem trace_agrees (g : Graph) (inv : Invariant) (path rest : Path) :
    (path.trace g inv).Agrees ((path ++ rest).trace g inv) path.length where
  letter k hk := by simp only [trace, List.getElem?_append_left hk]
  delta k hk := by simp only [trace, List.getElem?_append_left hk]

theorem trace_forward
    (hd : ∀ s ∈ path, ∀ d, s.delta = some d → d.isFloat = false ∧ d.isNegative = false) :
    (path.trace g inv).Forward := by
  intro k j
  have htimes : ∀ k, ((path.trace g inv).delta k).isFloat = false ∧
      ((path.trace g inv).delta k).isNegative = false := trace_delta_all hd ⟨rfl, rfl⟩
  obtain ⟨hfloat, hsign⟩ := htimes (k + 1)
  exact Time.part_nonneg hfloat (Time.checkNonNegative_of_sign hfloat hsign) j

/-- Steps over the nodes of a graph that never go back in time are judged by where their trace
fails. -/
theorem violates_iff_fails_at {answer : Bool}
    (hb : ∀ w, inv.bound = some w → w.value.isFloat = false) (hin : Inside g path)
    (hd : ∀ s ∈ path, ∀ d, s.delta = some d → d.isFloat = false ∧ d.isNegative = false)
    (h : violates g inv path = .ok answer) :
    answer = true ↔
      ∃ k < path.length, (Monitor.ofInvariant inv).FailsAt (path.trace g inv) k := by
  refine violates_iff hin (fun w hw => hb w (Monitor.bound_of_window hw)) (fun _ k => ?_)
    (fun _ => trace_forward hd) h
  exact trace_delta_all (fun s hs d hsd => (hd s hs d hsd).1) rfl (k + 1)

theorem timeIs_ends (steps : Array Step) (o : Ordering) (w : Bound) (i j : Nat) :
    Result.Ends (fun _ => True) PathError.IsTime (timeIs steps o w i j) := by
  unfold timeIs
  cases elapsed steps i j with
  | error cause => trivial
  | ok t =>
    cases ho : t.order w.value with
    | error cause => simp [ho, PathError.IsTime]
    | ok p => simp [ho]

theorem breaksTimedPrecedes_ends (hin : Inside g path) (w : Bound) :
    Result.Ends (fun _ => True) PathError.IsTime (breaksTimedPrecedes g inv path.toArray w) := by
  apply Result.anyM_ends
  intro j _
  obtain ⟨r, hr, _⟩ := anchor_spec hin inv w.direction j
  simp only [isB_eq hin, isA_eq hin, hr, Result.ok_bind]
  split
  · trivial
  · split
    · trivial
    · cases r with
      | none => trivial
      | some i => exact timeIs_ends _ _ w i j

theorem breaksTimedFollowedBy_ends (hin : Inside g path) (w : Bound) :
    Result.Ends (fun _ => True) PathError.IsTime (breaksTimedFollowedBy g inv path.toArray w) := by
  apply Result.anyM_ends
  intro i _
  simp only [isA_eq hin, Result.findM?_eq (fun x _ => isB_eq hin x),
    Result.anyM_eq (fun x _ => isTerminal_eq hin x), Result.ok_bind]
  split
  · trivial
  · split
    · trivial
    · split
      · exact timeIs_ends _ _ w i _
      · exact Result.anyM_ends fun k _ => timeIs_ends _ _ w i k
      · trivial

/-- Inside the graph a path is judged, unless a bound calls for times that cannot be had. -/
theorem violates_ends (hin : Inside g path) :
    Result.Ends (fun _ => True) (fun e => inv.bound ≠ none ∧ e.IsTime) (violates g inv path) := by
  have given {r : Except PathError Bool} {P : Bool → Prop} {bad : PathError → Prop}
      (h : ∃ v, r = .ok v ∧ P v) : Result.Ends (fun _ => True) bad r := by
    obtain ⟨v, rfl, _⟩ := h
    trivial
  cases hb : inv.bound with
  | none => exact given (violates_untimed hin hb)
  | some w =>
    cases hk : inv.kind with
    | alwaysFollowedBy =>
      simp only [violates, hk, hb]
      exact (breaksTimedFollowedBy_ends hin w).imp (fun _ h => h) fun e he => ⟨by simp, he⟩
    | neverFollowedBy =>
      simp only [violates, hk]
      exact given (breaksNeverFollowedBy_iff hin)
    | alwaysPrecedes =>
      simp only [violates, hk, hb]
      exact (breaksTimedPrecedes_ends hin w).imp (fun _ h => h) fun e he => ⟨by simp, he⟩

end Path

/-- A path that violates an invariant does so however it goes on, along edges or not: the longer
path is judged to violate it as well, or a bound calls for a time that cannot be had. -/
theorem violation_extends {g : Graph} {inv : Invariant} {path rest : Path}
    (hb : ∀ w, inv.bound = some w → w.value.isFloat = false)
    (hin : ∀ s ∈ path ++ rest, s.node < g.size)
    (hd : ∀ s ∈ path ++ rest, ∀ d, s.delta = some d → d.isFloat = false ∧ d.isNegative = false)
    (h : Path.violates g inv path = .ok true) :
    Path.violates g inv (path ++ rest) = .ok true ∨
      inv.bound ≠ none ∧ ∃ cause, Path.violates g inv (path ++ rest) = .error (.time cause) := by
  cases hq : Path.violates g inv (path ++ rest) with
  | error e =>
    obtain ⟨hbound, htime⟩ := (Path.violates_ends hin).of_eq_error hq
    cases e with
    | time cause => exact .inr ⟨hbound, cause, rfl⟩
    | outside node => exact htime.elim
  | ok answer =>
    obtain ⟨k, hk, hfail⟩ := (Path.violates_iff_fails_at hb
      (fun s hs => hin s (List.mem_append_left rest hs))
      (fun s hs => hd s (List.mem_append_left rest hs)) h).mp rfl
    refine .inl (congrArg _ ((Path.violates_iff_fails_at hb hin hd hq).mpr ⟨k, ?_, ?_⟩))
    · rw [List.length_append]
      omega
    · exact hfail.agrees (Path.trace_agrees g inv path rest) hk

/-- An `a` that has waited for three units of time. -/
def Path.overdue : Path :=
  [⟨0, none⟩, ⟨1, some (.integer 3)⟩]

/-- The answer does not mend it when it comes at once; when it comes so late that the time to it is
out of range, the judgement is refused. -/
theorem overdue_extends :
    Path.violates .loop (.response .upper 2) Path.overdue = .ok true ∧
      Path.violates .loop (.response .upper 2) (Path.overdue ++ [⟨2, some .zero⟩]) = .ok true ∧
      ∃ cause, Path.violates .loop (.response .upper 2)
        (Path.overdue ++ [⟨2, some (.integer Whole.greatest)⟩]) = .error (.time cause) := by
  have hover : Path.violates .loop (.response .upper 2) Path.overdue = .ok true := rfl
  have hb : ∀ w, (Invariant.response .upper 2).bound = some w → w.value.isFloat = false := by
    simp [Invariant.response, Time.isFloat]
  refine ⟨hover, ?_, ?_⟩
  · refine (violation_extends hb ?_ ?_ hover).resolve_right ?_
    · simp [Path.overdue, Graph.loop, Graph.size]
    · simp [Path.overdue, Time.isFloat, Time.isNegative]
    · intro herror
      obtain ⟨_, cause, h⟩ := herror
      cases h
  · refine ((violation_extends hb ?_ ?_ hover).resolve_left ?_).2
    · simp [Path.overdue, Graph.loop, Graph.size]
    · simp [Path.overdue, Time.isFloat, Time.isNegative, Whole.greatest]
    · intro h
      cases h

end EventInvariants
