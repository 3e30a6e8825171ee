import EventInvariants.Proofs.Discipline
import EventInvariants.Proofs.Distance
import EventInvariants.Proofs.Ranking
import EventInvariants.Proofs.Untimed

namespace EventInvariants

namespace Monitor
variable {m : Monitor}

/-- Without a bound a step depends on the state and the letter only. -/
theorem step_untimed (hm : m.window = none) (p : Phase) (c : Clock) (l : Letter) (delta : Time) :
    m.step p c l delta = m.enter p .idle l := by
  cases m with
  | timedFollowedBy w | timedPrecedes w => cases hm
  | followedBy | neverFollowedBy | precedes => rfl

def Goes (m : Monitor) (l : Letter) (p q : Phase) : Prop :=
  ∃ c, m.enter p .idle l = .ok (q, c)

end Monitor

namespace StateSet
variable {m : Monitor} {s t : StateSet} {p q : Phase} {n : Nat}

/-- Some history of length `n` or less arrives in the state. -/
def Knows (s : StateSet) (p : Phase) (n : Nat) : Prop :=
  ∃ x ∈ s.frontier p, x.length ≤ n

theorem Covers.knows {c : Clock} (h : s.Covers m p n c) : s.Knows p n := by
  obtain ⟨x, hx, hle, _⟩ := h
  exact ⟨x, hx, hle⟩

theorem Knows.mono {k : Nat} (h : s.Knows p n) (hle : n ≤ k) : s.Knows p k := by
  obtain ⟨x, hx, hxn⟩ := h
  exact ⟨x, hx, Nat.le_trans hxn hle⟩

theorem knows_of_mem {e : Entry} (h : e ∈ s.frontier p) : s.Knows p e.length :=
  ⟨e, h, Nat.le_refl _⟩

/-- The history that a sorted set gives for a state has the least length with which it knows the
state. -/
theorem length_history_eq_some_iff (hs : s.Sorted) :
    (s.history? p).map History.length = some n ↔ s.Knows p n ∧ ∀ k, s.Knows p k → n ≤ k := by
  have hleast : ∀ {h : History}, s.history? p = some h →
      s.Knows p h.length ∧ ∀ k, s.Knows p k → h.length ≤ k := by
    intro h hh
    obtain ⟨e, he, rfl⟩ := history_mem hh
    refine ⟨knows_of_mem he, fun k hk => ?_⟩
    obtain ⟨x, hx, hle⟩ := hk
    obtain ⟨h', hh', hle'⟩ := history_le hs hx
    rw [hh] at hh'
    cases hh'
    exact Nat.le_trans hle' hle
  constructor
  · intro h
    obtain ⟨h', hh', rfl⟩ := Option.map_eq_some_iff.mp h
    exact hleast hh'
  · intro h
    obtain ⟨hknows, hall⟩ := h
    obtain ⟨x, hx, hle⟩ := hknows
    obtain ⟨h', hh', hle'⟩ := history_le hs hx
    obtain ⟨hknows', _⟩ := hleast hh'
    have := hall _ hknows'
    rw [hh', Option.map_some, Option.some.injEq]
    omega

theorem length_history_congr (hs : s.Sorted) (ht : t.Sorted)
    (h : ∀ n, s.Knows p n ↔ t.Knows p n) :
    (s.history? p).map History.length = (t.history? p).map History.length := by
  apply Option.ext
  intro n
  rw [length_history_eq_some_iff hs, length_history_eq_some_iff ht]
  simp only [h]

theorem reached_congr
    (h : ∀ p, (s.history? p).map History.length = (t.history? p).map History.length) :
    s.reached = t.reached := by
  apply List.filter_congr
  intro p _
  rw [contains_eq, contains_eq, h p]

theorem isSubset_iff : s.isSubset t = true ↔ ∀ p n, s.Knows p n → ∃ k, t.Knows p k := by
  rw [isSubset, List.all_eq_true]
  constructor
  · intro h p n hn
    obtain ⟨x, hx, _⟩ := hn
    have hp := h p (by cases p <;> simp [phases])
    cases ht : t.frontier p with
    | nil =>
      have hs : s.frontier p = [] := by simpa [ht] using hp
      rw [hs] at hx
      cases hx
    | cons y rest => exact ⟨y.length, knows_of_mem (by rw [ht]; exact List.mem_cons_self)⟩
  · intro h p _
    cases hs : s.frontier p with
    | nil => rfl
    | cons x rest =>
      obtain ⟨k, y, hy, _⟩ := h p x.length (knows_of_mem (by rw [hs]; exact List.mem_cons_self))
      have hne := List.ne_nil_of_mem hy
      simpa using hne

section
variable (hm : m.window = none)
include hm

theorem Built.ranked (hs : s.Built m (fun _ => True)) : s.Ranked m :=
  (upheld_ranked_of fun hw => absurd hm hw).built hs

theorem Built.exact (hs : s.Built m (fun _ => True)) : s.IsExact :=
  fun p e he => ((hs.ranked hm).carries p e he).exact

/-- A merge knows what one of the sets knows. -/
theorem knows_merge (hs : s.Built m (fun _ => True)) (ht : t.Built m (fun _ => True)) :
    (s.merge m t).1.Knows p n ↔ s.Knows p n ∨ t.Knows p n := by
  obtain ⟨u, improved, hmerge⟩ := merge_total hm s t
  obtain ⟨hlearn, _⟩ := merge_learns (hs.exact hm) (ht.exact hm) hmerge
  rw [hmerge]
  constructor
  · intro h
    obtain ⟨x, hx, hle⟩ := h
    rcases hlearn.mem p x hx with hx | ⟨hx, _⟩
    · exact .inl ⟨x, hx, hle⟩
    · exact .inr ⟨x, mem_entries.mp hx, hle⟩
  · intro h
    rcases h with ⟨x, hx, hle⟩ | ⟨x, hx, hle⟩
    · exact (hlearn.grows p _ _ (covers_of_mem m hx)).knows.mono hle
    · exact (hlearn.covers p x (mem_entries.mpr hx)).knows.mono hle

/-- After an edge, a state is known with one more than the states that lead to it. -/
theorem knows_transition {v : Nat} {l : Letter} {delta : Option Time}
    (hs : s.Built m (fun _ => True)) (h : s.transition m v l delta = .ok t) :
    t.Knows q n ↔ ∃ p k, s.Knows p k ∧ m.Goes l p q ∧ k + 1 ≤ n := by
  obtain ⟨_, hfrom, hto⟩ := transition_spec (hs.exact hm) (fun hw => absurd hm hw) h
  constructor
  · intro hknows
    obtain ⟨x, hx, hle⟩ := hknows
    obtain ⟨p, e, he, c, hstep, rfl⟩ := hfrom q x hx
    rw [Monitor.step_untimed hm] at hstep
    exact ⟨p, e.length, knows_of_mem he, ⟨c, hstep⟩, hle⟩
  · intro hknows
    obtain ⟨p, k, ⟨e, he, hek⟩, ⟨c, hgoes⟩, hle⟩ := hknows
    obtain ⟨q', c', hstep, hcov⟩ := hto p e he
    rw [Monitor.step_untimed hm, hgoes] at hstep
    cases hstep
    exact hcov.knows.mono (by omega)

theorem Built.transition_total (hs : s.Built m (fun _ => True)) (v : Nat) (l : Letter)
    (delta : Option Time) :
    ∃ t, s.transition m v l delta = .ok t ∧ t.Built m (fun _ => True) := by
  obtain ⟨t, ht⟩ :=
    StateSet.transition_total hm (fun p e he => (hs.suits p e he).phase) v l delta
  exact ⟨t, ht, .transition hs (fun _ _ => trivial) ht⟩

end
end StateSet

/-- Without a bound, taking an edge distributes over merging, and nothing is refused: the merge of
two sets, passed along an edge, reaches the same states as the merge of what the edge makes of each,
and the shortest histories are of the same lengths. And a set that reaches no more states than
another one reaches no more after the edge. -/
theorem transition_distributes {m : Monitor} (hm : m.isTimed = false) {s t : StateSet}
    (hs : s.Built m (fun _ => True)) (ht : t.Built m (fun _ => True)) (v : Nat) (l : Letter)
    (delta : Option Time) :
    ∃ added added' s' t' u, (s.merge m t).2 = .ok added ∧
      (s.merge m t).1.transition m v l delta = .ok u ∧
      s.transition m v l delta = .ok s' ∧ t.transition m v l delta = .ok t' ∧
      (s'.merge m t').2 = .ok added' ∧
      u.reached = (s'.merge m t').1.reached ∧
      (∀ p, (u.history? p).map History.length =
        ((s'.merge m t').1.history? p).map History.length) ∧
      (s.isSubset t = true → s'.isSubset t' = true) := by
  have hw : m.window = none := by simpa [Monitor.isTimed] using hm
  have hst := hs.merge ht
  obtain ⟨s', hs', hsb⟩ := hs.transition_total hw v l delta
  obtain ⟨t', ht', htb⟩ := ht.transition_total hw v l delta
  obtain ⟨u, hu, hub⟩ := hst.transition_total hw v l delta
  obtain ⟨_, added, hmerge⟩ := StateSet.merge_total hw s t
  obtain ⟨_, added', hmerge'⟩ := StateSet.merge_total hw s' t'
  have hknows : ∀ p n, u.Knows p n ↔ (s'.merge m t').1.Knows p n := by
    intro q n
    simp only [StateSet.knows_transition hw hst hu, StateSet.knows_merge hw hs ht,
      StateSet.knows_merge hw hsb htb, StateSet.knows_transition hw hs hs',
      StateSet.knows_transition hw ht ht', or_and_right, exists_or]
  have hlengths : ∀ p, (u.history? p).map History.length =
      ((s'.merge m t').1.history? p).map History.length :=
    fun p => StateSet.length_history_congr (hub.ranked hw).sorted
      ((hsb.merge htb).ranked hw).sorted (hknows p)
  refine ⟨added, added', s', t', u, by rw [hmerge], hu, hs', ht', by rw [hmerge'],
    StateSet.reached_congr hlengths, hlengths, fun hsub => ?_⟩
  rw [StateSet.isSubset_iff] at hsub ⊢
  intro q n hq
  obtain ⟨p, k, hp, hgoes, _⟩ := (StateSet.knows_transition hw hs hs').mp hq
  obtain ⟨k', hk'⟩ := hsub p k hp
  exact ⟨k' + 1, (StateSet.knows_transition hw ht ht').mpr ⟨p, k', hk', hgoes, Nat.le_refl _⟩⟩

/-- An `a` has come, three nodes ago. -/
def StateSet.late : StateSet :=
  StateSet.empty.update
    [⟨((History.root 0).extend 1 (some (.integer 4))).extend 2 none, .idle⟩] .seen

theorem StateSet.late_built : StateSet.late.Built .precedes (fun _ => True) := by
  have hfirst : StateSet.initial .precedes 0 ⟨true, false, false⟩ =
      .ok (StateSet.empty.update [⟨History.root 0, .idle⟩] .seen) := rfl
  have hsecond : (StateSet.empty.update [⟨History.root 0, .idle⟩] .seen).transition .precedes 1
      ⟨false, false, false⟩ (some (.integer 4)) = .ok (StateSet.empty.update
        [⟨(History.root 0).extend 1 (some (.integer 4)), .idle⟩] .seen) := rfl
  have hthird : (StateSet.empty.update
      [⟨(History.root 0).extend 1 (some (.integer 4)), .idle⟩] .seen).transition .precedes 2
      ⟨false, true, false⟩ none = .ok StateSet.late := rfl
  have hbuilt := Built.transition (.initial hfirst) (fun _ _ => trivial) hsecond
  exact .transition hbuilt (fun _ _ => trivial) hthird

/-- The first node is the last one so far, and brings no `a`. -/
def StateSet.early : StateSet :=
  StateSet.empty.update [⟨History.root 2, .idle⟩] .start

theorem StateSet.early_built : StateSet.early.Built .precedes (fun _ => True) :=
  .initial (v := 2) (l := ⟨false, false, false⟩) rfl

/-- An `a` takes both sets to one state. The histories get four nodes long and two, and the shorter
one is kept, whether the sets are merged before or after. -/
theorem late_early_distributes :
    ∃ late early u,
      (StateSet.late.merge .precedes .early).1.transition .precedes 3 ⟨true, false, false⟩ none =
        .ok u ∧
      StateSet.late.transition .precedes 3 ⟨true, false, false⟩ none = .ok late ∧
      StateSet.early.transition .precedes 3 ⟨true, false, false⟩ none = .ok early ∧
      (late.history? .seen).map History.length = some 4 ∧
      (u.history? .seen).map History.length = some 2 ∧
      ((late.merge .precedes early).1.history? .seen).map History.length = some 2 ∧
      (late.merge .precedes early).1.reached = [.seen] := by
  obtain ⟨_, _, late, early, u, _, hu, hlate, hearly, _, hreached, hlengths, _⟩ :=
    transition_distributes rfl StateSet.late_built StateSet.early_built 3 ⟨true, false, false⟩ none
  have hfour : (StateSet.late.transition .precedes 3 ⟨true, false, false⟩ none).map
      (fun s => (s.history? .seen).map History.length) = .ok (some 4) := rfl
  have htwo : ((StateSet.late.merge .precedes .early).1.transition .precedes 3 ⟨true, false, false⟩
      none).map (fun s => ((s.history? .seen).map History.length, s.reached)) =
        .ok (some 2, [.seen]) := rfl
  rw [hlate] at hfour
  rw [hu] at htwo
  obtain ⟨hlength, hstates⟩ := Prod.mk.inj (Except.ok.inj htwo)
  exact ⟨late, early, u, hu, hlate, hearly, Except.ok.inj hfour, hlength,
    (hlengths .seen).symm.trans hlength, hreached.symm.trans hstates⟩

end EventInvariants
