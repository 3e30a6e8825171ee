import EventInvariants.Proofs.Arrival

namespace EventInvariants.Exploration

/-- The arrays have a place for each node, and the flags mark the queue. -/
structure Shape (g : Graph) (s : State) : Prop where
  sets_size : s.sets.size = g.size
  queued_size : s.queued.size = g.size
  flag : ∀ v, s.isQueued v = true ↔ v ∈ s.queue
  nodup : s.queue.Nodup

section
variable {g : Graph} {s : State} {v w : Nat}

theorem set_write (hs : s.sets.size = g.size) (hv : v < g.size) (t : StateSet) (w : Nat) :
    ({ s with sets := s.sets.setIfInBounds v t } : State).set w = if w = v then t else s.set w := by
  unfold State.set
  rw [Array.getD_eq_getD_getElem?, Array.getD_eq_getD_getElem?, Array.getElem?_setIfInBounds]
  by_cases h : w = v
  · subst h
    simp [hs, hv]
  · rw [if_neg (Ne.symm h), if_neg h]

theorem Shape.write (h : Shape g s) (v : Nat) (t : StateSet) :
    Shape g { s with sets := s.sets.setIfInBounds v t } where
  sets_size := by rw [Array.size_setIfInBounds]; exact h.sets_size
  queued_size := h.queued_size
  flag := h.flag
  nodup := h.nodup

theorem isQueued_mark (hs : s.queued.size = g.size) (hv : v < g.size) (on : Bool) (w : Nat) :
    (s.queued.setIfInBounds v on).getD w false = if w = v then on else s.isQueued w := by
  unfold State.isQueued
  rw [Array.getD_eq_getD_getElem?, Array.getD_eq_getD_getElem?, Array.getElem?_setIfInBounds]
  by_cases h : w = v
  · subst h
    simp [hs, hv]
  · rw [if_neg (Ne.symm h), if_neg h]

theorem Shape.enqueue (h : Shape g s) (hv : v < g.size) (hout : v ∉ s.queue) :
    Shape g (s.enqueue v) where
  sets_size := h.sets_size
  queued_size := by
    change (s.queued.setIfInBounds v true).size = _
    rw [Array.size_setIfInBounds]
    exact h.queued_size
  flag w := by
    change (s.queued.setIfInBounds v true).getD w false = true ↔ w ∈ s.queue ++ [v]
    rw [isQueued_mark h.queued_size hv, List.mem_append, List.mem_singleton, ← h.flag w]
    by_cases hw : w = v
    · simp [hw]
    · simp [hw]
  nodup := by
    change (s.queue ++ [v]).Nodup
    refine List.nodup_append.mpr ⟨h.nodup, List.pairwise_singleton _ v, ?_⟩
    intro x hx y hy
    cases List.mem_singleton.mp hy
    exact fun hxy => hout (hxy ▸ hx)

theorem Shape.lt (h : Shape g s) (hv : v ∈ s.queue) : v < g.size := by
  have hq := (h.flag v).mpr hv
  unfold State.isQueued at hq
  rcases Nat.lt_or_ge v g.size with hlt | hge
  · exact hlt
  · rw [Array.getD_eq_getD_getElem?, Array.getElem?_eq_none (by rw [h.queued_size]; exact hge)]
      at hq
    cases hq

theorem Shape.dequeue {rest : List Nat} (h : Shape g s) (hq : s.queue = v :: rest) :
    Shape g (s.dequeue v rest) where
  sets_size := h.sets_size
  queued_size := by
    change (s.queued.setIfInBounds v false).size = _
    rw [Array.size_setIfInBounds]
    exact h.queued_size
  flag w := by
    have hv : v < g.size := h.lt (by rw [hq]; exact List.mem_cons_self)
    have hflag := h.flag w
    have hnodup := h.nodup
    rw [hq, List.mem_cons] at hflag
    rw [hq, List.nodup_cons] at hnodup
    change (s.queued.setIfInBounds v false).getD w false = true ↔ w ∈ rest
    rw [isQueued_mark h.queued_size hv]
    by_cases hw : w = v
    · simp [hw, hnodup.1]
    · rw [if_neg hw, hflag]
      simp [hw]
  nodup := by
    have hnodup := h.nodup
    rw [hq, List.nodup_cons] at hnodup
    exact hnodup.2

end

/-- The node `v` has been offered entries, and no other node. -/
structure Told (m : Monitor) (s : State) (v : Nat) (offered : List (Phase × Entry))
    (s' : State) : Prop where
  learns : StateSet.Learns m (s.set v) offered (s'.set v)
  others : ∀ w, w ≠ v → s'.set w = s.set w

/-- The node `v` has been offered a set. It is queued if it was not and learned something. -/
structure Taught (m : Monitor) (s : State) (v : Nat) (offered : StateSet) (s' : State) : Prop
    extends Told m s v offered.entries s' where
  iterations : s'.iterations = s.iterations
  queue : s'.queue = s.queue ∧ (v ∈ s.queue ∨ s'.set v = s.set v) ∨
    s'.queue = s.queue ++ [v] ∧
      ∃ p, ∃ e ∈ offered.frontier p, ¬ (s.set v).Covers m p e.length e.clock

section
variable {g : Graph} {inv : Invariant} {s s' : State} {known : StateSet} {u : Nat} {edge : Edge}

theorem propagate_ok {offered : StateSet} (h : propagate g inv u known edge = .ok offered) :
    edgeDelta inv u edge = .ok edge.delta ∧
      known.transition (Monitor.ofInvariant inv) edge.target (g.letter inv edge.target) edge.delta =
        .ok offered := by
  rw [propagate, Result.bind_ok] at h
  obtain ⟨delta, hdelta, h⟩ := h
  obtain ⟨rfl, _⟩ := edgeDelta_ok hdelta
  exact ⟨hdelta, Result.mapError_ok.mp h⟩

/-- Following an edge teaches its target what the edge makes of the known set. -/
theorem follow_ok (hx : Exact g inv) (hs : Shape g s) (hknown : known.IsExact)
    (hset : (s.set edge.target).IsExact) (hedge : edge ∈ g.successors u inv.relation)
    (h : follow g inv u known s edge = .ok s') :
    Shape g s' ∧ ∃ offered, propagate g inv u known edge = .ok offered ∧
      Taught (Monitor.ofInvariant inv) s edge.target offered s' := by
  rw [follow, Result.bind_ok] at h
  obtain ⟨offered, hoffered, h⟩ := h
  have hexact : offered.IsExact :=
    (StateSet.transition_spec hknown (fun hw => hx.delta hw u edge hedge)
      (propagate_ok hoffered).2).1
  have hlt := Graph.successors_target_lt hedge
  dsimp only at h
  split at h
  · cases h
  rename_i merged improved hmerge
  obtain ⟨hlearn, hsame, hgain⟩ := StateSet.merge_learns hset hexact hmerge
  have hgrew := StateSet.merge_grew hset hexact hmerge
  have hflag := hs.flag edge.target
  have hwrite := set_write hs.sets_size hlt merged
  have hshape := hs.write edge.target merged
  have htarget := (hwrite edge.target).trans (if_pos rfl)
  have hothers : ∀ w, w ≠ edge.target → _ = s.set w := fun w hw => (hwrite w).trans (if_neg hw)
  rw [← htarget] at hlearn
  change (if (!offered.isSubset (s.set edge.target) || improved) && !s.isQueued edge.target
    then _ else _) = _ at h
  have himproved : (!offered.isSubset (s.set edge.target) || improved) = improved := by
    cases improved with
    | true => simp
    | false =>
      cases hsub : offered.isSubset (s.set edge.target) with
      | true => rfl
      | false => cases hgrew hsub
  rw [himproved] at h
  by_cases hq : (improved && !s.isQueued edge.target) = true
  · rw [if_pos hq] at h
    cases h
    rw [Bool.and_eq_true, Bool.not_eq_true', ← Bool.not_eq_true, hflag] at hq
    exact ⟨hshape.enqueue hlt hq.2, offered, hoffered, ⟨hlearn, hothers⟩, rfl,
      .inr ⟨rfl, hgain hq.1⟩⟩
  · rw [if_neg hq] at h
    cases h
    refine ⟨hshape, offered, hoffered, ⟨hlearn, hothers⟩, rfl, .inl ⟨rfl, ?_⟩⟩
    cases improved with
    | false => exact .inr (htarget.trans (hsame rfl))
    | true => exact .inl (hflag.mp (by simpa using hq))

end

section
variable {g : Graph} {inv : Invariant} {m : Monitor} {s s' : State} {known offered : StateSet}
  {u v w : Nat} {edge : Edge}

theorem Told.grows {l : List (Phase × Entry)} (h : Told m s v l s') (w : Nat) :
    StateSet.Grows m (s.set w) (s'.set w) := by
  by_cases hw : w = v
  · rw [hw]
    exact h.learns.grows
  · rw [h.others w hw]
    exact .refl m _

/-- What is not in the queue was not before and has learned nothing. -/
theorem Taught.same (h : Taught m s v offered s') (hw : w ∉ s'.queue) :
    w ∉ s.queue ∧ s'.set w = s.set w := by
  rcases h.queue with ⟨hq, hv⟩ | ⟨hq, _⟩
  · rw [hq] at hw
    refine ⟨hw, ?_⟩
    by_cases hwv : w = v
    · subst hwv
      rcases hv with hin | hsame
      · exact absurd hin hw
      · exact hsame
    · exact h.others w hwv
  · rw [hq, List.mem_append, List.mem_singleton, not_or] at hw
    exact ⟨hw.1, h.others w hw.2⟩

/-- Every entry has arrived along a route, and the shortest come first. -/
structure Sound (g : Graph) (inv : Invariant) (s : State) : Prop where
  shape : Shape g s
  arrives : ∀ v p, ∀ e ∈ (s.set v).frontier p, Arrives g inv s.set v p e
  sorted : ∀ v, (s.set v).Sorted

theorem Sound.exact (hx : Exact g inv) (h : Sound g inv s) (v : Nat) : (s.set v).IsExact :=
  fun p e he => (h.arrives v p e he).exact hx

/-- A sound state stays sound if what its nodes are told has arrived. -/
theorem Sound.told {l : List (Phase × Entry)} (hs : Sound g inv s) (hshape : Shape g s')
    (h : Told (Monitor.ofInvariant inv) s v l s')
    (hl : ∀ p e, (p, e) ∈ l → Arrives g inv s'.set v p e) : Sound g inv s' where
  shape := hshape
  arrives w p e he := by
    by_cases hw : w = v
    · subst hw
      rcases h.learns.mem p e he with he | ⟨he, _⟩
      · exact (hs.arrives w p e he).mono h.grows
      · exact hl p e he
    · rw [h.others w hw] at he
      exact (hs.arrives w p e he).mono h.grows
  sorted w := by
    by_cases hw : w = v
    · rw [hw]
      exact h.learns.sorted (hs.sorted v)
    · rw [h.others w hw]
      exact hs.sorted w

/-- What a node is taught has arrived, one step after something that was known. -/
theorem Taught.arrives (hx : Exact g inv)
    (hknown : ∀ p, ∀ e ∈ known.frontier p, Arrives g inv s.set u p e)
    (hedge : edge ∈ g.successors u inv.relation)
    (hoffered : propagate g inv u known edge = .ok offered)
    (h : Taught (Monitor.ofInvariant inv) s edge.target offered s') :
    ∀ p e, (p, e) ∈ offered.entries → Arrives g inv s'.set edge.target p e ∧
      ∃ q, ∃ x ∈ known.frontier q, e.length = x.length + 1 := by
  obtain ⟨hdelta, htrans⟩ := propagate_ok hoffered
  obtain ⟨_, hfrom, _⟩ := StateSet.transition_spec (fun p e he => (hknown p e he).exact hx)
    (fun hw => hx.delta hw u edge hedge) htrans
  intro p e he
  have hcov := h.learns.covers p e he
  obtain ⟨q, x, hmem, c, hstep, rfl⟩ := hfrom p e (StateSet.mem_entries.mp he)
  exact ⟨.next ((hknown q x hmem).mono h.grows) hedge hdelta hstep hcov, q, x, hmem, rfl⟩

theorem follow_sound (hx : Exact g inv) (hs : Sound g inv s)
    (hknown : ∀ p, ∀ e ∈ known.frontier p, Arrives g inv s.set u p e)
    (hedge : edge ∈ g.successors u inv.relation) (h : follow g inv u known s edge = .ok s') :
    Sound g inv s' ∧ ∃ offered, propagate g inv u known edge = .ok offered ∧
      Taught (Monitor.ofInvariant inv) s edge.target offered s' := by
  have hexact : known.IsExact := fun p e he => (hknown p e he).exact hx
  obtain ⟨hshape, offered, hoffered, ht⟩ := follow_ok hx hs.shape hexact (hs.exact hx _) hedge h
  have harr := ht.arrives hx hknown hedge hoffered
  exact ⟨hs.told hshape ht.toTold fun p e he => (harr p e he).1, offered, hoffered, ht⟩

/-- All that is known at `u` has been passed along the edge, and its target covers it. -/
def Passes (g : Graph) (inv : Invariant) (u : Nat) (known : StateSet) (edge : Edge)
    (target : StateSet) : Prop :=
  ∀ p, ∀ e ∈ known.frontier p, edgeDelta inv u edge = .ok edge.delta ∧
    ∃ q c, (Monitor.ofInvariant inv).step p e.clock (g.letter inv edge.target)
        (edge.delta.getD .zero) = .ok (q, c) ∧
      target.Covers (Monitor.ofInvariant inv) q (e.length + 1) c

theorem Passes.mono {t t' : StateSet} (h : Passes g inv u known edge t)
    (hgrow : StateSet.Grows (Monitor.ofInvariant inv) t t') : Passes g inv u known edge t' := by
  intro p e he
  obtain ⟨hdelta, q, c, hstep, hcov⟩ := h p e he
  exact ⟨hdelta, q, c, hstep, hgrow q _ c hcov⟩

theorem Taught.passes (hx : Exact g inv) (hknown : known.IsExact)
    (hedge : edge ∈ g.successors u inv.relation)
    (hoffered : propagate g inv u known edge = .ok offered)
    (h : Taught (Monitor.ofInvariant inv) s edge.target offered s') :
    Passes g inv u known edge (s'.set edge.target) := by
  obtain ⟨hdelta, htrans⟩ := propagate_ok hoffered
  obtain ⟨_, _, hto⟩ :=
    StateSet.transition_spec hknown (fun hw => hx.delta hw u edge hedge) htrans
  intro p e he
  obtain ⟨q, c, hstep, x, hx, hlen, hlead⟩ := hto p e he
  have hcov := h.learns.covers q x (StateSet.mem_entries.mpr hx)
  exact ⟨hdelta, q, c, hstep, hcov.mono hlen hlead⟩

end
end EventInvariants.Exploration
