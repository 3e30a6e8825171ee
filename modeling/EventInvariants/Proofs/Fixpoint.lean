import EventInvariants.Proofs.Worklist

namespace EventInvariants.Exploration

section
variable {g : Graph} {inv : Invariant} {s s' : State} {v : Nat}

/-- A visit is a sequence of edges that are followed. What each of them keeps, the visit keeps; the
edges see what was known of the node at first. -/
theorem visit_keeps {I : List Edge → State → Prop} {rest : List Nat} (hx : Exact g inv)
    (hs : Sound g inv s) (hq : s.queue = v :: rest)
    (h0 : I [] { s.dequeue v rest with iterations := s.iterations + 1 })
    (hstep : ∀ done edge s₁ s₂ offered, edge ∈ g.successors v inv.relation →
      Sound g inv s₁ → (∀ w, StateSet.Grows (Monitor.ofInvariant inv) (s.set w) (s₁.set w)) →
      propagate g inv v (s.set v) edge = .ok offered →
      Taught (Monitor.ofInvariant inv) s₁ edge.target offered s₂ →
      I done s₁ → I (done ++ [edge]) s₂)
    (h : visit g inv s v rest = .ok s') :
    Sound g inv s' ∧ (∀ w, StateSet.Grows (Monitor.ofInvariant inv) (s.set w) (s'.set w)) ∧
      I (g.successors v inv.relation) s' := by
  have hstart : Sound g inv { s.dequeue v rest with iterations := s.iterations + 1 } := by
    obtain ⟨hsize, hqsize, hflag, hnodup⟩ := hs.shape.dequeue hq
    exact ⟨⟨hsize, hqsize, hflag, hnodup⟩, hs.arrives, hs.sorted⟩
  refine Result.foldlM_keeps (I := fun done s₁ => Sound g inv s₁ ∧
    (∀ w, StateSet.Grows (Monitor.ofInvariant inv) (s.set w) (s₁.set w)) ∧ I done s₁)
    (g.successors v inv.relation) ⟨hstart, fun w => .refl _ _, h0⟩ ?_ h
  intro done edge later s₁ s₂ hsplit hI h
  obtain ⟨hs₁, hgrow, hI⟩ := hI
  have hedge : edge ∈ g.successors v inv.relation := by simp [hsplit]
  have hknown : ∀ p, ∀ e ∈ (s.set v).frontier p, Arrives g inv s₁.set v p e :=
    fun p e he => (hs.arrives v p e he).mono hgrow
  obtain ⟨hs₂, offered, hoffered, ht⟩ := follow_sound hx hs₁ hknown hedge h
  exact ⟨hs₂, fun w => (hgrow w).trans (ht.grows w),
    hstep done edge s₁ s₂ offered hedge hs₁ hgrow hoffered ht hI⟩

/-- What is true of an edge once its target has been taught, and stays true while the target
grows. -/
structure Lasting (g : Graph) (inv : Invariant) (P : Nat → StateSet → Edge → StateSet → Prop) :
    Prop where
  taught : ∀ {u known edge offered s s'}, known.IsExact → edge ∈ g.successors u inv.relation →
    propagate g inv u known edge = .ok offered →
    Taught (Monitor.ofInvariant inv) s edge.target offered s' → P u known edge (s'.set edge.target)
  mono : ∀ {u known edge t t'}, P u known edge t →
    StateSet.Grows (Monitor.ofInvariant inv) t t' → P u known edge t'

theorem passes_lasting (hx : Exact g inv) : Lasting g inv (Passes g inv) :=
  ⟨Taught.passes hx, Passes.mono⟩

/-- It is true of every edge that leaves a node outside the queue. -/
def Steady (g : Graph) (inv : Invariant) (P : Nat → StateSet → Edge → StateSet → Prop)
    (s : State) : Prop :=
  ∀ w, w ∉ s.queue → ∀ edge ∈ g.successors w inv.relation,
    P w (s.set w) edge (s.set edge.target)

/-- While the edges of `v` are followed, all other nodes keep steady, and `v` is as it was taken or
back in the queue. -/
structure Visiting (g : Graph) (inv : Invariant) (P : Nat → StateSet → Edge → StateSet → Prop)
    (v : Nat) (known : StateSet) (done : List Edge) (s : State) : Prop where
  others : ∀ w, w ≠ v → w ∉ s.queue → ∀ edge ∈ g.successors w inv.relation,
    P w (s.set w) edge (s.set edge.target)
  same : v ∉ s.queue → s.set v = known
  passed : ∀ edge ∈ done, P v known edge (s.set edge.target)

section
variable {P : Nat → StateSet → Edge → StateSet → Prop} (hP : Lasting g inv P)
include hP

theorem Visiting.step {known offered : StateSet} {done : List Edge} {edge : Edge}
    (hknown : known.IsExact) (hedge : edge ∈ g.successors v inv.relation)
    (hoffered : propagate g inv v known edge = .ok offered)
    (ht : Taught (Monitor.ofInvariant inv) s edge.target offered s')
    (h : Visiting g inv P v known done s) : Visiting g inv P v known (done ++ [edge]) s' where
  others w hwv hw edge' hedge' := by
    obtain ⟨hw, hset⟩ := ht.same hw
    rw [hset]
    exact hP.mono (h.others w hwv hw edge' hedge') (ht.grows _)
  same hv := by
    obtain ⟨hv, hset⟩ := ht.same hv
    rw [hset]
    exact h.same hv
  passed edge' hedge' := by
    rcases List.mem_append.mp hedge' with hedge' | hedge'
    · exact hP.mono (h.passed edge' hedge') (ht.grows _)
    · cases List.mem_singleton.mp hedge'
      exact hP.taught hknown hedge hoffered ht

theorem visit_steady {rest : List Nat} (hx : Exact g inv) (hs : Sound g inv s)
    (hsteady : Steady g inv P s) (hq : s.queue = v :: rest) (h : visit g inv s v rest = .ok s') :
    Steady g inv P s' := by
  have hstart : Visiting g inv P v (s.set v) []
      { s.dequeue v rest with iterations := s.iterations + 1 } := by
    refine ⟨?_, fun _ => rfl, by simp⟩
    intro w hwv hw edge hedge
    refine hsteady w ?_ edge hedge
    rw [hq]
    exact fun hin => (List.mem_cons.mp hin).elim hwv hw
  obtain ⟨_, _, hend⟩ := visit_keeps (I := Visiting g inv P v (s.set v)) hx hs hq hstart
    (fun _ _ _ _ _ hedge _ _ hoffered ht hI => hI.step hP (hs.exact hx v) hedge hoffered ht) h
  intro w hw edge hedge
  by_cases hwv : w = v
  · subst hwv
    rw [hend.same hw]
    exact hend.passed edge hedge
  · exact hend.others w hwv hw edge hedge

end

/-- What every visit keeps holds when exploration stops; without a limit hit, nothing is left. -/
theorem run_keeps {I : State → Prop} {limit fuel : Nat} {f : Fixpoint}
    (hvisit : ∀ s v rest s', I s → s.queue = v :: rest → visit g inv s v rest = .ok s' → I s')
    (h0 : I s) (h : run g inv limit fuel s = .ok f) :
    ∃ s', I s' ∧ f.sets = s'.sets ∧ f.iterations = s'.iterations ∧
      (f.limit = none → s'.queue = []) := by
  induction fuel generalizing s with
  | zero =>
    cases h
    exact ⟨s, h0, rfl, rfl, by simp⟩
  | succ fuel ih =>
    rw [run] at h
    split at h
    · rename_i hq
      cases h
      exact ⟨s, h0, rfl, rfl, fun _ => hq⟩
    · rename_i v rest hq
      split at h
      · cases h
        exact ⟨s, h0, rfl, rfl, by simp⟩
      · obtain ⟨s₁, hs₁, h⟩ := Result.bind_ok.mp h
        exact ih (hvisit s v rest s₁ h0 hq hs₁) h

/-- Every initial node covers the path that starts there. -/
def Started (g : Graph) (inv : Invariant) (s : State) : Prop :=
  ∀ v, g.isInitial v = true → ∃ p c,
    (Monitor.ofInvariant inv).initial (g.letter inv v) = .ok (p, c) ∧
      (s.set v).Covers (Monitor.ofInvariant inv) p 1 c

theorem seedNode_ok (hx : Exact g inv) (hs : Sound g inv s) (hinit : g.isInitial v = true)
    (hout : v ∉ s.queue) (h : seedNode g inv s v = .ok s') :
    Sound g inv s' ∧ s'.queue = s.queue ++ [v] ∧ s'.iterations = s.iterations ∧
      ∃ p c, (Monitor.ofInvariant inv).initial (g.letter inv v) = .ok (p, c) ∧
        Told (Monitor.ofInvariant inv) s v [(p, ⟨.root v, c⟩)] s' := by
  have hlt := Graph.isInitial_lt hinit
  obtain ⟨r, hr, hshape, hqueue, hiter, hset, hothers⟩ : ∃ r,
      (s.set v).begin? (Monitor.ofInvariant inv) v (g.letter inv v) = .ok r ∧ Shape g s' ∧
        s'.queue = s.queue ++ [v] ∧ s'.iterations = s.iterations ∧
        s'.set v = r.getD (s.set v) ∧ ∀ w, w ≠ v → s'.set w = s.set w := by
    unfold seedNode at h
    split at h
    · cases h
    · rename_i hr
      cases h
      exact ⟨none, hr, hs.shape.enqueue hlt hout, rfl, rfl, rfl, fun _ _ => rfl⟩
    · rename_i t hr
      cases h
      have hwrite := set_write hs.shape.sets_size hlt t
      exact ⟨some t, hr, (hs.shape.write v t).enqueue hlt hout, rfl, rfl,
        (hwrite v).trans (if_pos rfl), fun w hw => (hwrite w).trans (if_neg hw)⟩
  obtain ⟨p, c, hread, hlearn⟩ := StateSet.begin_learns (hs.exact hx v) hr
  rw [← hset] at hlearn
  have ht : Told (Monitor.ofInvariant inv) s v [(p, ⟨.root v, c⟩)] s' := ⟨hlearn, hothers⟩
  refine ⟨hs.told hshape ht ?_, hqueue, hiter, p, c, hread, ht⟩
  intro q e he
  have hcov := hlearn.covers q e he
  cases List.mem_singleton.mp he
  exact .start hinit hread hcov

theorem blank_set (g : Graph) (v : Nat) : (blank g).set v = .empty := by
  simp only [State.set, blank, Array.getD_eq_getD_getElem?, Array.getElem?_replicate]
  split <;> rfl

theorem blank_sound (g : Graph) (inv : Invariant) : Sound g inv (blank g) where
  shape := by
    refine ⟨by simp [blank], by simp [blank], ?_, List.nodup_nil⟩
    intro v
    simp only [State.isQueued, blank, Array.getD_eq_getD_getElem?, Array.getElem?_replicate]
    split <;> simp
  arrives v p e he := by simp [blank_set] at he
  sorted v p := by simp [blank_set, Frontier.Sorted]

theorem initialNodes_fresh {done rest : List Nat} (h : g.initialNodes = done ++ v :: rest) :
    v ∉ done := by
  have hnodup : g.initialNodes.Nodup := List.Pairwise.filter _ List.nodup_range
  rw [h, List.nodup_append] at hnodup
  exact fun hv => hnodup.2.2 v hv v List.mem_cons_self rfl

/-- Seeding is a sequence of nodes that are told of the path which starts there. What each keeps,
seeding keeps. -/
theorem seed_keeps {I : State → Prop} (hx : Exact g inv) (h0 : I (blank g))
    (hstep : ∀ s s' v p c, Told (Monitor.ofInvariant inv) s v [(p, ⟨.root v, c⟩)] s' →
      Arrives g inv s'.set v p ⟨.root v, c⟩ → I s → I s')
    (h : seed g inv = .ok s) :
    Sound g inv s ∧ Started g inv s ∧ (∀ w, w ∉ s.queue → s.set w = .empty) ∧
      s.queue = g.initialNodes ∧ s.iterations = 0 ∧ I s := by
  have hfold := Result.foldlM_keeps (I := fun done s => Sound g inv s ∧ s.queue = done ∧
      s.iterations = 0 ∧ I s ∧ (∀ w, w ∉ done → s.set w = .empty) ∧
      ∀ v ∈ done, ∃ p c, (Monitor.ofInvariant inv).initial (g.letter inv v) = .ok (p, c) ∧
        (s.set v).Covers (Monitor.ofInvariant inv) p 1 c)
    g.initialNodes ⟨blank_sound g inv, rfl, rfl, h0, fun w _ => blank_set g w, by simp⟩ ?_ h
  · obtain ⟨hs, hqueue, hiter, hI, hempty, hstarted⟩ := hfold
    exact ⟨hs, fun v hv => hstarted v (Graph.mem_initialNodes.mpr hv), hqueue ▸ hempty, hqueue,
      hiter, hI⟩
  · intro done v rest s₁ s₂ hsplit hI₁ h
    obtain ⟨hs, hqueue, hiter, hI, hempty, hstarted⟩ := hI₁
    have hinit : g.isInitial v = true := Graph.mem_initialNodes.mp (by simp [hsplit])
    have hout : v ∉ s₁.queue := hqueue ▸ initialNodes_fresh hsplit
    obtain ⟨hs₂, hqueue₂, hiter₂, p, c, hread, ht⟩ := seedNode_ok hx hs hinit hout h
    have hcov := ht.learns.covers p _ (List.mem_singleton.mpr rfl)
    refine ⟨hs₂, by rw [hqueue₂, hqueue], by rw [hiter₂, hiter],
      hstep s₁ s₂ v p c ht (.start hinit hread hcov) hI, ?_, ?_⟩
    · intro w hw
      rw [List.mem_append, List.mem_singleton, not_or] at hw
      rw [ht.others w hw.2]
      exact hempty w hw.1
    · intro w hw
      rcases List.mem_append.mp hw with hw | hw
      · obtain ⟨q, b, hq, hcov⟩ := hstarted w hw
        exact ⟨q, b, hq, ht.grows w _ _ _ hcov⟩
      · cases List.mem_singleton.mp hw
        exact ⟨p, c, hread, hcov⟩

theorem explore_seed {limit : Nat} {f : Fixpoint} (h : explore g inv limit = .ok f) :
    inv.validate g = .ok () ∧
      ∃ s, seed g inv = .ok s ∧ run g inv limit (visitBound g inv) s = .ok f := by
  unfold explore at h
  split at h
  · cases h
  · rename_i hv
    exact ⟨hv, Result.bind_ok.mp h⟩

theorem Started.grows (h : Started g inv s)
    (hgrow : ∀ w, StateSet.Grows (Monitor.ofInvariant inv) (s.set w) (s'.set w)) :
    Started g inv s' := by
  intro v hv
  obtain ⟨p, c, hread, hcov⟩ := h v hv
  exact ⟨p, c, hread, hgrow v p 1 c hcov⟩

theorem visit_sound {rest : List Nat} (hx : Exact g inv) (hs : Sound g inv s)
    (hq : s.queue = v :: rest) (h : visit g inv s v rest = .ok s') :
    Sound g inv s' ∧ ∀ w, StateSet.Grows (Monitor.ofInvariant inv) (s.set w) (s'.set w) := by
  obtain ⟨hs', hgrow, _⟩ := visit_keeps (I := fun _ _ => True) hx hs hq trivial
    (fun _ _ _ _ _ _ _ _ _ _ _ => trivial) h
  exact ⟨hs', hgrow⟩

/-- The states of an exploration at the head of its loop, where it looks at its queue. -/
inductive AtHead (g : Graph) (inv : Invariant) : State → Prop where
  | seeded {s : State} (hv : inv.validate g = .ok ()) (h : seed g inv = .ok s) : AtHead g inv s
  | visited {s s' : State} {v : Nat} {rest : List Nat} (hs : AtHead g inv s)
      (hq : s.queue = v :: rest) (h : visit g inv s v rest = .ok s') : AtHead g inv s'

theorem explore_atHead {limit : Nat} {f : Fixpoint} (h : explore g inv limit = .ok f) :
    ∃ s, AtHead g inv s ∧ f.sets = s.sets ∧ f.iterations = s.iterations ∧
      (f.limit = none → s.queue = []) := by
  obtain ⟨hv, s₀, hseed, hrun⟩ := explore_seed h
  exact run_keeps (fun _ _ _ _ hs hq hvisit => hs.visited hq hvisit) (.seeded hv hseed) hrun

/-- What lasts, and asks nothing of a node that was never reached, is true at the head of the loop
of all edges whose source is not in the queue. -/
theorem AtHead.steady {P : Nat → StateSet → Edge → StateSet → Prop} (hx : Exact g inv)
    (hP : Lasting g inv P) (hempty : ∀ u edge t, P u .empty edge t) (h : AtHead g inv s) :
    Sound g inv s ∧ Started g inv s ∧ Steady g inv P s := by
  induction h with
  | seeded _ hseed =>
    obtain ⟨hs, hstart, hblank, _⟩ := seed_keeps (I := fun _ => True) hx trivial
      (fun _ _ _ _ _ _ _ _ => trivial) hseed
    refine ⟨hs, hstart, ?_⟩
    intro w hw edge _
    rw [hblank w hw]
    exact hempty w edge _
  | visited _ hq hvisit ih =>
    obtain ⟨hs, hstart, hsteady⟩ := ih
    obtain ⟨hs', hgrow⟩ := visit_sound hx hs hq hvisit
    exact ⟨hs', hstart.grows hgrow, visit_steady hP hx hs hsteady hq hvisit⟩

/-- The state in which exploration stops, and what is true of its edges. -/
theorem explore_steady {P : Nat → StateSet → Edge → StateSet → Prop} {limit : Nat} {f : Fixpoint}
    (hx : Exact g inv) (hP : Lasting g inv P) (hempty : ∀ u edge t, P u .empty edge t)
    (h : explore g inv limit = .ok f) :
    ∃ s, Sound g inv s ∧ Started g inv s ∧ Steady g inv P s ∧ f.set = s.set ∧
      f.iterations = s.iterations ∧ (f.limit = none → s.queue = []) := by
  obtain ⟨s, hhead, hsets, hrest⟩ := explore_atHead h
  obtain ⟨hs, hstart, hsteady⟩ := hhead.steady hx hP hempty
  refine ⟨s, hs, hstart, hsteady, ?_, hrest⟩
  funext v
  rw [Fixpoint.set, State.set, hsets]

/-- When exploration stops, every node outside the queue has passed on all it knows; if it was not
stopped, no node is left in the queue. -/
theorem explore_ok {limit : Nat} {f : Fixpoint} (hx : Exact g inv)
    (h : explore g inv limit = .ok f) :
    ∃ s, Sound g inv s ∧ Started g inv s ∧ Steady g inv (Passes g inv) s ∧ f.set = s.set ∧
      f.iterations = s.iterations ∧ (f.limit = none → s.queue = []) :=
  explore_steady hx (passes_lasting hx) (fun _ _ _ p e he => by simp at he) h

theorem explore_sound {limit : Nat} {f : Fixpoint} (hx : Exact g inv)
    (h : explore g inv limit = .ok f) :
    (∀ v p, ∀ e ∈ (f.set v).frontier p, Arrives g inv f.set v p e) ∧ ∀ v, (f.set v).Sorted := by
  obtain ⟨s, hs, _, _, hset, _⟩ := explore_ok hx h
  rw [hset]
  exact ⟨hs.arrives, hs.sorted⟩

end
end EventInvariants.Exploration
