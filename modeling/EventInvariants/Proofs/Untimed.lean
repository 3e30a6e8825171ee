import EventInvariants.Proofs.Built
import EventInvariants.Proofs.Fixpoint
import EventInvariants.Proofs.Progress

namespace EventInvariants

section
variable {m : Monitor} (hm : m.window = none)
include hm

theorem StateSet.offer_total (s : StateSet) (p : Phase) (e : Entry) :
    ∃ r, s.offer? m p e = .ok r := by
  cases hr : s.offer? m p e with
  | ok r => exact ⟨r, rfl⟩
  | error fault =>
    obtain ⟨x, _, hfault | hfault⟩ := offer_fault hr
    · rw [Monitor.severity_untimed hm] at hfault
      cases hfault
    · rw [Monitor.severity_untimed hm] at hfault
      cases hfault

theorem StateSet.begin_total (s : StateSet) (v : Nat) (l : Letter) :
    ∃ r, s.begin? m v l = .ok r := by
  obtain ⟨p, c, hread, _⟩ :=
    Monitor.enter_total (by simp [hm]) (Monitor.start_mem_phases m) .idle l
  rw [begin?, Monitor.initial, hread]
  exact StateSet.offer_total hm s p _

theorem StateSet.transition_total {s : StateSet} (hs : ∀ p, ∀ e ∈ s.frontier p, p ∈ m.phases)
    (v : Nat) (l : Letter) (delta : Option Time) : ∃ t, s.transition m v l delta = .ok t := by
  refine Result.foldlM_total s.entries ?_ empty
  intro pe he next
  obtain ⟨p, e⟩ := pe
  obtain ⟨q, c, hstep, _⟩ :=
    Monitor.step_total hm (hs p e (mem_entries.mp he)) e.clock l (delta.getD .zero)
  obtain ⟨r, hr⟩ := StateSet.offer_total hm next q ⟨e.history.extend v delta, c⟩
  exact ⟨r.getD next, by simp [hstep, hr]⟩

theorem StateSet.merge_total (s t : StateSet) : ∃ u improved, s.merge m t = (u, .ok improved) := by
  have hoffer : ∀ {s p e}, True → True →
      Result.Ends (fun _ => True) (fun _ => False) (StateSet.offer? m s p e) := by
    intro s p e _ _
    obtain ⟨r, hr⟩ := StateSet.offer_total hm s p e
    rw [hr]
    trivial
  obtain ⟨_, hends⟩ := offerAll_ends (P := fun _ _ => True) (I := fun _ => True) hoffer (s := s)
    trivial (l := t.entries) fun _ _ _ => trivial
  obtain ⟨improved, hok, _⟩ := hends.total
  exact ⟨_, improved, Prod.ext rfl hok⟩

end

namespace Exploration
variable {g : Graph} {inv : Invariant}

theorem Arrives.phase {σ : Nat → StateSet} {v : Nat} {p : Phase} {e : Entry}
    (hw : (Monitor.ofInvariant inv).window = none) (h : Arrives g inv σ v p e) :
    p ∈ (Monitor.ofInvariant inv).phases := by
  induction h with
  | @start v p c _ hread _ =>
    obtain ⟨q, b, hq, hmem⟩ := Monitor.enter_total (m := Monitor.ofInvariant inv) (by simp [hw])
      (Monitor.start_mem_phases _) .idle (g.letter inv v)
    rw [Monitor.initial, hq] at hread
    cases hread
    exact hmem
  | @next u p q e edge c _ _ _ hstep _ ih =>
    obtain ⟨r, b, hr, hmem⟩ := Monitor.step_total hw ih e.clock (g.letter inv edge.target)
      (edge.delta.getD .zero)
    rw [hr] at hstep
    cases hstep
    exact hmem

variable (hw : (Monitor.ofInvariant inv).window = none)
include hw

theorem follow_total {known : StateSet}
    (hknown : ∀ p, ∀ e ∈ known.frontier p, p ∈ (Monitor.ofInvariant inv).phases) (u : Nat)
    (s : State) (edge : Edge) : ∃ s', follow g inv u known s edge = .ok s' := by
  obtain ⟨offered, hoffered⟩ := StateSet.transition_total hw hknown edge.target
    (g.letter inv edge.target) edge.delta
  obtain ⟨merged, improved, hmerge⟩ := StateSet.merge_total hw (s.set edge.target) offered
  have hdelta : edgeDelta inv u edge = .ok edge.delta := by
    rw [edgeDelta, Monitor.window_none_iff.mp hw]
    rfl
  simp only [follow, propagate, hdelta, Result.ok_bind, hoffered, Except.mapError, hmerge]
  split
  · exact ⟨_, rfl⟩
  · exact ⟨_, rfl⟩

theorem visit_total {s : State} (hs : Sound g inv s) (v : Nat) (rest : List Nat) :
    ∃ s', visit g inv s v rest = .ok s' := by
  have hknown : ∀ p, ∀ e ∈ (s.set v).frontier p, p ∈ (Monitor.ofInvariant inv).phases :=
    fun p e he => (hs.arrives v p e he).phase hw
  exact Result.foldlM_total _ (fun edge _ s₁ => follow_total hw hknown v s₁ edge) _

theorem seed_total : ∃ s, seed g inv = .ok s := by
  refine Result.foldlM_total g.initialNodes ?_ (blank g)
  intro v _ s
  obtain ⟨r, hr⟩ := StateSet.begin_total hw (s.set v) v (g.letter inv v)
  simp only [seedNode, hr]
  cases r with
  | none => exact ⟨_, rfl⟩
  | some t => exact ⟨_, rfl⟩

theorem run_total {s : State} (hx : Exact g inv) (hs : Sound g inv s) (limit fuel : Nat) :
    ∃ f, run g inv limit fuel s = .ok f := by
  induction fuel generalizing s with
  | zero => exact ⟨_, rfl⟩
  | succ fuel ih =>
    rw [run]
    split
    · exact ⟨_, rfl⟩
    · rename_i v rest hq
      split
      · exact ⟨_, rfl⟩
      · obtain ⟨s₁, hvisit⟩ := visit_total hw hs v rest
        rw [hvisit]
        exact ih (visit_sound hx hs hq hvisit).1

theorem explore_total (hx : Exact g inv) (hv : inv.validate g = .ok ()) (limit : Nat) :
    ∃ f, explore g inv limit = .ok f := by
  obtain ⟨s, hseed⟩ := seed_total (g := g) hw
  obtain ⟨hs, _⟩ := seed_keeps (I := fun _ => True) hx trivial
    (fun _ _ _ _ _ _ _ _ => trivial) hseed
  obtain ⟨f, hf⟩ := run_total hw hx hs limit (visitBound g inv)
  refine ⟨f, ?_⟩
  rw [explore, hv]
  dsimp only
  rw [exploreValid, hseed]
  exact hf

end Exploration
end EventInvariants
