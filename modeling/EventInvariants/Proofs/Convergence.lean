import EventInvariants.Proofs.Fixpoint
import Mathlib.Data.Finset.Prod
import Mathlib.Logic.Relation

namespace EventInvariants.Exploration

/-- Clocks `sample 0` to `sample (n - 1)` stand for all that arrive. -/
def Sampled (g : Graph) (inv : Invariant) (n : Nat) (sample : Nat → Clock) : Prop :=
  ∀ σ v p e, Arrives g inv σ v p e → ∃ i < n,
    (Monitor.ofInvariant inv).Leads e.clock (sample i) ∧
      (Monitor.ofInvariant inv).Leads (sample i) e.clock

/-- A node, a state of the monitor and the number of a clock. -/
abbrev Cell := Nat × Phase × Nat

def cells (g : Graph) (n : Nat) : Finset Cell :=
  Finset.range g.size ×ˢ StateSet.phases.toFinset ×ˢ Finset.range n

section
variable (g : Graph) (inv : Invariant) (n : Nat) (sample : Nat → Clock)

/-- A history of length at most `k` covers the cell. -/
def Reaches (s : State) (x : Cell) (k : Nat) : Prop :=
  (s.set x.1).Covers (Monitor.ofInvariant inv) x.2.1 k (sample x.2.2)

open Classical in
noncomputable def filled (s : State) : Finset Cell :=
  (cells g n).filter fun x => ∃ k, Reaches inv sample s x k

open Classical in
/-- The cells with the lengths at which they are not yet covered. -/
noncomputable def missing (s : State) : Finset (Cell × Nat) :=
  (cells g n ×ˢ Finset.range ((cells g n).card + 1)).filter fun x => ¬ Reaches inv sample s x.1 x.2

/-- No history is longer than the number of filled cells. -/
def Short (s : State) : Prop :=
  ∀ v p, ∀ e ∈ (s.set v).frontier p, e.length ≤ (filled g inv n sample s).card

/-- What goes down with every visit. -/
noncomputable def potential (s : State) : Nat :=
  (missing g inv n sample s).card + s.queue.length

end

section
variable {g : Graph} {inv : Invariant} {n : Nat} {sample : Nat → Clock} {s s' : State}
  {σ : Nat → StateSet} {v : Nat} {p : Phase} {e : Entry} {l : List (Phase × Entry)}

theorem mem_filled {x : Cell} :
    x ∈ filled g inv n sample s ↔ x ∈ cells g n ∧ ∃ k, Reaches inv sample s x k := by
  classical
  rw [filled, Finset.mem_filter]

theorem mem_missing {x : Cell} {k : Nat} :
    (x, k) ∈ missing g inv n sample s ↔
      (x ∈ cells g n ∧ k ≤ (cells g n).card) ∧ ¬ Reaches inv sample s x k := by
  classical
  rw [missing, Finset.mem_filter, Finset.mem_product, Finset.mem_range, Nat.lt_succ_iff]

theorem filled_card_le : (filled g inv n sample s).card ≤ (cells g n).card :=
  Finset.card_le_card fun _ hx => (mem_filled.mp hx).1

theorem mem_cells (hv : v < g.size) {i : Nat} (hi : i < n) : (v, p, i) ∈ cells g n := by
  simp only [cells, Finset.mem_product, Finset.mem_range, List.mem_toFinset]
  exact ⟨hv, by cases p <;> decide, hi⟩

theorem card_cells (g : Graph) (n : Nat) :
    (cells g n).card = g.size * (StateSet.phases.length * n) := by
  have hphases : StateSet.phases.toFinset.card = StateSet.phases.length := by decide
  rw [cells, Finset.card_product, Finset.card_product, Finset.card_range, Finset.card_range,
    hphases]

theorem filled_mono (hgrow : ∀ w, StateSet.Grows (Monitor.ofInvariant inv) (s.set w) (s'.set w)) :
    filled g inv n sample s ⊆ filled g inv n sample s' := by
  intro x hx
  obtain ⟨hcell, k, hk⟩ := mem_filled.mp hx
  exact mem_filled.mpr ⟨hcell, k, hgrow _ _ _ _ hk⟩

theorem missing_mono (hgrow : ∀ w, StateSet.Grows (Monitor.ofInvariant inv) (s.set w) (s'.set w)) :
    missing g inv n sample s' ⊆ missing g inv n sample s := by
  intro x hx
  obtain ⟨hcell, hk⟩ := mem_missing.mp hx
  exact mem_missing.mpr ⟨hcell, fun h => hk (hgrow _ _ _ _ h)⟩

/-- A new entry fills an empty cell or shortens the history in a filled one. -/
theorem Told.length_le (hsample : Sampled g inv n sample) (hshort : Short g inv n sample s)
    (ht : Told (Monitor.ofInvariant inv) s v l s') (he : (p, e) ∈ l)
    (harr : Arrives g inv σ v p e)
    (hlen : e.length ≤ (filled g inv n sample s).card + 1)
    (hnew : ¬ (s.set v).Covers (Monitor.ofInvariant inv) p e.length e.clock) :
    e.length ≤ (filled g inv n sample s').card := by
  obtain ⟨i, hi, hto, hfrom⟩ := hsample _ v p e harr
  have hmono : filled g inv n sample s ⊆ filled g inv n sample s' := filled_mono ht.grows
  by_cases hfull : (v, p, i) ∈ filled g inv n sample s
  · -- the entry in the cell is longer, or it would cover the new one
    obtain ⟨_, k, x, hx, _, hlead⟩ := mem_filled.mp hfull
    have hlt : ¬ x.length ≤ e.length := fun hle => hnew ⟨x, hx, hle, hlead.trans hfrom⟩
    have hx := hshort v p x hx
    have := Finset.card_le_card hmono
    omega
  · have hcov := (ht.learns.covers p e he).mono (Nat.le_refl _) hto
    have hin : (v, p, i) ∈ filled g inv n sample s' :=
      mem_filled.mpr ⟨mem_cells harr.lt hi, _, hcov⟩
    have hlt : (filled g inv n sample s).card < (filled g inv n sample s').card :=
      Finset.card_lt_card ⟨hmono, fun h => hfull (h hin)⟩
    omega

theorem Told.short (hsample : Sampled g inv n sample) (hshort : Short g inv n sample s)
    (ht : Told (Monitor.ofInvariant inv) s v l s')
    (hl : ∀ p e, (p, e) ∈ l →
      Arrives g inv s'.set v p e ∧ e.length ≤ (filled g inv n sample s).card + 1) :
    Short g inv n sample s' := by
  intro w p e he
  have hmono : (filled g inv n sample s).card ≤ (filled g inv n sample s').card :=
    Finset.card_le_card (filled_mono ht.grows)
  have hold : ∀ w, e ∈ (s.set w).frontier p → e.length ≤ (filled g inv n sample s').card :=
    fun w he => Nat.le_trans (hshort w p e he) hmono
  by_cases hw : w = v
  · subst hw
    rcases ht.learns.mem p e he with he | ⟨he, hnew⟩
    · exact hold w he
    · obtain ⟨harr, hlen⟩ := hl p e he
      exact ht.length_le hsample hshort he harr hlen hnew
  · rw [ht.others w hw] at he
    exact hold w he

theorem Told.missing_lt (hsample : Sampled g inv n sample) (hshort : Short g inv n sample s)
    (ht : Told (Monitor.ofInvariant inv) s v l s') (he : (p, e) ∈ l)
    (harr : Arrives g inv σ v p e)
    (hlen : e.length ≤ (filled g inv n sample s).card + 1)
    (hnew : ¬ (s.set v).Covers (Monitor.ofInvariant inv) p e.length e.clock) :
    (missing g inv n sample s').card < (missing g inv n sample s).card := by
  have hle := ht.length_le hsample hshort he harr hlen hnew
  obtain ⟨i, hi, hto, hfrom⟩ := hsample _ v p e harr
  have hin : ((v, p, i), e.length) ∈ missing g inv n sample s :=
    mem_missing.mpr ⟨⟨mem_cells harr.lt hi, Nat.le_trans hle filled_card_le⟩,
      fun hcov => hnew (StateSet.Covers.mono hcov (Nat.le_refl _) hfrom)⟩
  have hout : ((v, p, i), e.length) ∉ missing g inv n sample s' := by
    intro h
    exact (mem_missing.mp h).2 ((ht.learns.covers p e he).mono (Nat.le_refl _) hto)
  exact Finset.card_lt_card ⟨missing_mono ht.grows, fun h => hout (h hin)⟩

/-- A node is queued only for something that was missing. -/
theorem Taught.potential_le {offered : StateSet} (hsample : Sampled g inv n sample)
    (hshort : Short g inv n sample s) (ht : Taught (Monitor.ofInvariant inv) s v offered s')
    (hl : ∀ p e, (p, e) ∈ offered.entries →
      Arrives g inv s'.set v p e ∧ e.length ≤ (filled g inv n sample s).card + 1) :
    potential g inv n sample s' ≤ potential g inv n sample s := by
  unfold potential
  rcases ht.queue with ⟨hqueue, _⟩ | ⟨hqueue, p, e, he, hnew⟩
  · have hmono : (missing g inv n sample s').card ≤ (missing g inv n sample s).card :=
      Finset.card_le_card (missing_mono ht.grows)
    rw [hqueue]
    omega
  · have he := StateSet.mem_entries.mpr he
    obtain ⟨harr, hlen⟩ := hl p e he
    have := ht.toTold.missing_lt hsample hshort he harr hlen hnew
    rw [hqueue, List.length_append, List.length_singleton]
    omega

theorem visit_potential {rest : List Nat} (hx : Exact g inv) (hsample : Sampled g inv n sample)
    (hs : Sound g inv s) (hshort : Short g inv n sample s) (hq : s.queue = v :: rest)
    (h : visit g inv s v rest = .ok s') :
    Short g inv n sample s' ∧ potential g inv n sample s' < potential g inv n sample s := by
  have hstart : potential g inv n sample { s.dequeue v rest with iterations := s.iterations + 1 } <
      potential g inv n sample s := by
    change (missing g inv n sample s).card + rest.length < _
    rw [potential, hq, List.length_cons]
    omega
  refine (visit_keeps (I := fun _ s₁ => Short g inv n sample s₁ ∧
    potential g inv n sample s₁ < potential g inv n sample s) hx hs hq ⟨hshort, hstart⟩ ?_ h).2.2
  intro _ edge s₁ s₂ offered hedge _ hgrow hoffered ht hI
  obtain ⟨hshort₁, hpot⟩ := hI
  have hknown : ∀ p, ∀ e ∈ (s.set v).frontier p, Arrives g inv s₁.set v p e :=
    fun p e he => (hs.arrives v p e he).mono hgrow
  have hl : ∀ p e, (p, e) ∈ offered.entries → Arrives g inv s₂.set edge.target p e ∧
      e.length ≤ (filled g inv n sample s₁).card + 1 := by
    intro p e he
    obtain ⟨harr, q, x, hmem, hlen⟩ := ht.arrives hx hknown hedge hoffered p e he
    have hle := hshort v q x hmem
    have hmono : (filled g inv n sample s).card ≤ (filled g inv n sample s₁).card :=
      Finset.card_le_card (filled_mono hgrow)
    exact ⟨harr, by omega⟩
  exact ⟨ht.toTold.short hsample hshort₁ hl,
    Nat.lt_of_le_of_lt (ht.potential_le hsample hshort₁ hl) hpot⟩

theorem visit_iterations {rest : List Nat} (hx : Exact g inv) (hs : Sound g inv s)
    (hq : s.queue = v :: rest) (h : visit g inv s v rest = .ok s') :
    s'.iterations = s.iterations + 1 := by
  refine (visit_keeps (I := fun _ s₁ => s₁.iterations = s.iterations + 1) hx hs hq rfl ?_ h).2.2
  intro _ _ _ _ _ _ _ _ _ ht hI
  exact ht.iterations.trans hI

/-- One turn of the loop: the first node of the queue is visited. -/
def Visits (g : Graph) (inv : Invariant) (s s' : State) : Prop :=
  ∃ v rest, s.queue = v :: rest ∧ visit g inv s v rest = .ok s'

/-- However many visits follow each other, each is paid for with potential. -/
theorem visits_paid (hx : Exact g inv) (hsample : Sampled g inv n sample) (hs : Sound g inv s)
    (hshort : Short g inv n sample s) (h : Relation.ReflTransGen (Visits g inv) s s') :
    Sound g inv s' ∧ Short g inv n sample s' ∧
      potential g inv n sample s' + s'.iterations ≤ potential g inv n sample s + s.iterations := by
  induction h with
  | refl => exact ⟨hs, hshort, Nat.le_refl _⟩
  | tail _ hvisits ih =>
    obtain ⟨hs₁, hshort₁, hpaid⟩ := ih
    obtain ⟨v, rest, hq, hvisit⟩ := hvisits
    obtain ⟨hshort₂, hpot⟩ := visit_potential hx hsample hs₁ hshort₁ hq hvisit
    have hiter := visit_iterations hx hs₁ hq hvisit
    exact ⟨(visit_sound hx hs₁ hq hvisit).1, hshort₂, by omega⟩

/-- With more fuel than there is potential, only an empty queue ends an unlimited exploration. -/
theorem run_ends {fuel : Nat} {f : Fixpoint} (hx : Exact g inv)
    (hsample : Sampled g inv n sample) (hs : Sound g inv s) (hshort : Short g inv n sample s)
    (hfuel : potential g inv n sample s < fuel) (h : run g inv 0 fuel s = .ok f) :
    ∃ s', Relation.ReflTransGen (Visits g inv) s s' ∧ s'.queue = [] ∧
      f = ⟨s'.sets, s'.iterations, none⟩ := by
  induction fuel generalizing s with
  | zero => omega
  | succ fuel ih =>
    rw [run] at h
    split at h
    · rename_i hq
      cases h
      exact ⟨s, .refl, hq, rfl⟩
    · rename_i v rest hq
      obtain ⟨s₁, hvisit, h⟩ := Result.bind_ok.mp h
      obtain ⟨hshort₁, hpot⟩ := visit_potential hx hsample hs hshort hq hvisit
      obtain ⟨s', hvisits, hend⟩ :=
        ih (visit_sound hx hs hq hvisit).1 hshort₁ (by omega) h
      exact ⟨s', .head ⟨v, rest, hq, hvisit⟩ hvisits, hend⟩

theorem potential_lt (hn : n ≤ clocks inv) (hq : s.queue.length ≤ g.size) :
    potential g inv n sample s < visitBound g inv := by
  have hcells : (cells g n).card ≤ g.size * StateSet.phases.length * clocks inv := by
    rw [card_cells, Nat.mul_assoc]
    exact Nat.mul_le_mul_left _ (Nat.mul_le_mul_left _ hn)
  have hmissing : (missing g inv n sample s).card ≤ (cells g n).card * ((cells g n).card + 1) := by
    have hsub : missing g inv n sample s ⊆ cells g n ×ˢ Finset.range ((cells g n).card + 1) := by
      intro pair hx
      obtain ⟨x, k⟩ := pair
      obtain ⟨hcell, hk⟩ := (mem_missing.mp hx).1
      exact Finset.mem_product.mpr ⟨hcell, Finset.mem_range.mpr (Nat.lt_succ_of_le hk)⟩
    have := Finset.card_le_card hsub
    rwa [Finset.card_product, Finset.card_range] at this
  have hbound := Nat.mul_le_mul hcells (show (cells g n).card + 1 ≤
    g.size * StateSet.phases.length * clocks inv + 2 by omega)
  unfold potential visitBound
  dsimp only
  omega

theorem seed_short (hx : Exact g inv) (hsample : Sampled g inv n sample)
    (h : seed g inv = .ok s) :
    Sound g inv s ∧ Short g inv n sample s ∧ s.queue.length ≤ g.size ∧ s.iterations = 0 := by
  have hblank : Short g inv n sample (blank g) := by
    intro v p e he
    simp [blank_set] at he
  have hroot : ∀ s s' v p c, Told (Monitor.ofInvariant inv) s v [(p, ⟨.root v, c⟩)] s' →
      Arrives g inv s'.set v p ⟨.root v, c⟩ → Short g inv n sample s → Short g inv n sample s' := by
    intro s s' v p c ht harr hshort
    apply ht.short hsample hshort
    intro q e he
    cases List.mem_singleton.mp he
    exact ⟨harr, Nat.le_add_left 1 _⟩
  obtain ⟨hs, _, _, hqueue, hiter, hshort⟩ := seed_keeps hx hblank hroot h
  refine ⟨hs, hshort, ?_, hiter⟩
  rw [hqueue, Graph.initialNodes]
  exact Nat.le_trans (List.length_filter_le _ _) (by simp [Graph.ids])

theorem explore_ends {f : Fixpoint} (hx : Exact g inv) (hsample : Sampled g inv n sample)
    (hn : n ≤ clocks inv) (h : explore g inv 0 = .ok f) :
    ∃ s s', seed g inv = .ok s ∧ Relation.ReflTransGen (Visits g inv) s s' ∧ s'.queue = [] ∧
      f = ⟨s'.sets, s'.iterations, none⟩ := by
  obtain ⟨_, s, hseed, hrun⟩ := explore_seed h
  obtain ⟨hs, hshort, hqueue, _⟩ := seed_short hx hsample hseed
  obtain ⟨s', hend⟩ := run_ends hx hsample hs hshort (potential_lt hn hqueue) hrun
  exact ⟨s, s', hseed, hend⟩

theorem explore_limit {f : Fixpoint} (hx : Exact g inv) (hsample : Sampled g inv n sample)
    (hn : n ≤ clocks inv) (h : explore g inv 0 = .ok f) : f.limit = none := by
  obtain ⟨_, _, _, _, _, rfl⟩ := explore_ends hx hsample hn h
  rfl

end
end EventInvariants.Exploration
