import EventInvariants.Proofs.Sign
import EventInvariants.Proofs.Termination

namespace EventInvariants

namespace Result
variable {ε ε' α α' β β' : Type}

/-- The second computation gives a related result wherever the first gives one. -/
def Refines (R : α → β → Prop) (x : Except ε α) (y : Except ε' β) : Prop :=
  ∀ a, x = .ok a → ∃ b, y = .ok b ∧ R a b

theorem Refines.ok {R : α → β → Prop} {a : α} {b : β} (h : R a b) :
    Refines R (.ok a : Except ε α) (.ok b : Except ε' β) := by
  rintro _ ⟨⟩
  exact ⟨b, rfl, h⟩

theorem Refines.bind {R : α → β → Prop} {S : α' → β' → Prop} {x : Except ε α} {y : Except ε' β}
    {f : α → Except ε α'} {g : β → Except ε' β'} (h : Refines R x y)
    (hf : ∀ a b, R a b → Refines S (f a) (g b)) : Refines S (x >>= f) (y >>= g) := by
  intro c hc
  obtain ⟨a, ha, hc⟩ := bind_ok.mp hc
  obtain ⟨b, rfl, hR⟩ := h a ha
  exact hf a b hR c hc

theorem Refines.foldlM {R : β → β' → Prop} {A : α → α' → Prop} {f : β → α → Except ε β}
    {g : β' → α' → Except ε' β'} {l : List α} {l' : List α'} {b : β} {b' : β'}
    (hl : List.Forall₂ A l l')
    (hstep : ∀ a a' b b', A a a' → R b b' → Refines R (f b a) (g b' a')) (hb : R b b') :
    Refines R (l.foldlM f b) (l'.foldlM g b') := by
  induction hl generalizing b b' with
  | nil => exact .ok hb
  | cons ha _ ih =>
    rw [List.foldlM_cons, List.foldlM_cons]
    exact (hstep _ _ b b' ha hb).bind fun _ _ h => ih h

end Result

/-- Histories of one length, and a clock with its reduct. -/
def Entry.Reduces (e e' : Entry) : Prop :=
  e'.length = e.length ∧ e.clock.Reduces e'.clock

theorem Entry.beats_reduces {m : Monitor} {x x' y y' : Entry} (hx : x.Reduces x')
    (hy : y.Reduces y') : Result.Refines Eq (beats m x y) (beats m x' y') := by
  unfold beats
  rw [hx.1, hy.1]
  split
  · intro v hv
    obtain ⟨o, ho, hv⟩ := Result.bind_ok.mp hv
    exact ⟨v, by rw [Monitor.severity_reduces hx.2 hy.2 ho]; exact hv, rfl⟩
  · exact .ok rfl

namespace Frontier
variable {m : Monitor} {new new' : Entry} {f f' : Frontier}

theorem survivors_reduces (hnew : new.Reduces new') (hf : List.Forall₂ Entry.Reduces f f') :
    Result.Refines (Option.Rel (List.Forall₂ Entry.Reduces)) (survivors? m new f)
      (survivors? m new' f') := by
  induction hf with
  | nil => exact .ok (.some .nil)
  | cons hold _ ih =>
    refine (Entry.beats_reduces hold hnew).bind ?_
    rintro won _ rfl
    cases won with
    | true => exact .ok .none
    | false =>
      refine (Entry.beats_reduces hnew hold).bind ?_
      rintro lost _ rfl
      refine ih.bind ?_
      rintro _ _ (hkept | _)
      · cases lost with
        | true => exact .ok (.some hkept)
        | false => exact .ok (.some (.cons hold hkept))
      · exact .ok .none

theorem insert_reduces (hnew : new.Reduces new') (hf : List.Forall₂ Entry.Reduces f f') :
    List.Forall₂ Entry.Reduces (insert new f) (insert new' f') := by
  induction hf with
  | nil => exact .cons hnew .nil
  | cons hold hrest ih =>
    rw [insert_cons, insert_cons, hold.1, hnew.1]
    split
    · exact .cons hold ih
    · exact .cons hnew (.cons hold hrest)

theorem offer_reduces (hnew : new.Reduces new') (hf : List.Forall₂ Entry.Reduces f f') :
    Result.Refines (Option.Rel (List.Forall₂ Entry.Reduces)) (f.offer? m new)
      (f'.offer? m new') := by
  refine (survivors_reduces hnew hf).bind ?_
  rintro _ _ (hkept | _)
  · exact .ok (.some (insert_reduces hnew hkept))
  · exact .ok .none

end Frontier

namespace StateSet
variable {m : Monitor} {s s' t t' : StateSet} {p : Phase} {e e' : Entry}

def Reduces (s s' : StateSet) : Prop :=
  ∀ p, List.Forall₂ Entry.Reduces (s.frontier p) (s'.frontier p)

theorem Reduces.empty : Reduces empty empty := by
  intro p
  rw [frontier_empty]
  exact .nil

theorem offer_reduces (hs : s.Reduces s') (he : e.Reduces e') :
    Result.Refines (Option.Rel Reduces) (s.offer? m p e) (s'.offer? m p e') := by
  refine (Frontier.offer_reduces he (hs p)).bind ?_
  rintro _ _ (hf | _)
  · refine .ok (.some fun q => ?_)
    rw [frontier_update, frontier_update]
    split
    · exact hf
    · exact hs q
  · exact .ok .none

theorem Reduces.entries (h : s.Reduces s') :
    List.Forall₂ (fun a b => b.1 = a.1 ∧ Entry.Reduces a.2 b.2) s.entries s'.entries := by
  refine List.rel_flatMap (R := Eq) (List.forall₂_refl phases) ?_
  rintro p _ rfl
  rw [List.forall₂_map_left_iff, List.forall₂_map_right_iff]
  exact (h p).imp fun _ _ he => ⟨rfl, he⟩

theorem Reduces.isSubset (hs : s.Reduces s') (ht : t.Reduces t') :
    s'.isSubset t' = s.isSubset t := by
  have hempty : ∀ {s s' : StateSet}, s.Reduces s' → ∀ p,
      (s'.frontier p).isEmpty = (s.frontier p).isEmpty := by
    intro s s' h p
    rw [Bool.eq_iff_iff, List.isEmpty_iff, List.isEmpty_iff, ← List.length_eq_zero_iff,
      ← List.length_eq_zero_iff, (h p).length_eq]
  simp only [StateSet.isSubset, hempty hs, hempty ht]

theorem begin_reduces {v : Nat} {l : Letter} (hm : ∀ w, m.window = some w → w.value = .zero)
    (hs : s.Reduces s') :
    Result.Refines (Option.Rel Reduces) (s.begin? m v l) (s'.begin? m v l) := by
  intro r hr
  obtain ⟨⟨p, c⟩, hread, hr⟩ := Result.bind_ok.mp hr
  have he : Entry.Reduces ⟨.root v, c⟩ ⟨.root v, c⟩ :=
    ⟨rfl, Monitor.initial_reduces hm hread⟩
  rw [begin?, hread]
  exact offer_reduces hs he r hr

theorem transition_reduces {v : Nat} {l : Letter} {delta : Option Time}
    (hm : ∀ w, m.window = some w → w.value = .zero)
    (hd : m.window ≠ none → (delta.getD .zero).checkNonNegative = .ok ()) (hs : s.Reduces s') :
    Result.Refines Reduces (s.transition m v l delta)
      (s'.transition m v l (delta.map Time.sign)) := by
  have hsign : (delta.map Time.sign).getD .zero = (delta.getD .zero).sign := by
    cases delta <;> rfl
  refine .foldlM hs.entries ?_ .empty
  rintro ⟨p, e⟩ ⟨_, e'⟩ next next' ⟨rfl, he⟩ hnext u hu
  obtain ⟨⟨q, c⟩, hstep, hu⟩ := Result.bind_ok.mp hu
  obtain ⟨c', hstep', hc⟩ := Monitor.step_reduces hm hd he.2 hstep
  have hnew : Entry.Reduces ⟨e.history.extend v delta, c⟩
      ⟨e'.history.extend v (delta.map Time.sign), c'⟩ := ⟨congrArg (· + 1) he.1, hc⟩
  obtain ⟨r, hr, hu⟩ := Result.bind_ok.mp hu
  obtain ⟨r', hr', hrel⟩ := offer_reduces hnext hnew r hr
  cases hu
  refine ⟨r'.getD next', by simp [hsign, hstep', hr'], ?_⟩
  cases hrel with
  | some h => exact h
  | none => exact hnext

theorem offerAll_reduces {l l' : List (Phase × Entry)} {added : Bool}
    (hl : List.Forall₂ (fun a b => b.1 = a.1 ∧ Entry.Reduces a.2 b.2) l l') (hs : s.Reduces s')
    (h : s.offerAll m l = (t, .ok added)) :
    ∃ t', s'.offerAll m l' = (t', .ok added) ∧ t.Reduces t' := by
  induction hl generalizing s s' added with
  | nil =>
    cases h
    exact ⟨s', rfl, hs⟩
  | @cons first first' rest rest' hfirst _ ih =>
    obtain ⟨p, e⟩ := first
    obtain ⟨_, e'⟩ := first'
    obtain ⟨rfl, he⟩ := hfirst
    rw [offerAll] at h ⊢
    split at h
    · cases h
    · rename_i hnone
      obtain ⟨_, hr', hrel⟩ := offer_reduces hs he _ hnone
      cases hrel
      rw [hr']
      exact ih hs h
    · rename_i u hsome
      obtain ⟨r', hr', hrel⟩ := offer_reduces hs he _ hsome
      cases hrel with
      | @some _ u' hu =>
        rw [hr']
        cases hrec : u.offerAll m rest with
        | mk t₁ answer =>
          rw [hrec] at h
          cases answer with
          | error fault => cases h
          | ok b =>
            cases h
            obtain ⟨t', ht', hred⟩ := ih hu hrec
            exact ⟨t', by simp [ht', Except.map], hred⟩

end StateSet

def Edge.sign (edge : Edge) : Edge :=
  { edge with delta := edge.delta.map Time.sign }

def Graph.signs (g : Graph) : Graph where
  nodes := g.nodes.map fun node => { node with edges := node.edges.map Edge.sign }
  target_lt := by
    simp only [Array.mem_map, Array.size_map, forall_exists_index, and_imp,
      forall_apply_eq_imp_iff₂]
    exact g.target_lt

namespace Graph
variable (g : Graph) (v : Nat)

@[simp] theorem size_signs : g.signs.size = g.size := by
  simp [signs, size]

@[simp] theorem isInitial_signs : g.signs.isInitial v = g.isInitial v := by
  cases h : g.nodes[v]? <;> simp [signs, isInitial, h]

@[simp] theorem letter_signs (inv : Invariant) : g.signs.letter inv v = g.letter inv v := by
  cases h : g.nodes[v]? <;> simp [letter, signs, hasEvent, isTerminal, h]

theorem initialNodes_signs : g.signs.initialNodes = g.initialNodes := by
  simp [initialNodes, ids, funext g.isInitial_signs]

theorem successors_signs (relation : Relation) :
    g.signs.successors v relation = (g.successors v relation).map Edge.sign := by
  cases h : g.nodes[v]? with
  | none => simp [successors, signs, h]
  | some node =>
    simp only [successors, signs, Array.getElem?_map, h, Option.map_some, Array.toList_map,
      List.filter_map]
    rfl

end Graph

namespace Exploration
variable {g : Graph} {inv : Invariant} {s s' : State} {u v : Nat} {known known' : StateSet}
  {edge : Edge}

/-- Exploration at one moment and, for the signs, at the same moment. -/
structure State.Reduces (s s' : State) : Prop where
  sets : ∀ v, (s.set v).Reduces (s'.set v)
  size : s'.sets.size = s.sets.size
  queue : s'.queue = s.queue
  queued : s'.queued = s.queued
  iterations : s'.iterations = s.iterations

theorem State.Reduces.write {t t' : StateSet} (h : s.Reduces s') (ht : t.Reduces t') (v : Nat) :
    State.Reduces { s with sets := s.sets.setIfInBounds v t }
      { s' with sets := s'.sets.setIfInBounds v t' } where
  sets w := by
    have hw := h.sets w
    simp only [State.set, Array.getD_eq_getD_getElem?, Array.getElem?_setIfInBounds, h.size]
      at hw ⊢
    split
    · split
      · exact ht
      · exact .empty
    · exact hw
  size := by simp [h.size]
  queue := h.queue
  queued := h.queued
  iterations := h.iterations

theorem State.Reduces.enqueue (h : s.Reduces s') (v : Nat) :
    (s.enqueue v).Reduces (s'.enqueue v) where
  sets := h.sets
  size := h.size
  queue := congrArg (· ++ [v]) h.queue
  queued := congrArg (·.setIfInBounds v true) h.queued
  iterations := h.iterations

theorem blank_reduces (g : Graph) : (blank g).Reduces (blank g.signs) where
  sets v := by
    rw [blank_set, blank_set]
    exact .empty
  size := by simp [blank]
  queue := rfl
  queued := by simp [blank]
  iterations := rfl

theorem edgeDelta_sign (h : edgeDelta inv u edge = .ok edge.delta) :
    edgeDelta inv u edge.sign = .ok edge.sign.delta := by
  unfold edgeDelta at h ⊢
  split
  · rfl
  · rename_i ht
    rw [if_neg ht] at h
    cases hd : edge.delta with
    | none =>
      rw [hd] at h
      cases h
    | some t => simp [Edge.sign, hd, Time.sign_nonneg]

section
variable (hm : ∀ w, (Monitor.ofInvariant inv).window = some w → w.value = .zero)
include hm

theorem propagate_reduces (hknown : known.Reduces known') :
    Result.Refines StateSet.Reduces (propagate g inv u known edge)
      (propagate g.signs inv u known' edge.sign) := by
  intro t ht
  obtain ⟨hdelta, ht⟩ := propagate_ok ht
  obtain ⟨t', ht', hred⟩ :=
    StateSet.transition_reduces hm (edgeDelta_ok hdelta).2 hknown t ht
  refine ⟨t', ?_, hred⟩
  rw [propagate, edgeDelta_sign hdelta, Result.ok_bind, Result.mapError_ok, Graph.letter_signs]
  exact ht'

theorem follow_reduces (hknown : known.Reduces known') (hs : s.Reduces s') :
    Result.Refines State.Reduces (follow g inv u known s edge)
      (follow g.signs inv u known' s' edge.sign) := by
  refine (propagate_reduces hm hknown).bind ?_
  intro t t' ht s₁ hs₁
  have htarget : edge.sign.target = edge.target := rfl
  have hgrew := ht.isSubset (hs.sets edge.target)
  dsimp only at hs₁ ⊢
  split at hs₁
  · cases hs₁
  · rename_i merged improved hmerge
    obtain ⟨merged', hmerge', hred⟩ :=
      StateSet.offerAll_reduces ht.entries (hs.sets edge.target) hmerge
    have hwrite := hs.write hred edge.target
    simp only [htarget, StateSet.merge, hmerge', hgrew]
    split at hs₁
    · rename_i hq
      cases hs₁
      rw [if_pos (by simpa only [State.isQueued, hs.queued] using hq)]
      exact ⟨_, rfl, hwrite.enqueue edge.target⟩
    · rename_i hq
      cases hs₁
      rw [if_neg (by simpa only [State.isQueued, hs.queued] using hq)]
      exact ⟨_, rfl, hwrite⟩

theorem visit_reduces {rest : List Nat} (hs : s.Reduces s') :
    Result.Refines State.Reduces (visit g inv s v rest) (visit g.signs inv s' v rest) := by
  have hedges : List.Forall₂ (fun edge edge' => edge' = Edge.sign edge)
      (g.successors v inv.relation) (g.signs.successors v inv.relation) := by
    rw [Graph.successors_signs, List.forall₂_map_right_iff, List.forall₂_same]
    exact fun _ _ => rfl
  refine Result.Refines.foldlM hedges ?_ ?_
  · rintro edge _ s₁ s₁' rfl hs₁
    exact follow_reduces hm (hs.sets v) hs₁
  · exact ⟨hs.sets, hs.size, rfl, congrArg (·.setIfInBounds v false) hs.queued,
      congrArg (· + 1) hs.iterations⟩

theorem seedNode_reduces (hs : s.Reduces s') :
    Result.Refines State.Reduces (seedNode g inv s v) (seedNode g.signs inv s' v) := by
  intro s₁ h
  unfold seedNode at h ⊢
  rw [Graph.letter_signs]
  split at h
  · cases h
  · rename_i hnone
    obtain ⟨_, hr, hrel⟩ := StateSet.begin_reduces hm (hs.sets v) _ hnone
    cases hrel
    cases h
    rw [hr]
    exact ⟨_, rfl, hs.enqueue v⟩
  · rename_i t hsome
    obtain ⟨_, hr, hrel⟩ := StateSet.begin_reduces hm (hs.sets v) _ hsome
    cases hrel with
    | @some _ t' ht =>
      cases h
      rw [hr]
      exact ⟨_, rfl, (hs.write ht v).enqueue v⟩

theorem seed_reduces (g : Graph) :
    Result.Refines State.Reduces (seed g inv) (seed g.signs inv) := by
  unfold seed
  rw [Graph.initialNodes_signs]
  refine .foldlM (A := Eq) (List.forall₂_refl _) ?_ (blank_reduces g)
  rintro v _ s s' rfl hs
  exact seedNode_reduces hm hs

/-- However many visits follow each other, as many follow each other for the signs. -/
theorem visits_reduce {s₁ : State} (hs : s.Reduces s')
    (h : Relation.ReflTransGen (Visits g inv) s s₁) :
    ∃ s₁', Relation.ReflTransGen (Visits g.signs inv) s' s₁' ∧ s₁.Reduces s₁' := by
  induction h with
  | refl => exact ⟨s', .refl, hs⟩
  | tail _ hvisit ih =>
    obtain ⟨t, hvisits, hred⟩ := ih
    obtain ⟨v, rest, hq, hvisit⟩ := hvisit
    obtain ⟨t', hvisit', hred'⟩ := visit_reduces hm hred _ hvisit
    exact ⟨t', hvisits.tail ⟨v, rest, hred.queue.trans hq, hvisit'⟩, hred'⟩

theorem signs_exact (g : Graph) : Exact g.signs inv where
  bound w hw := by
    rw [hm w hw]
    rfl
  delta _ v edge hedge := by
    rw [Graph.successors_signs] at hedge
    obtain ⟨edge, _, rfl⟩ := List.mem_map.mp hedge
    cases hd : edge.delta with
    | none => simp [Edge.sign, hd, Time.isFloat]
    | some t => simpa [Edge.sign, hd] using t.sign_not_float

/-- Under a bound of `zero`, exploration makes no more visits than were allowed for, whatever the
times are. -/
theorem visits_lt_of_zero {s₀ : State} (hseed : seed g inv = .ok s₀)
    (h : Relation.ReflTransGen (Visits g inv) s₀ s) : s.iterations < visitBound g inv := by
  have hx : Exact g.signs inv := signs_exact hm g
  obtain ⟨n, sample, hsample, hn⟩ := exists_sample hx
  obtain ⟨s₀', hseed', hred₀⟩ := seed_reduces hm g s₀ hseed
  obtain ⟨s', hvisits, hred⟩ := visits_reduce hm hred₀ h
  obtain ⟨hs, hshort, hqueue, hiter⟩ := seed_short hx hsample hseed'
  obtain ⟨_, _, hpaid⟩ := visits_paid hx hsample hs hshort hvisits
  have hlt : potential g.signs inv n sample s₀' < visitBound g.signs inv := potential_lt hn hqueue
  have hbound : visitBound g.signs inv = visitBound g inv := by
    simp [visitBound]
  have := hred.iterations
  omega

end

end Exploration
end EventInvariants
