import EventInvariants.Proofs.ExitCode
import Mathlib.Data.List.Induction
import Mathlib.Data.List.Nodup

namespace EventInvariants

/-- The bound is no double: to be equal does not mean the same for doubles, as `Time.nan` shows. -/
def Invariant.IsExact (inv : Invariant) : Prop :=
  ∀ w, inv.bound = some w → w.value.isFloat = false

theorem Invariant.isExact_iff {inv : Invariant} :
    inv.IsExact ↔ inv.bound.all (fun w => !w.value.isFloat) = true := by
  cases hb : inv.bound with
  | none => simp [IsExact, hb]
  | some w => simp [IsExact, hb]

instance (inv : Invariant) : Decidable inv.IsExact :=
  decidable_of_iff _ Invariant.isExact_iff.symm

/-- One invariant first occurs in the list when the other has not occurred yet. -/
def Invariant.OccursBefore (l : List Invariant) (inv other : Invariant) : Prop :=
  ∃ before, before <+: l ∧ inv ∈ before ∧ other ∉ before

theorem Invariant.OccursBefore.append {l : List Invariant} {inv other : Invariant}
    (h : OccursBefore l inv other) (rest : List Invariant) :
    OccursBefore (l ++ rest) inv other := by
  obtain ⟨before, hbefore, hinv, hother⟩ := h
  exact ⟨before, hbefore.trans (List.prefix_append l rest), hinv, hother⟩

theorem Invariant.beq_self {inv : Invariant} (h : inv.IsExact) : (inv == inv) = true := by
  obtain ⟨kind, a, b, relation, bound⟩ := inv
  have hbound : (bound == bound) = true := by
    cases bound with
    | none => rfl
    | some w =>
      obtain ⟨direction, value⟩ := w
      exact (Bool.and_eq_true _ _).mpr ⟨BEq.rfl, Time.beq_self (h _ rfl)⟩
  simp only [BEq.beq, instBEqInvariant.beq, Bool.and_eq_true, decide_eq_true_eq]
  exact ⟨trivial, trivial, trivial, trivial, hbound⟩

namespace InvariantSet

/-- One step of building a set. -/
inductive Addition where
  | one (inv : Invariant)
  | many (invs : List Invariant)

def Addition.invariants : Addition → List Invariant
  | one inv => [inv]
  | many invs => invs

def add (s : InvariantSet) : Addition → InvariantSet
  | .one inv => s.insert inv
  | .many invs => s.insertAll invs

def build (additions : List Addition) : InvariantSet :=
  additions.foldl add empty

/-- The invariants of all additions in order, repeated ones included. -/
def added (additions : List Addition) : List Invariant :=
  additions.flatMap Addition.invariants

/-- The members of a list, each one once and in the order of their first occurrences. -/
structure Collects (s : InvariantSet) (l : List Invariant) : Prop where
  distinct : s.items.Nodup
  mem_iff : ∀ inv, inv ∈ s.items ↔ inv ∈ l
  ordered : s.items.Pairwise (Invariant.OccursBefore l)

variable {s t : InvariantSet} {inv : Invariant} {l l' : List Invariant}

theorem contains_iff (h : inv.IsExact) : s.contains inv = true ↔ inv ∈ s.items := by
  rw [contains, List.contains_iff_exists_mem_beq]
  constructor
  · intro hc
    obtain ⟨other, hmem, heq⟩ := hc
    rw [Invariant.eq_of_beq h heq]
    exact hmem
  · exact fun hmem => ⟨inv, hmem, Invariant.beq_self h⟩

theorem Collects.insert (hs : s.Collects l) (h : inv.IsExact) :
    (s.insert inv).Collects (l ++ [inv]) := by
  unfold InvariantSet.insert
  by_cases hc : s.contains inv = true
  · have hmem := (hs.mem_iff inv).mp ((contains_iff h).mp hc)
    rw [if_pos hc]
    refine ⟨hs.distinct, ?_, hs.ordered.imp fun hxy => hxy.append [inv]⟩
    intro other
    rw [hs.mem_iff, List.mem_append, List.mem_singleton]
    constructor
    · exact .inl
    · intro hother
      rcases hother with hother | rfl
      · exact hother
      · exact hmem
  · have hmem := mt (contains_iff h).mpr hc
    rw [if_neg hc]
    refine ⟨by simpa using List.Nodup.concat hmem hs.distinct, ?_, ?_⟩
    · simp [hs.mem_iff]
    · refine List.pairwise_append.mpr
        ⟨hs.ordered.imp fun hxy => hxy.append [inv], List.pairwise_singleton _ _, ?_⟩
      intro other hother last hlast
      rw [List.mem_singleton.mp hlast]
      -- all of the list so far tells the two apart
      exact ⟨l, List.prefix_append l [inv], (hs.mem_iff other).mp hother,
        mt (hs.mem_iff inv).mpr hmem⟩

theorem ofList_collects (h : ∀ inv ∈ l, inv.IsExact) : (ofList l).Collects l := by
  induction l using List.reverseRecOn with
  | nil => exact ⟨List.nodup_nil, fun _ => Iff.rfl, .nil⟩
  | append_singleton l inv ih =>
    have hl := ih fun other hother => h other (List.mem_append_left [inv] hother)
    rw [ofList, insertAll, List.foldl_concat]
    exact hl.insert (h inv (by simp))

/-- Only the invariants that are added and their order matter. -/
theorem build_eq (additions : List Addition) : build additions = ofList (added additions) := by
  have hadd : ∀ (s : InvariantSet) (addition : Addition),
      s.add addition = s.insertAll addition.invariants := by
    intro s addition
    cases addition with
    | one inv => rfl
    | many invs => rfl
  rw [build, added, ofList, insertAll, List.foldl_flatMap]
  exact List.foldl_ext _ _ _ fun s addition _ => hadd s addition

/-- One inclusion between sets of the same size is equality. -/
theorem Collects.sameInvariants_iff (hs : s.Collects l) (ht : t.Collects l')
    (h : ∀ inv ∈ l, inv.IsExact) :
    s.sameInvariants t = true ↔ ∀ inv, inv ∈ l ↔ inv ∈ l' := by
  have hsub : s.items.all t.contains = true ↔ s.items ⊆ t.items := by
    rw [List.all_eq_true]
    exact forall₂_congr fun inv hinv => contains_iff (h inv ((hs.mem_iff inv).mp hinv))
  have hmem : (∀ inv, inv ∈ l ↔ inv ∈ l') ↔ s.items.Perm t.items := by
    simp only [← hs.mem_iff, ← ht.mem_iff]
    exact (List.perm_ext_iff_of_nodup hs.distinct ht.distinct).symm
  rw [sameInvariants, Bool.and_eq_true, hsub, hmem, decide_eq_true_eq]
  constructor
  · intro hsame
    exact (hs.distinct.subperm hsame.2).perm_of_length_le hsame.1.ge
  · exact fun hperm => ⟨hperm.length_eq, hperm.subset⟩

end InvariantSet

/-- Sets of invariants are sets. Without bounds that are doubles, a set that is built by adding
single invariants and lists in any mix has those invariants as members, each one once and in the
order of their first occurrences. Two such sets are found to be the same if and only if the same
invariants were added, whichever of the two is asked. -/
theorem sets_extensional {first second : List InvariantSet.Addition}
    (hfirst : ∀ inv ∈ InvariantSet.added first, inv.IsExact)
    (hsecond : ∀ inv ∈ InvariantSet.added second, inv.IsExact) :
    (InvariantSet.build first).Collects (InvariantSet.added first) ∧
      (∀ inv, inv.IsExact →
        ((InvariantSet.build first).contains inv = true ↔ inv ∈ InvariantSet.added first)) ∧
      ((InvariantSet.build first).sameInvariants (.build second) = true ↔
        ∀ inv, inv ∈ InvariantSet.added first ↔ inv ∈ InvariantSet.added second) ∧
      (InvariantSet.build first).sameInvariants (.build second) =
        (InvariantSet.build second).sameInvariants (.build first) := by
  have hs := InvariantSet.ofList_collects hfirst
  have ht := InvariantSet.ofList_collects hsecond
  rw [← InvariantSet.build_eq] at hs ht
  have hsame := hs.sameInvariants_iff ht hfirst
  have hsame' := ht.sameInvariants_iff hs hsecond
  refine ⟨hs, ?_, hsame, ?_⟩
  · intro inv hinv
    rw [InvariantSet.contains_iff hinv, hs.mem_iff]
  · rw [Bool.eq_iff_iff, hsame, hsame']
    exact forall_congr' fun inv => Iff.comm

/-- Three invariants, some of them added again. -/
def InvariantSet.mixed : List InvariantSet.Addition :=
  [.one .never, .many [.within [5, 5], .never, .response .upper 3], .one (.within [5, 5])]

/-- Two of them in another order, and more in between. -/
def InvariantSet.shuffled (more : List Invariant) : List InvariantSet.Addition :=
  [.many [.response .upper 3, .response .upper 3], .many more, .one .never]

theorem mixed_extensional :
    (∀ inv ∈ InvariantSet.added InvariantSet.mixed, inv.IsExact) ∧
      (InvariantSet.build InvariantSet.mixed).items =
        [.never, .within [5, 5], .response .upper 3] ∧
      (InvariantSet.build InvariantSet.mixed).Collects [.never, .within [5, 5], .never,
        .response .upper 3, .within [5, 5]] ∧
      (InvariantSet.build InvariantSet.mixed).sameInvariants
        (.build (InvariantSet.shuffled [.within [5, 5]])) = true ∧
      (InvariantSet.build (InvariantSet.shuffled [.within [5, 5]])).sameInvariants
        (.build InvariantSet.mixed) = true ∧
      (InvariantSet.build InvariantSet.mixed).sameInvariants
        (.build (InvariantSet.shuffled [])) = false := by
  have hmixed : ∀ inv ∈ InvariantSet.added InvariantSet.mixed, inv.IsExact := by decide
  have hless : ∀ inv ∈ InvariantSet.added (InvariantSet.shuffled []), inv.IsExact := by decide
  have hall : ∀ inv ∈ InvariantSet.added (InvariantSet.shuffled [.within [5, 5]]),
      inv.IsExact := by decide
  obtain ⟨hcollects, _, hsame, hcomm⟩ := sets_extensional hmixed hall
  obtain ⟨_, _, hdiffer, _⟩ := sets_extensional hmixed hless
  have htrue := hsame.mpr (by
    intro inv
    change inv ∈ [_, _, _, _, _] ↔ inv ∈ [_, _, _, _]
    simp only [List.mem_cons, List.not_mem_nil, or_false]
    tauto)
  refine ⟨hmixed, by cbv, hcollects, htrue, hcomm ▸ htrue, ?_⟩
  refine Bool.eq_false_iff.mpr (mt hdiffer.mp ?_)
  intro hmem
  have hwithin := (hmem (.within [5, 5])).mp (.tail _ (.head _))
  change Invariant.within [5, 5] ∈ [_, _, _] at hwithin
  simp [Invariant.within, Invariant.never, Invariant.response] at hwithin

end EventInvariants
