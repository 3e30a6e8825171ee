import EventInvariants.Proofs.Reachability
import Mathlib.Algebra.BigOperators.Group.Finset.Basic
import Mathlib.Data.Set.Card

namespace EventInvariants

namespace Closure

/-- A path of one edge or more along the relation, given by its nodes. None of them, the ends
included, has the excluded event. -/
def Connects (g : Graph) (relation : Relation) (excluded : Option Event) (u v : Nat) : Prop :=
  ∃ path : List Nat, 2 ≤ path.length ∧ path.head? = some u ∧ path.getLast? = some v ∧
    path.IsChain (fun x y => ∃ edge ∈ g.successors x relation, edge.target = y) ∧
    ∀ x ∈ path, ∀ event, excluded = some event → g.hasEvent x event = false

section
variable {g : Graph} {relation : Relation} {excluded : Option Event} {u v : Nat}

theorem allows_iff : allows g excluded v = true ↔
    ∀ event, excluded = some event → g.hasEvent v event = false := by
  cases excluded <;> simp [allows]

theorem hops_of_chain {rest : List Nat}
    (hchain : (u :: v :: rest).IsChain
      (fun x y => ∃ edge ∈ g.successors x relation, edge.target = y))
    (hallow : ∀ x ∈ u :: v :: rest, allows g excluded x = true) :
    Relation.TransGen (Hop g relation excluded) u ((v :: rest).getLast (by simp)) := by
  induction rest generalizing u v with
  | nil =>
    apply Relation.TransGen.single
    exact ⟨hallow u (by simp), (List.isChain_cons_cons.mp hchain).1, hallow v (by simp)⟩
  | cons w rest ih =>
    obtain ⟨hedge, hchain⟩ := List.isChain_cons_cons.mp hchain
    have hhop : Hop g relation excluded u v :=
      ⟨hallow u (by simp), hedge, hallow v (by simp)⟩
    rw [List.getLast_cons (by simp)]
    apply Relation.TransGen.head hhop
    exact ih hchain fun x hx => hallow x (List.mem_cons_of_mem u hx)

theorem connects_of_hops (h : Relation.TransGen (Hop g relation excluded) u v) :
    Connects g relation excluded u v := by
  induction h with
  | single hop =>
    obtain ⟨hu, hedge, hv⟩ := hop
    refine ⟨[u, _], by simp, rfl, rfl, by simpa using hedge, ?_⟩
    intro x hx
    rcases List.mem_pair.mp hx with rfl | rfl
    · exact allows_iff.mp hu
    · exact allows_iff.mp hv
  | @tail v w _ hop ih =>
    obtain ⟨_, hedge, hw⟩ := hop
    obtain ⟨path, hlen, hhead, hlast, hchain, hallow⟩ := ih
    refine ⟨path ++ [w], by simp; omega, ?_, by simp, ?_, ?_⟩
    · rw [List.head?_append, hhead]
      rfl
    · rw [List.isChain_append]
      refine ⟨hchain, by simp, ?_⟩
      intro x hx y hy
      rw [hlast] at hx
      cases hx
      cases hy
      exact hedge
    · intro x hx
      rcases List.mem_append.mp hx with hx | hx
      · exact hallow x hx
      · cases List.mem_singleton.mp hx
        exact allows_iff.mp hw

theorem connects_iff : Connects g relation excluded u v ↔
    Relation.TransGen (Hop g relation excluded) u v := by
  constructor
  · rintro ⟨path, hlen, hhead, hlast, hchain, hallow⟩
    match path, hlen with
    | x :: y :: rest, _ =>
      obtain rfl : x = u := by simpa using hhead
      obtain rfl : (y :: rest).getLast (by simp) = v := by
        rw [List.getLast?_cons_cons, List.getLast?_eq_some_getLast (by simp)] at hlast
        simpa using hlast
      exact hops_of_chain hchain fun x hx => allows_iff.mpr (hallow x hx)
  · exact connects_of_hops

theorem Connects.lt (h : Connects g relation excluded u v) : u < g.size ∧ v < g.size :=
  hops_lt (connects_iff.mp h)

theorem isReachable_iff : (build g relation excluded).isReachable u v = true ↔
    Connects g relation excluded u v :=
  isReachable_build.trans connects_iff.symm

end

/-- The bits of a later word stand for later nodes. -/
theorem reachableFrom_ascending (c : Closure) (u : Nat) :
    (c.reachableFrom u).Pairwise (· < ·) := by
  unfold reachableFrom
  dsimp only
  generalize (if u < c.size then c.row u else #[]).toList = words
  rw [List.pairwise_flatMap]
  constructor
  · intro word _
    rw [List.pairwise_map]
    exact (List.pairwise_lt_range.filter _).imp fun h => Nat.add_lt_add_left h _
  · have hindex : words.zipIdx.Pairwise fun a b => a.2 < b.2 := by
      rw [← List.pairwise_map, List.zipIdx_map_snd]
      exact List.pairwise_lt_range'
    refine hindex.imp fun hlt x hx y hy => ?_
    obtain ⟨b, hb, rfl⟩ := List.mem_map.mp hx
    obtain ⟨b', _, rfl⟩ := List.mem_map.mp hy
    have := List.mem_range.mp (List.mem_filter.mp hb).1
    omega

def bits (words : Array UInt64) : Finset Nat :=
  (Finset.range (words.size * 64)).filter fun k => bitAt words k = true

section
variable {words words' : Array UInt64} {k : Nat}

theorem mem_bits : k ∈ bits words ↔ bitAt words k = true := by
  rw [bits, Finset.mem_filter, Finset.mem_range]
  refine ⟨And.right, fun h => ⟨?_, h⟩⟩
  by_contra hout
  rw [bitAt, Array.getD_eq_getD_getElem?, Array.getElem?_eq_none (by omega), Option.getD_none,
    hasBit_zero] at h
  cases h

theorem card_bits (words : Array UInt64) :
    (bits words).card = (List.range (words.size * 64)).countP (bitAt words) := by
  rw [bits, Finset.card_def, Finset.filter_val, Finset.range_val, Multiset.range,
    Multiset.filter_coe, Multiset.coe_card, List.countP_eq_length_filter]
  simp

theorem zeros_add_card (words : Array UInt64) :
    zeros words + (bits words).card = words.size * 64 := by
  have hlength := List.length_eq_countP_add_countP (bitAt words) (l := List.range (words.size * 64))
  simp only [List.length_range, Bool.not_eq_true, Bool.decide_eq_false] at hlength
  rw [card_bits, zeros, Nat.add_comm, ← hlength]

theorem sum_countOnes (words : List UInt64) : (words.map countOnes).foldr (· + ·) 0 =
    (List.range (words.length * 64)).countP (bitAt words.toArray) := by
  rw [← List.sum_eq_foldr]
  induction words using List.reverseRecOn with
  | nil => rfl
  | append_singleton words word ih =>
    have hfront : (List.range (words.length * 64)).countP (bitAt (words ++ [word]).toArray) =
        (List.range (words.length * 64)).countP (bitAt words.toArray) := by
      apply List.countP_congr
      intro k hk
      have hword : k / 64 < words.length := by
        have := List.mem_range.mp hk
        omega
      simp [bitAt, Array.getD_eq_getD_getElem?, List.getElem?_append_left hword]
    have hlast : (List.range 64).countP
        (bitAt (words ++ [word]).toArray ∘ (words.length * 64 + ·)) = countOnes word := by
      apply List.countP_congr
      intro b hb
      have hb := List.mem_range.mp hb
      have hplace : (words.length * 64 + b) / 64 = words.length ∧
          (words.length * 64 + b) % 64 = b := by omega
      simp [bitAt, Array.getD_eq_getD_getElem?, hplace.1, hplace.2]
    rw [List.map_append, List.sum_append, List.length_append, Nat.add_mul, List.range_add,
      List.countP_append, List.countP_map, hfront, ih]
    simp [hlast]

theorem word_ext {w w' : UInt64} (h : ∀ b, b < 64 → hasBit w b = hasBit w' b) : w = w' := by
  apply UInt64.toNat_inj.mp
  apply Nat.eq_of_testBit_eq
  intro b
  rcases Nat.lt_or_ge b 64 with hb | hb
  · rw [← hasBit_eq hb, ← hasBit_eq hb, h b hb]
  · have hbig : ∀ x : UInt64, x.toNat < 2 ^ b := fun x =>
      Nat.lt_of_lt_of_le x.toNat_lt (Nat.pow_le_pow_right (by decide) hb)
    rw [Nat.testBit_lt_two_pow (hbig w), Nat.testBit_lt_two_pow (hbig w')]

theorem words_ext (hsize : words.size = words'.size)
    (h : ∀ k, bitAt words k = true ↔ bitAt words' k = true) : words = words' := by
  apply Array.ext hsize
  intro i hi hi'
  apply word_ext
  intro b hb
  have hplace : (i * 64 + b) / 64 = i ∧ (i * 64 + b) % 64 = b := by omega
  have hbit := h (i * 64 + b)
  rw [bitAt, bitAt, hplace.1, hplace.2, Array.getD_eq_getD_getElem?, Array.getD_eq_getD_getElem?,
    Array.getElem?_eq_getElem hi, Array.getElem?_eq_getElem hi'] at hbit
  exact Bool.eq_iff_iff.mpr hbit

end

section
variable {g : Graph} {relation : Relation} {excluded : Option Event} {u v : Nat}

/-- Each pair of nodes with a path has its bit, and there is no other bit. -/
theorem encard_connects : {uv : Nat × Nat | Connects g relation excluded uv.1 uv.2}.encard =
    (build g relation excluded).pairCount := by
  have hinj : Set.InjOn (fun uv : Nat × Nat => place g uv.1 uv.2)
      {uv | Connects g relation excluded uv.1 uv.2} := by
    intro uv huv uv' huv' h
    exact Prod.ext_iff.mpr ((place_inj huv.lt.2 huv'.lt.2).mp h)
  have himage : (fun uv : Nat × Nat => place g uv.1 uv.2) ''
      {uv | Connects g relation excluded uv.1 uv.2} = bits (build g relation excluded).rows := by
    ext k
    rw [Finset.mem_coe, mem_bits, bitAt_build]
    simp only [Set.mem_image, Set.mem_ofPred_eq, Prod.exists, connects_iff]
  have hcount : (build g relation excluded).pairCount =
      (bits (build g relation excluded).rows).card := by
    rw [card_bits, pairCount, sum_countOnes, Array.length_toList]
  rw [← hinj.encard_image, himage, Set.encard_coe_eq_coe_finsetCard, hcount]

/-- Tables of one graph are equal if and only if they relate the same nodes. -/
theorem sameReachability_iff {relation' : Relation} {excluded' : Option Event} :
    (build g relation excluded).sameReachability (build g relation' excluded') = true ↔
      ∀ u v, Connects g relation excluded u v ↔ Connects g relation' excluded' u v := by
  rw [sameReachability, size_build, size_build, beq_self_eq_true, Bool.true_and, beq_iff_eq]
  constructor
  · intro h u v
    rw [← isReachable_iff, ← isReachable_iff, isReachable, isReachable, row, row, h]
    rfl
  · intro h
    simp only [connects_iff] at h
    apply words_ext (by rw [size_rows_build, size_rows_build])
    intro k
    simp only [bitAt_build, h]

end

namespace Search

/-- One turn of the loop: the node on top of the stack is taken off and its edges are followed. -/
def turn (g : Graph) (relation : Relation) (allowed : Array Bool) (base : Nat) : Search → Search
  | ⟨[], rows⟩ => ⟨[], rows⟩
  | ⟨v :: stack, rows⟩ => expand g relation allowed base ⟨stack, rows⟩ v

/-- The loop takes a turn for each node on the stack and for each mark that it makes. -/
theorem turns_run (g : Graph) (relation : Relation) (allowed : Array Bool) (base : Nat)
    (s : Search) : ∃ n, n + zeros (run g relation allowed base s) = s.weight ∧
      (turn g relation allowed base)^[n] s = ⟨[], run g relation allowed base s⟩ := by
  fun_induction run g relation allowed base s with
  | case1 rows => exact ⟨0, by simp [weight], rfl⟩
  | case2 v stack rows ih =>
    obtain ⟨n, hweight, hend⟩ := ih
    refine ⟨n + 1, ?_, hend⟩
    rw [weight_expand] at hweight
    simp only [weight, List.length_cons] at hweight ⊢
    omega

end Search

section
variable {g : Graph} {relation : Relation} {excluded : Option Event} {u : Nat}
  {before after : List Nat}

/-- The search from a node adds its row to the marks. -/
theorem bits_fillRows (hnodup : (before ++ [u]).Nodup) (hsub : before ++ [u] ⊆ sources g excluded) :
    (bits (fillRows g relation excluded (before ++ [u]))).card =
      (bits (fillRows g relation excluded before)).card +
        ((build g relation excluded).reachableFrom u).length := by
  obtain ⟨hbefore, _, hfresh⟩ := List.nodup_append.mp hnodup
  have hmarks : ∀ k, bitAt (fillRows g relation excluded before) k = true ↔ ∃ u' ∈ before, ∃ v,
      Relation.TransGen (Hop g relation excluded) u' v ∧ place g u' v = k :=
    (fillRows_marks hbefore fun x hx => hsub (List.mem_append_left [u] hx)).2
  have hadded : bits (fillRows g relation excluded (before ++ [u])) =
      bits (fillRows g relation excluded before) ∪
        ((build g relation excluded).reachableFrom u).toFinset.image (place g u) := by
    ext k
    rw [Finset.mem_union, mem_bits, mem_bits, (fillRows_marks hnodup hsub).2, hmarks]
    simp only [List.mem_append, List.mem_singleton, or_and_right, exists_or, exists_eq_left,
      Finset.mem_image, List.mem_toFinset, mem_reachableFrom]
  have hdisjoint : Disjoint (bits (fillRows g relation excluded before))
      (((build g relation excluded).reachableFrom u).toFinset.image (place g u)) := by
    rw [Finset.disjoint_left]
    intro k hk hnew
    obtain ⟨u', hu', v', hops', hplace'⟩ := (hmarks k).mp (mem_bits.mp hk)
    obtain ⟨v, hv, hplace⟩ := Finset.mem_image.mp hnew
    have hops := mem_reachableFrom.mp (List.mem_toFinset.mp hv)
    have hrow := ((place_inj (hops_lt hops').2 (hops_lt hops).2).mp (hplace'.trans hplace.symm)).1
    exact hfresh u' hu' u (List.mem_singleton.mpr rfl) hrow
  have hlength : ((build g relation excluded).reachableFrom u).toFinset.card =
      ((build g relation excluded).reachableFrom u).length :=
    List.toFinset_card_of_nodup ((reachableFrom_ascending _ u).imp Nat.ne_of_lt)
  have hinj : Function.Injective (place g u) := fun _ _ h => Nat.add_left_cancel h
  rw [hadded, Finset.card_union_of_disjoint hdisjoint, Finset.card_image_of_injective _ hinj,
    hlength]

/-- The search from a node takes one turn for the node and one for each node that it reaches. -/
theorem turns_fillRows (h : sources g excluded = before ++ u :: after) :
    (Search.turn g relation (allowedNodes g excluded) (u * rowWidth g.size))^[
        ((build g relation excluded).reachableFrom u).length + 1]
      ⟨[u], fillRows g relation excluded before⟩ =
        ⟨[], fillRows g relation excluded (before ++ [u])⟩ := by
  have hsources : sources g excluded = before ++ [u] ++ after := h.trans (List.append_cons ..)
  have hnodup : (before ++ [u]).Nodup :=
    (List.nodup_append.mp (hsources ▸ nodup_sources g excluded)).1
  have hsub : before ++ [u] ⊆ sources g excluded := hsources ▸ List.subset_append_left _ after
  obtain ⟨n, hweight, hend⟩ := Search.turns_run g relation (allowedNodes g excluded)
    (u * rowWidth g.size) ⟨[u], fillRows g relation excluded before⟩
  rw [← fillRows_append] at hweight hend
  have hturns : n = ((build g relation excluded).reachableFrom u).length + 1 := by
    have hcard : (bits (fillRows g relation excluded (before ++ [u]))).card = _ :=
      bits_fillRows hnodup hsub
    have hzeros := zeros_add_card (fillRows g relation excluded before)
    have hzeros' := zeros_add_card (fillRows g relation excluded (before ++ [u]))
    rw [(fillRows_marks (List.nodup_append.mp hnodup).1
      fun x hx => hsub (List.mem_append_left [u] hx)).1] at hzeros
    rw [(fillRows_marks hnodup hsub).1] at hzeros'
    simp only [Search.weight, List.length_singleton] at hweight
    omega
  rw [← hturns, hend]

end
end Closure

/-- The closure table is exact reachability. A query is answered with yes if and only if a path of
one edge or more leads from one node to the other and avoids the excluded event, ends included; the
nodes reached from a node are listed in ascending order; the pairs are counted; closures of one
graph are the same if and only if they relate the same nodes; and the search ends, cycles or not. -/
theorem closure_table_exact (g : Graph) (relation : Relation) (excluded : Option Event) :
    (∀ u v, (Closure.build g relation excluded).isReachable u v = true ↔
        u < g.size ∧ v < g.size ∧ Closure.Connects g relation excluded u v) ∧
      (∀ u, (∀ v, v ∈ (Closure.build g relation excluded).reachableFrom u ↔
          Closure.Connects g relation excluded u v) ∧
        ((Closure.build g relation excluded).reachableFrom u).Pairwise (· < ·)) ∧
      {uv : Nat × Nat | Closure.Connects g relation excluded uv.1 uv.2}.encard =
        (Closure.build g relation excluded).pairCount ∧
      (∀ relation' excluded', (Closure.build g relation excluded).sameReachability
          (Closure.build g relation' excluded') = true ↔
        ∀ u v, Closure.Connects g relation excluded u v ↔
          Closure.Connects g relation' excluded' u v) ∧
      ∀ before u after, Closure.sources g excluded = before ++ u :: after →
        (Closure.Search.turn g relation (Closure.allowedNodes g excluded)
            (u * Closure.rowWidth g.size))^[
          ((Closure.build g relation excluded).reachableFrom u).length + 1]
            ⟨[u], Closure.fillRows g relation excluded before⟩ =
          ⟨[], Closure.fillRows g relation excluded (before ++ [u])⟩ := by
  refine ⟨?_, ?_, Closure.encard_connects, fun _ _ => Closure.sameReachability_iff,
    fun _ _ _ => Closure.turns_fillRows⟩
  · intro u v
    rw [Closure.isReachable_iff]
    exact ⟨fun h => ⟨h.lt.1, h.lt.2, h⟩, fun h => h.2.2⟩
  · intro u
    refine ⟨fun v => ?_, Closure.reachableFrom_ascending _ u⟩
    rw [Closure.mem_reachableFrom, Closure.connects_iff]

end EventInvariants
