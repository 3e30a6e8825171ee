import EventInvariants.Closure.Violation
import EventInvariants.Proofs.Marking

namespace EventInvariants

namespace Closure

section
variable {c : Closure} {u v : Nat}

/-- The bits of a row, where they stand among all. -/
theorem hasBit_row (hv : v < c.width * 64) :
    hasBit ((c.row u).getD (v / 64) 0) (v % 64) = bitAt c.rows (u * c.width * 64 + v) := by
  have hword : v / 64 < c.width := Nat.div_lt_of_lt_mul (by omega)
  rw [bitAt_eq, row, Array.getD_eq_getD_getElem?, Array.getElem?_extract,
    Array.getD_eq_getD_getElem?]
  split
  · rfl
  · rw [Array.getElem?_eq_none (by omega)]

/-- The list of a row goes over the bits of all its words. -/
theorem mem_reachableFrom_iff : v ∈ c.reachableFrom u ↔
    u < c.size ∧ v / 64 < (c.row u).size ∧
      hasBit ((c.row u).getD (v / 64) 0) (v % 64) = true := by
  unfold reachableFrom
  by_cases hu : u < c.size
  · rw [if_pos hu]
    simp only [List.mem_flatMap, List.mem_map, List.mem_filter, List.mem_range, Prod.exists,
      List.mem_zipIdx_iff_getElem?, Array.getElem?_toList]
    constructor
    · intro h
      obtain ⟨word, i, hword, b, ⟨hb, hbit⟩, rfl⟩ := h
      have hplace : (i * 64 + b) / 64 = i ∧ (i * 64 + b) % 64 = b := by omega
      rw [hplace.1, hplace.2, Array.getD_eq_getD_getElem?, hword]
      exact ⟨hu, (Array.getElem?_eq_some_iff.mp hword).1, hbit⟩
    · intro h
      obtain ⟨_, hword, hbit⟩ := h
      rw [Array.getD_eq_getD_getElem?, Array.getElem?_eq_getElem hword, Option.getD_some] at hbit
      exact ⟨_, v / 64, Array.getElem?_eq_getElem hword, v % 64,
        ⟨Nat.mod_lt v (by decide), hbit⟩, by omega⟩
  · simp [hu]

end

section
variable {g : Graph} {relation : Relation} {excluded : Option Event} {u v : Nat}

theorem size_build (g : Graph) (relation : Relation) (excluded : Option Event) :
    (build g relation excluded).size = g.size :=
  rfl

theorem size_rows_build (g : Graph) (relation : Relation) (excluded : Option Event) :
    (build g relation excluded).rows.size = g.size * rowWidth g.size :=
  (fillRows_marks (nodup_sources g excluded) (List.Subset.refl _)).1

/-- The bits of the table are the pairs of nodes with hops between them. -/
theorem bitAt_build (k : Nat) : bitAt (build g relation excluded).rows k = true ↔
    ∃ u v, Relation.TransGen (Hop g relation excluded) u v ∧ place g u v = k := by
  refine ((fillRows_marks (nodup_sources g excluded) (List.Subset.refl _)).2 k).trans ?_
  constructor
  · intro h
    obtain ⟨u, _, v, hops⟩ := h
    exact ⟨u, v, hops⟩
  · intro h
    obtain ⟨u, v, hops, hplace⟩ := h
    obtain ⟨_, hfirst, _⟩ := Relation.TransGen.head'_iff.mp hops
    exact ⟨u, mem_sources.mpr ⟨hfirst.lt.1, hfirst.source⟩, v, hops, hplace⟩

theorem hasBit_row_build (hv : v < rowWidth g.size * 64) :
    hasBit (((build g relation excluded).row u).getD (v / 64) 0) (v % 64) = true ↔
      Relation.TransGen (Hop g relation excluded) u v := by
  have hrow := hasBit_row (c := build g relation excluded) (u := u) hv
  rw [hrow, bitAt_build]
  constructor
  · intro h
    obtain ⟨u', v', hops, hplace⟩ := h
    obtain ⟨rfl, rfl⟩ := (offset_inj (lt_rowWidth (hops_lt hops).2) hv).mp hplace
    exact hops
  · exact fun hops => ⟨u, v, hops, rfl⟩

theorem isReachable_build : (build g relation excluded).isReachable u v = true ↔
    Relation.TransGen (Hop g relation excluded) u v := by
  unfold isReachable
  rw [size_build]
  split
  · next hout =>
    rw [Bool.or_eq_true, decide_eq_true_eq, decide_eq_true_eq] at hout
    refine ⟨fun h => absurd h Bool.false_ne_true, fun hops => ?_⟩
    have := hops_lt hops
    omega
  · next hin =>
    rw [Bool.or_eq_true, decide_eq_true_eq, decide_eq_true_eq, not_or, Nat.not_le] at hin
    exact hasBit_row_build (lt_rowWidth (Nat.not_le.mp hin.2))

theorem size_row (hu : u < g.size) :
    ((build g relation excluded).row u).size = rowWidth g.size := by
  have hend : u * rowWidth g.size + rowWidth g.size ≤ g.size * rowWidth g.size := by
    rw [← Nat.succ_mul]
    exact Nat.mul_le_mul_right _ hu
  rw [row, Array.size_extract, size_rows_build]
  change min (u * rowWidth g.size + rowWidth g.size) _ - u * rowWidth g.size = _
  omega

theorem mem_reachableFrom : v ∈ (build g relation excluded).reachableFrom u ↔
    Relation.TransGen (Hop g relation excluded) u v := by
  rw [mem_reachableFrom_iff, size_build]
  constructor
  · intro h
    obtain ⟨hu, hword, hbit⟩ := h
    rw [size_row hu] at hword
    exact (hasBit_row_build (by omega)).mp hbit
  · intro hops
    obtain ⟨hu, hv⟩ := hops_lt hops
    have hwidth : v < rowWidth g.size * 64 := lt_rowWidth hv
    rw [size_row hu]
    exact ⟨hu, by omega, (hasBit_row_build hwidth).mpr hops⟩

end
end Closure

namespace ClosureCache
variable {g : Graph} {cache : ClosureCache}

/-- The cache has seen no other graph: each closure is the one for its key. -/
def Faithful (g : Graph) (cache : ClosureCache) : Prop :=
  ∀ entry ∈ cache.entries, entry.2 = Closure.build g entry.1.relation entry.1.excluded

theorem faithful_empty (g : Graph) : empty.Faithful g := by
  simp [Faithful, empty]

/-- A closure from the cache is as good as a new one, and the cache stays faithful. -/
theorem Faithful.get (h : cache.Faithful g) (key : ClosureKey) :
    (cache.get g key).1 = Closure.build g key.relation key.excluded ∧
      (cache.get g key).2.Faithful g := by
  unfold ClosureCache.get
  split
  · rename_i closure hfound
    simp only [find?, Option.map_eq_some_iff] at hfound
    obtain ⟨entry, hfind, rfl⟩ := hfound
    have hkey : entry.1 = key := by simpa using List.find?_some hfind
    rw [← hkey]
    exact ⟨h entry (List.mem_of_find?_eq_some hfind), h⟩
  · refine ⟨rfl, ?_⟩
    intro entry hentry
    rcases List.mem_append.mp hentry with hentry | hentry
    · exact h entry hentry
    · cases List.mem_singleton.mp hentry
      rfl

end ClosureCache
end EventInvariants
