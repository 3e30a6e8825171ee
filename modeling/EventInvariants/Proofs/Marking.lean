import EventInvariants.Closure.Basic
import EventInvariants.Proofs.Validation
import Mathlib.Logic.Relation
import Mathlib.Tactic.Tauto

namespace EventInvariants.Closure

section
variable {width u u' v v' : Nat}

/-- The bits of different rows have different places. -/
theorem offset_inj (hv : v < width * 64) (hv' : v' < width * 64) :
    u * width * 64 + v = u' * width * 64 + v' ↔ u = u' ∧ v = v' := by
  constructor
  · intro h
    rw [Nat.mul_assoc, Nat.mul_assoc] at h
    have hpos : 0 < width * 64 := by omega
    have hrow : ∀ u v, v < width * 64 → (u * (width * 64) + v) / (width * 64) = u := by
      intro u v hv
      rw [Nat.mul_comm, Nat.mul_add_div hpos, Nat.div_eq_of_lt hv, Nat.add_zero]
    have hu : u = u' := by rw [← hrow u v hv, h, hrow u' v' hv']
    subst hu
    exact ⟨rfl, by omega⟩
  · intro h
    rw [h.1, h.2]

theorem lt_rowWidth {n : Nat} (hv : v < n) : v < rowWidth n * 64 := by
  unfold rowWidth
  omega

theorem bitAt_eq (rows : Array UInt64) (base v : Nat) :
    bitAt rows (base * 64 + v) = hasBit (rows.getD (base + v / 64) 0) (v % 64) := by
  have hplace : (base * 64 + v) / 64 = base + v / 64 ∧ (base * 64 + v) % 64 = v % 64 := by omega
  rw [bitAt, hplace.1, hplace.2]

theorem bitAt_blank (n k : Nat) : bitAt (Array.replicate n 0) k = false := by
  have hzero : (Array.replicate n (0 : UInt64)).getD (k / 64) 0 = 0 := by
    rw [Array.getD_eq_getD_getElem?, Array.getElem?_replicate]
    split <;> rfl
  rw [bitAt, hzero, hasBit_zero]

end

theorem allowed_iff {g : Graph} {excluded : Option Event} {v : Nat} :
    (allowedNodes g excluded).getD v false = true ↔ v < g.size ∧ allows g excluded v = true := by
  simp only [allowedNodes, Graph.ids, Array.getD_eq_getD_getElem?, List.getElem?_toArray,
    List.getElem?_map]
  by_cases hv : v < g.size
  · simp [hv]
  · simp [hv]

namespace Search

/-- What following edges does to a search: new marks at the allowed targets, and the nodes that got
one on the stack. -/
structure Follows (allowed : Array Bool) (base : Nat) (edges : List Edge) (s s' : Search) :
    Prop where
  size : s'.rows.size = s.rows.size
  marks : ∀ k, bitAt s'.rows k = true ↔ bitAt s.rows k = true ∨
    ∃ edge ∈ edges, allowed.getD edge.target false = true ∧ base * 64 + edge.target = k
  stack : ∀ v, v ∈ s'.stack ↔ v ∈ s.stack ∨
    bitAt s'.rows (base * 64 + v) = true ∧ ¬ bitAt s.rows (base * 64 + v) = true

variable {allowed : Array Bool} {base : Nat} {edges edges' : List Edge} {s s' s'' : Search}

theorem Follows.append (h : Follows allowed base edges s s')
    (h' : Follows allowed base edges' s' s'') :
    Follows allowed base (edges ++ edges') s s'' where
  size := h'.size.trans h.size
  marks k := by
    rw [h'.marks, h.marks, or_assoc]
    simp only [List.mem_append, or_and_right, exists_or]
  stack v := by
    have hgrow : bitAt s.rows (base * 64 + v) = true → bitAt s'.rows (base * 64 + v) = true :=
      fun hm => (h.marks _).mpr (.inl hm)
    have hgrow' : bitAt s'.rows (base * 64 + v) = true → bitAt s''.rows (base * 64 + v) = true :=
      fun hm => (h'.marks _).mpr (.inl hm)
    rw [h'.stack, h.stack]
    tauto

theorem follow_follows {edge : Edge} (hi : base + edge.target / 64 < s.rows.size) :
    Follows allowed base [edge] s (follow allowed base s edge) := by
  have hbit : bitAt s.rows (base * 64 + edge.target) =
      hasBit s.rows[base + edge.target / 64] (edge.target % 64) := by
    rw [bitAt_eq, Array.getD_eq_getD_getElem?, Array.getElem?_eq_getElem hi, Option.getD_some]
  unfold follow
  dsimp only
  rw [dif_pos hi]
  split
  · next hskip =>
    rw [← hbit, Bool.or_eq_true, Bool.not_eq_true'] at hskip
    refine ⟨rfl, fun k => ⟨.inl, ?_⟩, fun v => by tauto⟩
    intro h
    rcases h with h | ⟨_, he, hallowed, rfl⟩
    · exact h
    · obtain rfl := List.mem_singleton.mp he
      rcases hskip with hskip | hskip
      · rw [hallowed] at hskip
        cases hskip
      · exact hskip
  · next hopen =>
    rw [← hbit, Bool.or_eq_true, Bool.not_eq_true', not_or, Bool.not_eq_false] at hopen
    obtain ⟨hallowed, hnew⟩ := hopen
    have hplace : (base + edge.target / 64) * 64 + edge.target % 64 = base * 64 + edge.target := by
      omega
    have hmarks : ∀ k, bitAt (s.rows.set (base + edge.target / 64)
        (setBit s.rows[base + edge.target / 64] (edge.target % 64))) k = true ↔
          base * 64 + edge.target = k ∨ bitAt s.rows k = true := by
      intro k
      rw [bitAt_set hi (Nat.mod_lt _ (by decide)), hplace, Bool.or_eq_true, decide_eq_true_eq]
    refine ⟨Array.size_set hi, fun k => ?_, fun v => ?_⟩
    · rw [hmarks, or_comm]
      simp only [List.mem_singleton, exists_eq_left, hallowed, true_and]
    · rw [hmarks, List.mem_cons]
      constructor
      · intro hv
        rcases hv with rfl | hv
        · exact .inr ⟨.inl rfl, hnew⟩
        · exact .inl hv
      · intro hv
        rcases hv with hv | ⟨hv | hv, hold⟩
        · exact .inr hv
        · exact .inl (by omega)
        · exact absurd hv hold

theorem expand_follows {g : Graph} {relation : Relation} {v : Nat}
    (hi : ∀ edge ∈ g.successors v relation, base + edge.target / 64 < s.rows.size) :
    Follows allowed base (g.successors v relation) s (expand g relation allowed base s v) := by
  unfold expand
  generalize g.successors v relation = edges at hi
  induction edges generalizing s with
  | nil => exact ⟨rfl, by simp, by simp⟩
  | cons edge edges ih =>
    have hfirst : Follows allowed base [edge] s (follow allowed base s edge) :=
      follow_follows (hi edge List.mem_cons_self)
    refine hfirst.append (ih fun e he => ?_)
    rw [hfirst.size]
    exact hi e (List.mem_cons_of_mem edge he)

end Search

/-- One edge of the relation, between nodes that are not excluded. -/
structure Hop (g : Graph) (relation : Relation) (excluded : Option Event) (u v : Nat) : Prop where
  source : allows g excluded u = true
  edge : ∃ edge ∈ g.successors u relation, edge.target = v
  target : allows g excluded v = true

section
variable {g : Graph} {relation : Relation} {excluded : Option Event} {u v : Nat}

theorem Hop.lt (h : Hop g relation excluded u v) : u < g.size ∧ v < g.size := by
  obtain ⟨edge, hedge, rfl⟩ := h.edge
  exact ⟨Graph.successors_lt hedge, Graph.successors_target_lt hedge⟩

theorem hops_lt (h : Relation.TransGen (Hop g relation excluded) u v) :
    u < g.size ∧ v < g.size := by
  obtain ⟨_, hfirst, _⟩ := Relation.TransGen.head'_iff.mp h
  obtain ⟨_, _, hlast⟩ := Relation.TransGen.tail'_iff.mp h
  exact ⟨hfirst.lt.1, hlast.lt.2⟩

/-- The place of the bit of `v` in the row of `u`. -/
def place (g : Graph) (u v : Nat) : Nat :=
  u * rowWidth g.size * 64 + v

theorem place_inj {u' v' : Nat} (hv : v < g.size) (hv' : v' < g.size) :
    place g u v = place g u' v' ↔ u = u' ∧ v = v' :=
  offset_inj (lt_rowWidth hv) (lt_rowWidth hv')

theorem word_lt (hu : u < g.size) (hv : v < g.size) :
    u * rowWidth g.size + v / 64 < g.size * rowWidth g.size := by
  have hword : v / 64 < rowWidth g.size := Nat.div_lt_of_lt_mul (by have := lt_rowWidth hv; omega)
  calc u * rowWidth g.size + v / 64 < (u + 1) * rowWidth g.size := by
        rw [Nat.add_mul, Nat.one_mul]
        omega
    _ ≤ g.size * rowWidth g.size := Nat.mul_le_mul_right _ hu

/-- A search from `u` under way, on rows that were `rows₀` before. Only nodes that hops lead to get
a mark or come on the stack. A node that hops lead to and that is not on the stack has been
followed: its edges lead to marks. -/
structure Searching (g : Graph) (relation : Relation) (excluded : Option Event) (u : Nat)
    (rows₀ : Array UInt64) (s : Search) : Prop where
  size : s.rows.size = g.size * rowWidth g.size
  keeps : ∀ k, bitAt rows₀ k = true → bitAt s.rows k = true
  marks : ∀ k, bitAt s.rows k = true → bitAt rows₀ k = true ∨
    ∃ v, Relation.TransGen (Hop g relation excluded) u v ∧ place g u v = k
  stack : ∀ v ∈ s.stack, v = u ∨ Relation.TransGen (Hop g relation excluded) u v
  followed : ∀ v, v = u ∨ Relation.TransGen (Hop g relation excluded) u v ∧
      bitAt s.rows (place g u v) = true →
    v ∈ s.stack ∨ ∀ w, Hop g relation excluded v w → bitAt s.rows (place g u w) = true

variable {rows rows₀ : Array UInt64} {stack : List Nat}

theorem Searching.begin (hsize : rows.size = g.size * rowWidth g.size)
    (hblank : ∀ v, v < g.size → ¬ bitAt rows (place g u v) = true) :
    Searching g relation excluded u rows ⟨[u], rows⟩ where
  size := hsize
  keeps _ h := h
  marks _ h := .inl h
  stack v hv := .inl (List.mem_singleton.mp hv)
  followed v hv := by
    rcases hv with hv | ⟨hops, hmark⟩
    · exact .inl (List.mem_singleton.mpr hv)
    · exact absurd hmark (hblank v (hops_lt hops).2)

/-- One turn of the loop. -/
theorem Searching.expand (hu : u < g.size ∧ allows g excluded u = true)
    (h : Searching g relation excluded u rows₀ ⟨v :: stack, rows⟩) :
    Searching g relation excluded u rows₀ (Search.expand g relation (allowedNodes g excluded)
      (u * rowWidth g.size) ⟨stack, rows⟩ v) := by
  have hlt : ∀ edge ∈ g.successors v relation, edge.target < g.size :=
    fun _ he => Graph.successors_target_lt he
  have hstep : Search.Follows (allowedNodes g excluded) (u * rowWidth g.size)
      (g.successors v relation) ⟨stack, rows⟩ (Search.expand g relation (allowedNodes g excluded)
        (u * rowWidth g.size) ⟨stack, rows⟩ v) :=
    Search.expand_follows fun edge he => h.size ▸ word_lt hu.1 (hlt edge he)
  have hv : v = u ∨ Relation.TransGen (Hop g relation excluded) u v :=
    h.stack v List.mem_cons_self
  have hallowed : allows g excluded v = true := by
    rcases hv with rfl | hops
    · exact hu.2
    · obtain ⟨_, _, hlast⟩ := Relation.TransGen.tail'_iff.mp hops
      exact hlast.target
  -- an edge that gets followed is one more hop
  have hops : ∀ edge ∈ g.successors v relation,
      (allowedNodes g excluded).getD edge.target false = true →
        Relation.TransGen (Hop g relation excluded) u edge.target := by
    intro edge he ht
    have hhop : Hop g relation excluded v edge.target :=
      ⟨hallowed, ⟨edge, he, rfl⟩, (allowed_iff.mp ht).2⟩
    rcases hv with rfl | hops
    · exact .single hhop
    · exact hops.tail hhop
  have hgrow : ∀ k, bitAt rows k = true → bitAt (Search.expand g relation
      (allowedNodes g excluded) (u * rowWidth g.size) ⟨stack, rows⟩ v).rows k = true :=
    fun k hk => (hstep.marks k).mpr (.inl hk)
  refine ⟨hstep.size.trans h.size, fun k hk => hgrow k (h.keeps k hk), fun k hk => ?_,
    fun w hw => ?_, fun w hw => ?_⟩
  · rcases (hstep.marks k).mp hk with hk | ⟨edge, he, ht, hk⟩
    · exact h.marks k hk
    · exact .inr ⟨edge.target, hops edge he ht, hk⟩
  · rcases (hstep.stack w).mp hw with hw | ⟨hnew, hold⟩
    · exact h.stack w (List.mem_cons_of_mem v hw)
    · rcases (hstep.marks _).mp hnew with hnew | ⟨edge, he, ht, hk⟩
      · exact absurd hnew hold
      · obtain rfl : edge.target = w := Nat.add_left_cancel hk
        exact .inr (hops edge he ht)
  · by_cases hvw : w = v
    · right
      intro x hx
      subst hvw
      obtain ⟨edge, he, rfl⟩ := hx.edge
      exact (hstep.marks _).mpr
        (.inr ⟨edge, he, allowed_iff.mpr ⟨hlt edge he, hx.target⟩, rfl⟩)
    · have hstacked : w ∈ v :: stack → w ∈ (Search.expand g relation (allowedNodes g excluded)
          (u * rowWidth g.size) ⟨stack, rows⟩ v).stack := by
        intro hw
        exact (hstep.stack w).mpr (.inl ((List.mem_cons.mp hw).resolve_left hvw))
      by_cases hknown : w = u ∨ Relation.TransGen (Hop g relation excluded) u w ∧
          bitAt rows (place g u w) = true
      · rcases h.followed w hknown with hold | hdone
        · exact .inl (hstacked hold)
        · exact .inr fun x hx => hgrow _ (hdone x hx)
      · left
        rw [not_or, not_and] at hknown
        obtain ⟨hops, hmark⟩ := hw.resolve_left hknown.1
        exact (hstep.stack w).mpr (.inr ⟨hmark, hknown.2 hops⟩)

theorem Searching.mark (h : Searching g relation excluded u rows₀ ⟨[], rows⟩)
    (hops : Relation.TransGen (Hop g relation excluded) u v) :
    bitAt rows (place g u v) = true := by
  induction hops with
  | single hop => exact (h.followed u (.inl rfl)).resolve_left List.not_mem_nil _ hop
  | tail hops hop ih =>
    exact (h.followed _ (.inr ⟨hops, ih⟩)).resolve_left List.not_mem_nil _ hop

/-- The whole loop: the search leaves a mark at the nodes that hops lead to, in the row of its
source, and no other. -/
theorem Searching.run {s : Search} (hu : u < g.size ∧ allows g excluded u = true)
    (h : Searching g relation excluded u rows₀ s) :
    (Search.run g relation (allowedNodes g excluded) (u * rowWidth g.size) s).size =
        g.size * rowWidth g.size ∧
      ∀ k, bitAt (Search.run g relation (allowedNodes g excluded) (u * rowWidth g.size) s) k =
          true ↔ bitAt rows₀ k = true ∨
        ∃ v, Relation.TransGen (Hop g relation excluded) u v ∧ place g u v = k := by
  fun_induction Search.run g relation (allowedNodes g excluded) (u * rowWidth g.size) s with
  | case1 rows =>
    refine ⟨h.size, fun k => ⟨h.marks k, fun hk => ?_⟩⟩
    rcases hk with hk | ⟨v, hops, rfl⟩
    · exact h.keeps k hk
    · exact h.mark hops
  | case2 v stack rows ih => exact ih (h.expand hu)

theorem mem_sources : u ∈ sources g excluded ↔ u < g.size ∧ allows g excluded u = true := by
  rw [sources, List.mem_filter, allowed_iff, Graph.ids, List.mem_range]
  exact ⟨And.right, fun h => ⟨h.1, h⟩⟩

theorem nodup_sources (g : Graph) (excluded : Option Event) : (sources g excluded).Nodup :=
  List.nodup_range.filter _

theorem fillRows_append (us : List Nat) (u : Nat) :
    fillRows g relation excluded (us ++ [u]) = Search.run g relation (allowedNodes g excluded)
      (u * rowWidth g.size) ⟨[u], fillRows g relation excluded us⟩ := by
  rw [fillRows, List.foldl_append]
  rfl

/-- The rows that are filled hold the nodes that hops lead to, and the others nothing. -/
theorem fillRows_marks {us : List Nat} (hus : us.Nodup) (hsub : us ⊆ sources g excluded) :
    (fillRows g relation excluded us).size = g.size * rowWidth g.size ∧
      ∀ k, bitAt (fillRows g relation excluded us) k = true ↔
        ∃ u ∈ us, ∃ v, Relation.TransGen (Hop g relation excluded) u v ∧ place g u v = k := by
  induction us using List.reverseRecOn with
  | nil => exact ⟨Array.size_replicate, fun k => by simp [fillRows, bitAt_blank]⟩
  | append_singleton us u ih =>
    obtain ⟨hnodup, _, hfresh⟩ := List.nodup_append.mp hus
    obtain ⟨hsize, hmarks⟩ := ih hnodup fun x hx => hsub (List.mem_append_left [u] hx)
    have hu : u < g.size ∧ allows g excluded u = true :=
      mem_sources.mp (hsub (List.mem_append_right us List.mem_cons_self))
    -- the row of a source is blank when its search starts: the marks so far are in other rows
    have hblank : ∀ v, v < g.size →
        ¬ bitAt (fillRows g relation excluded us) (place g u v) = true := by
      intro v hv hmark
      obtain ⟨u', hu', v', hops, hplace⟩ := (hmarks _).mp hmark
      obtain ⟨rfl, _⟩ := (place_inj (hops_lt hops).2 hv).mp hplace
      exact hfresh u' hu' u' List.mem_cons_self rfl
    have hbegin : Searching g relation excluded u (fillRows g relation excluded us)
        ⟨[u], fillRows g relation excluded us⟩ := .begin hsize hblank
    obtain ⟨hsize', hmarks'⟩ := hbegin.run hu
    rw [fillRows_append]
    refine ⟨hsize', fun k => ?_⟩
    rw [hmarks', hmarks]
    simp only [List.mem_append, List.mem_singleton, or_and_right, exists_or, exists_eq_left]

end
end EventInvariants.Closure
