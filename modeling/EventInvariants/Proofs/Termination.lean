import EventInvariants.Proofs.Pruning

namespace EventInvariants

namespace Time

/-- The vectors from zero up to the given one. -/
def box : List Int → List (List Int)
  | [] => [[]]
  | n :: v => (List.range (n.toNat + 1)).flatMap fun (k : Nat) => (box v).map ((k : Int) :: ·)

theorem length_box (v : List Int) : (box v).length = (v.map fun n => n.toNat + 1).prod := by
  induction v with
  | nil => rfl
  | cons n v ih => simp [box, List.length_flatMap, ih]

theorem exists_mem_box {v : List Int} {f : Nat → Int} (h0 : ∀ i, 0 ≤ f i)
    (hle : ∀ i, f i ≤ v.getD i 0) : ∃ u ∈ box v, ∀ i, u.getD i 0 = f i := by
  induction v generalizing f with
  | nil =>
    -- past the end of the bound, nothing but zero is in between
    refine ⟨[], List.mem_singleton.mpr rfl, ?_⟩
    intro i
    exact Int.le_antisymm (h0 i) (hle i)
  | cons n v ih =>
    obtain ⟨u, hu, hpart⟩ := ih (f := fun i => f (i + 1)) (fun i => h0 (i + 1))
      fun i => by simpa using hle (i + 1)
    have hfirst : f 0 ≤ n := by simpa using hle 0
    have hnonneg := h0 0
    refine ⟨f 0 :: u, ?_, ?_⟩
    · rw [box, List.mem_flatMap]
      refine ⟨(f 0).toNat, List.mem_range.mpr (by omega), ?_⟩
      rw [Int.toNat_of_nonneg hnonneg]
      exact List.mem_map_of_mem hu
    · intro i
      cases i with
      | zero => simp
      | succ i => simpa using hpart i

/-- The times from zero up to a bound that is no double. -/
def upTo : Time → List Time
  | .zero => [.zero]
  | .integer n => (List.range (n.toNat + 1)).map fun (k : Nat) => .integer k
  | .float _ => []
  | .vector v => (box v).map .vector

theorem length_upTo {b : Time} (hb : b.isFloat = false) :
    (upTo b).length = Exploration.readings b := by
  cases b with
  | float x => cases hb
  | zero => rfl
  | integer n => simp [upTo, Exploration.readings]
  | vector v => exact (List.length_map _).trans (length_box v)

theorem exists_mem_upTo {b t : Time} {o : Ordering} (hb : b.isFloat = false)
    (h : t.order b = .ok o) (h0 : ∀ i, 0 ≤ t.part i) (hle : ∀ i, t.part i ≤ b.part i) :
    ∃ s ∈ upTo b, ∀ i, s.part i = t.part i := by
  cases b with
  | float x => cases hb
  | zero =>
    refine ⟨.zero, List.mem_singleton.mpr rfl, ?_⟩
    intro i
    exact Int.le_antisymm (h0 i) (hle i)
  | integer n =>
    have hfirst : t.part 0 ≤ n := hle 0
    have hlt : (t.part 0).toNat < n.toNat + 1 := by omega
    refine ⟨.integer (t.part 0), ?_, fun i => ((scalar_of_order h).part_const i).symm⟩
    refine List.mem_map.mpr ⟨(t.part 0).toNat, List.mem_range.mpr hlt, ?_⟩
    rw [Int.toNat_of_nonneg (h0 0)]
  | vector v =>
    obtain ⟨u, hu, hpart⟩ := exists_mem_box h0 hle
    exact ⟨.vector u, List.mem_map_of_mem hu, hpart⟩

end Time

def Clock.IsNonneg : Clock → Prop
  | .running t => ∀ i, 0 ≤ t.part i
  | _ => True

namespace Bound
variable {w : Bound} {t delta : Time} {c c' : Clock}

theorem settle_nonneg (ht : ∀ i, 0 ≤ t.part i) (h : w.settle t = .ok c) : c.IsNonneg := by
  obtain ⟨o, _, rfl⟩ := settle_ok h
  split
  · trivial
  · exact ht

theorem Advances.nonneg (hd : ∀ i, 0 ≤ delta.part i) (hc : c.IsNonneg)
    (h : w.Advances delta c c') : c'.IsNonneg := by
  cases c with
  | idle | saturated =>
    cases h
    trivial
  | running s =>
    obtain ⟨t, _, hsum, hset⟩ := h
    refine settle_nonneg ?_ hset
    intro i
    rw [hsum]
    exact Int.add_nonneg (hc i) (hd i)

/-- The bound itself is not passed by a time that is shown, from whichever side it is kept. -/
theorem settled_part_le (hw : w.value.isFloat = false) (ht : t.isFloat = false)
    (h : Clock.IsSettled w (.running t)) (i : Nat) : t.part i ≤ w.value.part i := by
  obtain ⟨o, ho, hpast⟩ := settled_order h
  have hne : o ≠ .gt := by
    rintro rfl
    cases hd : w.direction <;> simp [hd, isPast] at hpast
  exact (Time.order_part ht hw ho).1.mp hne i

/-- The clocks of a bounded invariant, up to what they measure. -/
def clocks (w : Bound) : List Clock :=
  .idle :: .saturated :: (Time.upTo w.value).map .running

theorem exists_mem_clocks (hw : w.value.isFloat = false) (hx : c.IsExact) (hs : c.IsSettled w)
    (hn : c.IsNonneg) : ∃ b ∈ w.clocks, w.Leads c b ∧ w.Leads b c := by
  cases c with
  | idle | saturated => exact ⟨_, by simp [clocks], .refl w _, .refl w _⟩
  | running t =>
    obtain ⟨o, ho, _⟩ := settled_order hs
    obtain ⟨s, hmem, hpart⟩ :=
      Time.exists_mem_upTo hw ho hn (settled_part_le hw hx hs)
    refine ⟨.running s, by simp [clocks, hmem], ?_⟩
    cases hd : w.direction <;> simp [Leads, hd, hpart]

end Bound

namespace Monitor
variable {m : Monitor} {p q : Phase} {c c' : Clock} {l : Letter}

theorem enter_nonneg (hc : c.IsNonneg) (h : m.enter p c l = .ok (q, c')) : c'.IsNonneg := by
  refine enter_keeps trivial ?_ hc h
  intro w b _ hs
  exact Bound.settle_nonneg (t := .zero) (fun _ => Int.le_refl 0) hs

theorem step_nonneg {w : Bound} {delta : Time} (hw : m.window = some w)
    (hd : delta.isFloat = false) (hpos : ∀ i, 0 ≤ delta.part i) (hx : c.IsExact)
    (hc : c.IsNonneg) (h : m.step p c l delta = .ok (q, c')) : c'.IsNonneg := by
  obtain ⟨b, hb, henter⟩ := moves_of_step (fun _ => hd) hx h
  simp only [Advances, hw] at hb
  exact enter_nonneg (hb.nonneg hpos hc) henter

end Monitor

namespace Exploration
variable {g : Graph} {inv : Invariant}

theorem Arrives.clock_nonneg {σ : Nat → StateSet} {v : Nat} {p : Phase} {e : Entry} {w : Bound}
    (hx : Exact g inv) (hw : (Monitor.ofInvariant inv).window = some w)
    (h : Arrives g inv σ v p e) : e.clock.IsNonneg := by
  have htimed : (Monitor.ofInvariant inv).window ≠ none := by simp [hw]
  induction h with
  | start _ hread => exact Monitor.enter_nonneg (c := .idle) trivial hread
  | @next u p q e edge c hfrom hedge hdelta hstep _ ih =>
    have hfloat := hx.delta htimed u edge hedge
    have hpos := Time.part_nonneg hfloat ((edgeDelta_ok hdelta).2 htimed)
    exact Monitor.step_nonneg hw hfloat hpos (hfrom.exact hx) ih hstep

theorem sampled_timed {w : Bound} (hx : Exact g inv)
    (hw : (Monitor.ofInvariant inv).window = some w) :
    Sampled g inv w.clocks.length fun i => w.clocks.getD i .idle := by
  intro σ v p e h
  obtain ⟨c, hmem, hto, hfrom⟩ := Bound.exists_mem_clocks (hx.bound w hw) (h.exact hx)
    (Monitor.run_settled hw h.run) (h.clock_nonneg hx hw)
  obtain ⟨i, hi, rfl⟩ := List.getElem_of_mem hmem
  refine ⟨i, hi, ?_⟩
  simp only [Monitor.Leads, hw, List.getD_eq_getElem _ _ hi]
  exact ⟨hto, hfrom⟩

/-- Without doubles, the clocks that arrive are no more than those that were counted. -/
theorem exists_sample (hx : Exact g inv) :
    ∃ n sample, Sampled g inv n sample ∧ n ≤ clocks inv := by
  cases hw : (Monitor.ofInvariant inv).window with
  | none =>
    refine ⟨1, _, sampled_untimed hw, ?_⟩
    unfold clocks
    split <;> omega
  | some w =>
    refine ⟨_, _, sampled_timed hx hw, ?_⟩
    simp [clocks, Monitor.bound_of_window hw, Bound.clocks, Time.length_upTo (hx.bound w hw)]

end Exploration

/-- Without doubles, exploration without a limit pops nodes only so many times, and ends with an
error or with no node left to visit. -/
theorem exploration_terminates {g : Graph} {inv : Invariant}
    (hg : ∀ node ∈ g.nodes, ∀ edge ∈ node.edges, ∀ d, edge.delta = some d → d.isFloat = false)
    (hb : ∀ w, inv.bound = some w → w.value.isFloat = false) :
    (∀ s s', Exploration.seed g inv = .ok s →
        Relation.ReflTransGen (Exploration.Visits g inv) s s' →
        s'.iterations < Exploration.visitBound g inv) ∧
      ((∃ e, explore g inv 0 = .error e) ∨
        ∃ s s', Exploration.seed g inv = .ok s ∧
          Relation.ReflTransGen (Exploration.Visits g inv) s s' ∧ s'.queue = [] ∧
          explore g inv 0 = .ok ⟨s'.sets, s'.iterations, none⟩) := by
  have hx := Exploration.exact_of_times hg hb
  obtain ⟨n, sample, hsample, hn⟩ := Exploration.exists_sample hx
  constructor
  · intro s s' hseed hvisits
    obtain ⟨hs, hshort, hqueue, hiter⟩ := Exploration.seed_short hx hsample hseed
    obtain ⟨_, _, hpaid⟩ := Exploration.visits_paid hx hsample hs hshort hvisits
    have hlt : Exploration.potential g inv n sample s < Exploration.visitBound g inv :=
      Exploration.potential_lt hn hqueue
    omega
  · cases hf : explore g inv 0 with
    | error e => exact .inl ⟨e, rfl⟩
    | ok f =>
      obtain ⟨s, s', hseed, hvisits, hempty, rfl⟩ := Exploration.explore_ends hx hsample hn hf
      exact .inr ⟨s, s', hseed, hvisits, hempty, rfl⟩

theorem lanes_terminates :
    (∀ s s', Exploration.seed .lanes (.within [5, 5]) = .ok s →
        Relation.ReflTransGen (Exploration.Visits .lanes (.within [5, 5])) s s' →
        s'.iterations < 208852) ∧
      ∃ s s', Exploration.seed .lanes (.within [5, 5]) = .ok s ∧
        Relation.ReflTransGen (Exploration.Visits .lanes (.within [5, 5])) s s' ∧ s'.queue = [] ∧
        explore .lanes (.within [5, 5]) 0 = .ok ⟨s'.sets, s'.iterations, none⟩ := by
  have hbound : Exploration.visitBound .lanes (.within [5, 5]) = 208852 := by cbv
  have hlimit : (explore .lanes (.within [5, 5]) 0).map Fixpoint.limit = .ok none := by cbv
  have hb : ∀ w, (Invariant.within [5, 5]).bound = some w → w.value.isFloat = false := by
    simp [Invariant.within, Time.isFloat]
  obtain ⟨hfew, hend⟩ :=
    exploration_terminates (g := .lanes) (by simp [Graph.lanes, Time.isFloat]) hb
  rw [hbound] at hfew
  refine ⟨hfew, ?_⟩
  rcases hend with ⟨e, he⟩ | hend
  · rw [he] at hlimit
    cases hlimit
  · exact hend

end EventInvariants
