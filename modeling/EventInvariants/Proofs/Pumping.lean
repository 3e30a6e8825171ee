import EventInvariants.Proofs.Enumeration
import EventInvariants.Proofs.Verdict
import Mathlib.Data.Finset.Prod
import Mathlib.Combinatorics.Pigeonhole

namespace EventInvariants

namespace Path
variable {g : Graph} {inv : Invariant} {relation : Relation}
  {same : Option Time → Option Time → Prop} {path : Path}

/-- An invariant without a bound is violated if and only if its monitor has failed. -/
theorem violates_iff_run (hb : inv.bound = none) (h : Route g inv.relation same path) :
    violates g inv path = .ok true ↔
      (Monitor.ofInvariant inv).run g inv path = .ok (.failed, .idle) := by
  have hw := Monitor.window_of_bound hb
  obtain ⟨p, hp, _⟩ := Monitor.run_total g inv hw path
  obtain ⟨v, hv, _⟩ := violates_untimed h.inside hb
  have hiff := failed_iff_judged h.pos h.inside (by simp [Monitor.IsExact, hw])
    (fun htimed => absurd hw htimed) (fun htimed => absurd hw htimed) hp hv
  rw [hv, hp]
  simpa using hiff.symm

/-- The path without the steps after `i` up to `j`. -/
def cut (path : Path) (i j : Nat) : Path :=
  path.take (i + 1) ++ path.drop (j + 1)

theorem getElem?_cut {i j k : Nat} (hi : i < path.length) :
    (path.cut i j)[k]? = if k ≤ i then path[k]? else path[k - i + j]? := by
  have hlen : (path.take (i + 1)).length = i + 1 := by
    rw [List.length_take]
    omega
  unfold cut
  split
  · rw [List.getElem?_append_left (by omega), List.getElem?_take_of_lt (by omega)]
  · rw [List.getElem?_append_right (by omega), List.getElem?_drop]
    congr 1
    omega

theorem Route.cut (h : Route g relation same path) {i j : Nat} {s t : Step}
    (hs : path[i]? = some s) (ht : path[j]? = some t) (hnode : s.node = t.node) :
    Route g relation same (path.cut i j) := by
  have hi := (List.getElem?_eq_some_iff.mp hs).1
  constructor
  · obtain ⟨first, hfirst, hinit⟩ := h.initial
    exact ⟨first, by rw [getElem?_cut hi, if_pos (Nat.zero_le i)]; exact hfirst, hinit⟩
  · intro k r r' hr hr'
    rw [getElem?_cut hi] at hr hr'
    rcases Nat.lt_trichotomy k i with hk | rfl | hk
    · rw [if_pos (by omega)] at hr hr'
      exact h.edge k r r' hr hr'
    · -- the edge that is taken is the one after the second visit
      rw [if_pos (Nat.le_refl k), hs] at hr
      rw [if_neg (by omega), show k + 1 - k + j = j + 1 by omega] at hr'
      cases hr
      rw [hnode]
      exact h.edge j t r' ht hr'
    · rw [if_neg (by omega)] at hr hr'
      rw [show k + 1 - i + j = k - i + j + 1 by omega] at hr'
      exact h.edge _ r r' hr hr'

/-- A long route on which the monitor has not failed is twice at one node in one state. -/
theorem Route.repeats (h : Route g inv.relation same path)
    (hw : (Monitor.ofInvariant inv).window = none) {n : Nat} (hn : n ≤ path.length)
    (hlong : g.size * 3 < n)
    (hsafe : ∀ k < n, (Monitor.ofInvariant inv).run g inv (path.take (k + 1)) ≠
      .ok (.failed, .idle)) :
    ∃ i j s t, i < j ∧ j < n ∧ path[i]? = some s ∧ path[j]? = some t ∧ s.node = t.node ∧
      (Monitor.ofInvariant inv).run g inv (path.take (i + 1)) =
        (Monitor.ofInvariant inv).run g inv (path.take (j + 1)) := by
  have hphase : ∀ k, ∃ p, (Monitor.ofInvariant inv).run g inv (path.take (k + 1)) =
      .ok (p, .idle) := by
    intro k
    obtain ⟨p, hp, _⟩ := Monitor.run_total g inv hw (path.take (k + 1))
    exact ⟨p, hp⟩
  choose phase hphase using hphase
  have hnode : ∀ k < n, ∃ s, path[k]? = some s ∧ s.node < g.size := by
    intro k hk
    have hs := List.getElem?_eq_getElem (show k < path.length by omega)
    exact ⟨_, hs, h.inside _ (List.mem_of_getElem? hs)⟩
  let place : Nat → Nat × Phase := fun k => ((path[k]?.map Step.node).getD 0, phase k)
  have hplace : ∀ k ∈ Finset.range n,
      place k ∈ Finset.range g.size ×ˢ {Phase.start, Phase.seen, Phase.matched} := by
    intro k hk
    obtain ⟨s, hs, hlt⟩ := hnode k (Finset.mem_range.mp hk)
    have hne : phase k ≠ .failed := by
      intro hfailed
      apply hsafe k (Finset.mem_range.mp hk)
      rw [hphase k, hfailed]
    refine Finset.mem_product.mpr ⟨by simpa [place, hs] using hlt, ?_⟩
    cases hp : phase k <;> simp_all [place]
  obtain ⟨i, hi, j, hj, hne, heq⟩ :=
    Finset.exists_ne_map_eq_of_card_lt_of_maps_to (by simpa using hlong) hplace
  wlog hij : i < j generalizing i j
  · exact this j hj i hi hne.symm heq.symm (by omega)
  obtain ⟨s, hs, _⟩ := hnode i (Finset.mem_range.mp hi)
  obtain ⟨t, ht, _⟩ := hnode j (Finset.mem_range.mp hj)
  simp only [place, hs, ht, Option.map_some, Option.getD_some, Prod.mk.injEq] at heq
  refine ⟨i, j, s, t, hij, Finset.mem_range.mp hj, hs, ht, heq.1, ?_⟩
  rw [hphase i, hphase j, heq.2]

/-- A violating route that is too long has a shorter one in it: up to where the monitor fails, or
with a piece cut out. -/
theorem Route.shorten (hb : inv.bound = none) (h : Route g inv.relation same path)
    (hv : violates g inv path = .ok true) (hlong : lengthBound g < path.length) :
    ∃ path', Route g inv.relation same path' ∧ violates g inv path' = .ok true ∧
      path'.length < path.length := by
  rw [violates_iff_run hb h] at hv
  by_cases hearly : ∃ k < path.length - 1,
      (Monitor.ofInvariant inv).run g inv (path.take (k + 1)) = .ok (.failed, .idle)
  · obtain ⟨k, hk, hfailed⟩ := hearly
    refine ⟨path.take (k + 1), h.take k, (violates_iff_run hb (h.take k)).mpr hfailed, ?_⟩
    rw [List.length_take]
    omega
  · obtain ⟨i, j, s, t, hij, hj, hs, ht, hnode, hrun⟩ := h.repeats (n := path.length - 1)
      (Monitor.window_of_bound hb) (by omega) (by unfold lengthBound at hlong; omega)
      (fun k hk hfailed => hearly ⟨k, hk, hfailed⟩)
    have hcut := h.cut hs ht hnode
    refine ⟨path.cut i j, hcut, (violates_iff_run hb hcut).mpr ?_, ?_⟩
    · rw [Path.cut, Monitor.run_replace hrun, List.take_append_drop]
      exact hv
    · rw [Path.cut, List.length_append, List.length_take, List.length_drop]
      omega

theorem Route.exists_short (hb : inv.bound = none) (h : Route g inv.relation same path)
    (hv : violates g inv path = .ok true) :
    ∃ path', Route g inv.relation same path' ∧ violates g inv path' = .ok true ∧
      path'.length ≤ lengthBound g ∧ path'.length ≤ path.length := by
  induction hn : path.length using Nat.strongRecOn generalizing path with
  | _ n ih =>
    rcases Nat.lt_or_ge (lengthBound g) path.length with hlong | hshort
    · obtain ⟨path', hroute, hviol, hlt⟩ := h.shorten hb hv hlong
      obtain ⟨short, hroute, hviol, hbound, hle⟩ := ih path'.length (by omega) hroute hviol rfl
      exact ⟨short, hroute, hviol, hbound, by omega⟩
    · exact ⟨path, h, hv, hshort, by omega⟩

theorem violates_of_nodes {path' : Path} {same' : Option Time → Option Time → Prop}
    (hb : inv.bound = none) (h : Route g inv.relation same path)
    (h' : Route g inv.relation same' path') (hnodes : path'.map Step.node = path.map Step.node)
    (hv : violates g inv path = .ok true) : violates g inv path' = .ok true := by
  rw [violates_iff_run hb h] at hv
  rw [violates_iff_run hb h', Monitor.run_of_nodes (Monitor.window_of_bound hb) hnodes]
  exact hv

/-- A violating route has an enumerated one that is no longer. -/
theorem Route.exists_enumerated (hb : inv.bound = none) (h : Route g inv.relation same path)
    (hv : violates g inv path = .ok true) :
    ∃ path', Violating g inv (Enumerated g inv.relation (lengthBound g)) path' ∧
      path'.length ≤ path.length := by
  obtain ⟨short, hroute, hviol, hbound, hle⟩ := h.exists_short hb hv
  obtain ⟨path', hroute', hnodes, hfirst⟩ := hroute.recorded
  have hlen : path'.length = short.length := by simpa using congrArg List.length hnodes
  refine ⟨path', ⟨⟨hroute', hfirst, by omega⟩, ?_⟩, by omega⟩
  exact violates_of_nodes hb hroute hroute' hnodes hviol

end Path

/-- The bound on the length of the search is sufficient: within it lies a shortest of all violating
routes, however long they are, if there is one. These are the accepted paths, unless the time of an
edge differs from itself as a value. -/
theorem lengthBound_sufficient (g : Graph) {inv : Invariant} (hb : inv.bound = none) :
    ∃ result, Path.shortestViolation g inv (Path.lengthBound g) = .ok result ∧
      Path.IsShortest (Path.Violating g inv (Path.Route g inv.relation Eq)) result ∧
      ((∀ v, ∀ edge ∈ g.successors v inv.relation, (edge.delta == edge.delta) = true) →
        Path.IsShortest (Path.Violating g inv fun path => Path.isPath g inv.relation path = true)
          result) ∧
      ∀ path, Path.isPath g inv.relation path = true → Path.violates g inv path = .ok true →
        ∃ n, result = some n ∧ n ≤ path.length := by
  cases hr : Path.shortestViolation g inv (Path.lengthBound g) with
  | error e =>
    obtain ⟨path, henum, he⟩ := Path.not_judged_of_error hr
    obtain ⟨v, hv, _⟩ := Path.violates_untimed henum.1.inside hb
    rw [he] at hv
    cases hv
  | ok result =>
    have hshortest := Path.isShortest_of_ok hr
    refine ⟨result, rfl, ?_, ?_, ?_⟩
    · apply hshortest.transfer
      · intro path hpath
        exact ⟨path, ⟨hpath.1.1, hpath.2⟩, Nat.le_refl _⟩
      · intro path hpath
        exact hpath.1.exists_enumerated hb hpath.2
    · intro hself
      apply hshortest.transfer
      · intro path hpath
        exact ⟨path, ⟨hpath.1.1.isPath hself, hpath.2⟩, Nat.le_refl _⟩
      · intro path hpath
        exact (Path.isPath_iff.mp hpath.1).exists_enumerated hb hpath.2
    · intro path hpath hv
      obtain ⟨path', hpath', hle⟩ := (Path.isPath_iff.mp hpath).exists_enumerated hb hv
      obtain ⟨n, hn, hmin⟩ := hshortest.le hpath'
      exact ⟨n, hn, Nat.le_trans hmin hle⟩

theorem Graph.loop_delta {v : Nat} {edge : Edge} (h : edge ∈ Graph.loop.successors v .default) :
    edge.delta = some (.integer 1) := by
  rcases v with _ | _ | _ | v
  · cases List.mem_singleton.mp h
    rfl
  · rcases List.mem_pair.mp h with rfl | rfl <;> rfl
  · cases h
  · cases h

theorem loop_search_sufficient :
    Path.shortestViolation .loop .never (Path.lengthBound .loop) = .ok (some 3) ∧
      Path.IsShortest (Path.Violating .loop .never fun path =>
        Path.isPath .loop .default path = true) (some 3) := by
  have hsearch : Path.shortestViolation .loop .never (Path.lengthBound .loop) = .ok (some 3) := by
    cbv
  obtain ⟨result, hresult, _, haccepted, _⟩ :=
    lengthBound_sufficient .loop (show Invariant.never.bound = none from rfl)
  rw [hsearch] at hresult
  cases hresult
  refine ⟨hsearch, haccepted ?_⟩
  intro v edge hedge
  rw [Graph.loop_delta hedge]
  rfl

theorem Path.not_isEdge_pair_nan {u : Nat} {s : Step} :
    Path.isEdge (.pair .nan) .default u s = false := by
  apply Bool.eq_false_iff.mpr
  intro h
  obtain ⟨edge, hedge, _, hd⟩ := Path.isEdge_iff.mp h
  rw [Graph.pair_delta hedge] at hd
  cases hs : s.delta with
  | none =>
    rw [hs] at hd
    cases hd
  | some t =>
    rw [hs] at hd
    exact Bool.false_ne_true ((Time.nan_beq t).symm.trans hd)

theorem Path.pair_nan_accepted {path : Path}
    (h : Path.isPath (.pair .nan) .default path = true) : ∃ d, path = [⟨0, d⟩] := by
  cases path with
  | nil => cases h
  | cons first rest =>
    obtain ⟨hinit, hrest⟩ := (Bool.and_eq_true _ _).mp h
    obtain ⟨v, d⟩ := first
    cases rest with
    | nil =>
      rcases v with _ | _ | v
      · exact ⟨d, rfl⟩
      · cases hinit
      · cases hinit
    | cons next rest =>
      rw [Path.follows, Path.not_isEdge_pair_nan] at hrest
      cases hrest

/-- The search takes an edge whose time differs from itself, but no accepted path does. -/
theorem nan_edge_searched :
    Invariant.never.bound = none ∧
      Path.shortestViolation (.pair .nan) .never (Path.lengthBound (.pair .nan)) = .ok (some 2) ∧
      ¬ ∃ path, Path.isPath (.pair .nan) Invariant.never.relation path = true ∧
        Path.violates (.pair .nan) .never path = .ok true := by
  have hsearch (t : Time) :
      Path.shortestViolation (.pair t) .never (Path.lengthBound (.pair t)) = .ok (some 2) := by
    cbv
  refine ⟨rfl, hsearch .nan, ?_⟩
  intro h
  obtain ⟨path, hpath, hv⟩ := h
  obtain ⟨d, rfl⟩ := Path.pair_nan_accepted hpath
  have hkept (t : Time) : Path.violates (.pair t) .never [⟨0, d⟩] = .ok false := by cbv
  rw [hkept] at hv
  cases hv

end EventInvariants
