import EventInvariants.Proofs.Judgement

namespace EventInvariants

namespace Graph
variable {g : Graph} {v : Nat} {relation : Relation} {edge : Edge}

theorem isInitial_lt (h : g.isInitial v = true) : v < g.size := by
  unfold isInitial at h
  rcases Nat.lt_or_ge v g.nodes.size with hv | hv
  · exact hv
  · rw [Array.getElem?_eq_none hv] at h
    cases h

theorem mem_initialNodes : v ∈ g.initialNodes ↔ g.isInitial v = true := by
  simp only [initialNodes, List.mem_filter, ids, List.mem_range]
  exact ⟨fun h => h.2, fun h => ⟨isInitial_lt h, h⟩⟩

theorem mem_successors (h : edge ∈ g.successors v relation) :
    ∃ node ∈ g.nodes, edge ∈ node.edges := by
  unfold successors at h
  split at h
  · rename_i node hnode
    exact ⟨node, Array.mem_of_getElem? hnode, Array.mem_toList_iff.mp (List.mem_filter.mp h).1⟩
  · cases h

theorem successors_target_lt (h : edge ∈ g.successors v relation) : edge.target < g.size := by
  obtain ⟨node, hnode, hedge⟩ := mem_successors h
  exact g.target_lt node hnode edge hedge

end Graph

theorem Time.eq_of_beq {s t : Time} (hs : s.isFloat = false) (h : (s == t) = true) : s = t := by
  change Time.beq s t = true at h
  cases s <;> cases t <;> simp_all [Time.beq, Time.isFloat]

namespace Path
variable {g : Graph} {relation : Relation} {path : Path}
  {same same' : Option Time → Option Time → Prop}

/-- The steps start at an initial node, and each later one takes an edge of the relation. `same`
compares the time of the edge with that of the step. -/
structure Route (g : Graph) (relation : Relation) (same : Option Time → Option Time → Prop)
    (path : Path) : Prop where
  initial : ∃ s, path[0]? = some s ∧ g.isInitial s.node = true
  edge : ∀ k s s', path[k]? = some s → path[k + 1]? = some s' →
    ∃ edge ∈ g.successors s.node relation, edge.target = s'.node ∧ same edge.delta s'.delta

theorem isEdge_iff {u : Nat} {s : Step} :
    isEdge g relation u s = true ↔
      ∃ edge ∈ g.successors u relation, edge.target = s.node ∧ (edge.delta == s.delta) = true := by
  simp only [isEdge, List.any_eq_true, Bool.and_eq_true, decide_eq_true_eq]

theorem follows_iff {first : Step} {rest : Path} :
    follows g relation first.node rest = true ↔
      ∀ (k : Nat) (s s' : Step), (first :: rest)[k]? = some s → rest[k]? = some s' →
        isEdge g relation s.node s' = true := by
  induction rest generalizing first with
  | nil => simp [follows]
  | cons second rest ih =>
    rw [follows, Bool.and_eq_true, ih]
    constructor
    · intro h k s s' hs hs'
      obtain ⟨hfirst, hrest⟩ := h
      cases k with
      | zero =>
        cases hs
        cases hs'
        exact hfirst
      | succ k => exact hrest k s s' hs hs'
    · intro h
      exact ⟨h 0 first second rfl rfl, fun k s s' hs hs' => h (k + 1) s s' hs hs'⟩

theorem isPath_iff :
    isPath g relation path = true ↔ Route g relation (fun x y => (x == y) = true) path := by
  cases path with
  | nil =>
    constructor
    · intro h
      cases h
    · intro h
      obtain ⟨⟨s, hs, _⟩, _⟩ := h
      cases hs
  | cons first rest =>
    rw [isPath, Bool.and_eq_true, follows_iff]
    constructor
    · intro h
      obtain ⟨hinit, hrest⟩ := h
      exact ⟨⟨first, rfl, hinit⟩, fun k s s' hs hs' => isEdge_iff.mp (hrest k s s' hs hs')⟩
    · intro h
      obtain ⟨⟨s, hs, hinit⟩, hedge⟩ := h
      cases hs
      exact ⟨hinit, fun k s s' hs hs' => isEdge_iff.mpr (hedge k s s' hs hs')⟩

theorem Route.mono (h : Route g relation same path)
    (hsame : ∀ v, ∀ edge ∈ g.successors v relation, ∀ d, same edge.delta d → same' edge.delta d) :
    Route g relation same' path where
  initial := h.initial
  edge k s s' hs hs' := by
    obtain ⟨edge, hedge, htarget, hdelta⟩ := h.edge k s s' hs hs'
    exact ⟨edge, hedge, htarget, hsame s.node edge hedge _ hdelta⟩

theorem Route.pos (h : Route g relation same path) : 0 < path.length := by
  obtain ⟨s, hs, _⟩ := h.initial
  exact (List.getElem?_eq_some_iff.mp hs).1

theorem Route.inside (h : Route g relation same path) : Inside g path := by
  intro s hs
  obtain ⟨k, hk⟩ := List.getElem?_of_mem hs
  cases k with
  | zero =>
    obtain ⟨first, hfirst, hinit⟩ := h.initial
    rw [hfirst] at hk
    cases hk
    exact Graph.isInitial_lt hinit
  | succ k =>
    have hlt : k < path.length := by
      have := (List.getElem?_eq_some_iff.mp hk).1
      omega
    obtain ⟨edge, hedge, htarget, _⟩ := h.edge k _ s (List.getElem?_eq_getElem hlt) hk
    rw [← htarget]
    exact Graph.successors_target_lt hedge

theorem route_singleton {v : Nat} {delta : Option Time} (h : g.isInitial v = true) :
    Route g relation same [⟨v, delta⟩] where
  initial := ⟨⟨v, delta⟩, rfl, h⟩
  edge k s s' _ hs' := by simp at hs'

theorem Route.append {last next : Step} {edge : Edge} (h : Route g relation same path)
    (hlast : path.getLast? = some last) (hedge : edge ∈ g.successors last.node relation)
    (htarget : edge.target = next.node) (hdelta : same edge.delta next.delta) :
    Route g relation same (path ++ [next]) where
  initial := by
    obtain ⟨s, hs, hinit⟩ := h.initial
    exact ⟨s, by rw [List.getElem?_append_left h.pos]; exact hs, hinit⟩
  edge k s s' hs hs' := by
    rcases Nat.lt_or_ge (k + 1) path.length with hk | hk
    · rw [List.getElem?_append_left hk] at hs'
      rw [List.getElem?_append_left (by omega)] at hs
      exact h.edge k s s' hs hs'
    · have hend : k + 1 = path.length := by
        have := (List.getElem?_eq_some_iff.mp hs').1
        simp only [List.length_append, List.length_singleton] at this
        omega
      rw [hend, List.getElem?_append_right (Nat.le_refl _), Nat.sub_self] at hs'
      cases hs'
      rw [List.getElem?_append_left (by omega)] at hs
      rw [List.getLast?_eq_getElem?, show path.length - 1 = k by omega, hs] at hlast
      cases hlast
      exact ⟨edge, hedge, htarget, hdelta⟩

theorem Route.take (h : Route g relation same path) (n : Nat) :
    Route g relation same (path.take (n + 1)) where
  initial := by
    obtain ⟨s, hs, hinit⟩ := h.initial
    exact ⟨s, by rw [List.getElem?_take_of_lt (by omega)]; exact hs, hinit⟩
  edge k s s' hs hs' := by
    have hlt : k + 1 < n + 1 := by
      have := (List.getElem?_eq_some_iff.mp hs').1
      rw [List.length_take] at this
      omega
    rw [List.getElem?_take_of_lt hlt] at hs'
    rw [List.getElem?_take_of_lt (by omega)] at hs
    exact h.edge k s s' hs hs'

/-- The last step of a route is its first one, or it goes on from a route. -/
theorem Route.last_step {next : Step} (h : Route g relation same (path ++ [next])) :
    path = [] ∧ g.isInitial next.node = true ∨
      ∃ last, path.getLast? = some last ∧ Route g relation same path ∧
        ∃ edge ∈ g.successors last.node relation,
          edge.target = next.node ∧ same edge.delta next.delta := by
  cases hlast : path.getLast? with
  | none =>
    cases List.getLast?_eq_none_iff.mp hlast
    obtain ⟨first, hfirst, hinit⟩ := h.initial
    cases hfirst
    exact .inl ⟨rfl, hinit⟩
  | some last =>
    have hpos : 0 < path.length := List.length_pos_of_mem (List.mem_of_getLast? hlast)
    have hend : path.length - 1 + 1 = path.length := Nat.sub_add_cancel hpos
    have hroute := h.take (path.length - 1)
    rw [hend, List.take_left] at hroute
    refine .inr ⟨last, rfl, hroute, h.edge (path.length - 1) last next ?_ ?_⟩
    · rw [List.getElem?_append_left (by omega), ← List.getLast?_eq_getElem?, hlast]
    · rw [hend, List.getElem?_concat_length]

theorem last_of_nodes {path' : Path} {last : Step} (hlast : path.getLast? = some last)
    (hnodes : path'.map Step.node = path.map Step.node) :
    ∃ last', path'.getLast? = some last' ∧ last'.node = last.node := by
  apply Option.map_eq_some_iff.mp
  rw [← List.getLast?_map, hnodes, List.getLast?_map, hlast, Option.map_some]

/-- Every route can be taken with the times of its edges, and no time at its first node. -/
theorem Route.recorded (h : Route g relation same path) :
    ∃ path', Route g relation Eq path' ∧ path'.map Step.node = path.map Step.node ∧
      ∃ s, path'[0]? = some s ∧ s.delta = none := by
  induction path using List.reverseRecOn with
  | nil => exact absurd h.pos (Nat.lt_irrefl 0)
  | append_singleton path next ih =>
    rcases h.last_step with ⟨rfl, hinit⟩ | ⟨last, hlast, hroute, edge, hedge, htarget, _⟩
    · exact ⟨[⟨next.node, none⟩], route_singleton hinit, rfl, ⟨next.node, none⟩, rfl, rfl⟩
    · obtain ⟨path', hroute', hnodes, first, hfirst, hnone⟩ := ih hroute
      obtain ⟨last', hlast', hnode⟩ := last_of_nodes hlast hnodes
      rw [← hnode] at hedge
      refine ⟨path' ++ [⟨edge.target, edge.delta⟩], hroute'.append hlast' hedge rfl rfl,
        by simp [hnodes, htarget], first, ?_, hnone⟩
      rw [List.getElem?_append_left hroute'.pos]
      exact hfirst

section
variable {inv : Invariant} {k : Nat} {s : Step}

theorem trace_letter (h : path[k]? = some s) :
    (path.trace g inv).letter k = g.letter inv s.node := by
  simp [trace, h]

theorem trace_delta (h : path[k]? = some s) :
    (path.trace g inv).delta k = s.delta.getD .zero := by
  simp [trace, h]

theorem trace_past (h : path.length ≤ k) : (path.trace g inv).delta k = .zero := by
  simp [trace, List.getElem?_eq_none h]

/-- What holds of the times of all edges holds of the times of a route that takes its edges with
their own times. -/
theorem Route.delta {P : Time → Prop} (h : Route g inv.relation Eq path)
    (hedge : ∀ v, ∀ edge ∈ g.successors v inv.relation, P (edge.delta.getD .zero))
    (h0 : P .zero) (k : Nat) : P ((path.trace g inv).delta (k + 1)) := by
  rcases Nat.lt_or_ge (k + 1) path.length with hk | hk
  · have hs := List.getElem?_eq_getElem (show k < path.length by omega)
    have hs' := List.getElem?_eq_getElem hk
    obtain ⟨edge, hmem, _, hdelta⟩ := h.edge k _ _ hs hs'
    rw [trace_delta hs', ← hdelta]
    exact hedge _ edge hmem
  · rw [trace_past hk]
    exact h0

end
end Path
end EventInvariants
