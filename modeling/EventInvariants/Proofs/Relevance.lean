import EventInvariants.Check
import EventInvariants.Proofs.Verdict

namespace EventInvariants

/-- What a node is apart from its edges. -/
def Node.marks (node : Node) : Event × Bool × Bool :=
  (node.event, node.initial, node.terminal)

/-- The same nodes in the same order, each with the same edges of the relation in the same order.
The edges of other relations may differ in number, targets and times. -/
structure Graph.Agrees (relation : Relation) (g h : Graph) : Prop where
  marks : g.nodes.map Node.marks = h.nodes.map Node.marks
  successors : ∀ v, g.successors v relation = h.successors v relation

namespace Graph.Agrees
variable {g h : Graph} {relation : Relation} (hg : g.Agrees relation h)
include hg

theorem size_eq : g.size = h.size := by
  simpa [Graph.size] using congrArg Array.size hg.marks

theorem ids_eq : g.ids = h.ids := by
  rw [Graph.ids, Graph.ids, hg.size_eq]

/-- A question about the marks of a node has the same answer. -/
theorem any_eq (p : Event × Bool × Bool → Bool) (v : Nat) :
    (g.nodes[v]?.any fun node => p node.marks) = h.nodes[v]?.any fun node => p node.marks := by
  have hnode := congrArg (fun marks => marks[v]?.any p) hg.marks
  simpa only [Array.getElem?_map, Option.any_map] using hnode

theorem isInitial_eq : g.isInitial = h.isInitial :=
  funext (hg.any_eq fun m => m.2.1)

theorem isTerminal_eq : g.isTerminal = h.isTerminal :=
  funext (hg.any_eq fun m => m.2.2)

theorem hasEvent_eq : g.hasEvent = h.hasEvent := by
  funext v event
  exact hg.any_eq (fun m => m.1 = event) v

theorem initialNodes_eq : g.initialNodes = h.initialNodes := by
  rw [Graph.initialNodes, Graph.initialNodes, hg.ids_eq, hg.isInitial_eq]

theorem containsEvent_eq (event : Event) : g.containsEvent event = h.containsEvent event := by
  have hany := congrArg (fun marks => marks.any fun m => m.1 = event) hg.marks
  simp only [Array.any_map] at hany
  exact hany

theorem letter_eq (inv : Invariant) : g.letter inv = h.letter inv := by
  funext v
  rw [Graph.letter, Graph.letter, hg.hasEvent_eq, hg.isTerminal_eq]

end Graph.Agrees

section
variable {g h : Graph} {inv : Invariant} (hg : g.Agrees inv.relation h)
include hg

namespace Invariant

theorem mismatch_congr (kind : TimeKind) : inv.mismatch? g kind = inv.mismatch? h kind := by
  simp only [mismatch?, hg.ids_eq, hg.successors]

theorem validate_congr : inv.validate g = inv.validate h := by
  simp only [validate, checkBound, mismatch_congr hg, hg.containsEvent_eq]

end Invariant

namespace Exploration

theorem propagate_congr : propagate g inv = propagate h inv := by
  funext source s edge
  rw [propagate, propagate, hg.letter_eq]

theorem seedNode_congr : seedNode g inv = seedNode h inv := by
  funext s v
  rw [seedNode, seedNode, hg.letter_eq]

theorem seed_congr : seed g inv = seed h inv := by
  rw [seed, seed, hg.initialNodes_eq, seedNode_congr hg, blank, blank, hg.size_eq]

theorem follow_congr : follow g inv = follow h inv := by
  funext source known s edge
  rw [follow, follow, propagate_congr hg]

theorem visit_congr : visit g inv = visit h inv := by
  funext s v rest
  rw [visit, visit, hg.successors, follow_congr hg]

theorem run_congr (limit fuel : Nat) (s : State) :
    run g inv limit fuel s = run h inv limit fuel s := by
  induction fuel generalizing s with
  | zero => rfl
  | succ fuel ih => simp only [run, visit_congr hg, ih]

theorem explore_congr (limit : Nat) : explore g inv limit = explore h inv limit := by
  have hbound : visitBound g inv = visitBound h inv := by
    rw [visitBound, visitBound, hg.size_eq]
  simp only [explore, exploreValid, Invariant.validate_congr hg, seed_congr hg, hbound,
    run_congr hg]

end Exploration

namespace Closure

theorem allows_congr (excluded : Option Event) : allows g excluded = allows h excluded := by
  funext v
  simp only [allows, hg.hasEvent_eq]

theorem search_congr (allowed : Array Bool) (base : Nat) (s : Search) :
    Search.run g inv.relation allowed base s = Search.run h inv.relation allowed base s := by
  fun_induction Search.run g inv.relation allowed base s with
  | case1 rows => rw [Search.run]
  | case2 v stack rows ih => rw [ih, Search.run, Search.expand, Search.expand, hg.successors]

theorem build_congr (excluded : Option Event) :
    build g inv.relation excluded = build h inv.relation excluded := by
  have hallowed : allowedNodes g excluded = allowedNodes h excluded := by
    rw [allowedNodes, allowedNodes, hg.ids_eq, allows_congr hg]
  simp only [build, sources, fillRows, hg.size_eq, hg.ids_eq, hallowed, search_congr hg]

theorem get_congr (cache : ClosureCache) (excluded : Option Event) :
    cache.get g ⟨inv.relation, excluded⟩ = cache.get h ⟨inv.relation, excluded⟩ := by
  simp only [ClosureCache.get, build_congr hg]

theorem violates_congr (cache : ClosureCache) : violates g inv cache = violates h inv cache := by
  have hreached : ∀ full, isInitiallyReachable full g = isInitiallyReachable full h := by
    intro full
    funext v
    rw [isInitiallyReachable, isInitiallyReachable, hg.isInitial_eq, hg.initialNodes_eq]
  have hopen : ∀ unanswered, endsOpen unanswered g inv = endsOpen unanswered h inv := by
    intro unanswered
    funext v
    rw [endsOpen, endsOpen, allows_congr hg, hg.isTerminal_eq]
  simp only [violates, get_congr hg, someFollowed, someUnpreceded, someUnanswered, hg.ids_eq,
    hg.initialNodes_eq, hg.hasEvent_eq, hg.isTerminal_eq, hg.successors, hreached, hopen]

end Closure
end

/-- Only the relation of the invariant matters. On two graphs with the same nodes and the same edges
of that relation, whatever other edges they have, a check gives the same result: the same verdict
with the same path and the same number of visits, or the same error. This holds for every backend,
every limit and every cache, and the caches stay the same too. -/
theorem other_relations_irrelevant {g h : Graph} {inv : Invariant}
    (hg : g.Agrees inv.relation h) (config : Config) (cache : ClosureCache) :
    check g inv config cache = check h inv config cache := by
  have hexplored : ∀ limit, checkByExploration g inv limit = checkByExploration h inv limit := by
    intro limit
    rw [checkByExploration, checkByExploration, Exploration.explore_congr hg]
  simp only [check, checkByClosure, checkByBoth, hexplored, Invariant.validate_congr hg,
    Closure.violates_congr hg]

/-- The loop among edges of another relation, which lead back to the `a` and around the `x`, and
whose times are missing, negative, of other kinds or no numbers. -/
def Graph.tangled : Graph where
  nodes := #[⟨⟨"a"⟩, true, false, #[⟨2, ⟨"u"⟩, some .nan⟩, ⟨1, .default, some (.integer 1)⟩,
      ⟨0, ⟨"u"⟩, none⟩]⟩,
    ⟨⟨"x"⟩, false, false, #[⟨1, .default, some (.integer 1)⟩, ⟨0, ⟨"u"⟩, some (.vector [1, -1])⟩,
      ⟨2, .default, some (.integer 1)⟩]⟩,
    ⟨⟨"b"⟩, false, true, #[⟨0, ⟨"u"⟩, some (.integer (-3))⟩]⟩]
  target_lt := by simp

theorem tangled_like_loop :
    Graph.Agrees .default .tangled .loop ∧
      check .tangled (.response .upper 3) ⟨.crossCheck, 5⟩ .empty =
        (.ok (.violated (some ⟨Path.turns 4⟩) 5), .empty) ∧
      (check .tangled .never ⟨.closure, 0⟩ .empty).1 = .ok (.violated none 0) := by
  have hagrees : Graph.Agrees .default .tangled .loop := by
    refine ⟨by simp [Graph.tangled, Graph.loop, Node.marks], ?_⟩
    intro v
    rcases v with _ | _ | _ | v
    all_goals rfl
  have hsame : ∀ inv : Invariant, inv.relation = .default → ∀ config,
      check .tangled inv config .empty = check .loop inv config .empty := by
    intro inv hrelation config
    exact other_relations_irrelevant (by rw [hrelation]; exact hagrees) config .empty
  have hresponse : check .loop (.response .upper 3) ⟨.crossCheck, 5⟩ .empty =
      (.ok (.violated (some ⟨Path.turns 4⟩) 5), .empty) := by cbv
  have hnever : (check .loop .never ⟨.closure, 0⟩ .empty).1 = .ok (.violated none 0) := by cbv
  refine ⟨hagrees, ?_, ?_⟩
  · rw [hsame _ rfl, hresponse]
  · rw [hsame _ rfl, hnever]

end EventInvariants
