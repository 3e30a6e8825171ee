import EventInvariants.Proofs.Reachability
import EventInvariants.Proofs.Verdict
import Mathlib.Data.Nat.Find

namespace EventInvariants

theorem Graph.event_unique {g : Graph} {v : Nat} {a b : Event} (ha : g.hasEvent v a = true)
    (hb : g.hasEvent v b = true) : a = b := by
  unfold hasEvent at ha hb
  cases hv : g.nodes[v]? with
  | none => simp [hv] at ha
  | some node =>
    simp only [hv, Option.any_some, decide_eq_true_eq] at ha hb
    rw [← ha, hb]

namespace Path
variable {g : Graph} {relation : Relation} {same : Option Time → Option Time → Prop} {path : Path}
  {excluded : Option Event}

theorem Route.hop (h : Route g relation same path) {k : Nat} {s t : Step} (hs : path[k]? = some s)
    (ht : path[k + 1]? = some t) (hsa : Closure.allows g excluded s.node = true)
    (hta : Closure.allows g excluded t.node = true) :
    Closure.Hop g relation excluded s.node t.node := by
  obtain ⟨edge, hedge, htarget, _⟩ := h.edge k s t hs ht
  exact ⟨hsa, ⟨edge, hedge, htarget⟩, hta⟩

/-- A stretch of a route is a sequence of hops. -/
theorem Route.hops (h : Route g relation same path) {i n : Nat} {s t : Step}
    (hs : path[i]? = some s) (ht : path[i + n]? = some t)
    (hallow : ∀ x r, i ≤ x → x ≤ i + n → path[x]? = some r →
      Closure.allows g excluded r.node = true) :
    Relation.ReflTransGen (Closure.Hop g relation excluded) s.node t.node := by
  induction n generalizing t with
  | zero =>
    rw [Nat.add_zero, hs] at ht
    cases ht
    exact .refl
  | succ n ih =>
    have hlt : i + n < path.length := by
      have := (List.getElem?_eq_some_iff.mp ht).1
      omega
    have hr := List.getElem?_eq_getElem hlt
    have hbefore := ih hr fun x r hix hx hxr => hallow x r hix (by omega) hxr
    exact hbefore.tail (h.hop hr ht (hallow _ _ (by omega) (by omega) hr)
      (hallow _ _ (by omega) (Nat.le_refl _) ht))

theorem Route.hopOn {last : Step} {v : Nat} (h : Route g relation Eq path)
    (hlast : path.getLast? = some last) (hop : Closure.Hop g relation excluded last.node v) :
    ∃ delta, Route g relation Eq (path ++ [⟨v, delta⟩]) := by
  obtain ⟨_, ⟨edge, hedge, htarget⟩, _⟩ := hop
  exact ⟨edge.delta, h.append hlast hedge htarget rfl⟩

/-- Hops from the end of a route make it longer. -/
theorem Route.extend {last : Step} {v : Nat} (h : Route g relation Eq path)
    (hlast : path.getLast? = some last)
    (hops : Relation.ReflTransGen (Closure.Hop g relation excluded) last.node v) :
    ∃ more, Route g relation Eq (path ++ more) ∧
      (∃ s, (path ++ more).getLast? = some s ∧ s.node = v) ∧
      ∀ s ∈ more, Closure.allows g excluded s.node = true := by
  induction hops with
  | refl => exact ⟨[], by simpa using h, ⟨last, by simpa using hlast, rfl⟩, by simp⟩
  | @tail u v _ hop ih =>
    obtain ⟨more, hroute, ⟨s, hs, rfl⟩, hallow⟩ := ih
    obtain ⟨delta, hroute⟩ := hroute.hopOn hs hop
    refine ⟨more ++ [⟨v, delta⟩], by simpa using hroute, ⟨⟨v, delta⟩, by simp, rfl⟩, ?_⟩
    intro r hr
    rcases List.mem_append.mp hr with hr | hr
    · exact hallow r hr
    · cases List.mem_singleton.mp hr
      exact hop.target

theorem getLast_getElem {path : Path} {s : Step} (h : path.getLast? = some s) :
    path[path.length - 1]? = some s ∧ path.length - 1 < path.length := by
  rw [List.getLast?_eq_getElem?] at h
  exact ⟨h, (List.getElem?_eq_some_iff.mp h).1⟩

end Path

namespace Closure
variable {g : Graph} {inv : Invariant} {relation : Relation} {v : Nat}

def Reached (g : Graph) (relation : Relation) (v : Nat) : Prop :=
  ∃ u, g.isInitial u = true ∧ Relation.ReflTransGen (Hop g relation none) u v

theorem Reached.lt (h : Reached g relation v) : v < g.size := by
  obtain ⟨u, hu, hops⟩ := h
  cases hops with
  | refl => exact Graph.isInitial_lt hu
  | tail _ hop => exact hop.lt.2

theorem isInitiallyReachable_iff :
    isInitiallyReachable (build g relation none) g v = true ↔ Reached g relation v := by
  simp only [isInitiallyReachable, Bool.or_eq_true, List.any_eq_true, Graph.mem_initialNodes,
    isReachable_build]
  constructor
  · intro h
    rcases h with h | ⟨u, hu, hops⟩
    · exact ⟨v, h, .refl⟩
    · exact ⟨u, hu, hops.to_reflTransGen⟩
  · intro h
    obtain ⟨u, hu, hops⟩ := h
    rcases Relation.reflTransGen_iff_eq_or_transGen.mp hops with rfl | hops
    · exact .inl hu
    · exact .inr ⟨u, hu, hops⟩

theorem any_reachableFrom {excluded : Option Event} {u : Nat} {q : Nat → Bool} :
    ((build g relation excluded).reachableFrom u).any q = true ↔
      ∃ v, Relation.TransGen (Hop g relation excluded) u v ∧ q v = true := by
  simp only [List.any_eq_true, mem_reachableFrom]

theorem any_ids {q : Nat → Bool} : g.ids.any q = true ↔ ∃ v < g.size, q v = true := by
  simp only [List.any_eq_true, Graph.ids, List.mem_range]

theorem someFollowed_iff : someFollowed (build g inv.relation none) g inv = true ↔
    ∃ u v, Reached g inv.relation u ∧ g.hasEvent u inv.a = true ∧
      Relation.TransGen (Hop g inv.relation none) u v ∧ g.hasEvent v inv.b = true := by
  simp only [someFollowed, any_ids, Bool.and_eq_true, isInitiallyReachable_iff, any_reachableFrom]
  constructor
  · intro h
    obtain ⟨u, _, ⟨hu, ha⟩, v, hops, hb⟩ := h
    exact ⟨u, v, hu, ha, hops, hb⟩
  · intro h
    obtain ⟨u, v, hu, ha, hops, hb⟩ := h
    exact ⟨u, hu.lt, ⟨hu, ha⟩, v, hops, hb⟩

theorem someUnpreceded_iff :
    someUnpreceded (build g inv.relation (some inv.a)) g inv = true ↔
      ∃ u v, g.isInitial u = true ∧ g.hasEvent u inv.a = false ∧
        Relation.ReflTransGen (Hop g inv.relation (some inv.a)) u v ∧
        g.hasEvent v inv.b = true := by
  simp only [someUnpreceded, List.any_eq_true, Graph.mem_initialNodes, Bool.and_eq_true,
    Bool.not_eq_true', Bool.or_eq_true, mem_reachableFrom]
  constructor
  · intro h
    rcases h with ⟨u, hu, ha, hb | ⟨v, hops, hb⟩⟩
    · exact ⟨u, u, hu, ha, .refl, hb⟩
    · exact ⟨u, v, hu, ha, hops.to_reflTransGen, hb⟩
  · intro h
    obtain ⟨u, v, hu, ha, hops, hb⟩ := h
    refine ⟨u, hu, ha, ?_⟩
    rcases Relation.reflTransGen_iff_eq_or_transGen.mp hops with rfl | hops
    · exact .inl hb
    · exact .inr ⟨v, hops, hb⟩

theorem allows_answer (ha : g.hasEvent v inv.a = true) : allows g (answer inv) v = true := by
  unfold answer
  split
  · rfl
  · rename_i hne
    simp only [allows, Bool.not_eq_true']
    apply Bool.eq_false_iff.mpr
    intro hb
    exact hne (Graph.event_unique ha hb)

theorem someUnanswered_iff :
    someUnanswered (build g inv.relation none) (build g inv.relation (answer inv)) g inv = true ↔
      ∃ u v, Reached g inv.relation u ∧ g.hasEvent u inv.a = true ∧
        Relation.ReflTransGen (Hop g inv.relation (answer inv)) u v ∧ g.isTerminal v = true := by
  simp only [someUnanswered, endsOpen, any_ids, Bool.and_eq_true, Bool.or_eq_true,
    isInitiallyReachable_iff]
  constructor
  · intro h
    obtain ⟨u, _, ⟨hu, ha⟩, hend⟩ := h
    rcases hend with hend | hend
    · exact ⟨u, u, hu, ha, .refl, hend⟩
    · obtain ⟨edge, hedge, hopen⟩ := List.any_eq_true.mp hend
      simp only [Bool.and_eq_true, Bool.or_eq_true, any_reachableFrom] at hopen
      obtain ⟨hallow, hend⟩ := hopen
      have hop : Hop g inv.relation (answer inv) u edge.target :=
        ⟨allows_answer ha, ⟨edge, hedge, rfl⟩, hallow⟩
      rcases hend with hend | ⟨v, hops, hend⟩
      · exact ⟨u, edge.target, hu, ha, .single hop, hend⟩
      · exact ⟨u, v, hu, ha, .head hop hops.to_reflTransGen, hend⟩
  · intro h
    obtain ⟨u, v, hu, ha, hops, hend⟩ := h
    refine ⟨u, hu.lt, ⟨hu, ha⟩, ?_⟩
    rcases Relation.ReflTransGen.cases_head hops with rfl | ⟨w, hop, hops⟩
    · exact .inl hend
    · obtain ⟨_, ⟨edge, hedge, rfl⟩, hallow⟩ := hop
      refine .inr (List.any_eq_true.mpr ⟨edge, hedge, ?_⟩)
      simp only [Bool.and_eq_true, Bool.or_eq_true, any_reachableFrom]
      refine ⟨hallow, ?_⟩
      rcases Relation.reflTransGen_iff_eq_or_transGen.mp hops with rfl | hops
      · exact .inl hend
      · exact .inr ⟨v, hops, hend⟩

end Closure

/-- Some position of the path shows that the invariant fails. -/
def Path.Fails (g : Graph) (inv : Invariant) (path : Path) : Prop :=
  ∃ k < path.length, (Monitor.ofInvariant inv).FailsAt (path.trace g inv) k

namespace Path
variable {g : Graph} {inv : Invariant} {same : Option Time → Option Time → Prop} {path : Path}

theorem Route.reached {k : Nat} {s : Step} (h : Route g inv.relation same path)
    (hs : path[k]? = some s) : Closure.Reached g inv.relation s.node := by
  obtain ⟨first, hfirst, hinit⟩ := h.initial
  exact ⟨first.node, hinit, h.hops (n := k) hfirst (by simpa using hs) fun _ _ _ _ _ => rfl⟩

theorem Route.followed (h : Route g inv.relation same path)
    (hm : Monitor.ofInvariant inv = .neverFollowedBy) (hf : Fails g inv path) :
    ∃ u v, Closure.Reached g inv.relation u ∧ g.hasEvent u inv.a = true ∧
      Relation.TransGen (Closure.Hop g inv.relation none) u v ∧ g.hasEvent v inv.b = true := by
  obtain ⟨k, hk, hfail⟩ := hf
  rw [hm] at hfail
  obtain ⟨hb, i, hi, ha⟩ := hfail
  obtain ⟨n, rfl⟩ : ∃ n, k = i + n + 1 := ⟨k - i - 1, by omega⟩
  have hs := List.getElem?_eq_getElem (show i < path.length by omega)
  have hr := List.getElem?_eq_getElem (show i + n < path.length by omega)
  have ht := List.getElem?_eq_getElem hk
  rw [trace_letter hs] at ha
  rw [trace_letter ht] at hb
  refine ⟨path[i].node, path[i + n + 1].node, h.reached hs, ha, ?_, hb⟩
  exact .tail' (h.hops hs hr fun _ _ _ _ _ => rfl) (h.hop hr ht rfl rfl)

theorem Route.unpreceded (h : Route g inv.relation same path)
    (hm : Monitor.ofInvariant inv = .precedes) (hf : Fails g inv path) :
    ∃ u v, g.isInitial u = true ∧ g.hasEvent u inv.a = false ∧
      Relation.ReflTransGen (Closure.Hop g inv.relation (some inv.a)) u v ∧
      g.hasEvent v inv.b = true := by
  obtain ⟨k, hk, hfail⟩ := hf
  rw [hm] at hfail
  obtain ⟨hb, hno⟩ := hfail
  have hnot : ∀ x r, x ≤ k → path[x]? = some r → g.hasEvent r.node inv.a = false := by
    intro x r hx hr
    have ha := hno x hx
    rw [trace_letter hr] at ha
    exact ha
  have ht := List.getElem?_eq_getElem hk
  rw [trace_letter ht] at hb
  obtain ⟨first, hfirst, hinit⟩ := h.initial
  refine ⟨first.node, path[k].node, hinit, hnot 0 first (Nat.zero_le k) hfirst, ?_, hb⟩
  apply h.hops (n := k) hfirst (by simp)
  intro x r _ hx hr
  simp [Closure.allows, hnot x r (by omega) hr]

theorem Route.unanswered (h : Route g inv.relation same path)
    (hm : Monitor.ofInvariant inv = .followedBy) (hf : Fails g inv path) :
    ∃ u v, Closure.Reached g inv.relation u ∧ g.hasEvent u inv.a = true ∧
      Relation.ReflTransGen (Closure.Hop g inv.relation (Closure.answer inv)) u v ∧
      g.isTerminal v = true := by
  obtain ⟨k, hk, hfail⟩ := hf
  rw [hm] at hfail
  obtain ⟨hend, i, hi, ha, hopen⟩ := hfail
  obtain ⟨n, rfl⟩ := Nat.exists_eq_add_of_le hi
  have hs := List.getElem?_eq_getElem (show i < path.length by omega)
  have ht := List.getElem?_eq_getElem hk
  rw [trace_letter hs] at ha
  rw [trace_letter ht] at hend
  refine ⟨path[i].node, path[i + n].node, h.reached hs, ha, h.hops hs ht ?_, hend⟩
  intro x r hix hx hr
  rcases Nat.lt_or_ge i x with hlt | hge
  · have hb := hopen x hlt (by omega)
    rw [trace_letter hr] at hb
    unfold Closure.answer
    split
    · rfl
    · simpa [Closure.allows, Graph.letter] using hb
  · obtain rfl : x = i := by omega
    rw [hs] at hr
    cases hr
    exact Closure.allows_answer ha

end Path

namespace Closure
variable {g : Graph} {inv : Invariant} {u v : Nat}

theorem Reached.route {relation : Relation} (h : Reached g relation v) :
    ∃ path s, Path.Route g relation Eq path ∧ path.getLast? = some s ∧ s.node = v := by
  obtain ⟨u, hu, hops⟩ := h
  have hfirst : Path.Route g relation Eq [⟨u, none⟩] := Path.route_singleton hu
  obtain ⟨more, hroute, ⟨s, hs, hv⟩, _⟩ := hfirst.extend rfl hops
  exact ⟨_, s, hroute, hs, hv⟩

theorem fails_of_followed (hm : Monitor.ofInvariant inv = .neverFollowedBy)
    (hu : Reached g inv.relation u) (ha : g.hasEvent u inv.a = true)
    (hops : Relation.TransGen (Hop g inv.relation none) u v) (hb : g.hasEvent v inv.b = true) :
    ∃ path, Path.Route g inv.relation Eq path ∧ Path.Fails g inv path := by
  obtain ⟨path, s, hroute, hs, rfl⟩ := hu.route
  obtain ⟨w, hops, hop⟩ := Relation.TransGen.tail'_iff.mp hops
  obtain ⟨more, hlong, ⟨r, hr, rfl⟩, _⟩ := hroute.extend hs hops
  obtain ⟨delta, hlong⟩ := hlong.hopOn hr hop
  obtain ⟨hs, hpos⟩ := Path.getLast_getElem hs
  refine ⟨_, hlong, (path ++ more).length, by simp, ?_⟩
  rw [hm]
  refine ⟨?_, path.length - 1, by rw [List.length_append]; omega, ?_⟩
  · rw [Path.trace_letter List.getElem?_concat_length]
    exact hb
  · rw [Path.trace_letter (s := s)]
    · exact ha
    · rw [List.append_assoc, List.getElem?_append_left hpos]
      exact hs

theorem fails_of_unpreceded (hm : Monitor.ofInvariant inv = .precedes)
    (hu : g.isInitial u = true) (ha : g.hasEvent u inv.a = false)
    (hops : Relation.ReflTransGen (Hop g inv.relation (some inv.a)) u v)
    (hb : g.hasEvent v inv.b = true) :
    ∃ path, Path.Route g inv.relation Eq path ∧ Path.Fails g inv path := by
  have hfirst : Path.Route g inv.relation Eq [⟨u, none⟩] := Path.route_singleton hu
  obtain ⟨more, hroute, ⟨s, hs, rfl⟩, hallow⟩ := hfirst.extend rfl hops
  obtain ⟨hs, hlt⟩ := Path.getLast_getElem hs
  refine ⟨_, hroute, _, hlt, ?_⟩
  rw [hm]
  refine ⟨by rw [Path.trace_letter hs]; exact hb, ?_⟩
  intro i hi
  have hr := List.getElem?_eq_getElem (Nat.lt_of_le_of_lt hi hlt)
  rw [Path.trace_letter hr]
  rcases List.mem_append.mp (List.mem_of_getElem? hr) with hmem | hmem
  · rw [List.mem_singleton.mp hmem]
    exact ha
  · simpa [allows, Graph.letter] using hallow _ hmem

/-- What is on the way to the end of an open wait and is no `a` is no `b`. -/
theorem not_b_of_allows (h : allows g (answer inv) v = true)
    (ha : ¬ (g.letter inv v).a = true) : (g.letter inv v).b = false := by
  unfold answer at h
  split at h
  · rename_i heq
    simpa [Graph.letter, heq] using ha
  · simpa [allows, Graph.letter] using h

/-- The last `a` before the end is the one that no `b` follows. -/
theorem fails_of_unanswered (hm : Monitor.ofInvariant inv = .followedBy)
    (hu : Reached g inv.relation u) (ha : g.hasEvent u inv.a = true)
    (hops : Relation.ReflTransGen (Hop g inv.relation (answer inv)) u v)
    (hend : g.isTerminal v = true) :
    ∃ path, Path.Route g inv.relation Eq path ∧ Path.Fails g inv path := by
  obtain ⟨path, s, hroute, hs, rfl⟩ := hu.route
  obtain ⟨more, hlong, ⟨r, hr, rfl⟩, hallow⟩ := hroute.extend hs hops
  obtain ⟨hs, hpos⟩ := Path.getLast_getElem hs
  obtain ⟨hr, hlt⟩ := Path.getLast_getElem hr
  let t := Path.trace g inv (path ++ more)
  let k := (path ++ more).length - 1
  have hlen : (path ++ more).length = path.length + more.length := List.length_append
  have has : (t.letter (path.length - 1)).a = true := by
    rw [Path.trace_letter (s := s)]
    · exact ha
    · rw [List.getElem?_append_left hpos]
      exact hs
  let i := Nat.findGreatest (fun x => (t.letter x).a = true) k
  have hle : path.length - 1 ≤ k := by omega
  have hi : path.length - 1 ≤ i := Nat.le_findGreatest hle has
  have hai : (t.letter i).a = true :=
    Nat.findGreatest_spec (P := fun x => (t.letter x).a = true) hle has
  refine ⟨_, hlong, k, hlt, ?_⟩
  rw [hm]
  refine ⟨by rw [Path.trace_letter hr]; exact hend, i, Nat.findGreatest_le k, hai, ?_⟩
  intro x hix hx
  have hxa : ¬ (t.letter x).a = true := Nat.findGreatest_is_greatest hix (by omega)
  have hxr := List.getElem?_eq_getElem (show x < (path ++ more).length by omega)
  rw [Path.trace_letter hxr] at hxa ⊢
  have hmem : (path ++ more)[x] ∈ more := by
    have hright : (path ++ more)[x]? = more[x - path.length]? :=
      List.getElem?_append_right (by omega)
    rw [hxr] at hright
    exact List.mem_of_getElem? hright.symm
  exact not_b_of_allows (hallow _ hmem) hxa

/-- The question of reachability is answered with yes for a route that fails, and only then. -/
theorem violates_iff_fails {cache : ClosureCache} (hb : inv.bound = none)
    (hc : cache.Faithful g) :
    ((violates g inv cache).1 = true →
      ∃ path, Path.Route g inv.relation Eq path ∧ Path.Fails g inv path) ∧
    ∀ same path, Path.Route g inv.relation same path → Path.Fails g inv path →
      (violates g inv cache).1 = true := by
  unfold violates
  cases hk : inv.kind with
  | neverFollowedBy =>
    have hm : Monitor.ofInvariant inv = .neverFollowedBy := by simp [Monitor.ofInvariant, hk]
    obtain ⟨hfull, _⟩ := hc.get ⟨inv.relation, none⟩
    simp only [hfull, someFollowed_iff]
    constructor
    · rintro ⟨u, v, hu, ha, hops, hb⟩
      exact fails_of_followed hm hu ha hops hb
    · exact fun same path h hf => h.followed hm hf
  | alwaysPrecedes =>
    have hm : Monitor.ofInvariant inv = .precedes := by simp [Monitor.ofInvariant, hk, hb]
    obtain ⟨hwithout, _⟩ := hc.get ⟨inv.relation, some inv.a⟩
    simp only [hwithout, someUnpreceded_iff]
    constructor
    · rintro ⟨u, v, hu, ha, hops, hb⟩
      exact fails_of_unpreceded hm hu ha hops hb
    · exact fun same path h hf => h.unpreceded hm hf
  | alwaysFollowedBy =>
    have hm : Monitor.ofInvariant inv = .followedBy := by simp [Monitor.ofInvariant, hk, hb]
    obtain ⟨hfull, hc⟩ := hc.get ⟨inv.relation, none⟩
    obtain ⟨hopen, _⟩ := hc.get ⟨inv.relation, answer inv⟩
    simp only [hfull, hopen, someUnanswered_iff]
    constructor
    · rintro ⟨u, v, hu, ha, hops, hend⟩
      exact fails_of_unanswered hm hu ha hops hend
    · exact fun same path h hf => h.unanswered hm hf

end Closure

section
variable {g : Graph} {inv : Invariant} {cache : ClosureCache} {limit : Nat}

theorem Path.Fails.violates {path : Path} (hb : inv.bound = none) (hin : Path.Inside g path) :
    Path.Fails g inv path ↔ Path.violates g inv path = .ok true := by
  obtain ⟨v, hv, hiff⟩ := Path.violates_untimed hin hb
  rw [hv, Except.ok.injEq]
  exact hiff.symm

/-- A failure that exploration has found is one that reachability finds, and the other way round if
exploration was not stopped. -/
theorem failure_iff_closure {f : Fixpoint} (hb : inv.bound = none) (hc : cache.Faithful g)
    (hf : explore g inv limit = .ok f) :
    (f.shortestFailure? ≠ none → (Closure.violates g inv cache).1 = true) ∧
      (f.limit = none → (Closure.violates g inv cache).1 = true → f.shortestFailure? ≠ none) := by
  have hsc := Exploration.scalar_of_validate (Exploration.explore_seed hf).1 (.inl hb)
  obtain ⟨hroute, hclosure⟩ := Closure.violates_iff_fails hb hc
  constructor
  · intro hsome
    obtain ⟨k, hk⟩ := Option.ne_none_iff_exists'.mp hsome
    obtain ⟨v, e, harr, rfl⟩ := Exploration.failure_arrives hsc.exact hf hk
    refine hclosure Eq _ harr.route ((Path.Fails.violates hb harr.route.inside).mpr ?_)
    exact harr.violates_of_untimed hsc.exact hb
  · intro hl hv
    obtain ⟨path, hpath, hfails⟩ := hroute hv
    have hviol := (Path.Fails.violates hb hpath.inside).mp hfails
    have hw := Monitor.window_of_bound hb
    obtain ⟨k, hk, _⟩ := Exploration.shortestFailure_of_violates hsc hf hl hpath
      (fun htimed => absurd hw htimed) hviol
    simp [hk]

/-- An invariant without a bound is refused by validation, or explored under any limit. -/
theorem explore_untimed (g : Graph) (hb : inv.bound = none) :
    (∃ cause, inv.validate g = .error cause ∧
      ∀ limit, explore g inv limit = .error (.invariant cause)) ∨
    inv.validate g = .ok () ∧ ∀ limit, ∃ f, explore g inv limit = .ok f := by
  cases hv : inv.validate g with
  | error cause => exact .inl ⟨cause, rfl, fun limit => by simp [explore, hv]⟩
  | ok _ =>
    have hsc := Exploration.scalar_of_validate hv (.inl hb)
    have hw := Monitor.window_of_bound hb
    exact .inr ⟨rfl, Exploration.explore_total hw hsc.exact hv⟩

theorem outcome_of_closure {f : Fixpoint} (hb : inv.bound = none) (hc : cache.Faithful g)
    (hf : explore g inv limit = .ok f) :
    (∃ reason n, f.outcome = .inconclusive reason n ∧ f.limit ≠ none) ∨
      f.outcome.verdict = (closureOutcome (Closure.violates g inv cache).1).verdict := by
  obtain ⟨hfound, hlost⟩ := failure_iff_closure hb hc hf
  unfold Fixpoint.outcome
  cases hs : f.shortestFailure? with
  | some k =>
    rw [hfound (by simp [hs])]
    exact .inr rfl
  | none =>
    cases hl : f.limit with
    | some reason => exact .inl ⟨reason, _, rfl, by simp⟩
    | none =>
      have hnot : (Closure.violates g inv cache).1 = false :=
        Bool.eq_false_iff.mpr fun hv => hlost hl hv hs
      rw [hnot]
      exact .inr rfl

theorem checkByBoth_agrees (hb : inv.bound = none) (hc : cache.Faithful g) (limit : Nat)
    (j : Invariant) (x y : Verdict) :
    (checkByBoth g inv limit cache).1 ≠ .error (.disagreement j x y) := by
  unfold checkByBoth checkByExploration
  rcases explore_untimed g hb with ⟨cause, _, he⟩ | ⟨_, hok⟩
  · simp [he limit]
  · obtain ⟨f, hf⟩ := hok limit
    simp only [hf, Result.ok_bind, Result.pure_eq]
    rcases outcome_of_closure hb hc hf with ⟨reason, n, ho, _⟩ | hverdict
    · simp [ho]
    · have hsame : f.outcome.isViolated =
          (closureOutcome (Closure.violates g inv cache).1).isViolated := by
        simp [Outcome.isViolated, hverdict]
      split
      · rename_i ho
        cases ho
      · simp
      · rename_i ho
        cases ho
        simp [hsame]

/-- The question of reachability adds no closure that is not the graph's. -/
theorem Closure.violates_faithful (hc : cache.Faithful g) (inv : Invariant) :
    (Closure.violates g inv cache).2.Faithful g := by
  unfold Closure.violates
  cases inv.kind with
  | neverFollowedBy => exact (hc.get _).2
  | alwaysPrecedes => exact (hc.get _).2
  | alwaysFollowedBy => exact ((hc.get _).2.get _).2

/-- Checks of one graph can share a cache: whatever they check, and with whatever result. -/
theorem check_faithful (hc : cache.Faithful g) (inv : Invariant) (config : Config) :
    (check g inv config cache).2.Faithful g := by
  have hv := Closure.violates_faithful hc inv
  unfold check
  split
  · unfold checkByClosure
    split
    · exact hc
    · exact hv
  · unfold checkByBoth
    split
    · exact hc
    · exact hc
    · dsimp only
      split
      · exact hv
      · exact hv
  · exact hc

/-- Exploration and reachability agree on every invariant without a bound: comparing them never
shows a difference, whatever the limit, and without a limit both give one verdict, or the same
reason why the invariant is not valid. The cache may be empty or come from any checks of the
graph. -/
theorem backends_agree (hb : inv.bound = none) (hc : cache.Faithful g) :
    (∀ limit j x y, (check g inv ⟨.crossCheck, limit⟩ cache).1 ≠ .error (.disagreement j x y)) ∧
      (∀ cause, inv.validate g = .error cause →
        (check g inv ⟨.automaton, 0⟩ cache).1 = .error (.invariant cause) ∧
          (check g inv ⟨.closure, 0⟩ cache).1 = .error (.invariant cause)) ∧
      (inv.validate g = .ok () → ∃ o o', (check g inv ⟨.automaton, 0⟩ cache).1 = .ok o ∧
        (check g inv ⟨.closure, 0⟩ cache).1 = .ok o' ∧ o.verdict = o'.verdict ∧
        (o'.verdict = .violated ↔ (Closure.violates g inv cache).1 = true) ∧
        (o'.verdict = .holds ↔ (Closure.violates g inv cache).1 = false)) ∧
      ∀ other config, (check g other config cache).2.Faithful g := by
  have htimed : inv.isTimed = false := by simp [Invariant.isTimed, hb]
  refine ⟨?_, ?_, ?_, check_faithful hc⟩ <;> simp only [check, htimed]
  · exact checkByBoth_agrees hb hc
  · intro cause hv
    simp [checkByExploration, checkByClosure, explore, hv]
  · intro hv
    have hsc := Exploration.scalar_of_validate hv (.inl hb)
    have hw := Monitor.window_of_bound hb
    obtain ⟨f, hf⟩ := Exploration.explore_total hw hsc.exact hv 0
    have hl : f.limit = none := Exploration.explore_limit hsc.exact
      (Exploration.sampled_untimed hw) (by simp [Exploration.clocks, hb]) hf
    have hverdict : f.outcome.verdict =
        (closureOutcome (Closure.violates g inv cache).1).verdict := by
      rcases outcome_of_closure hb hc hf with ⟨_, _, _, hne⟩ | hverdict
      · exact absurd hl hne
      · exact hverdict
    refine ⟨f.outcome, closureOutcome (Closure.violates g inv cache).1, ?_, ?_, hverdict, ?_, ?_⟩
    · simp [checkByExploration, hf]
    · simp [checkByClosure, hv]
    · cases (Closure.violates g inv cache).1 <;> simp [closureOutcome, Outcome.verdict]
    · cases (Closure.violates g inv cache).1 <;> simp [closureOutcome, Outcome.verdict]

def Invariant.repeated : Invariant :=
  ⟨.alwaysFollowedBy, ⟨"a"⟩, ⟨"a"⟩, .default, none⟩

theorem loop_repeated_agrees :
    Invariant.repeated.validate .loop = .ok () ∧
      (∀ limit j x y, (check .loop .repeated ⟨.crossCheck, limit⟩ .empty).1 ≠
        .error (.disagreement j x y)) ∧
      ∃ o o', (check .loop .repeated ⟨.automaton, 0⟩ .empty).1 = .ok o ∧
        (check .loop .repeated ⟨.closure, 0⟩ .empty).1 = .ok o' ∧
        o.verdict = .violated ∧ o'.verdict = .violated := by
  have hv : Invariant.repeated.validate .loop = .ok () := by cbv
  have hviolates : (Closure.violates .loop .repeated .empty).1 = true := by cbv
  have hb : Invariant.repeated.bound = none := rfl
  obtain ⟨hnever, _, hagree⟩ := backends_agree hb (ClosureCache.faithful_empty .loop)
  obtain ⟨o, o', ho, ho', hsame, hiff, _⟩ := hagree.1 hv
  have hviol := hiff.mpr hviolates
  exact ⟨hv, hnever, o, o', ho, ho', hsame.trans hviol, hviol⟩

end
end EventInvariants
