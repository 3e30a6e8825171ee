import EventInvariants.Proofs.Pumping

namespace EventInvariants

/-- The path ends at the node and leaves the monitor in the state. -/
def Path.Reaches (g : Graph) (inv : Invariant) (v : Nat) (p : Phase) (path : Path) : Prop :=
  (∃ s, path.getLast? = some s ∧ s.node = v) ∧
    ∃ c, (Monitor.ofInvariant inv).run g inv path = .ok (p, c)

theorem StateSet.contains_eq (s : StateSet) (p : Phase) :
    s.contains p = ((s.history? p).map History.length).isSome := by
  unfold contains history? best?
  cases s.frontier p <;> rfl

namespace Path
variable {g : Graph} {inv : Invariant} {v : Nat} {p : Phase} {path path' : Path}

/-- Without a bound only the nodes of the path count. -/
theorem Reaches.of_nodes (hb : inv.bound = none) (h : Reaches g inv v p path)
    (hnodes : path'.map Step.node = path.map Step.node) : Reaches g inv v p path' := by
  obtain ⟨⟨s, hlast, rfl⟩, c, hrun⟩ := h
  refine ⟨last_of_nodes hlast hnodes, c, ?_⟩
  rw [Monitor.run_of_nodes (Monitor.window_of_bound hb) hnodes]
  exact hrun

theorem Reaches.recorded {same : Option Time → Option Time → Prop} (hb : inv.bound = none)
    (hroute : Route g inv.relation same path) (h : Reaches g inv v p path) :
    ∃ path', (Route g inv.relation Eq path' ∧ Reaches g inv v p path') ∧
      path'.length ≤ path.length := by
  obtain ⟨path', hroute', hnodes, _⟩ := hroute.recorded
  refine ⟨path', ⟨hroute', h.of_nodes hb hnodes⟩, Nat.le_of_eq ?_⟩
  simpa using congrArg List.length hnodes

end Path

namespace Exploration
variable {g : Graph} {inv : Invariant} {s : State} {limit : Nat} {f : Fixpoint} {v : Nat}
  {p : Phase} {path : Path}

theorem Arrives.reaches {σ : Nat → StateSet} {e : Entry} (h : Arrives g inv σ v p e) :
    Path.Reaches g inv v p e.history.steps :=
  ⟨⟨e.history.last, History.getLast_steps _, h.last⟩, e.clock, h.run⟩

/-- What a route reaches is known at its end, by a history that is no longer. -/
theorem Converged.knows (hb : inv.bound = none) (hs : Converged g inv s)
    (hroute : Path.Route g inv.relation Eq path) (h : path.Reaches g inv v p) :
    ∃ x ∈ (s.set v).frontier p, x.length ≤ path.length := by
  -- the entry for the route without its last step has been passed along the last edge
  induction path using List.reverseRecOn generalizing v p with
  | nil => exact absurd hroute.pos (Nat.lt_irrefl 0)
  | append_singleton path next ih =>
    obtain ⟨⟨_, hlast, rfl⟩, c, hrun⟩ := h
    rw [List.getLast?_concat] at hlast
    cases hlast
    rw [Monitor.run_append, Result.bind_ok] at hrun
    obtain ⟨⟨q, b⟩, hq, hstep⟩ := hrun
    dsimp only at hstep
    rcases hroute.last_step with ⟨rfl, hinit⟩ | ⟨last, hlast, hbefore, edge, hedge, htarget, hd⟩
    · obtain ⟨p', c', hread, x, hx, hlen, _⟩ := hs.started next.node hinit
      cases hq
      rw [Monitor.step_start, hread] at hstep
      cases hstep
      exact ⟨x, hx, hlen⟩
    · obtain ⟨x, hx, hlen⟩ := ih hbefore ⟨⟨last, hlast, rfl⟩, b, hq⟩
      obtain ⟨_, q', c', hstep', y, hy, hlen', _⟩ := hs.passed last.node edge hedge q x hx
      have hw := Monitor.window_of_bound hb
      rw [Monitor.run_idle hw (hs.arrives _ _ x hx).run, ← Monitor.run_idle hw hq, htarget, hd,
        hstep] at hstep'
      cases hstep'
      rw [htarget] at hy
      refine ⟨y, hy, ?_⟩
      rw [List.length_append, List.length_singleton]
      omega

/-- The history that a node keeps for a state is that of a shortest route. -/
theorem history_isShortest (hb : inv.bound = none) (h : explore g inv limit = .ok f)
    (hl : f.limit = none) (v : Nat) (p : Phase) :
    Path.IsShortest (fun path => Path.Route g inv.relation Eq path ∧ path.Reaches g inv v p)
      (((f.set v).history? p).map History.length) := by
  have hx := (scalar_of_validate (explore_seed h).1 (.inl hb)).exact
  obtain ⟨harrives, hsorted⟩ := explore_sound hx h
  obtain ⟨s, hs, hset⟩ := explore_converged hx h hl
  have hknown : ∀ path, Path.Route g inv.relation Eq path → path.Reaches g inv v p →
      ∃ k, (f.set v).history? p = some k ∧ k.length ≤ path.length := by
    intro path hroute hreach
    obtain ⟨x, hmem, hlen⟩ := hs.knows hb hroute hreach
    rw [← hset] at hmem
    obtain ⟨k, hk, hle⟩ := StateSet.history_le (hsorted v) hmem
    exact ⟨k, hk, Nat.le_trans hle hlen⟩
  cases hk : (f.set v).history? p with
  | none =>
    intro path hpath
    obtain ⟨k, hk', _⟩ := hknown path hpath.1 hpath.2
    rw [hk] at hk'
    cases hk'
  | some k =>
    obtain ⟨e, he, rfl⟩ := StateSet.history_mem hk
    have harr := harrives v p e he
    refine ⟨⟨e.history.steps, ⟨harr.route, harr.reaches⟩, History.length_steps _⟩, ?_⟩
    intro path hpath
    obtain ⟨k, hk', hle⟩ := hknown path hpath.1 hpath.2
    rw [hk] at hk'
    cases hk'
    exact hle

end Exploration

/-- Without a bound, what exploration knows of a node when it converges is exact: the states in
which some route arrives there, each with a history as short as any such route. The routes are the
accepted paths, unless the time of an edge differs from itself as a value. -/
theorem histories_exact {g : Graph} {inv : Invariant} {limit : Nat} {f : Fixpoint}
    (hb : inv.bound = none) (h : explore g inv limit = .ok f) (hl : f.limit = none) (v : Nat)
    (p : Phase) :
    ((f.set v).contains p = true ↔
        ∃ path, Path.Route g inv.relation Eq path ∧ path.Reaches g inv v p) ∧
      Path.IsShortest (fun path => Path.Route g inv.relation Eq path ∧ path.Reaches g inv v p)
        (((f.set v).history? p).map History.length) ∧
      ((∀ u, ∀ edge ∈ g.successors u inv.relation, (edge.delta == edge.delta) = true) →
        ((f.set v).contains p = true ↔
          ∃ path, Path.isPath g inv.relation path = true ∧ path.Reaches g inv v p) ∧
        Path.IsShortest
          (fun path => Path.isPath g inv.relation path = true ∧ path.Reaches g inv v p)
          (((f.set v).history? p).map History.length)) ∧
      ∀ path, Path.isPath g inv.relation path = true → path.Reaches g inv v p →
        (f.set v).contains p = true ∧
          ∃ k, (f.set v).history? p = some k ∧ k.length ≤ path.length := by
  have hshort := Exploration.history_isShortest hb h hl v p
  rw [StateSet.contains_eq]
  refine ⟨hshort.isSome_iff, hshort, ?_, ?_⟩
  · intro hself
    have haccepted : Path.IsShortest
        (fun path => Path.isPath g inv.relation path = true ∧ path.Reaches g inv v p)
        (((f.set v).history? p).map History.length) := by
      apply hshort.transfer
      · intro path hpath
        exact ⟨path, ⟨hpath.1.isPath hself, hpath.2⟩, Nat.le_refl _⟩
      · intro path hpath
        exact hpath.2.recorded hb (Path.isPath_iff.mp hpath.1)
    exact ⟨haccepted.isSome_iff, haccepted⟩
  · intro path hpath hreach
    obtain ⟨path', hpath', hle⟩ := hreach.recorded hb (Path.isPath_iff.mp hpath)
    obtain ⟨n, hn, hmin⟩ := hshort.le hpath'
    obtain ⟨k, hk, rfl⟩ := Option.map_eq_some_iff.mp hn
    exact ⟨by rw [hn]; rfl, k, hk, Nat.le_trans hmin hle⟩

theorem loop_histories_exact :
    ∃ f, explore .loop .never 0 = .ok f ∧ f.limit = none ∧
      ((f.set 2).history? .failed).map History.length = some 3 ∧
      Path.IsShortest
        (fun path => Path.isPath .loop .default path = true ∧ path.Reaches .loop .never 2 .failed)
        (some 3) := by
  have hexplore : (explore .loop .never 0).map (fun f => (f.limit,
      ((f.set 2).history? .failed).map History.length)) = .ok (none, some 3) := by cbv
  obtain ⟨f, hf, heq⟩ := Result.map_ok.mp hexplore
  obtain ⟨hl, hlength⟩ := Prod.mk.inj heq
  have hb : Invariant.never.bound = none := rfl
  have hself : ∀ u, ∀ edge ∈ Graph.loop.successors u Invariant.never.relation,
      (edge.delta == edge.delta) = true := by
    intro u edge hedge
    rw [Graph.loop_delta hedge]
    rfl
  obtain ⟨_, _, haccepted, _⟩ := histories_exact hb hf hl 2 .failed
  have hshort := (haccepted hself).2
  rw [hlength] at hshort
  exact ⟨f, hf, hl, hlength, hshort⟩

/-- A node knows a state that only an edge whose time differs from itself leads to. -/
theorem nan_edge_explored :
    Invariant.never.bound = none ∧ ∃ f, explore (.pair .nan) .never 0 = .ok f ∧ f.limit = none ∧
      (f.set 1).contains .failed = true ∧
      ¬ ∃ path, Path.isPath (.pair .nan) Invariant.never.relation path = true ∧
        path.Reaches (.pair .nan) .never 1 .failed := by
  have hexplore (t : Time) : (explore (.pair t) .never 0).map (fun f => (f.limit,
      (f.set 1).contains .failed)) = .ok (none, true) := by cbv
  obtain ⟨f, hf, heq⟩ := Result.map_ok.mp (hexplore .nan)
  obtain ⟨hl, hcontains⟩ := Prod.mk.inj heq
  refine ⟨rfl, f, hf, hl, hcontains, ?_⟩
  intro h
  obtain ⟨path, hpath, ⟨s, hs, hnode⟩, _⟩ := h
  obtain ⟨d, rfl⟩ := Path.pair_nan_accepted hpath
  cases hs
  cases hnode

end EventInvariants
