import EventInvariants.Proofs.Conformance
import EventInvariants.Proofs.Readings

namespace EventInvariants

namespace Exploration
variable {g : Graph} {inv : Invariant} {limit : Nat} {f : Fixpoint} {path : Path} {p : Phase}
  {c : Clock}

/-- The times of an accepted path are those of its edges, so that none is a double. -/
theorem runs_of_path (hx : Exact g inv) (hp : Path.isPath g inv.relation path = true)
    (hrun : (Monitor.ofInvariant inv).run g inv path = .ok (p, c)) :
    (Monitor.ofInvariant inv).Runs (path.trace g inv) (path.length - 1) p c := by
  have hroute := Path.isPath_iff.mp hp
  have hpos := hroute.pos
  have hd : (Monitor.ofInvariant inv).window ≠ none →
      ∀ k, ((path.trace g inv).delta (k + 1)).isFloat = false := fun hw =>
    (hroute.mono (tells_beq hx hw)).delta (P := fun d => d.isFloat = false) (hx.delta hw) rfl
  apply Monitor.runs_of_run hd (by omega)
  rw [List.take_of_length_le (by omega)]
  exact hrun

theorem covers_of_path {last : Step} (hx : Exact g inv) (hf : explore g inv limit = .ok f)
    (hl : f.limit = none) (hp : Path.isPath g inv.relation path = true)
    (hlast : path.getLast? = some last)
    (hrun : (Monitor.ofInvariant inv).run g inv path = .ok (p, c)) :
    (f.set last.node).Covers (Monitor.ofInvariant inv) p path.length c ∨
      ∃ x ∈ (f.set last.node).frontier .failed, x.length ≤ path.length := by
  obtain ⟨s, hs, hset⟩ := explore_converged hx hf hl
  have hroute := Path.isPath_iff.mp hp
  have hpos := hroute.pos
  rw [List.getLast?_eq_getElem?] at hlast
  have hcov := covers_of_runs hx hs hroute (tells_beq hx) (runs_of_path hx hp hrun) last hlast
  rwa [← hset, Nat.sub_add_cancel hpos] at hcov

end Exploration

/-- Pruning loses no path: the frontier of its last node answers for it. -/
theorem path_never_lost {g : Graph} {inv : Invariant} {limit : Nat} {f : Fixpoint}
    (hg : ∀ node ∈ g.nodes, ∀ edge ∈ node.edges, ∀ d, edge.delta = some d → d.isFloat = false)
    (hb : ∀ w, inv.bound = some w → (∃ n, w.value = .integer n) ∨ ∃ v, w.value = .vector v)
    (hf : explore g inv limit = .ok f) (hl : f.limit = none) {path : Path} {last : Step}
    {p : Phase} {c : Clock} (hp : Path.isPath g inv.relation path = true)
    (hlast : path.getLast? = some last)
    (hrun : (Monitor.ofInvariant inv).run g inv path = .ok (p, c)) :
    (∃ h, (f.set last.node).failure? = some h ∧ h.length ≤ path.length) ∨
      ∃ x ∈ (f.set last.node).frontier p, x.length ≤ path.length ∧
        ((Monitor.ofInvariant inv).severity x.clock c = .ok .eq ∨
          (Monitor.ofInvariant inv).severity x.clock c = .ok .gt) := by
  have hx : Exploration.Exact g inv := by
    apply Exploration.exact_of_times hg
    intro w hw
    rcases hb w hw with ⟨n, hn⟩ | ⟨v, hv⟩
    · rw [hn]; rfl
    · rw [hv]; rfl
  obtain ⟨harrives, hsorted⟩ := Exploration.explore_sound hx hf
  rcases Exploration.covers_of_path hx hf hl hp hlast hrun with ⟨x, hmem, hlen, hlead⟩ | hfail
  · have harr := harrives _ p x hmem
    refine .inr ⟨x, hmem, hlen, Monitor.severity_of_leads (harr.exact hx)
      (Exploration.runs_of_path hx hp hrun).exact ?_ ?_ hlead⟩
    · intro w hw
      exact ⟨Monitor.run_settled hw harr.run, Monitor.run_settled hw hrun⟩
    · intro w hw
      exact hb w (Monitor.bound_of_window hw)
  · obtain ⟨x, hmem, hlen⟩ := hfail
    obtain ⟨h, hh, hle⟩ := StateSet.failure_le (hsorted _) hmem
    exact .inl ⟨h, hh, Nat.le_trans hle hlen⟩

/-- From an `a` to a node with a slow and a fast edge to itself, and on to a `b`, at vector times.
-/
def Graph.lanes : Graph where
  nodes := #[⟨⟨"a"⟩, true, false, #[⟨1, .default, some .zero⟩]⟩,
    ⟨⟨"x"⟩, false, false, #[⟨1, .default, some (.vector [1, 1])⟩,
      ⟨1, .default, some (.vector [2, 2])⟩, ⟨2, .default, some (.vector [0, 0])⟩]⟩,
    ⟨⟨"b"⟩, false, true, #[]⟩]
  target_lt := by simp

/-- The path that takes the slow edge `n` times. -/
def Path.slow (n : Nat) : Path :=
  ⟨0, none⟩ :: ⟨1, some .zero⟩ :: List.replicate n ⟨1, some (.vector [1, 1])⟩

/-- The slow path is dropped for the fast one, which is shorter and as far. -/
theorem slow_never_lost :
    (Monitor.ofInvariant (.within [5, 5])).run .lanes (.within [5, 5]) (Path.slow 2) =
        .ok (.seen, .running (.vector [2, 2])) ∧
      ∃ f, explore .lanes (.within [5, 5]) 0 = .ok f ∧ f.limit = none ∧
        ((∃ h, (f.set 1).failure? = some h ∧ h.length ≤ 4) ∨
          ∃ x ∈ (f.set 1).frontier .seen, x.length ≤ 4 ∧
            ((Monitor.ofInvariant (.within [5, 5])).severity x.clock
                (.running (.vector [2, 2])) = .ok .eq ∨
              (Monitor.ofInvariant (.within [5, 5])).severity x.clock
                (.running (.vector [2, 2])) = .ok .gt)) := by
  have hrun : (Monitor.ofInvariant (.within [5, 5])).run .lanes (.within [5, 5]) (Path.slow 2) =
      .ok (.seen, .running (.vector [2, 2])) := by cbv
  have hpath : Path.isPath .lanes .default (Path.slow 2) = true := by cbv
  have hlast : (Path.slow 2).getLast? = some ⟨1, some (.vector [1, 1])⟩ := by cbv
  have hlimit : (explore .lanes (.within [5, 5]) 0).map Fixpoint.limit = .ok none := by cbv
  cases hf : explore .lanes (.within [5, 5]) 0 with
  | error e =>
    rw [hf] at hlimit
    cases hlimit
  | ok f =>
    rw [hf] at hlimit
    have hl : f.limit = none := Except.ok.inj hlimit
    refine ⟨hrun, f, rfl, hl, path_never_lost ?_ ?_ hf hl hpath hlast hrun⟩
    · simp [Graph.lanes, Time.isFloat]
    · simp [Invariant.within]

end EventInvariants
