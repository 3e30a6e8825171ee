import EventInvariants.Proofs.Enumeration
import EventInvariants.Proofs.Preorder

namespace EventInvariants

namespace Path
variable {g : Graph} {inv : Invariant}

/-- The judgement looks at the number of steps, at their letters and at the times between them. -/
theorem violates_congr {path path' : Path} (hlen : path.length = path'.length)
    (hletter : ∀ i, letterAt g inv path.toArray i = letterAt g inv path'.toArray i)
    (helapsed : ∀ i j, elapsed path.toArray i j = elapsed path'.toArray i j) :
    violates g inv path = violates g inv path' := by
  have hA : isA g inv path.toArray = isA g inv path'.toArray := by
    funext i
    simp only [isA, hletter]
  have hB : isB g inv path.toArray = isB g inv path'.toArray := by
    funext i
    simp only [isB, hletter]
  have hend : isTerminal g inv path.toArray = isTerminal g inv path'.toArray := by
    funext i
    simp only [isTerminal, hletter]
  have htime : timeIs path.toArray = timeIs path'.toArray := by
    funext o bound i j
    simp only [timeIs, helapsed]
  simp only [violates, breaksNeverFollowedBy, breaksPrecedes, breaksFollowedBy, breaksTimedPrecedes,
    breaksTimedFollowedBy, anchor?, List.size_toArray, hlen, hA, hB, hend, htime]

theorem violates_first (v : Nat) (delta delta' : Option Time) (rest : Path) :
    violates g inv (⟨v, delta⟩ :: rest) = violates g inv (⟨v, delta'⟩ :: rest) := by
  apply violates_congr
  · rfl
  · intro i
    cases i with
    | zero => simp [letterAt]
    | succ i => simp [letterAt]
  · intro i j
    simp [elapsed]

end Path

/-- The search gives back the least length of an accepted path that violates the invariant, among
those of at most `n` nodes, and nothing if there is none. It fails only at such a path that cannot
be judged. -/
theorem shortestViolation_least {g : Graph}
    (hg : ∀ node ∈ g.nodes, ∀ edge ∈ node.edges, ∀ d, edge.delta = some d → d.isFloat = false)
    (inv : Invariant) (n : Nat) :
    (∀ result, Path.shortestViolation g inv n = .ok result →
      Path.IsShortest (fun path => Path.isPath g inv.relation path = true ∧ path.length ≤ n ∧
        Path.violates g inv path = .ok true) result) ∧
    ∀ e, Path.shortestViolation g inv n = .error e →
      ∃ path, Path.isPath g inv.relation path = true ∧ path.length ≤ n ∧
        Path.violates g inv path = .error e := by
  have haccepted : ∀ path, Path.Enumerated g inv.relation n path →
      Path.isPath g inv.relation path = true ∧ path.length ≤ n :=
    fun path hpath => ⟨(Path.isPath_iff_route hg).mpr hpath.1, hpath.2.2⟩
  constructor
  · intro result h
    apply (Path.isShortest_of_ok h).transfer
    · intro path hviolating
      obtain ⟨hpath, hv⟩ := hviolating
      obtain ⟨haccept, hlen⟩ := haccepted path hpath
      exact ⟨path, ⟨haccept, hlen, hv⟩, Nat.le_refl _⟩
    · intro path hviolating
      obtain ⟨hpath, hlen, hv⟩ := hviolating
      cases path with
      | nil => cases hpath
      | cons first rest =>
        -- the same path, entered without a time, is enumerated
        have hroute : Path.Route g inv.relation Eq (⟨first.node, none⟩ :: rest) :=
          (Path.isPath_iff_route hg).mp hpath
        refine ⟨⟨first.node, none⟩ :: rest, ⟨⟨hroute, ⟨_, rfl, rfl⟩, hlen⟩, ?_⟩, Nat.le_refl _⟩
        rw [Path.violates_first first.node none first.delta]
        exact hv
  · intro e h
    obtain ⟨path, hpath, he⟩ := Path.not_judged_of_error h
    obtain ⟨haccept, hlen⟩ := haccepted path hpath
    exact ⟨path, haccept, hlen, he⟩

theorem loop_search_least :
    Path.shortestViolation .loop (.response .upper 3) 4 = .ok none ∧
      Path.shortestViolation .loop (.response .upper 3) 7 = .ok (some 5) ∧
      Path.isPath .loop .default (Path.turns 4) = true ∧
      Path.violates .loop (.response .upper 3) (Path.turns 4) = .ok true ∧
      (∀ path, Path.isPath .loop .default path = true ∧ path.length ≤ 7 ∧
        Path.violates .loop (.response .upper 3) path = .ok true → 5 ≤ path.length) ∧
      ∀ path, ¬ (Path.isPath .loop .default path = true ∧ path.length ≤ 4 ∧
        Path.violates .loop (.response .upper 3) path = .ok true) := by
  have hg : ∀ node ∈ Graph.loop.nodes, ∀ edge ∈ node.edges, ∀ d, edge.delta = some d →
      d.isFloat = false := by simp [Graph.loop, Time.isFloat]
  have hshort : Path.shortestViolation .loop (.response .upper 3) 4 = .ok none := by rfl
  have hlong : Path.shortestViolation .loop (.response .upper 3) 7 = .ok (some 5) := by rfl
  exact ⟨hshort, hlong, rfl, rfl,
    ((shortestViolation_least hg (.response .upper 3) 7).1 _ hlong).2,
    (shortestViolation_least hg (.response .upper 3) 4).1 _ hshort⟩

end EventInvariants
