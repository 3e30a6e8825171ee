import EventInvariants.Path.Shortest
import EventInvariants.Proofs.Route
import EventInvariants.Proofs.Walking

namespace EventInvariants.Path
variable {g : Graph} {inv : Invariant} {relation : Relation} {P Q R : Path → Prop}
  {best before after : Option Nat} {base path : Path} {more : Nat}

/-- The best length before and after a search of the paths in `P`. -/
structure Improves (g : Graph) (inv : Invariant) (P : Path → Prop) (before after : Option Nat) :
    Prop where
  keeps : ∀ n, before.any (· ≤ n) = true → after.any (· ≤ n) = true
  found : ∀ n, after = some n →
    before = some n ∨ ∃ path, P path ∧ violates g inv path = .ok true ∧ path.length = n
  least : ∀ path, P path → violates g inv path = .ok true → after.any (· ≤ path.length) = true

theorem any_le_trans {m n : Nat} (h : best.any (· ≤ m) = true) (hmn : m ≤ n) :
    best.any (· ≤ n) = true := by
  cases best with
  | none => cases h
  | some k =>
    simp only [Option.any_some, decide_eq_true_eq] at *
    exact Nat.le_trans h hmn

/-- Nothing has to change if the violating paths of the set are not shorter. -/
theorem Improves.refl (h : ∀ path, P path → violates g inv path = .ok true →
    best.any (· ≤ path.length) = true) : Improves g inv P best best where
  keeps _ hn := hn
  found _ hn := .inl hn
  least := h

theorem Improves.trans {middle : Option Nat} (h : Improves g inv P before middle)
    (h' : Improves g inv Q middle after) (hR : ∀ path, R path ↔ P path ∨ Q path) :
    Improves g inv R before after where
  keeps n hn := h'.keeps n (h.keeps n hn)
  found n hn := by
    rcases h'.found n hn with hmiddle | ⟨path, hpath, hrest⟩
    · rcases h.found n hmiddle with hbefore | ⟨path, hpath, hrest⟩
      · exact .inl hbefore
      · exact .inr ⟨path, (hR path).mpr (.inl hpath), hrest⟩
    · exact .inr ⟨path, (hR path).mpr (.inr hpath), hrest⟩
  least path hpath hv := by
    rcases (hR path).mp hpath with hpath | hpath
    · exact h'.keeps _ (h.least path hpath hv)
    · exact h'.least path hpath hv

/-- A search of the paths in `P` goes on with a best length, or stops at one that cannot be
judged. -/
def Searches (g : Graph) (inv : Invariant) (P : Path → Prop) (before : Option Nat) :
    Search × Bool → Prop
  | (.ok after, false) => Improves g inv P before after
  | (.error e, true) => ∃ path, P path ∧ violates g inv path = .error e
  | _ => False

/-- A search may be taken for one of a larger set whose other paths are no violations. -/
theorem Searches.mono {result : Search × Bool} (h : Searches g inv P before result)
    (hPQ : ∀ path, P path → Q path)
    (hQP : ∀ path, Q path → violates g inv path = .ok true → P path) :
    Searches g inv Q before result := by
  obtain ⟨search, stopped⟩ := result
  cases search with
  | error e =>
    cases stopped with
    | false => exact h
    | true =>
      obtain ⟨path, hpath, he⟩ := h
      exact ⟨path, hPQ path hpath, he⟩
  | ok after =>
    cases stopped with
    | true => exact h
    | false =>
      refine ⟨h.keeps, fun n hn => ?_, fun path hpath hv => h.least path (hQP path hpath hv) hv⟩
      rcases h.found n hn with hbefore | ⟨path, hpath, hrest⟩
      · exact .inl hbefore
      · exact .inr ⟨path, hPQ path hpath, hrest⟩

theorem searches_each {α : Type} {f : Search → α → Search × Bool} {P : α → Path → Prop}
    {xs : List α} (h : ∀ x ∈ xs, ∀ best, Searches g inv (P x) best (f (.ok best) x))
    (best : Option Nat) :
    Searches g inv (fun path => ∃ x ∈ xs, P x path) best (Walk.each f (.ok best) xs) := by
  induction xs generalizing best with
  | nil => exact Improves.refl (by simp)
  | cons x xs ih =>
    obtain ⟨hx, hxs⟩ := List.forall_mem_cons.mp h
    have hfirst := hx best
    rw [Walk.each]
    generalize f (.ok best) x = result at hfirst
    rcases result with ⟨e | after, _ | _⟩
    · cases hfirst
    · obtain ⟨path, hpath, he⟩ := hfirst
      exact ⟨path, ⟨x, List.mem_cons_self, hpath⟩, he⟩
    · have hrest := ih hxs after
      dsimp only
      generalize Walk.each f (.ok after) xs = result at hrest
      rcases result with ⟨e | last, _ | _⟩
      · cases hrest
      · obtain ⟨path, ⟨y, hy, hpath⟩, he⟩ := hrest
        exact ⟨path, ⟨y, List.mem_cons_of_mem x hy, hpath⟩, he⟩
      · exact Improves.trans hfirst hrest fun path => by simp
      · cases hrest
    · cases hfirst

/-- The routes that start with `base` and have at most `more` steps after it. -/
def Extends (g : Graph) (relation : Relation) (base : Path) (more : Nat) (path : Path) : Prop :=
  Route g relation Eq path ∧ base <+: path ∧ path.length ≤ base.length + more

theorem extends_self (h : Route g relation Eq base) : Extends g relation base more base :=
  ⟨h, List.prefix_refl base, Nat.le_add_right _ _⟩

theorem Extends.eq_base (h : Extends g relation base 0 path) : path = base :=
  (h.2.1.eq_of_length_le h.2.2).symm

/-- A longer route takes an edge from the last node. -/
theorem Extends.next {last : Step} (h : Extends g relation base (more + 1) path)
    (hlast : base.getLast? = some last) (hne : path ≠ base) :
    ∃ edge ∈ g.successors last.node relation,
      Extends g relation (base ++ [⟨edge.target, edge.delta⟩]) more path := by
  obtain ⟨hroute, ⟨rest, rfl⟩, hlen⟩ := h
  cases rest with
  | nil => exact absurd (List.append_nil base) hne
  | cons next rest =>
    have hpos : 0 < base.length := List.length_pos_of_mem (List.mem_of_getLast? hlast)
    have hs : (base ++ next :: rest)[base.length - 1]? = some last := by
      rw [List.getElem?_append_left (by omega), ← List.getLast?_eq_getElem?, hlast]
    have hs' : (base ++ next :: rest)[base.length - 1 + 1]? = some next := by
      rw [Nat.sub_add_cancel hpos, List.getElem?_append_right (Nat.le_refl _), Nat.sub_self]
      rfl
    obtain ⟨edge, hedge, htarget, hdelta⟩ := hroute.edge _ last next hs hs'
    refine ⟨edge, hedge, hroute, ?_, ?_⟩
    · rw [htarget, hdelta]
      exact ⟨rest, by simp⟩
    · simp only [List.length_append, List.length_cons, List.length_nil] at *
      omega

theorem Extends.of_next {next : Step} (h : Extends g relation (base ++ [next]) more path) :
    Extends g relation base (more + 1) path := by
  obtain ⟨hroute, hpre, hlen⟩ := h
  refine ⟨hroute, (List.prefix_append base [next]).trans hpre, ?_⟩
  simp only [List.length_append, List.length_singleton] at hlen
  omega

theorem Extends.length_le (h : Extends g relation base more path) : base.length ≤ path.length :=
  h.2.1.length_le

/-- A visit that leaves out the extensions of its path leaves out none that would count. -/
theorem searches_judge (h : Route g inv.relation Eq base) (best : Option Nat) (more : Nat) :
    (∃ search, judge g inv (.ok best) base = (search, .prune) ∧
      Searches g inv (Extends g inv.relation base more) best (search, false)) ∨
    (∃ search, judge g inv (.ok best) base = (search, .stop) ∧
      Searches g inv (Extends g inv.relation base more) best (search, true)) ∨
    violates g inv base = .ok false ∧ judge g inv (.ok best) base = (.ok best, .descend) := by
  simp only [judge]
  by_cases hbest : best.any (· ≤ base.length) = true
  · rw [if_pos hbest]
    refine .inl ⟨_, rfl, Improves.refl fun path hpath _ => ?_⟩
    exact any_le_trans hbest hpath.length_le
  · rw [if_neg hbest]
    cases hv : violates g inv base with
    | error e => exact .inr (.inl ⟨_, rfl, base, extends_self h, hv⟩)
    | ok violated =>
      cases violated with
      | false => exact .inr (.inr ⟨rfl, rfl⟩)
      | true =>
        refine .inl ⟨_, rfl, fun n hn => ?_, fun n hn => ?_, fun path hpath _ => ?_⟩
        · -- the best length so far was greater
          cases best with
          | none => cases hn
          | some k =>
            simp only [Option.any_some, decide_eq_true_eq] at *
            omega
        · cases hn
          exact .inr ⟨base, extends_self h, hv, rfl⟩
        · simpa using hpath.length_le

theorem searches_visitFrom {last : Step} {earlier : List Step}
    (h : Route g inv.relation Eq (last :: earlier).reverse) (best : Option Nat) :
    Searches g inv (Extends g inv.relation (last :: earlier).reverse more) best
      (Walk.visitFrom g inv.relation (judge g inv) more last earlier (.ok best)) := by
  induction more generalizing last earlier best with
  | zero =>
    rw [Walk.visitFrom]
    rcases searches_judge h best 0 with ⟨search, hj, hs⟩ | ⟨search, hj, hs⟩ | ⟨hv, hj⟩ <;> rw [hj]
    · exact hs
    · exact hs
    · refine Improves.refl fun path hpath hviol => ?_
      rw [hpath.eq_base, hv] at hviol
      cases hviol
  | succ more ih =>
    have hlast : (last :: earlier).reverse.getLast? = some last := by simp
    have hedges : ∀ edge ∈ g.successors last.node inv.relation, ∀ best, Searches g inv
        (Extends g inv.relation ((last :: earlier).reverse ++ [⟨edge.target, edge.delta⟩]) more)
        best (Walk.visitFrom g inv.relation (judge g inv) more ⟨edge.target, edge.delta⟩
          (last :: earlier) (.ok best)) := by
      intro edge hedge best
      have hroute : Route g inv.relation Eq
          ((last :: earlier).reverse ++ [⟨edge.target, edge.delta⟩]) :=
        h.append hlast hedge rfl rfl
      rw [← List.reverse_cons] at hroute ⊢
      exact ih hroute best
    rw [Walk.visitFrom]
    rcases searches_judge h best (more + 1) with ⟨search, hj, hs⟩ | ⟨search, hj, hs⟩ | ⟨hv, hj⟩ <;>
      rw [hj]
    · exact hs
    · exact hs
    · apply (searches_each hedges best).mono
      · intro path hpath
        obtain ⟨edge, _, hpath⟩ := hpath
        exact hpath.of_next
      · intro path hpath hviol
        apply hpath.next hlast
        rintro rfl
        rw [hv] at hviol
        cases hviol

/-- The routes of at most `n` nodes that are enumerated: no time has passed at their first node. -/
def Enumerated (g : Graph) (relation : Relation) (n : Nat) (path : Path) : Prop :=
  Route g relation Eq path ∧ (∃ s, path[0]? = some s ∧ s.delta = none) ∧ path.length ≤ n

theorem enumerated_iff : Enumerated g relation (more + 1) path ↔
    ∃ v ∈ g.initialNodes, Extends g relation [⟨v, none⟩] more path := by
  constructor
  · intro h
    obtain ⟨hroute, ⟨⟨v, delta⟩, hs, rfl⟩, hlen⟩ := h
    obtain ⟨first, hfirst, hinit⟩ := hroute.initial
    rw [hs] at hfirst
    cases hfirst
    refine ⟨v, Graph.mem_initialNodes.mpr hinit, hroute, ?_, by simpa [Nat.add_comm] using hlen⟩
    cases path with
    | nil => cases hs
    | cons first rest =>
      cases hs
      exact ⟨rest, rfl⟩
  · intro h
    obtain ⟨v, _, hroute, ⟨rest, rfl⟩, hlen⟩ := h
    exact ⟨hroute, ⟨⟨v, none⟩, rfl, rfl⟩, by simpa [Nat.add_comm] using hlen⟩

theorem searches_visitAll (g : Graph) (inv : Invariant) (n : Nat) :
    ∃ stopped, Searches g inv (Enumerated g inv.relation n) none
      (shortestViolation g inv n, stopped) := by
  rw [shortestViolation, Walk.visitAll_eq]
  cases n with
  | zero =>
    refine ⟨false, Improves.refl fun path hpath _ => ?_⟩
    have := hpath.1.pos
    have := hpath.2.2
    omega
  | succ more =>
    refine ⟨_, (searches_each (P := fun v => Extends g inv.relation [⟨v, none⟩] more)
      (fun v hv best => ?_) none).mono ?_ ?_⟩
    · exact searches_visitFrom (route_singleton (Graph.mem_initialNodes.mp hv)) best
    · exact fun path hpath => enumerated_iff.mpr hpath
    · exact fun path hpath _ => enumerated_iff.mp hpath

/-- The length of a shortest path of a set, if the set has any. -/
def IsShortest (P : Path → Prop) : Option Nat → Prop
  | none => ∀ path, ¬ P path
  | some n => (∃ path, P path ∧ path.length = n) ∧ ∀ path, P path → n ≤ path.length

/-- Sets of paths that bound each other have the same shortest ones. -/
theorem IsShortest.transfer {result : Option Nat} (h : IsShortest P result)
    (hPQ : ∀ path, P path → ∃ path', Q path' ∧ path'.length ≤ path.length)
    (hQP : ∀ path, Q path → ∃ path', P path' ∧ path'.length ≤ path.length) :
    IsShortest Q result := by
  cases result with
  | none =>
    intro path hpath
    obtain ⟨path', hpath', _⟩ := hQP path hpath
    exact h path' hpath'
  | some n =>
    obtain ⟨⟨path, hpath, rfl⟩, hleast⟩ := h
    have hbound : ∀ other, Q other → path.length ≤ other.length := by
      intro other hother
      obtain ⟨path', hpath', hle⟩ := hQP other hother
      exact Nat.le_trans (hleast path' hpath') hle
    obtain ⟨other, hother, hle⟩ := hPQ path hpath
    exact ⟨⟨other, hother, Nat.le_antisymm hle (hbound other hother)⟩, hbound⟩

theorem IsShortest.le {result : Option Nat} (h : IsShortest P result) (hpath : P path) :
    ∃ n, result = some n ∧ n ≤ path.length := by
  cases result with
  | none => exact absurd hpath (h path)
  | some n => exact ⟨n, rfl, h.2 path hpath⟩

theorem IsShortest.isSome_iff {result : Option Nat} (h : IsShortest P result) :
    result.isSome = true ↔ ∃ path, P path := by
  cases result with
  | none =>
    have hempty : ∀ path, ¬ P path := h
    simpa using hempty
  | some n =>
    obtain ⟨path, hpath, _⟩ := h.1
    exact ⟨fun _ => ⟨path, hpath⟩, fun _ => rfl⟩

def Violating (g : Graph) (inv : Invariant) (P : Path → Prop) (path : Path) : Prop :=
  P path ∧ violates g inv path = .ok true

theorem Improves.isShortest (h : Improves g inv P none after) :
    IsShortest (Violating g inv P) after := by
  cases after with
  | none =>
    intro path hpath
    cases h.least path hpath.1 hpath.2
  | some n =>
    refine ⟨?_, fun path hpath => by simpa using h.least path hpath.1 hpath.2⟩
    rcases h.found n rfl with hnone | ⟨path, hpath, hv, hn⟩
    · cases hnone
    · exact ⟨path, ⟨hpath, hv⟩, hn⟩

/-- What the search gives back is exact for the routes that it enumerates. -/
theorem isShortest_of_ok {n : Nat} (h : shortestViolation g inv n = .ok after) :
    IsShortest (Violating g inv (Enumerated g inv.relation n)) after := by
  obtain ⟨stopped, hs⟩ := searches_visitAll g inv n
  rw [h] at hs
  cases stopped with
  | true => cases hs
  | false => exact Improves.isShortest hs

theorem not_judged_of_error {n : Nat} {e : PathError} (h : shortestViolation g inv n = .error e) :
    ∃ path, Enumerated g inv.relation n path ∧ violates g inv path = .error e := by
  obtain ⟨stopped, hs⟩ := searches_visitAll g inv n
  rw [h] at hs
  cases stopped with
  | true => exact hs
  | false => cases hs

end EventInvariants.Path
