import EventInvariants.InvariantSet
import EventInvariants.Proofs.Agreement
import EventInvariants.Proofs.Conformance

namespace EventInvariants

/-- A check as the cache sees it: it has a result, or it asks for a closure and goes on from
there. -/
inductive Inquiry where
  | done (result : Except CheckError Outcome)
  | ask (key : ClosureKey) (next : Closure → Inquiry)

namespace Inquiry
variable {g : Graph} {inv : Invariant} {config : Config} {cache : ClosureCache}

/-- Asks all questions in a row. -/
def run (g : Graph) : Inquiry → ClosureCache → Except CheckError Outcome × ClosureCache
  | .done result, cache => (result, cache)
  | .ask key next, cache => (next (cache.get g key).1).run g (cache.get g key).2

/-- The result if every closure is built anew. -/
def alone (g : Graph) : Inquiry → Except CheckError Outcome
  | .done result => result
  | .ask key next => (next (.build g key.relation key.excluded)).alone g

/-- How many questions are left, if every closure is built anew. -/
def questions (g : Graph) : Inquiry → Nat
  | .done _ => 0
  | .ask key next => (next (.build g key.relation key.excluded)).questions g + 1

def result? : Inquiry → Option (Except CheckError Outcome)
  | .done result => some result
  | .ask _ _ => none

/-- Puts the next question, if there is one. -/
def step (g : Graph) : Inquiry → ClosureCache → Inquiry × ClosureCache
  | .done result, cache => (.done result, cache)
  | .ask key next, cache => (next (cache.get g key).1, (cache.get g key).2)

def ofViolation (g : Graph) (inv : Invariant) (next : Bool → Inquiry) : Inquiry :=
  match inv.kind with
  | .neverFollowedBy =>
    .ask ⟨inv.relation, none⟩ fun full => next (Closure.someFollowed full g inv)
  | .alwaysPrecedes =>
    .ask ⟨inv.relation, some inv.a⟩ fun withoutA => next (Closure.someUnpreceded withoutA g inv)
  | .alwaysFollowedBy =>
    .ask ⟨inv.relation, none⟩ fun full =>
      .ask ⟨inv.relation, Closure.answer inv⟩ fun unanswered =>
        next (Closure.someUnanswered full unanswered g inv)

def ofClosure (g : Graph) (inv : Invariant) : Inquiry :=
  match inv.validate g with
  | .error cause => .done (.error (.invariant cause))
  | .ok () => ofViolation g inv fun violated => .done (.ok (closureOutcome violated))

def ofBoth (g : Graph) (inv : Invariant) (limit : Nat) : Inquiry :=
  match checkByExploration g inv limit with
  | .error e => .done (.error e)
  | .ok (.inconclusive reason n) => .done (.ok (.inconclusive reason n))
  | .ok explored => ofViolation g inv fun violated => .done <|
    if explored.isViolated = (closureOutcome violated).isViolated then .ok explored
    else .error (.disagreement inv explored.verdict (closureOutcome violated).verdict)

def ofCheck (g : Graph) (config : Config) (inv : Invariant) : Inquiry :=
  match config.backend, inv.isTimed with
  | .closure, false => ofClosure g inv
  | .crossCheck, false => ofBoth g inv config.maxIterations
  | _, _ => .done (checkByExploration g inv config.maxIterations)

theorem run_ofViolation (next : Bool → Inquiry) :
    (ofViolation g inv next).run g cache =
      (next (Closure.violates g inv cache).1).run g (Closure.violates g inv cache).2 := by
  unfold ofViolation Closure.violates
  cases inv.kind <;> rfl

theorem run_ofClosure : (ofClosure g inv).run g cache = checkByClosure g inv cache := by
  unfold ofClosure checkByClosure
  cases inv.validate g with
  | error cause => rfl
  | ok _ => exact run_ofViolation _

theorem run_ofBoth (limit : Nat) :
    (ofBoth g inv limit).run g cache = checkByBoth g inv limit cache := by
  unfold ofBoth checkByBoth
  cases checkByExploration g inv limit with
  | error e => rfl
  | ok o =>
    cases o with
    | inconclusive reason n => rfl
    | holds n | violated c n =>
      simp only [run_ofViolation, run]
      split <;> rfl

/-- Asked in a row, the questions of a check are the check. -/
theorem run_ofCheck (config : Config) (inv : Invariant) (cache : ClosureCache) :
    (ofCheck g config inv).run g cache = check g inv config cache := by
  unfold ofCheck check
  cases config.backend <;> cases inv.isTimed
  case closure.false => exact run_ofClosure
  case crossCheck.false => exact run_ofBoth _
  all_goals rfl

/-- A faithful cache gives every check the closures that it would build. -/
theorem run_alone (hc : cache.Faithful g) (q : Inquiry) : (q.run g cache).1 = q.alone g := by
  induction q generalizing cache with
  | done result => rfl
  | ask key next ih =>
    obtain ⟨hbuilt, hfaithful⟩ := hc.get key
    rw [run, alone, ← hbuilt]
    exact ih _ hfaithful

theorem alone_ofCheck (g : Graph) (config : Config) (inv : Invariant) :
    (ofCheck g config inv).alone g = (check g inv config .empty).1 := by
  rw [← run_alone (ClosureCache.faithful_empty g), run_ofCheck]

theorem questions_ofViolation {next : Bool → Inquiry} (h : ∀ b, (next b).questions g = 0) :
    (ofViolation g inv next).questions g ≤ 2 := by
  unfold ofViolation
  cases inv.kind <;> simp [questions, h]

/-- No check asks more than twice. -/
theorem questions_ofCheck (g : Graph) (config : Config) (inv : Invariant) :
    (ofCheck g config inv).questions g ≤ 2 := by
  unfold ofCheck
  split
  · unfold ofClosure
    split
    · simp [questions]
    · exact questions_ofViolation fun b => rfl
  · unfold ofBoth
    split
    · simp [questions]
    · simp [questions]
    · exact questions_ofViolation fun b => rfl
  · simp [questions]

/-- A question changes no result, and there is one less. -/
theorem step_alone (hc : cache.Faithful g) (q : Inquiry) :
    (q.step g cache).2.Faithful g ∧ (q.step g cache).1.alone g = q.alone g ∧
      (q.step g cache).1.questions g = q.questions g - 1 := by
  cases q with
  | done result => exact ⟨hc, rfl, rfl⟩
  | ask key next =>
    obtain ⟨hbuilt, hfaithful⟩ := hc.get key
    rw [step, alone, questions, ← hbuilt]
    exact ⟨hfaithful, rfl, rfl⟩

theorem done_of_questions {q : Inquiry} (h : q.questions g = 0) : q = .done (q.alone g) := by
  cases q with
  | done result => rfl
  | ask key next => cases h

end Inquiry

/-- Checks in progress, on one cache. -/
structure Pool where
  cache : ClosureCache
  checks : List Inquiry

namespace Pool
variable {g : Graph} {p : Pool}

def start (g : Graph) (config : Config) (invs : List Invariant) : Pool :=
  ⟨.empty, invs.map (Inquiry.ofCheck g config)⟩

/-- The check at a position puts its next question. Its turn is the moment at which it finds the
closure, or stores the one that it has built; if another check has stored one in between, that is
what it gets. -/
def turn (g : Graph) (p : Pool) (i : Nat) : Pool :=
  match p.checks[i]? with
  | none => p
  | some q => ⟨(q.step g p.cache).2, p.checks.set i (q.step g p.cache).1⟩

/-- The checks at the positions of the schedule have their turns one after another. -/
def turns (g : Graph) (p : Pool) (schedule : List Nat) : Pool :=
  schedule.foldl (turn g) p

theorem turn_spec (hp : p.cache.Faithful g) (i : Nat) :
    (p.turn g i).cache.Faithful g ∧ ∀ j q, p.checks[j]? = some q →
      ∃ q', (p.turn g i).checks[j]? = some q' ∧ q'.alone g = q.alone g ∧
        q'.questions g = q.questions g - [i].count j := by
  unfold turn
  cases hi : p.checks[i]? with
  | none =>
    refine ⟨hp, fun j q hj => ⟨q, hj, rfl, ?_⟩⟩
    have hne : i ≠ j := by
      rintro rfl
      rw [hi] at hj
      cases hj
    simp [hne]
  | some r =>
    obtain ⟨hfaithful, halone, hless⟩ := Inquiry.step_alone hp r
    refine ⟨hfaithful, fun j q hj => ?_⟩
    by_cases hij : i = j
    · subst hij
      rw [hi] at hj
      cases hj
      refine ⟨(r.step g p.cache).1, ?_, halone, by simpa using hless⟩
      simp [(List.getElem?_eq_some_iff.mp hi).1]
    · exact ⟨q, by simpa [List.getElem?_set, hij] using hj, rfl, by simp [hij]⟩

/-- No schedule changes a result, and each turn of a check takes a question off it. -/
theorem turns_spec (hp : p.cache.Faithful g) (schedule : List Nat) {j : Nat} {q : Inquiry}
    (hj : p.checks[j]? = some q) :
    ∃ q', (p.turns g schedule).checks[j]? = some q' ∧ q'.alone g = q.alone g ∧
      q'.questions g = q.questions g - schedule.count j := by
  induction schedule generalizing p q with
  | nil => exact ⟨q, hj, rfl, rfl⟩
  | cons i rest ih =>
    obtain ⟨hturn, hchecks⟩ := turn_spec hp i
    obtain ⟨q₁, hj₁, halone₁, hless₁⟩ := hchecks j q hj
    obtain ⟨q₂, hj₂, halone₂, hless₂⟩ := ih hturn hj₁
    refine ⟨q₂, hj₂, halone₂.trans halone₁, ?_⟩
    rw [hless₂, hless₁, Nat.sub_sub, ← List.count_append, List.singleton_append]

/-- The reports on the invariants whose checks are done. -/
def reports (invs : List Invariant) (p : Pool) : List Report :=
  (invs.zip p.checks).filterMap fun (inv, q) => q.result?.map (Report.mk inv)

theorem length_turns (schedule : List Nat) :
    (p.turns g schedule).checks.length = p.checks.length := by
  induction schedule generalizing p with
  | nil => rfl
  | cons i rest ih =>
    refine (ih (p := p.turn g i)).trans ?_
    unfold turn
    split <;> simp

section
variable {config : Config} {invs : List Invariant}

/-- A check that has had some turns has its result in sight, and fewer questions. -/
theorem turns_start (schedule : List Nat) {j : Nat} {inv : Invariant} (hj : invs[j]? = some inv) :
    ∃ q, ((start g config invs).turns g schedule).checks[j]? = some q ∧
      q.alone g = (check g inv config .empty).1 ∧ q.questions g ≤ 2 - schedule.count j := by
  have hstart : (start g config invs).checks[j]? = some (.ofCheck g config inv) := by
    simp [start, hj]
  obtain ⟨q, hq, halone, hless⟩ := turns_spec (ClosureCache.faithful_empty g) schedule hstart
  have := Inquiry.questions_ofCheck g config inv
  exact ⟨q, hq, by rw [halone, Inquiry.alone_ofCheck], by omega⟩

theorem length_turns_start (schedule : List Nat) :
    ((start g config invs).turns g schedule).checks.length = invs.length := by
  rw [length_turns, start, List.length_map]

/-- Two turns are enough for each check. -/
theorem turns_done {schedule : List Nat} (h : ∀ j < invs.length, 2 ≤ schedule.count j) :
    ((start g config invs).turns g schedule).checks =
      invs.map fun inv => .done (check g inv config .empty).1 := by
  apply List.ext_getElem?
  intro j
  rw [List.getElem?_map]
  cases hj : invs[j]? with
  | none =>
    apply List.getElem?_eq_none
    rw [length_turns_start]
    exact List.getElem?_eq_none_iff.mp hj
  | some inv =>
    obtain ⟨q, hq, halone, hless⟩ :
        ∃ q, ((start g config invs).turns g schedule).checks[j]? = some q ∧ _ :=
      turns_start schedule hj
    have := h j (List.getElem?_eq_some_iff.mp hj).1
    rw [hq, Inquiry.done_of_questions (g := g) (q := q) (by omega), halone]
    rfl

end
end Pool

namespace InvariantSet
variable {g : Graph} {config : Config}

/-- A report is what the check of its invariant alone gives, whatever was checked before. -/
theorem checkFrom_alone {cache : ClosureCache} (hc : cache.Faithful g) (invs : List Invariant) :
    checkFrom g config invs cache =
      invs.map fun inv => ⟨inv, (check g inv config .empty).1⟩ := by
  induction invs generalizing cache with
  | nil => rfl
  | cons inv rest ih =>
    have hresult : (check g inv config cache).1 = (check g inv config .empty).1 := by
      rw [← Inquiry.alone_ofCheck, ← Inquiry.run_alone hc, Inquiry.run_ofCheck]
    rw [checkFrom, List.map_cons, ← hresult]
    exact congrArg _ (ih (check_faithful hc inv config))

/-- Checks the invariants of a set all at once, with turns in the order of the schedule. -/
def checkTogether (s : InvariantSet) (g : Graph) (config : Config) (schedule : List Nat) :
    List Report :=
  ((Pool.start g config s.items).turns g schedule).reports s.items

/-- Whether checks are made one after another or all at once makes no difference to the reports. -/
theorem checkTogether_eq {s : InvariantSet} {schedule : List Nat}
    (h : ∀ j < s.size, 2 ≤ schedule.count j) :
    s.checkTogether g config schedule = s.checkAll g config := by
  rw [checkTogether, Pool.reports, Pool.turns_done h, checkAll,
    checkFrom_alone (ClosureCache.faithful_empty g), List.zip_map_right, List.filterMap_map]
  generalize s.items = invs
  induction invs with
  | nil => rfl
  | cons inv rest ih => simpa [Inquiry.result?] using ih

theorem violations_checkTogether {s : InvariantSet} {schedule : List Nat}
    (h : ∀ j < s.size, 2 ≤ schedule.count j) :
    violations (s.checkTogether g config schedule) = s.counterexamples g config := by
  rw [checkTogether_eq h, counterexamples]

/-- The invariant with its path, if it is violated. -/
def violation? (report : Report) : Option (Invariant × Option Counterexample) :=
  match report.result with
  | .ok (.violated c _) => some (report.invariant, c)
  | _ => none

section
variable {report : Invariant → Report} {invs : List Invariant}

theorem violations_ok (h : ∀ inv ∈ invs, ∃ o, (report inv).result = .ok o) :
    violations (invs.map report) = .ok (invs.filterMap fun inv => violation? (report inv)) := by
  induction invs with
  | nil => rfl
  | cons inv rest ih =>
    obtain ⟨⟨o, ho⟩, hrest⟩ := List.forall_mem_cons.mp h
    simp only [List.map_cons, violations, ho, ih hrest, Result.ok_bind, Result.pure_eq]
    cases o with
    | violated c n =>
      rw [List.filterMap_cons_some (b := ((report inv).invariant, c)) (by simp [violation?, ho])]
      rfl
    | holds n | inconclusive reason n =>
      rw [List.filterMap_cons_none (by simp [violation?, ho])]
      rfl

/-- The error that is given back is the first. -/
theorem violations_error {e : CheckError} :
    violations (invs.map report) = .error e ↔ ∃ before inv after, invs = before ++ inv :: after ∧
      (∀ other ∈ before, ∃ o, (report other).result = .ok o) ∧ (report inv).result = .error e := by
  induction invs with
  | nil => simp [violations]
  | cons inv rest ih =>
    cases hr : (report inv).result with
    | error cause =>
      simp only [List.map_cons, violations, hr, Except.error.injEq]
      constructor
      · rintro rfl
        exact ⟨[], inv, rest, rfl, by simp, hr⟩
      · rintro ⟨before, x, after, hsplit, hok, hx⟩
        cases before with
        | nil =>
          cases hsplit
          rw [hr] at hx
          exact Except.error.inj hx
        | cons y before =>
          cases hsplit
          obtain ⟨o, ho⟩ := hok inv List.mem_cons_self
          rw [hr] at ho
          cases ho
    | ok o =>
      have hrest : violations ((inv :: rest).map report) = .error e ↔
          violations (rest.map report) = .error e := by
        simp only [List.map_cons, violations, hr]
        cases violations (rest.map report) <;> simp
      rw [hrest, ih]
      constructor
      · rintro ⟨before, x, after, rfl, hok, hx⟩
        exact ⟨inv :: before, x, after, rfl, List.forall_mem_cons.mpr ⟨⟨o, hr⟩, hok⟩, hx⟩
      · rintro ⟨before, x, after, hsplit, hok, hx⟩
        cases before with
        | nil =>
          cases hsplit
          rw [hr] at hx
          cases hx
        | cons y before =>
          cases hsplit
          exact ⟨before, x, after, rfl, (List.forall_mem_cons.mp hok).2, hx⟩

end
end InvariantSet

/-- The checks of a set are isolated from each other. Each gives the result that it gives alone and
with an empty cache: one after another, and in every schedule of their questions, in which a check
that has two turns has its result. The violations of the set are the first error in set order or, if
there is none, the violated invariants in set order. -/
theorem checks_isolated (g : Graph) (s : InvariantSet) (config : Config) :
    s.checkAll g config = s.items.map (fun inv => ⟨inv, (check g inv config .empty).1⟩) ∧
      (∀ (schedule : List Nat) (j : Nat) (result : Except CheckError Outcome),
        ((Pool.start g config s.items).turns g schedule).checks[j]? = some (.done result) →
        ∃ inv, s.items[j]? = some inv ∧ result = (check g inv config .empty).1) ∧
      (∀ schedule : List Nat, (∀ j < s.size, 2 ≤ schedule.count j) →
        ((Pool.start g config s.items).turns g schedule).checks =
          s.items.map fun inv => .done (check g inv config .empty).1) ∧
      (∀ e, s.counterexamples g config = .error e ↔
        ∃ before inv after, s.items = before ++ inv :: after ∧
          (∀ other ∈ before, ∃ o, (check g other config .empty).1 = .ok o) ∧
          (check g inv config .empty).1 = .error e) ∧
      ((∀ inv ∈ s.items, ∃ o, (check g inv config .empty).1 = .ok o) →
        s.counterexamples g config = .ok (s.items.filterMap fun inv =>
          InvariantSet.violation? ⟨inv, (check g inv config .empty).1⟩)) := by
  have hall : s.checkAll g config = _ :=
    InvariantSet.checkFrom_alone (ClosureCache.faithful_empty g) s.items
  refine ⟨hall, ?_, fun schedule => Pool.turns_done, ?_, ?_⟩
  · intro schedule j result hdone
    have hlt : j < s.items.length := by
      have := (List.getElem?_eq_some_iff.mp hdone).1
      rwa [Pool.length_turns_start] at this
    have hj : s.items[j]? = some s.items[j] := List.getElem?_eq_getElem hlt
    obtain ⟨q, hq, halone, _⟩ :
        ∃ q, ((Pool.start g config s.items).turns g schedule).checks[j]? = some q ∧ _ :=
      Pool.turns_start schedule hj
    rw [hdone] at hq
    cases hq
    exact ⟨_, hj, halone⟩
  · intro e
    rw [InvariantSet.counterexamples, hall]
    exact InvariantSet.violations_error
  · intro hok
    rw [InvariantSet.counterexamples, hall]
    exact InvariantSet.violations_ok hok

/-- An invariant that is refused, between two that share a closure and take turns in asking for
it. -/
theorem loop_isolated :
    (∀ j < 3, 2 ≤ [2, 0, 1, 2, 0, 1].count j) ∧
      ((Pool.start .loop ⟨.closure, 0⟩ [.repeated, .within [5, 5], .never]).turns .loop
          [2, 0, 1, 2, 0, 1]).checks =
        [.done (.ok (.violated none 0)),
          .done (.error (.invariant (.mismatchedBoundKind (.vector 2) .integer 0 1))),
          .done (.ok (.violated none 0))] ∧
      InvariantSet.counterexamples ⟨[.repeated, .within [5, 5], .never]⟩ .loop ⟨.closure, 0⟩ =
        .error (.invariant (.mismatchedBoundKind (.vector 2) .integer 0 1)) ∧
      InvariantSet.counterexamples ⟨[.repeated, .never]⟩ .loop ⟨.closure, 0⟩ =
        .ok [(.repeated, none), (.never, none)] := by
  have hrepeated : (check .loop .repeated ⟨.closure, 0⟩ .empty).1 = .ok (.violated none 0) := by cbv
  have hnever : (check .loop .never ⟨.closure, 0⟩ .empty).1 = .ok (.violated none 0) := by cbv
  have hwithin : (check .loop (.within [5, 5]) ⟨.closure, 0⟩ .empty).1 =
      .error (.invariant (.mismatchedBoundKind (.vector 2) .integer 0 1)) := by cbv
  have hturns : ∀ j < 3, 2 ≤ [2, 0, 1, 2, 0, 1].count j := by decide
  obtain ⟨_, _, hschedule, herror, _⟩ :=
    checks_isolated .loop ⟨[.repeated, .within [5, 5], .never]⟩ ⟨.closure, 0⟩
  obtain ⟨_, _, _, _, hviolated⟩ := checks_isolated .loop ⟨[.repeated, .never]⟩ ⟨.closure, 0⟩
  refine ⟨hturns, ?_, ?_, ?_⟩
  · rw [hschedule [2, 0, 1, 2, 0, 1] hturns]
    simp only [List.map_cons, List.map_nil, hrepeated, hwithin, hnever]
  · rw [herror]
    exact ⟨[.repeated], .within [5, 5], [.never], rfl, by simp [hrepeated], hwithin⟩
  · rw [hviolated (by simp [hrepeated, hnever])]
    simp [InvariantSet.violation?, hrepeated, hnever]

end EventInvariants
