import EventInvariants.Command
import EventInvariants.Proofs.Isolation
import Mathlib

namespace EventInvariants

theorem Result.mapM_ok {ε α β : Type} {f : α → Except ε β} {l : List α} {r : List β} :
    l.mapM f = .ok r ↔ List.Forall₂ (fun a b => f a = .ok b) l r := by
  induction l generalizing r with
  | nil =>
    rw [List.mapM_nil, pure_eq, Except.ok.injEq, List.forall₂_nil_left_iff, eq_comm]
  | cons a l ih =>
    simp only [List.mapM_cons, bind_ok, pure_eq, Except.ok.injEq, List.forall₂_cons_left_iff, ih]
    constructor
    · intro h
      obtain ⟨b, hb, r, hr, rfl⟩ := h
      exact ⟨b, r, hb, hr, rfl⟩
    · intro h
      obtain ⟨b, r, hb, hr, rfl⟩ := h
      exact ⟨b, hb, r, hr, rfl⟩

theorem Bound.eq_of_beq {w w' : Bound} (hw : w.value.isFloat = false) (h : (w == w') = true) :
    w = w' := by
  obtain ⟨direction, value⟩ := w
  obtain ⟨direction', value'⟩ := w'
  obtain ⟨hdirection, hvalue⟩ := (Bool.and_eq_true _ _).mp h
  cases Time.eq_of_beq hw hvalue
  cases LawfulBEq.eq_of_beq hdirection
  rfl

/-- Invariants that are equal as values are the same, unless the bound is a double. -/
theorem Invariant.eq_of_beq {inv other : Invariant}
    (hb : ∀ w, inv.bound = some w → w.value.isFloat = false) (h : (inv == other) = true) :
    inv = other := by
  obtain ⟨kind, a, b, relation, bound⟩ := inv
  obtain ⟨kind', a', b', relation', bound'⟩ := other
  simp only [BEq.beq, instBEqInvariant.beq, Bool.and_eq_true, decide_eq_true_eq] at h
  obtain ⟨rfl, rfl, rfl, rfl, h⟩ := h
  cases bound with
  | none =>
    cases bound' with
    | none => rfl
    | some w' => cases h
  | some w =>
    cases bound' with
    | none => cases h
    | some w' =>
      cases Bound.eq_of_beq (hb w rfl) h
      rfl

namespace InvariantSet
variable {s : InvariantSet} {inv : Invariant} {invs : List Invariant}

theorem mem_insert_of_mem {other : Invariant} (h : other ∈ s.items) :
    other ∈ (s.insert inv).items := by
  unfold insert
  split
  · exact h
  · exact List.mem_append_left [inv] h

/-- An invariant that is not added was there before, unless its bound is a double. -/
theorem mem_insert (hb : ∀ w, inv.bound = some w → w.value.isFloat = false) :
    inv ∈ (s.insert inv).items := by
  unfold insert
  split
  · rename_i hc
    obtain ⟨other, hmem, heq⟩ := List.contains_iff_exists_mem_beq.mp hc
    rw [Invariant.eq_of_beq hb heq]
    exact hmem
  · exact List.mem_append_right s.items List.mem_cons_self

theorem mem_insertAll_of_mem {other : Invariant} (h : other ∈ s.items) :
    other ∈ (s.insertAll invs).items := by
  induction invs generalizing s with
  | nil => exact h
  | cons inv rest ih => exact ih (mem_insert_of_mem h)

theorem mem_insertAll (hb : ∀ w, inv.bound = some w → w.value.isFloat = false) (h : inv ∈ invs) :
    inv ∈ (s.insertAll invs).items := by
  induction invs generalizing s with
  | nil => cases h
  | cons other rest ih =>
    rcases List.mem_cons.mp h with rfl | h
    · exact mem_insertAll_of_mem (s := s.insert inv) (mem_insert hb)
    · exact ih h

theorem isEmpty_ofList : (ofList invs).isEmpty = true ↔ invs = [] := by
  cases invs with
  | nil => simp [ofList, insertAll, empty, isEmpty]
  | cons inv rest =>
    have hmem : inv ∈ (ofList (inv :: rest)).items :=
      mem_insertAll_of_mem (s := empty.insert inv) (by simp [insert, empty, contains])
    simp [isEmpty, List.ne_nil_of_mem hmem]

/-- Every invariant has its report, also one that is repeated. -/
theorem report_mem (g : Graph) (config : Config)
    (hb : ∀ w, inv.bound = some w → w.value.isFloat = false) (h : inv ∈ invs) :
    ⟨inv, (check g inv config .empty).1⟩ ∈ (ofList invs).checkAll g config := by
  rw [checkAll, checkFrom_alone (ClosureCache.faithful_empty g)]
  exact List.mem_map.mpr ⟨inv, mem_insertAll hb h, rfl⟩

end InvariantSet

section
variable {g : Graph} {inv : Invariant} {cache : ClosureCache} {limit n : Nat} {path : Path}

theorem Closure.not_violates_of_holds (hb : inv.bound = none) (hc : cache.Faithful g)
    (h : (checkByClosure g inv cache).1 = .ok (.holds n))
    (hp : Path.isPath g inv.relation path = true) : Path.violates g inv path ≠ .ok true := by
  have hroute := Path.isPath_iff.mp hp
  have hfalse : (Closure.violates g inv cache).1 = false := by
    unfold checkByClosure at h
    split at h
    · cases h
    · cases hv : (Closure.violates g inv cache).1 with
      | false => rfl
      | true => simp [hv, closureOutcome] at h
  intro hv
  have hfails := (Path.Fails.violates hb hroute.inside).mpr hv
  have htrue := (Closure.violates_iff_fails hb hc).2 _ path hroute hfails
  rw [hfalse] at htrue
  cases htrue

/-- What the comparison passes on is what exploration found. -/
theorem checkByBoth_holds (h : (checkByBoth g inv limit cache).1 = .ok (.holds n)) :
    checkByExploration g inv limit = .ok (.holds n) := by
  unfold checkByBoth at h
  split at h
  · cases h
  · cases h
  · rename_i hexplored
    dsimp only at h
    split at h
    · rw [hexplored]
      exact h
    · cases h

/-- An invariant that holds is violated by no accepted path, whichever backend was asked. -/
theorem not_violates_of_check {config : Config}
    (hb : inv.bound = none ∨ ∃ d k, inv.bound = some ⟨d, .integer k⟩) (hc : cache.Faithful g)
    (h : (check g inv config cache).1 = .ok (.holds n))
    (hp : Path.isPath g inv.relation path = true) : Path.violates g inv path ≠ .ok true := by
  unfold check at h
  split at h
  · rename_i htimed
    exact Closure.not_violates_of_holds (by simpa [Invariant.isTimed] using htimed) hc h hp
  · exact Exploration.not_violates_of_holds hb (checkByBoth_holds h) rfl hp
  · exact Exploration.not_violates_of_holds hb h rfl hp

end

namespace Command
variable {read : String → Option GraphFile} {path : String} {text : Option String}
  {extra : List String} {config : Config} {loaded : LoadedGraph} {reports : List Report}

/-- The file is there and loads into a graph, and its invariants and the further ones can be read;
there is at least one. -/
def Reads (read : String → Option GraphFile) (text : Option String) (extra : List String)
    (loaded : LoadedGraph) (invs : List Invariant) : Prop :=
  ∃ content file, text = some content ∧ read content = some file ∧
    file.load = .ok loaded ∧
    List.Forall₂ (fun source inv => Invariant.read source = .ok inv)
      (file.invariants ++ extra) invs ∧
    invs ≠ []

theorem load_ok : load path text read = .ok loaded ↔ ∃ content file, text = some content ∧
    read content = some file ∧ file.load = .ok loaded := by
  unfold load
  cases text with
  | none => simp
  | some content =>
    cases hf : read content with
    | none => simp [hf]
    | some file => simp [hf, Result.mapError_ok]

theorem readInvariant_ok {origin source : String} {inv : Invariant} :
    readInvariant origin source = .ok inv ↔ Invariant.read source = .ok inv := by
  rw [readInvariant, Result.mapError_ok]

theorem readInvariants_ok {fromFile : List String} {set : InvariantSet} :
    readInvariants fromFile extra = .ok set ↔ ∃ invs,
      List.Forall₂ (fun source inv => Invariant.read source = .ok inv) (fromFile ++ extra) invs ∧
      invs ≠ [] ∧ set = .ofList invs := by
  -- the texts of both sources are read alike, so that they can be read as one list
  simp only [readInvariants, Result.bind_ok, Result.mapM_ok, readInvariant_ok]
  simp only [← Result.mapM_ok, List.mapM_append, Result.bind_ok, Result.pure_eq, Except.ok.injEq]
  constructor
  · intro h
    obtain ⟨first, hfirst, second, hsecond, h⟩ := h
    refine ⟨first ++ second, ⟨first, hfirst, second, hsecond, rfl⟩, ?_⟩
    split at h
    · cases h
    · rename_i hempty
      cases h
      exact ⟨fun hnil => hempty (InvariantSet.isEmpty_ofList.mpr hnil), rfl⟩
  · intro h
    obtain ⟨_, ⟨first, hfirst, second, hsecond, rfl⟩, hne, rfl⟩ := h
    refine ⟨first, hfirst, second, hsecond, ?_⟩
    rw [if_neg fun hempty => hne (InvariantSet.isEmpty_ofList.mp hempty)]

theorem invariants_of_load {file : GraphFile} (h : file.load = .ok loaded) :
    loaded.invariants = file.invariants := by
  obtain ⟨b, _, h⟩ := Result.bind_ok.mp h
  obtain ⟨c, _, h⟩ := Result.bind_ok.mp h
  cases h
  rfl

theorem checkReports_ok : checkReports path text extra config read = .ok (loaded, reports) ↔
    ∃ invs, Reads read text extra loaded invs ∧
      reports = (InvariantSet.ofList invs).checkAll loaded.graph config := by
  simp only [checkReports, Result.bind_ok, load_ok, readInvariants_ok, Result.pure_eq,
    Except.ok.injEq, Prod.mk.injEq]
  constructor
  · intro h
    obtain ⟨_, ⟨content, file, htext, hfile, hload⟩, _, ⟨invs, hread, hne, rfl⟩, rfl, rfl⟩ := h
    rw [invariants_of_load hload] at hread
    exact ⟨invs, ⟨content, file, htext, hfile, hload, hread, hne⟩, rfl⟩
  · intro h
    obtain ⟨invs, ⟨content, file, htext, hfile, hload, hread, hne⟩, rfl⟩ := h
    rw [← invariants_of_load hload] at hread
    exact ⟨loaded, ⟨content, file, htext, hfile, hload⟩, _, ⟨invs, hread, hne, rfl⟩, rfl, rfl⟩

/-- What the command prints and its exit code do not depend on the order in which its checks have
their turns. -/
theorem check_checkTogether {invs : List Invariant} {schedule : List Nat}
    (hreads : Reads read text extra loaded invs)
    (h : ∀ j < (InvariantSet.ofList invs).size, 2 ≤ schedule.count j) :
    check path text extra config read = completion loaded
      ((InvariantSet.ofList invs).checkTogether loaded.graph config schedule) := by
  rw [check, checkReports_ok.mpr ⟨invs, hreads, rfl⟩, InvariantSet.checkTogether_eq h]

theorem countVerdict_eq_zero {verdict : Verdict} : countVerdict verdict reports = 0 ↔
    ∀ report ∈ reports, ∀ o, report.result = .ok o → o.verdict ≠ verdict := by
  rw [countVerdict, List.countP_eq_zero]
  apply forall₂_congr
  intro report _
  cases report.result with
  | error e => simp
  | ok o => simp

theorem countErrors_eq_zero : countErrors reports = 0 ↔
    ∀ report ∈ reports, ∃ o, report.result = .ok o := by
  rw [countErrors, List.countP_eq_zero]
  apply forall₂_congr
  intro report _
  cases report.result with
  | error e => simp [Except.isOk, Except.toBool]
  | ok o => simp [Except.isOk, Except.toBool]

/-- Whatever is no error, no violation and not left open holds. -/
theorem exitCode_eq_zero : exitCode reports = 0 ↔
    ∀ report ∈ reports, ∃ n, report.result = .ok (.holds n) := by
  have hcounts : exitCode reports = 0 ↔ countVerdict .violated reports = 0 ∧
      countErrors reports = 0 ∧ countVerdict .inconclusive reports = 0 := by
    unfold exitCode
    grind
  rw [hcounts, countVerdict_eq_zero, countErrors_eq_zero, countVerdict_eq_zero]
  constructor
  · intro h report hreport
    obtain ⟨hviolated, hok, hopen⟩ := h
    obtain ⟨o, ho⟩ := hok report hreport
    cases o with
    | holds n => exact ⟨n, ho⟩
    | violated c n => exact absurd rfl (hviolated report hreport _ ho)
    | inconclusive reason n => exact absurd rfl (hopen report hreport _ ho)
  · intro h
    refine ⟨?_, ?_, ?_⟩ <;> intro report hreport <;> obtain ⟨n, hn⟩ := h report hreport
    · simp [hn, Outcome.verdict]
    · exact ⟨_, hn⟩
    · simp [hn, Outcome.verdict]

theorem check_eq_zero : (check path text extra config read).exitCode = 0 ↔
    ∃ loaded reports, checkReports path text extra config read = .ok (loaded, reports) ∧
      exitCode reports = 0 := by
  unfold check
  cases checkReports path text extra config read with
  | error e => simp [failure]
  | ok result =>
    obtain ⟨loaded, reports⟩ := result
    simp [completion]

end Command

/-- Exit code zero means verified. It is given if and only if the file loads, all invariants can be
read, there is at least one, and every report says that its invariant holds. Then each invariant
without a bound or with a whole one, repeated or not, has such a report, and no accepted path of the
graph violates it, whatever the backend and the limit. All this holds in whatever way the text of a
file is read. -/
theorem exit_zero_iff_verified (read : String → Option GraphFile) (path : String)
    (text : Option String) (extra : List String) (config : Config) :
    ((Command.check path text extra config read).exitCode = 0 ↔
      ∃ loaded invs, Command.Reads read text extra loaded invs ∧
        ∀ report ∈ (InvariantSet.ofList invs).checkAll loaded.graph config,
          ∃ n, report.result = .ok (.holds n)) ∧
      ∀ loaded invs, Command.Reads read text extra loaded invs →
        Command.checkReports path text extra config read =
          .ok (loaded, (InvariantSet.ofList invs).checkAll loaded.graph config) ∧
        ((Command.check path text extra config read).exitCode = 0 → ∀ inv ∈ invs,
          (inv.bound = none ∨ ∃ d k, inv.bound = some ⟨d, .integer k⟩) →
          (∃ n, ⟨inv, .ok (.holds n)⟩ ∈ (InvariantSet.ofList invs).checkAll loaded.graph config) ∧
          ∀ steps, Path.isPath loaded.graph inv.relation steps = true →
            Path.violates loaded.graph inv steps ≠ .ok true) := by
  constructor
  · simp only [Command.check_eq_zero, Command.checkReports_ok, Command.exitCode_eq_zero]
    constructor
    · intro h
      obtain ⟨loaded, _, ⟨invs, hreads, rfl⟩, hall⟩ := h
      exact ⟨loaded, invs, hreads, hall⟩
    · intro h
      obtain ⟨loaded, invs, hreads, hall⟩ := h
      exact ⟨loaded, _, ⟨invs, hreads, rfl⟩, hall⟩
  intro loaded invs hreads
  have hreports : Command.checkReports path text extra config read =
      .ok (loaded, (InvariantSet.ofList invs).checkAll loaded.graph config) :=
    Command.checkReports_ok.mpr ⟨invs, hreads, rfl⟩
  refine ⟨hreports, ?_⟩
  intro hzero inv hinv hb
  obtain ⟨loaded', reports, hreports', hexit⟩ := Command.check_eq_zero.mp hzero
  rw [hreports] at hreports'
  cases hreports'
  have hfloat : ∀ w, inv.bound = some w → w.value.isFloat = false := by
    intro w hw
    obtain ⟨n, hn⟩ := Invariant.integer_of_bound hb hw
    rw [hn]
    rfl
  have hmem := InvariantSet.report_mem loaded.graph config hfloat hinv
  obtain ⟨n, hn⟩ : ∃ n, (check loaded.graph inv config .empty).1 = .ok (.holds n) :=
    Command.exitCode_eq_zero.mp hexit _ hmem
  rw [hn] at hmem
  refine ⟨⟨n, hmem⟩, fun steps hp => ?_⟩
  exact not_violates_of_check hb (ClosureCache.faithful_empty loaded.graph) hn hp

/-- A file with an `a` that is followed by a `b` two units of time later, and an invariant. -/
def GraphFile.sample : String :=
  "[[[\"p\", \"a\", true], [\"q\", \"b\", false, true]], " ++
    "[[\"p\", \"q\", \"t\", 2]], [\"a AFby<=3 b\"]]"

/-- The graph of the file and its invariant, read. -/
def LoadedGraph.sample : LoadedGraph where
  graph := .pair (.integer 2)
  names := #["p", "q"]
  invariants := ["a AFby<=3 b"]

theorem sample_verified :
    (Command.check "sample" (some GraphFile.sample) ["a AP b", "a AFby<=3 b"]
        ⟨.crossCheck, 9⟩ GraphFile.read?).exitCode = 0 ∧
      Command.Reads GraphFile.read? (some GraphFile.sample) ["a AP b", "a AFby<=3 b"] .sample
        [.response .upper 3, ⟨.alwaysPrecedes, ⟨"a"⟩, ⟨"b"⟩, .default, none⟩,
          .response .upper 3] ∧
      Path.isPath LoadedGraph.sample.graph .default [⟨0, none⟩, ⟨1, some (.integer 2)⟩] = true ∧
      Path.violates LoadedGraph.sample.graph (.response .upper 3)
        [⟨0, none⟩, ⟨1, some (.integer 2)⟩] ≠ .ok true := by
  have hreads : Command.Reads GraphFile.read? (some GraphFile.sample) ["a AP b", "a AFby<=3 b"]
      .sample [.response .upper 3, ⟨.alwaysPrecedes, ⟨"a"⟩, ⟨"b"⟩, .default, none⟩,
        .response .upper 3] := by
    refine ⟨GraphFile.sample, ⟨[⟨"p", "a", true, false⟩, ⟨"q", "b", false, true⟩],
      [⟨"p", "q", "t", some (.integer 2)⟩], ["a AFby<=3 b"]⟩, rfl, by cbv, by cbv, ?_, by simp⟩
    exact .cons (by cbv) (.cons (by cbv) (.cons (by cbv) .nil))
  have hreports : (InvariantSet.ofList [.response .upper 3,
      ⟨.alwaysPrecedes, ⟨"a"⟩, ⟨"b"⟩, .default, none⟩, .response .upper 3]).checkAll
        LoadedGraph.sample.graph ⟨.crossCheck, 9⟩ =
      [⟨.response .upper 3, .ok (.holds 2)⟩,
        ⟨⟨.alwaysPrecedes, ⟨"a"⟩, ⟨"b"⟩, .default, none⟩, .ok (.holds 2)⟩] := by cbv
  have hpath : Path.isPath LoadedGraph.sample.graph .default
      [⟨0, none⟩, ⟨1, some (.integer 2)⟩] = true := by cbv
  obtain ⟨hiff, hverified⟩ := exit_zero_iff_verified GraphFile.read? "sample"
    (some GraphFile.sample) ["a AP b", "a AFby<=3 b"] ⟨.crossCheck, 9⟩
  have hzero := hiff.mpr ⟨_, _, hreads, by rw [hreports]; simp⟩
  obtain ⟨_, hkept⟩ := (hverified _ _ hreads).2 hzero (.response .upper 3) List.mem_cons_self
    (.inr ⟨.upper, 3, rfl⟩)
  exact ⟨hzero, hreads, hpath, hkept _ hpath⟩

end EventInvariants
