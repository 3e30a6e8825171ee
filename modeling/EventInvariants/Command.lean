import EventInvariants.GraphFile
import EventInvariants.InvariantSet
import EventInvariants.Text.Line

namespace EventInvariants

/-- A problem that is reported apart from the output. -/
structure Diagnostic where
  message : String
  code : Option String
  /-- Where the text in question was given. -/
  origin : Option String

/-- The end of a command: exit code, output, reported problems. -/
structure Completion where
  exitCode : Nat
  /-- The texts that are printed, each with a newline after it. -/
  output : List String
  /-- A last text, to which the time that the command took may be added. -/
  closing : Option String
  diagnostics : List Diagnostic

/-- The lines of the output, without times. Keys and events may bring newlines of their own. -/
def Completion.lines (done : Completion) : List String :=
  (done.output ++ done.closing.toList).flatMap Text.lines

inductive CommandError where
  | missingFile (path : String)
  | notAGraphFile
  | graph (cause : GraphError)
  | invariant (cause : InvariantError) (origin : String)
  | check (invariant : Invariant) (cause : CheckError)
  | noInvariants

namespace CommandError

def message : CommandError → String
  | .missingFile path => s!"failed to read file: {path}: No such file or directory (os error 2)"
  | .notAGraphFile => "invalid graph description: <json>"
  | .graph cause => s!"invalid graph description: {cause.message}"
  | .invariant (.malformed problem span) _ =>
    (InvariantError.malformed problem span).message
  | .invariant cause _ => s!"invalid invariant: {cause.message}"
  | .check inv cause => s!"check error in '{inv}': {cause.message}"
  | .noInvariants =>
    "no invariants to check; add them to the graph file or pass --invariant"

def code : CommandError → Option String
  | .missingFile _ => none
  | .notAGraphFile => some "invmc::graph_error"
  | .graph _ => some "invmc::graph_error"
  | .invariant (.malformed ..) _ => some "invmc::invariant_syntax"
  | .invariant _ _ => some "invmc::invariant_error"
  | .check _ _ => some "invmc::check_error"
  | .noInvariants => none

/-- A faulty text is reported with the place where it was given. -/
def origin : CommandError → Option String
  | .invariant (.malformed ..) origin => some origin
  | _ => none

def diagnostic (e : CommandError) : Diagnostic :=
  ⟨e.message, e.code, e.origin⟩

end CommandError

namespace Command

/-- The graph in a file, given its text if the file exists, and the way in which texts are read. -/
def load (path : String) (text : Option String)
    (read : String → Option GraphFile := GraphFile.read?) : Except CommandError LoadedGraph :=
  match text with
  | none => .error (.missingFile path)
  | some text =>
    match read text with
    | none => .error .notAGraphFile
    | some file => file.load.mapError .graph

def readInvariant (origin : String) (text : String) : Except CommandError Invariant :=
  (Invariant.read text).mapError fun cause => .invariant cause origin

/-- The invariants of the file and then those of the command line, each once. -/
def readInvariants (fromFile extra : List String) : Except CommandError InvariantSet := do
  let first ← fromFile.mapM (readInvariant "graph file")
  let second ← extra.mapM (readInvariant "--invariant")
  let set := InvariantSet.ofList (first ++ second)
  if set.isEmpty then throw .noInvariants
  return set

def nodeText (loaded : LoadedGraph) (v : Nat) : String :=
  let event := (loaded.graph.nodes[v]?.map fun node => node.event.name).getD ""
  loaded.names.getD v "" ++ ":" ++ event

def reportLines (loaded : LoadedGraph) (report : Report) : List String :=
  match report.result with
  | .ok (.holds n) => [s!"{report.invariant}: OK ({n} iterations)"]
  | .ok (.violated counterexample n) =>
    s!"{report.invariant}: VIOLATED ({n} iterations)" ::
      match counterexample with
      | none => []
      | some c =>
        [s!"  Counterexample ({c.length} nodes):", "    " ++ c.renderWith (nodeText loaded)]
  | .ok (.inconclusive reason n) =>
    [s!"{report.invariant}: INCONCLUSIVE, {reason.message} ({n} iterations)"]
  | .error _ => [s!"{report.invariant}: ERROR"]

def reportDiagnostic? (report : Report) : Option Diagnostic :=
  match report.result with
  | .ok _ => none
  | .error cause => some (CommandError.check report.invariant cause).diagnostic

def countVerdict (verdict : Verdict) (reports : List Report) : Nat :=
  reports.countP fun report =>
    match report.result with
    | .ok outcome => outcome.verdict = verdict
    | .error _ => false

def countErrors (reports : List Report) : Nat :=
  reports.countP fun report => !report.result.isOk

def summary (reports : List Report) : String :=
  s!"{reports.length} invariants, {countVerdict .violated reports} violated, " ++
    s!"{countVerdict .inconclusive reports} inconclusive, {countErrors reports} errors"

/-- Zero if every invariant holds, one on a violation or an error, two if only a limit stood in the
way of a verdict. -/
def exitCode (reports : List Report) : Nat :=
  if 0 < countVerdict .violated reports || 0 < countErrors reports then 1
  else if 0 < countVerdict .inconclusive reports then 2
  else 0

/-- The end of a command that could not do its work. -/
def failure (e : CommandError) : Completion :=
  ⟨1, [], none, [e.diagnostic]⟩

/-- The end of a command that has checked invariants. -/
def completion (loaded : LoadedGraph) (reports : List Report) : Completion :=
  ⟨exitCode reports,
    "" :: reports.flatMap (reportLines loaded) ++ [""],
    some (summary reports),
    reports.filterMap reportDiagnostic?⟩

/-- The reports on a graph file and further invariants. -/
def checkReports (path : String) (text : Option String) (extra : List String) (config : Config)
    (read : String → Option GraphFile := GraphFile.read?) :
    Except CommandError (LoadedGraph × List Report) := do
  let loaded ← load path text read
  let set ← readInvariants loaded.invariants extra
  return (loaded, set.checkAll loaded.graph config)

/-- Checks the invariants of a graph file and further ones. -/
def check (path : String) (text : Option String) (extra : List String) (config : Config)
    (read : String → Option GraphFile := GraphFile.read?) : Completion :=
  match checkReports path text extra config read with
  | .error e => failure e
  | .ok (loaded, reports) => completion loaded reports

/-- Where a node leads, unless it is nowhere. -/
def closureLine? (loaded : LoadedGraph) (closure : Closure) (v : Nat) : Option String :=
  let name (u : Nat) := loaded.names.getD u ""
  match closure.reachableFrom v with
  | [] => none
  | targets => some (name v ++ " -> " ++ ", ".intercalate (targets.map name))

/-- Prints which nodes are reached from which. -/
def closure (path : String) (text : Option String) (relation : Relation)
    (excluding : Option Event) (read : String → Option GraphFile := GraphFile.read?) :
    Completion :=
  match load path text read with
  | .error e => failure e
  | .ok loaded =>
    let closure := Closure.build loaded.graph relation excluding
    ⟨0, loaded.graph.ids.filterMap (closureLine? loaded closure), none, []⟩

end Command
end EventInvariants
