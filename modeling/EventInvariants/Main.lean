import EventInvariants.Command

namespace EventInvariants.CommandLine

/-- The options of a command, as far as they change its answer. -/
structure Options where
  file : Option String
  invariants : List String
  config : Config
  relation : Relation
  excluding : Option Event

def Options.default : Options :=
  ⟨none, [], .default, .default, none⟩

def backend? : String → Option Backend
  | "automaton" => some .automaton
  | "closure" => some .closure
  | "cross-check" => some .crossCheck
  | _ => none

/-- An option and its value may be written as one word, with an equals sign between them. -/
def splitOption (s : String) : List String :=
  if s.startsWith "--" then
    match s.splitOn "=" with
    | name :: first :: rest => [name, "=".intercalate (first :: rest)]
    | _ => [s]
  else [s]

def readOptions? (o : Options) : List String → Option Options
  | [] => some o
  | "--invariant" :: s :: rest => readOptions? { o with invariants := o.invariants ++ [s] } rest
  | "-i" :: s :: rest => readOptions? { o with invariants := o.invariants ++ [s] } rest
  | "--backend" :: s :: rest => do
    let backend ← backend? s
    readOptions? { o with config := { o.config with backend := backend } } rest
  | "--max-iterations" :: s :: rest => do
    let n ← Whole.readNat? s.toList
    readOptions? { o with config := { o.config with maxIterations := n } } rest
  | "--max-time" :: s :: rest => do
    let _ ← Whole.readNat? s.toList
    readOptions? o rest
  | "--threads" :: s :: rest => do
    let _ ← Whole.readNat? s.toList
    readOptions? o rest
  | "--no-parallel" :: rest => readOptions? o rest
  | "--verbose" :: rest => readOptions? o rest
  | "-v" :: rest => readOptions? o rest
  | "--relation" :: s :: rest => readOptions? { o with relation := ⟨s⟩ } rest
  | "-r" :: s :: rest => readOptions? { o with relation := ⟨s⟩ } rest
  | "--excluding" :: s :: rest => readOptions? { o with excluding := some ⟨s⟩ } rest
  | s :: rest =>
    if s.startsWith "-" || o.file.isSome then none else readOptions? { o with file := some s } rest

def readText (path : String) : IO (Option String) := do
  try return some (← IO.FS.readFile path)
  catch _ => return none

/-- Seconds with two places, from milliseconds. -/
def seconds (ms : Nat) : String :=
  let hundredths := (ms + 5) / 10
  let places := toString (100 + hundredths % 100)
  toString (hundredths / 100) ++ "." ++ (places.drop 1).toString ++ "s"

/-- Prints what a command that began at `start` has to say, and gives its exit code. -/
def finish (start : Nat) (done : Completion) : IO UInt32 := do
  for line in done.output do
    IO.println line
  for d in done.diagnostics do
    IO.eprintln d.message
  if let some line := done.closing then
    IO.println (line ++ " in " ++ seconds ((← IO.monoMsNow) - start))
  return UInt32.ofNat done.exitCode

def usage : IO UInt32 := do
  IO.eprintln "usage: check FILE [OPTION]... | closure FILE [OPTION]..."
  return 2

def run (command : String) (o : Options) (path : String) : IO UInt32 := do
  let text ← readText path
  let start ← IO.monoMsNow
  match command with
  | "check" => finish start (Command.check path text o.invariants o.config GraphFile.read?)
  | "closure" =>
    finish start (Command.closure path text o.relation o.excluding GraphFile.read?)
  | _ => usage

end EventInvariants.CommandLine

open EventInvariants.CommandLine in
def main (args : List String) : IO UInt32 := do
  match args with
  | command :: rest =>
    match readOptions? .default (rest.flatMap splitOption) with
    | some o =>
      match o.file with
      | some path => run command o path
      | none => usage
    | none => usage
  | [] => usage
