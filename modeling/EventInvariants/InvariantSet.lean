import EventInvariants.Check

namespace EventInvariants

/-- Invariants in the order in which they were added, each once. -/
structure InvariantSet where
  items : List Invariant

/-- What checking one invariant of a set came to. -/
structure Report where
  invariant : Invariant
  result : Except CheckError Outcome

namespace InvariantSet

def empty : InvariantSet :=
  ⟨[]⟩

def size (s : InvariantSet) : Nat :=
  s.items.length

def isEmpty (s : InvariantSet) : Bool :=
  s.items.isEmpty

def contains (s : InvariantSet) (inv : Invariant) : Bool :=
  s.items.contains inv

/-- Adds an invariant that is not in the set. -/
def insert (s : InvariantSet) (inv : Invariant) : InvariantSet :=
  if s.contains inv then s else ⟨s.items ++ [inv]⟩

def insertAll (s : InvariantSet) (invs : List Invariant) : InvariantSet :=
  invs.foldl insert s

def ofList (invs : List Invariant) : InvariantSet :=
  empty.insertAll invs

/-- Whether two sets have the same members: as many, and all of the first in the second. -/
def sameInvariants (s t : InvariantSet) : Bool :=
  s.size = t.size && s.items.all t.contains

/-- Checks invariants in order, passing the cache on. -/
def checkFrom (g : Graph) (config : Config) : List Invariant → ClosureCache → List Report
  | [], _ => []
  | inv :: rest, cache =>
    let (result, cache) := check g inv config cache
    ⟨inv, result⟩ :: checkFrom g config rest cache

def checkAll (s : InvariantSet) (g : Graph) (config : Config) : List Report :=
  checkFrom g config s.items .empty

/-- The violated invariants with their paths, or the first error. -/
def violations : List Report → Except CheckError (List (Invariant × Option Counterexample))
  | [] => .ok []
  | report :: rest =>
    match report.result with
    | .error e => .error e
    | .ok outcome => do
      let rest ← violations rest
      return if outcome.isViolated then (report.invariant, outcome.counterexample?) :: rest
        else rest

def counterexamples (s : InvariantSet) (g : Graph) (config : Config) :
    Except CheckError (List (Invariant × Option Counterexample)) :=
  violations (s.checkAll g config)

end InvariantSet
end EventInvariants
