import EventInvariants.History
import EventInvariants.Invariant.Text
import EventInvariants.Monitor.Basic

namespace EventInvariants

/-- A path from an initial node that violates the invariant. -/
structure Counterexample where
  steps : List Step
  deriving BEq

namespace Counterexample

def ofHistory (h : History) : Counterexample :=
  ⟨h.steps⟩

def length (c : Counterexample) : Nat :=
  c.steps.length

/-- A step after the first, with the arrow that leads to it. -/
def arrow (label : Nat → String) (s : Step) : String :=
  match s.delta with
  | some delta => s!" -(+{delta})-> {label s.node}"
  | none => s!" -> {label s.node}"

/-- The path as `x -> y -(+3)-> z`, each node written by `label`. -/
def renderWith (c : Counterexample) (label : Nat → String) : String :=
  match c.steps with
  | [] => ""
  | first :: rest => label first.node ++ String.join (rest.map (arrow label))

def render (c : Counterexample) (g : Graph) : String :=
  c.renderWith fun v => (g.nodes[v]?.map fun node => node.event.name).getD ""

end Counterexample

/-- What stops a check before it is done. -/
inductive Limit where
  | iterations
  deriving DecidableEq

def Limit.message : Limit → String
  | .iterations => "iteration limit reached"

inductive Verdict where
  | holds
  | violated
  | inconclusive
  deriving DecidableEq

def Verdict.name : Verdict → String
  | .holds => "holds"
  | .violated => "violated"
  | .inconclusive => "inconclusive"

inductive Outcome where
  | holds (iterations : Nat)
  | violated (counterexample : Option Counterexample) (iterations : Nat)
  | inconclusive (reason : Limit) (iterations : Nat)
  deriving BEq

namespace Outcome

def verdict : Outcome → Verdict
  | .holds _ => .holds
  | .violated _ _ => .violated
  | .inconclusive _ _ => .inconclusive

def iterations : Outcome → Nat
  | .holds n => n
  | .violated _ n => n
  | .inconclusive _ n => n

def counterexample? : Outcome → Option Counterexample
  | .violated c _ => c
  | _ => none

def isViolated (o : Outcome) : Bool :=
  o.verdict = .violated

end Outcome

/-- Why an invariant was not checked to the end, which is never a verdict. `broken` stands for a
state of affairs that the monitors rule out. -/
inductive CheckError where
  | invariant (cause : InvariantError)
  | time (source target : Nat) (cause : TimeError)
  | missingDelta (source target : Nat)
  | disagreement (invariant : Invariant) (automaton closure : Verdict)
  | broken

namespace CheckError

def ofFault (source target : Nat) : Fault → CheckError
  | .time cause => .time source target cause
  | .strayState => .broken
  | .mixedClocks => .broken

def message : CheckError → String
  | .invariant cause => s!"invalid invariant: {cause.message}"
  | .time source target cause =>
    s!"time error on edge {Node.label source} -> {Node.label target}: {cause.message}"
  | .missingDelta source target =>
    s!"edge {Node.label source} -> {Node.label target} has no time delta " ++
      "but the invariant is time-bounded"
  | .disagreement inv automaton closure =>
    s!"backends disagree on '{inv}': automaton says {automaton.name}, " ++
      s!"closure says {closure.name}"
  | .broken => "monitor in an impossible state"

end CheckError
end EventInvariants
