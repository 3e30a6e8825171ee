import EventInvariants.Command
import EventInvariants.Graph.Shape
import EventInvariants.Main
import EventInvariants.Path.Shortest
import EventInvariants.Proofs.Route
import EventInvariants.Proofs.Frontier
import EventInvariants.Proofs.Moves
import EventInvariants.Proofs.Arrival
import EventInvariants.Proofs.Worklist
import EventInvariants.Proofs.Fixpoint
import EventInvariants.Proofs.Coverage
import EventInvariants.Proofs.Failure
import EventInvariants.Proofs.Validation
import EventInvariants.Proofs.Verdict
import EventInvariants.Proofs.Convergence
import EventInvariants.Proofs.Reachability
import EventInvariants.Proofs.Agreement
import EventInvariants.Proofs.Conformance
import EventInvariants.Proofs.Readings
import EventInvariants.Proofs.Pruning
import EventInvariants.Proofs.Concurrency
import EventInvariants.Proofs.Stability
import EventInvariants.Proofs.Termination
import EventInvariants.Proofs.Cutoff
import EventInvariants.Proofs.Isolation
import EventInvariants.Proofs.Monotonicity
import EventInvariants.Proofs.ExitCode
import EventInvariants.Proofs.Enumeration
import EventInvariants.Proofs.Pumping
import EventInvariants.Proofs.Reduction
import EventInvariants.Proofs.Distance
import EventInvariants.Proofs.Built
import EventInvariants.Proofs.Table
import EventInvariants.Proofs.Ranking
import EventInvariants.Proofs.Discipline
import EventInvariants.Proofs.Union
import EventInvariants.Proofs.Idempotence
import EventInvariants.Proofs.Refusal
import EventInvariants.Proofs.Literal
import EventInvariants.Proofs.Grammar
import EventInvariants.Proofs.RoundTrip
import EventInvariants.Proofs.Span
import EventInvariants.Proofs.Minimum
import EventInvariants.Proofs.Arithmetic
import EventInvariants.Proofs.Extension
import EventInvariants.Proofs.Relevance
import EventInvariants.Proofs.Construction
import EventInvariants.Proofs.Loading
import EventInvariants.Proofs.Membership
import EventInvariants.Proofs.Delivery
import EventInvariants.Proofs.Dominance
import EventInvariants.Proofs.Distribution
import EventInvariants.Proofs.Scanning
import EventInvariants.Proofs.Marking
import EventInvariants.Proofs.Walking
import EventInvariants.Proofs.Offering
