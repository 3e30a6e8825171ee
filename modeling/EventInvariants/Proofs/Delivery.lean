import EventInvariants.Proofs.Idempotence
import EventInvariants.Proofs.Stability
import EventInvariants.Proofs.Union

namespace EventInvariants

namespace StateSet
variable {m : Monitor} {s : StateSet} {p : Phase} {e : Entry}

end StateSet

namespace Exploration
variable {g : Graph} {inv : Invariant} {s : State} {u : Nat} {edge : Edge}

theorem AtHead.validate (h : AtHead g inv s) : inv.validate g = .ok () := by
  induction h with
  | seeded hv => exact hv
  | visited _ _ _ ih => exact ih

end Exploration

end EventInvariants
