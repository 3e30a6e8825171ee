import EventInvariants.Closure.Basic

namespace EventInvariants

structure ClosureKey where
  relation : Relation
  excluded : Option Event
  deriving DecidableEq

structure ClosureCache where
  entries : List (ClosureKey × Closure)

namespace ClosureCache

def empty : ClosureCache :=
  ⟨[]⟩

def size (c : ClosureCache) : Nat :=
  c.entries.length

def find? (c : ClosureCache) (key : ClosureKey) : Option Closure :=
  (c.entries.find? fun entry => entry.1 = key).map Prod.snd

/-- The closure for a key, and the cache that holds it. -/
def get (c : ClosureCache) (g : Graph) (key : ClosureKey) : Closure × ClosureCache :=
  match c.find? key with
  | some closure => (closure, c)
  | none =>
    let closure := Closure.build g key.relation key.excluded
    (closure, ⟨c.entries ++ [(key, closure)]⟩)

end ClosureCache
end EventInvariants
