import EventInvariants.Text.Quoted

namespace EventInvariants

structure Event where
  name : String
  deriving DecidableEq

structure Relation where
  name : String
  deriving DecidableEq

namespace Event

instance : ToString Event := ⟨Event.name⟩

def quoted (e : Event) : String :=
  Text.quoted e.name

instance : Ord Event := ⟨fun e f => compare e.name f.name⟩

end Event

namespace Relation

instance : ToString Relation := ⟨Relation.name⟩

def quoted (r : Relation) : String :=
  Text.quoted r.name

instance : Ord Relation := ⟨fun r s => compare r.name s.name⟩

/-- The relation of an edge that names none. -/
def default : Relation := ⟨"t"⟩

instance : Inhabited Relation := ⟨Relation.default⟩

def isDefault (r : Relation) : Bool :=
  r = default

end Relation
end EventInvariants
