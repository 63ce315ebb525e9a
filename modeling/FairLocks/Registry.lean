import FairLocks.Dict
import FairLocks.ResourceType

/-!
# The registry of resource types

Types are registered under their names and never removed; a second registration of a name replaces
the first. A type without permits is refused and leaves the registry as it was.
-/
namespace FairLocks

structure Registry where
  types : Dict String ResourceType
  deriving DecidableEq

/-- The bytes of a text in UTF-8, by which names are put in order. -/
def utf8 (s : String) : List UInt8 := s.toUTF8.data.toList

namespace Registry

def empty : Registry := ⟨∅⟩

/-- The registry with `t` in it, and the type it replaces. -/
def register (r : Registry) (t : ResourceType) :
    Except LockError (Registry × Option ResourceType) :=
  if t.capacity = 0 then .error (.invalidCapacity t.name t.capacity)
  else .ok (⟨r.types.insert t.name t⟩, r.types.get? t.name)

def resolve (r : Registry) (name : String) : Except LockError ResourceType :=
  match r.types.get? name with
  | some t => .ok t
  | none => .error (.unknownType name)

/-- The registered names, ascending by their bytes. -/
def names (r : Registry) : List String := r.types.keys.mergeSort fun a b => decide (utf8 a ≤ utf8 b)

end Registry

end FairLocks
