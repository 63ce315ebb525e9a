import FairLocks.Service.Submit

/-!
# Configurations

A configuration lists resource types and says how group timeouts are spent. A service made from it
has the types registered in order; the first that is refused ends the making.
-/
namespace FairLocks

structure Config where
  groupTimeout : GroupTimeout
  resourceTypes : List ResourceType
  deriving DecidableEq

namespace Config

def default : Config := ⟨.perMember, []⟩

instance : Inhabited Config := ⟨default⟩

/-- Adds a resource type behind those already listed. -/
def addType (c : Config) (t : ResourceType) : Config :=
  { c with resourceTypes := c.resourceTypes ++ [t] }

end Config

namespace Service

def withGroupTimeout (s : Service) (g : GroupTimeout) : Service := { s with groupTimeout := g }

/-- Registers types in order until one is refused, and tells what was registered. -/
def registerAll (s : Service) (call : CallId) :
    List ResourceType → Except LockError Service × List Fact
  | [] => (.ok s, [])
  | t :: ts =>
    match s.registry.register t with
    | .error e => (.error e, [])
    | .ok (registry, previous) =>
      let (result, facts) := registerAll { s with registry } call ts
      (result, ⟨call, .registered t previous⟩ :: facts)

def ofConfig (call : CallId) (c : Config) : Except LockError Service × List Fact :=
  (empty.withGroupTimeout c.groupTimeout).registerAll call c.resourceTypes

end Service

end FairLocks
