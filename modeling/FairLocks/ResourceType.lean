import FairLocks.OwnerSet

/-!
# Resource types and lock errors

A resource type fixes how many permits each resource of the type has and how a permit is owned.
The errors of the library are collected here, with the one place that words them.
-/
namespace FairLocks

/-- The number a resource goes by within its type. -/
abbrev ResourceId := Int

/-- A resource: its type's name and its number. -/
abbrev Key := String × ResourceId

inductive SharingMode where
  /-- Each permit belongs to exactly one owner. -/
  | exclusivePerOwner
  /-- Each permit is held jointly by a whole set of owners. -/
  | sharedGroup
  deriving DecidableEq

def SharingMode.name : SharingMode → String
  | .exclusivePerOwner => "exclusive_per_owner"
  | .sharedGroup => "shared_group"

structure ResourceType where
  name : String
  capacity : Nat
  sharingMode : SharingMode
  deriving DecidableEq

inductive LockError where
  /-- The type was never registered. -/
  | unknownType (typeName : String)
  /-- No lock operation ever made a slot for the resource. -/
  | neverLocked (key : Key)
  /-- None of the named owners holds a permit on the resource. -/
  | notOwner (key : Key) (owners : List OwnerId)
  /-- An operation for one sharing mode was used on a type of the other. -/
  | modeMismatch (typeName : String) (expected actual : SharingMode)
  | invalidCapacity (typeName : String) (capacity : Nat)
  /-- A group operation named no owner. -/
  | noOwners (typeName : String)
  /-- A caller died while it changed the state. No operation of this library ends so. -/
  | poisoned (what : String)
  | config (reason : String)
  deriving DecidableEq

/-- A list of numbers in brackets, separated by a comma and a blank. -/
def bracketed (l : List Int) : String := "[" ++ ", ".intercalate (l.map toString) ++ "]"

def LockError.message : LockError → String
  | .unknownType t => s!"unknown resource type '{t}'"
  | .neverLocked (t, id) => s!"resource {t}/{id} was never locked"
  | .notOwner (t, id) owners => s!"owners {bracketed owners} do not own resource {t}/{id}"
  | .modeMismatch t expected actual =>
    s!"resource type '{t}' is {actual.name}, operation requires {expected.name}"
  | .invalidCapacity t capacity => s!"resource type '{t}' needs a positive capacity, got {capacity}"
  | .noOwners t => s!"group operation on '{t}' called with no owners"
  | .poisoned what => s!"lock poisoned: {what}"
  | .config reason => s!"invalid lock configuration: {reason}"

/-- Refuses a type whose permits are not owned in the way the operation asks for. -/
def ResourceType.requireMode (t : ResourceType) (expected : SharingMode) : Except LockError Unit :=
  if t.sharingMode = expected then .ok () else .error (.modeMismatch t.name expected t.sharingMode)

end FairLocks
