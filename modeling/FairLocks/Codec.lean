import FairLocks.Config
import FairLocks.Json.Record
import FairLocks.Json.Writer

/-!
# The written forms of the domain types

Each type has a reader and a writer side by side. Only a configuration has fields that may be left
out. A slot state is read as it stands; its numbers need not fit together.
-/
namespace FairLocks

open Json (Reader Shape)

namespace SharingMode

def all : List SharingMode := [exclusivePerOwner, sharedGroup]

def read : Reader SharingMode := Json.readVariant (all.map fun m => (m.name, m))

def write (m : SharingMode) : List Char := Json.writeText m.name

end SharingMode

namespace GroupTimeout

def all : List GroupTimeout := [perMember, sharedBudget]

def read : Reader GroupTimeout := Json.readVariant (all.map fun g => (g.name, g))

def write (g : GroupTimeout) : List Char := Json.writeText g.name

end GroupTimeout

namespace SlotPhase

def all : List SlotPhase := [free, partiallyHeld, full]

def read : Reader SlotPhase := Json.readVariant (all.map fun p => (p.name, p))

def write (p : SlotPhase) : List Char := Json.writeText p.name

end SlotPhase

/-- A value that a record cannot do without. -/
def required {α : Type} (name : String) : Option α → Except String α
  | some a => .ok a
  | none => .error name

/-- A field of a draft, from the part of the draft that it fills. -/
def fieldOf {δ α : Type} (name : String) (get : δ → Option α) (set : δ → α → δ) (value : Reader α) :
    Json.Field δ where
  name := name
  given draft := (get draft).isSome
  read draft l := (value l).map fun (a, r) => (set draft a, r)

namespace ResourceType

structure Draft where
  name : Option String := none
  capacity : Option Nat := none
  sharingMode : Option SharingMode := none

def shape : Shape Draft ResourceType where
  title := "ResourceType"
  fields := [
    fieldOf "name" Draft.name (fun d a => { d with name := some a }) Json.readString,
    fieldOf "capacity" Draft.capacity (fun d a => { d with capacity := some a }) Json.readCount,
    fieldOf "sharing_mode" Draft.sharingMode (fun d a => { d with sharingMode := some a })
      SharingMode.read]
  blank := {}
  complete d := do
    let name ← required "name" d.name
    let capacity ← required "capacity" d.capacity
    let sharingMode ← required "sharing_mode" d.sharingMode
    return { name, capacity, sharingMode }

def read : Reader ResourceType := shape.read

def write (t : ResourceType) : List Char := Json.writeObject [
  ("name", Json.writeText t.name),
  ("capacity", Json.writeInt t.capacity),
  ("sharing_mode", t.sharingMode.write)]

end ResourceType

namespace LockEvent

structure Draft where
  typeName : Option String := none
  resourceId : Option ResourceId := none
  owners : Option (List OwnerId) := none

def shape : Shape Draft LockEvent where
  title := "LockEvent"
  fields := [
    fieldOf "type_name" Draft.typeName (fun d a => { d with typeName := some a }) Json.readString,
    fieldOf "resource_id" Draft.resourceId (fun d a => { d with resourceId := some a }) Json.readId,
    fieldOf "owners" Draft.owners (fun d a => { d with owners := some a })
      (Json.readList Json.readId)]
  blank := {}
  complete d := do
    let typeName ← required "type_name" d.typeName
    let resourceId ← required "resource_id" d.resourceId
    let owners ← required "owners" d.owners
    return { typeName, resourceId, owners }

def read : Reader LockEvent := shape.read

def write (e : LockEvent) : List Char := Json.writeObject [
  ("type_name", Json.writeText e.typeName),
  ("resource_id", Json.writeInt e.resourceId),
  ("owners", Json.writeList Json.writeInt e.owners)]

end LockEvent

namespace SlotState

structure Draft where
  typeName : Option String := none
  resourceId : Option ResourceId := none
  sharingMode : Option SharingMode := none
  capacity : Option Nat := none
  available : Option Nat := none
  owners : Option (List OwnerId) := none
  holders : Option (List (List OwnerId)) := none
  waiting : Option Nat := none

def shape : Shape Draft SlotState where
  title := "SlotState"
  fields := [
    fieldOf "type_name" Draft.typeName (fun d a => { d with typeName := some a }) Json.readString,
    fieldOf "resource_id" Draft.resourceId (fun d a => { d with resourceId := some a }) Json.readId,
    fieldOf "sharing_mode" Draft.sharingMode (fun d a => { d with sharingMode := some a })
      SharingMode.read,
    fieldOf "capacity" Draft.capacity (fun d a => { d with capacity := some a }) Json.readCount,
    fieldOf "available" Draft.available (fun d a => { d with available := some a }) Json.readCount,
    fieldOf "owners" Draft.owners (fun d a => { d with owners := some a })
      (Json.readList Json.readId),
    fieldOf "holders" Draft.holders (fun d a => { d with holders := some a })
      (Json.readList (Json.readList Json.readId)),
    fieldOf "waiting" Draft.waiting (fun d a => { d with waiting := some a }) Json.readCount]
  blank := {}
  complete d := do
    let typeName ← required "type_name" d.typeName
    let resourceId ← required "resource_id" d.resourceId
    let sharingMode ← required "sharing_mode" d.sharingMode
    let capacity ← required "capacity" d.capacity
    let available ← required "available" d.available
    let owners ← required "owners" d.owners
    let holders ← required "holders" d.holders
    let waiting ← required "waiting" d.waiting
    return { typeName, resourceId, sharingMode, capacity, available, owners, holders, waiting }

def read : Reader SlotState := shape.read

def write (s : SlotState) : List Char := Json.writeObject [
  ("type_name", Json.writeText s.typeName),
  ("resource_id", Json.writeInt s.resourceId),
  ("sharing_mode", s.sharingMode.write),
  ("capacity", Json.writeInt s.capacity),
  ("available", Json.writeInt s.available),
  ("owners", Json.writeList Json.writeInt s.owners),
  ("holders", Json.writeList (Json.writeList Json.writeInt) s.holders),
  ("waiting", Json.writeInt s.waiting)]

end SlotState

namespace Config

structure Draft where
  groupTimeout : Option GroupTimeout := none
  resourceTypes : Option (List ResourceType) := none

def shape : Shape Draft Config where
  title := "LockManagerConfig"
  fields := [
    fieldOf "group_timeout" Draft.groupTimeout (fun d a => { d with groupTimeout := some a })
      GroupTimeout.read,
    fieldOf "resource_types" Draft.resourceTypes (fun d a => { d with resourceTypes := some a })
      (Json.readList ResourceType.read)]
  blank := {}
  complete d := .ok {
    groupTimeout := d.groupTimeout.getD default.groupTimeout
    resourceTypes := d.resourceTypes.getD default.resourceTypes }

def read : Reader Config := shape.read

def write (c : Config) : List Char := Json.writeObject [
  ("group_timeout", c.groupTimeout.write),
  ("resource_types", Json.writeList ResourceType.write c.resourceTypes)]

/-- Reads a configuration from the text of a file. -/
def ofText (text : String) : Except LockError Config :=
  match Json.readWhole read text.toList with
  | .ok c => .ok c
  | .error f => .error (.config (f.message text.toList))

end Config

end FairLocks
