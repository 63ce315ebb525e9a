import FairLocks.Request
import FairLocks.Time

/-!
# The history of a run

Each step of a service leaves facts: permits granted and returned, callers queued and given up,
listeners told, replies given. The log is a view of the history, and so are the replies and the
events that listeners get. The log shows all that a caller does to slots and types, but neither the
listeners nor the replies.
-/
namespace FairLocks

/-- What a listener is told of. -/
structure LockEvent where
  typeName : String
  resourceId : ResourceId
  /-- The owners as the acting call listed them. -/
  owners : List OwnerId
  deriving DecidableEq

inductive EventKind where
  /-- A permit was granted. -/
  | locked
  /-- A permit was returned, be it by a rollback. -/
  | unlocked
  /-- A timed call for several resources gave up; the event carries the resource it could not
  get. -/
  | rolledBack
  deriving DecidableEq

/-- The name listeners register under. -/
def EventKind.name : EventKind → String
  | .locked => "ResourceLocked"
  | .unlocked => "ResourceUnlocked"
  | .rolledBack => "GroupRolledBack"

inductive Deed where
  | registered (type : ResourceType) (previous : Option ResourceType)
  /-- A slot was made for the resource. -/
  | opened (key : Key) (slot : Slot)
  /-- The caller drew a ticket, with `ahead` callers in front; `waits` if it could not be served. -/
  | queued (key : Key) (ticket ahead : Nat) (waits : Bool)
  | granted (key : Key) (ticket : Nat) (holding : Holding) (party : Party) (budget : Option Nat)
  | gaveUp (key : Key) (ticket : Nat) (party : Party) (budget : Option Nat)
  | returned (key : Key) (holding : Holding) (party : Party)
  /-- A rollback could not give back a member. -/
  | notReturned (key : Key) (error : LockError)
  | rolledBack (typeName : String) (failed : ResourceId) (released : List ResourceId)
      (party : Party)
  | evicted (keys : List Key) (remaining : Nat)
  /-- A listener was told. -/
  | announced (listener : CallId) (kind : EventKind) (event : LockEvent)
  | answered (reply : Reply)

/-- Something a call did. -/
structure Fact where
  call : CallId
  deed : Deed

inductive LogLevel where
  | trace
  | debug
  | info
  | warn
  deriving DecidableEq

def LogLevel.name : LogLevel → String
  | .trace => "TRACE"
  | .debug => "DEBUG"
  | .info => "INFO"
  | .warn => "WARN"

inductive LogValue where
  | text (s : String)
  | number (n : Int)
  | flag (b : Bool)
  deriving DecidableEq

structure LogLine where
  level : LogLevel
  message : String
  fields : List (String × LogValue)
  deriving DecidableEq

/-- A budget as the log shows it. -/
def budgetText : Option Nat → String
  | none => "None"
  | some d => s!"Some({Duration.text d})"

/-- The end of an attempt to take a permit. -/
def attemptLine (key : Key) (party : Party) (budget : Option Nat) (acquired : Bool) : LogLine where
  level := .debug
  message := "lock attempt"
  fields := [
    ("type_name", .text key.1),
    ("resource_id", .number key.2),
    ("owners", .text (bracketed party.listed)),
    ("acquired", .flag acquired),
    ("timeout", .text (budgetText budget))]

def Deed.logLine? : Deed → Option LogLine
  | registered t none => some ⟨.info, "resource type registered", [
      ("type_name", .text t.name),
      ("capacity", .number t.capacity),
      ("sharing_mode", .text t.sharingMode.name)]⟩
  | registered t (some previous) => some ⟨.warn, "resource type re-registered", [
      ("type_name", .text t.name),
      ("previous_capacity", .number previous.capacity),
      ("capacity", .number t.capacity),
      ("sharing_mode", .text t.sharingMode.name)]⟩
  | queued key _ ahead true => some ⟨.trace, "waiting for permit", [
      ("type_name", .text key.1),
      ("resource_id", .number key.2),
      ("ahead", .number ahead)]⟩
  | queued _ _ _ false => none
  | granted key _ _ party budget => some (attemptLine key party budget true)
  | gaveUp key _ party budget => some (attemptLine key party budget false)
  | returned key _ party => some ⟨.debug, "resource unlocked", [
      ("type_name", .text key.1),
      ("resource_id", .number key.2),
      ("owners", .text (bracketed party.listed))]⟩
  | notReturned key error => some ⟨.warn, "rollback release failed", [
      ("type_name", .text key.1),
      ("resource_id", .number key.2),
      ("error", .text error.message)]⟩
  | rolledBack typeName failed released party => some ⟨.warn, "group acquisition rolled back", [
      ("type_name", .text typeName),
      ("failed_id", .number failed),
      ("rolled_back", .number released.length),
      ("owners", .text (bracketed party.listed))]⟩
  | evicted [] _ => none
  | evicted keys remaining => some ⟨.info, "evicted idle slots", [
      ("evicted", .number keys.length),
      ("remaining", .number remaining)]⟩
  | opened _ _ => none
  | announced _ _ _ => none
  | answered _ => none

/-- The reply among the facts of a call, if it has been given. -/
def Fact.reply? (f : Fact) : Option (CallId × Reply) :=
  match f.deed with
  | .answered r => some (f.call, r)
  | _ => none

end FairLocks
