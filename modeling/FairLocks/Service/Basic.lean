import FairLocks.Dict
import FairLocks.Fact
import FairLocks.Registry

/-!
# Services and their callers

A service is the registry, the slots, the listeners, the clock and the callers that are still at
work. A caller takes its resources one after another and stands in at most one queue. Everything a
service does is a `Turn`: the service after it and the facts it leaves.
-/
namespace FairLocks

/-- What a caller is after, and how long it may wait for it. -/
inductive Goal where
  /-- Waits as long as it takes, and keeps what it has taken whatever comes. -/
  | hold
  /-- One resource, within the timeout. -/
  | attempt (timeout : Nat)
  /-- All resources or none. -/
  | allOrNone (timeout : Nat) (spending : GroupTimeout) (detailed : Bool)
  deriving DecidableEq

namespace Goal

/-- How long a wait that starts `now` may last, in a call that began at `began`. A deadline that the
clock cannot show leaves the whole timeout to each wait. -/
def budget (began now : Nat) : Goal → Option Nat
  | hold => none
  | attempt timeout => some timeout
  | allOrNone timeout .perMember _ => some timeout
  | allOrNone timeout .sharedBudget _ =>
    match Instant.after? began timeout with
    | some deadline => some (deadline - now)
    | none => some timeout

/-- The answer when every resource has been taken. -/
def success : Goal → Answer
  | hold => .done
  | attempt _ => .flag true
  | allOrNone _ _ true => .outcome .acquired
  | allOrNone _ _ false => .flag GroupOutcome.acquired.isAcquired

/-- The answer when `failed` could not be had and `released` were given back. -/
def failure (failed : ResourceId) (released : List ResourceId) : Goal → Answer
  | allOrNone _ _ true => .outcome (.rolledBack failed released)
  | allOrNone _ _ false => .flag (GroupOutcome.rolledBack failed released).isAcquired
  | _ => .flag false

end Goal

inductive Stage where
  /-- About to queue for the next resource. -/
  | next
  /-- Queued for `id`, until the deadline if there is one. -/
  | waiting (id : ResourceId) (ticket : Nat) (budget deadline : Option Nat)
  /-- Giving back what it took because `failed` was not to be had; `left` is still to be given back,
  `error` is the first failure. -/
  | undoing (failed : ResourceId) (left : List (ResourceId × Nat)) (error : Option LockError)
  deriving DecidableEq

/-- A call that asks for permits and has not been answered. -/
structure Caller where
  /-- The type as it was registered when the call began. -/
  type : ResourceType
  party : Party
  goal : Goal
  began : Nat
  /-- Resources it has not come to yet, in order. -/
  rest : List ResourceId
  /-- Resources taken, with the serial of the permit. -/
  taken : List (ResourceId × Nat)
  stage : Stage
  deriving DecidableEq

namespace Caller

def keyOf (c : Caller) (id : ResourceId) : Key := (c.type.name, id)

def eventOf (c : Caller) (id : ResourceId) : LockEvent := ⟨c.type.name, id, c.party.listed⟩

/-- Counts the moves that are left to the caller, at most, but for those by which it goes back to
sleep. -/
def work (c : Caller) : Nat :=
  match c.stage with
  | .next => 3 * c.rest.length + c.taken.length + 2
  | .waiting _ _ _ _ => 3 * c.rest.length + c.taken.length + 4
  | .undoing _ left _ => left.length + 1

def deadline? (c : Caller) : Option Nat :=
  match c.stage with
  | .waiting _ _ _ deadline => deadline
  | _ => none

end Caller

structure Listener where
  id : CallId
  /-- The name of the events it is told of. -/
  event : String
  deriving DecidableEq

structure Service where
  registry : Registry
  slots : Dict Key Slot
  groupTimeout : GroupTimeout
  listeners : List Listener
  /-- Somebody has listened, be it that nobody does any more. -/
  listening : Bool
  callers : Dict CallId Caller
  clock : Nat
  deriving DecidableEq

structure Turn where
  service : Service
  /-- What happened, oldest first. -/
  facts : List Fact

namespace Turn

def andThen (t : Turn) (f : Service → Turn) : Turn :=
  let u := f t.service
  ⟨u.service, t.facts ++ u.facts⟩

end Turn

namespace Service

def empty : Service where
  registry := Registry.empty
  slots := ∅
  groupTimeout := .perMember
  listeners := []
  listening := false
  callers := ∅
  clock := 0

/-- Nothing happens. -/
def rest (s : Service) : Turn := ⟨s, []⟩

/-- The caller stands in a queue and is awake. -/
def isAwake (s : Service) (c : Caller) : Bool :=
  match c.stage with
  | .waiting id ticket _ _ => (s.slots.get? (c.keyOf id)).any fun slot =>
    decide (ticket ∈ slot.awake)
  | _ => false

/-- Counts the moves that are left to all callers together, at most. A move may wake every caller,
and each of them may go back to sleep. -/
def work (s : Service) : Nat :=
  s.callers.total Caller.work * (s.callers.size + 1) +
    (s.callers.filter fun _ c => s.isAwake c).size

/-- Tells every listener that is registered under the name of the event. As long as nobody has
listened there is nobody to look for. -/
def announce (s : Service) (call : CallId) (kind : EventKind) (event : LockEvent) : List Fact :=
  if s.listening then
    (s.listeners.filter fun l => l.event = kind.name).map fun l =>
      ⟨call, .announced l.id kind event⟩
  else []

/-- Answers the call, which is then no longer at work. -/
def finish (s : Service) (call : CallId) (reply : Reply) : Turn :=
  ⟨{ s with callers := s.callers.erase call }, [⟨call, .answered reply⟩]⟩

end Service

end FairLocks
