import FairLocks.ResourceType

/-!
# Slots

A slot is the lock state of one resource: its free permits, the permits that are out in the order
they were granted, and the queue of callers. Callers queue by ticket, and only the head of the queue
may take a permit. Whoever cannot take one sleeps. Sleepers are woken all at once, in three places:
when a caller leaves the queue, when a permit is taken and the next caller may take another, and
when a permit is returned and somebody waits. A slot keeps the key, the capacity and the sharing
mode it was made with.
-/
namespace FairLocks

/-- The number of a call. A session gives each of its calls a number of its own. -/
abbrev CallId := Nat

structure Holding where
  serial : Nat
  owners : OwnerSet
  /-- The call the permit was granted to. No operation of the library looks at it. -/
  grantee : CallId
  deriving DecidableEq

structure Slot where
  /-- The resource: the name of its type, and its number. -/
  key : Key
  capacity : Nat
  sharingMode : SharingMode
  /-- Permits that are not out. -/
  available : Nat
  /-- Permits that are out, oldest first. -/
  holdings : List Holding
  nextSerial : Nat
  /-- Tickets of the waiting callers, in the order of their arrival. -/
  queue : List Nat
  nextTicket : Nat
  /-- Tickets whose callers are awake: they were woken and have not found out yet that they must
  wait on. The callers of the other tickets sleep. -/
  awake : List Nat
  deriving DecidableEq

namespace Slot

/-- The slot that the resource `id` of type `t` starts with: all permits free and nobody waiting. -/
def fresh (t : ResourceType) (id : ResourceId) : Slot where
  key := (t.name, id)
  capacity := t.capacity
  sharingMode := t.sharingMode
  available := t.capacity
  holdings := []
  nextSerial := 0
  queue := []
  nextTicket := 0
  awake := []

/-- Draws the next ticket and puts it at the end of the queue. Its caller stays awake only if there
is a permit for it. -/
def enqueue (s : Slot) : Nat × Slot :=
  (s.nextTicket, { s with
    queue := s.queue ++ [s.nextTicket]
    nextTicket := s.nextTicket + 1
    awake := if 0 < s.available ∧ s.queue = [] then s.awake ++ [s.nextTicket] else s.awake })

/-- A permit is free and the ticket is at the head of the queue. -/
def Serves (s : Slot) (ticket : Nat) : Prop := 0 < s.available ∧ s.queue.head? = some ticket

instance (s : Slot) (ticket : Nat) : Decidable (s.Serves ticket) :=
  inferInstanceAs (Decidable (_ ∧ _))

/-- Wakes everyone who stands in the queue, if the condition holds. -/
def wakeIf (s : Slot) (p : Prop) [Decidable p] : Slot :=
  { s with awake := if p then s.queue else s.awake }

/-- The caller with the ticket goes back to sleep. -/
def doze (s : Slot) (ticket : Nat) : Slot := { s with awake := s.awake.filter (· ≠ ticket) }

/-- Gives a permit to the head of the queue. If another is free and somebody waits, the next caller
may proceed. -/
def grant (s : Slot) (owners : OwnerSet) (grantee : CallId) : Holding × Slot :=
  let holding : Holding := { serial := s.nextSerial, owners, grantee }
  let taken : Slot := { s with
    queue := s.queue.tail
    available := s.available - 1
    holdings := s.holdings ++ [holding]
    nextSerial := s.nextSerial + 1
    awake := s.awake.filter (s.queue.head? ≠ some ·) }
  (holding, taken.wakeIf (0 < taken.available ∧ taken.queue ≠ []))

/-- Takes a ticket out of the queue, wherever it stands. The head may be another one then. -/
def leave (s : Slot) (ticket : Nat) : Slot :=
  let left : Slot := { s with queue := s.queue.filter (· ≠ ticket) }
  left.wakeIf True

/-- Returns the oldest permit that satisfies `p`. If somebody waits, there is a permit for the head
of the queue now. -/
def release? (s : Slot) (p : Holding → Bool) : Option (Holding × Slot) :=
  match s.holdings.find? p with
  | none => none
  | some holding =>
    let returned : Slot := { s with
      holdings := s.holdings.eraseP p
      available := min (s.available + 1) s.capacity }
    some (holding, returned.wakeIf (s.queue ≠ []))

/-- No permit is out and nobody waits. -/
def Idle (s : Slot) : Prop := s.available = s.capacity ∧ s.holdings = [] ∧ s.queue = []

instance (s : Slot) : Decidable s.Idle := inferInstanceAs (Decidable (_ ∧ _ ∧ _))

/-- Everyone who holds a permit. -/
def owners (s : Slot) : OwnerSet := OwnerSet.union (s.holdings.map Holding.owners)

end Slot

inductive SlotPhase where
  | free
  | partiallyHeld
  | full
  deriving DecidableEq

def SlotPhase.name : SlotPhase → String
  | .free => "free"
  | .partiallyHeld => "partially_held"
  | .full => "full"

/-- What an inspection shows of a slot. A state that was read from a text may be any combination. -/
structure SlotState where
  typeName : String
  resourceId : ResourceId
  sharingMode : SharingMode
  capacity : Nat
  available : Nat
  /-- Everyone who holds a permit, ascending. -/
  owners : List OwnerId
  /-- The owners of each permit that is out, oldest first. -/
  holders : List (List OwnerId)
  /-- How many callers wait. -/
  waiting : Nat
  deriving DecidableEq

namespace SlotState

/-- How many permits are out, unless more are said to be free than there are. -/
def held? (s : SlotState) : Option Nat :=
  if s.available ≤ s.capacity then some (s.capacity - s.available) else none

def phase (s : SlotState) : SlotPhase :=
  if s.available = s.capacity then .free
  else if s.available = 0 then .full
  else .partiallyHeld

end SlotState

def Slot.state (s : Slot) : SlotState where
  typeName := s.key.1
  resourceId := s.key.2
  sharingMode := s.sharingMode
  capacity := s.capacity
  available := s.available
  owners := s.owners.toList
  holders := s.holdings.map fun h => h.owners.toList
  waiting := s.queue.length

end FairLocks
