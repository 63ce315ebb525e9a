import FairLocks.Service.Basic

/-!
# Moves

A caller moves by drawing a ticket for its next resource, by taking a permit, by giving up a wait
whose deadline has passed, or by giving back one resource of a failed group call. A caller that
stands in a queue sleeps, and has no move before it is woken or its deadline has passed. If it can
neither be served nor give up then, its move is to go back to sleep. Each move is one atomic change
of one slot.
-/
namespace FairLocks.Service

/-- The head of the queue takes a permit and goes on to the next resource. -/
def serve (s : Service) (call : CallId) (c : Caller) (id : ResourceId) (ticket : Nat)
    (budget : Option Nat) (slot : Slot) : Turn :=
  let (holding, slot) := slot.grant c.party.owners call
  let c' := { c with taken := c.taken ++ [(id, holding.serial)], stage := .next }
  ⟨{ s with
      slots := s.slots.insert (c.keyOf id) slot
      callers := s.callers.insert call c' },
    ⟨call, .granted (c.keyOf id) ticket holding c.party budget⟩ ::
      s.announce call .locked (c.eventOf id)⟩

/-- The slot of a resource, made if there is none, and the fact that it was made. -/
def slotFor (s : Service) (call : CallId) (t : ResourceType) (id : ResourceId) : Slot × List Fact :=
  match s.slots.get? (t.name, id) with
  | some slot => (slot, [])
  | none => (Slot.fresh t id, [⟨call, .opened (t.name, id) (Slot.fresh t id)⟩])

/-- Draws a ticket for a resource. A caller that can be served at once is; otherwise it waits. -/
def enter (s : Service) (call : CallId) (c : Caller) (id : ResourceId) : Turn :=
  let (found, made) := s.slotFor call c.type id
  let (ticket, slot) := found.enqueue
  let budget := c.goal.budget c.began s.clock
  let ahead := found.queue.length
  if slot.Serves ticket then
    let t := s.serve call c id ticket budget slot
    ⟨t.service, made ++ ⟨call, .queued (c.keyOf id) ticket ahead false⟩ :: t.facts⟩
  else
    let deadline := budget.bind (Instant.after? s.clock)
    ⟨{ s with
        slots := s.slots.insert (c.keyOf id) slot
        callers := s.callers.insert call { c with stage := .waiting id ticket budget deadline } },
      made ++ [⟨call, .queued (c.keyOf id) ticket ahead true⟩]⟩

/-- Leaves the queue. A group call goes on to give back what it took; a single call is answered. -/
def giveUp (s : Service) (call : CallId) (c : Caller) (id : ResourceId) (ticket : Nat)
    (budget : Option Nat) (slot : Slot) : Turn :=
  let s := { s with slots := s.slots.insert (c.keyOf id) (slot.leave ticket) }
  let t : Turn :=
    match c.goal with
    | .allOrNone _ _ _ =>
      ⟨{ s with callers := s.callers.insert call { c with stage := .undoing id c.taken none } }, []⟩
    | goal => s.finish call (.ok (goal.failure id []))
  ⟨t.service, ⟨call, .gaveUp (c.keyOf id) ticket c.party budget⟩ :: t.facts⟩

/-- Goes back to sleep. -/
def doze (s : Service) (c : Caller) (id : ResourceId) (ticket : Nat) (slot : Slot) : Turn :=
  ⟨{ s with slots := s.slots.insert (c.keyOf id) (slot.doze ticket) }, []⟩

/-- The move of a caller that stands in a queue, if it is awake or its deadline has passed. A permit
that can be taken is taken even when the deadline has passed. -/
def resume (s : Service) (call : CallId) (c : Caller) (id : ResourceId) (ticket : Nat)
    (budget deadline : Option Nat) : Option Turn :=
  match s.slots.get? (c.keyOf id) with
  | none => none
  | some slot =>
    let late := deadline.any (· ≤ s.clock)
    if ticket ∈ slot.awake ∨ late then
      if slot.Serves ticket then some (s.serve call c id ticket budget slot)
      else if late then some (s.giveUp call c id ticket budget slot)
      else some (s.doze c id ticket slot)
    else none

/-- Returns the oldest permit on the resource that satisfies `p`, in the name of `party`. -/
def giveBack (s : Service) (call : CallId) (key : Key) (party : Party) (p : Holding → Bool) :
    Except LockError Turn :=
  match s.slots.get? key with
  | none => .error (.neverLocked key)
  | some slot =>
    match slot.release? p with
    | none => .error (.notOwner slot.key party.listed)
    | some (holding, slot) =>
      .ok ⟨{ s with slots := s.slots.insert key slot },
        ⟨call, .returned key holding party⟩ ::
          s.announce call .unlocked ⟨key.1, key.2, party.listed⟩⟩

/-- Gives back one resource of a failed group call, by the serial of the permit it was granted. A
member that cannot be given back does not keep the others from being tried. -/
def undo (s : Service) (call : CallId) (c : Caller) (failed : ResourceId)
    (member : ResourceId × Nat)
    (left : List (ResourceId × Nat)) (error : Option LockError) : Turn :=
  let key := c.keyOf member.1
  match s.giveBack call key c.party fun h => h.serial = member.2 with
  | .ok t =>
    let callers := t.service.callers.insert call { c with stage := .undoing failed left error }
    ⟨{ t.service with callers }, t.facts⟩
  | .error e =>
    let error := error <|> some e
    let callers := s.callers.insert call { c with stage := .undoing failed left error }
    ⟨{ s with callers }, [⟨call, .notReturned key e⟩]⟩

/-- The end of a failed group call: the first failure to give something back is reported, or else
that the call was rolled back. -/
def undone (s : Service) (call : CallId) (c : Caller) (failed : ResourceId)
    (error : Option LockError) : Turn :=
  match error with
  | some e => s.finish call (.error e)
  | none =>
    let released := c.taken.map Prod.fst
    let t := s.finish call (.ok (c.goal.failure failed released))
    ⟨t.service, ⟨call, .rolledBack c.type.name failed released c.party⟩ ::
      s.announce call .rolledBack (c.eventOf failed) ++ t.facts⟩

/-- The next move of a call, if it has one. -/
def move (s : Service) (call : CallId) : Option Turn :=
  match s.callers.get? call with
  | none => none
  | some c =>
    match c.stage, c.rest with
    | .next, [] => some (s.finish call (.ok c.goal.success))
    | .next, id :: rest => some (s.enter call { c with rest } id)
    | .waiting id ticket budget deadline, _ => s.resume call c id ticket budget deadline
    | .undoing failed (member :: left) error, _ => some (s.undo call c failed member left error)
    | .undoing failed [] error, _ => some (s.undone call c failed error)

end FairLocks.Service
