import FairLocks.Service.Move

/-!
# Requests to a service

`submit` hands a request to a service. A request that asks for no permit is answered at once. One
that asks for permits is checked at once, against the type as it is registered now, and then becomes
a caller with all its moves still to come. The checks come in a fixed order: the type is known, its
permits are owned in the way of the operation, and a group names an owner.
-/
namespace FairLocks.Service

def answer (s : Service) (call : CallId) (reply : Reply) : Turn := ⟨s, [⟨call, .answered reply⟩]⟩

def resolveFor (s : Service) (typeName : String) (party : Party) : Except LockError ResourceType :=
  match s.registry.resolve typeName with
  | .error e => .error e
  | .ok t =>
    match t.requireMode party.mode with
    | .error e => .error e
    | .ok () => if party.listed = [] then .error (.noOwners typeName) else .ok t

def createType (s : Service) (call : CallId) (t : ResourceType) : Turn :=
  match s.registry.register t with
  | .error e => s.answer call (.error e)
  | .ok (registry, previous) =>
    ⟨{ s with registry }, [⟨call, .registered t previous⟩, ⟨call, .answered (.ok .done)⟩]⟩

/-- Lets a call for permits start, if its checks pass. -/
def engage (s : Service) (call : CallId) (typeName : String) (ids : List ResourceId) (party : Party)
    (goal : Goal) : Turn :=
  match s.resolveFor typeName party with
  | .error e => s.answer call (.error e)
  | .ok type =>
    let c : Caller :=
      { type, party, goal, began := s.clock, rest := distinct ids, taken := [], stage := .next }
    ⟨{ s with callers := s.callers.insert call c }, []⟩

/-- Gives back one permit on each resource in turn; the first failure ends it. Others may act in
between; that this can be taken as one action is proved in `Proofs.Interleaved`. -/
def giveBackAll (s : Service) (call : CallId) (typeName : String) (party : Party) :
    List ResourceId → Turn
  | [] => s.answer call (.ok .done)
  | id :: ids =>
    match s.giveBack call (typeName, id) party fun h => party.Holds h with
    | .error e => s.answer call (.error e)
    | .ok t => t.andThen fun s => s.giveBackAll call typeName party ids

def unlockAll (s : Service) (call : CallId) (typeName : String) (ids : List ResourceId)
    (party : Party) : Turn :=
  match s.resolveFor typeName party with
  | .error e => s.answer call (.error e)
  | .ok _ => s.giveBackAll call typeName party (distinct ids)

def slotState (s : Service) (key : Key) : Except LockError SlotState :=
  match s.registry.resolve key.1 with
  | .error e => .error e
  | .ok _ =>
    match s.slots.get? key with
    | none => .error (.neverLocked key)
    | some slot => .ok slot.state

/-- A permit on the resource is out. A resource that was never locked is not locked. -/
def isLocked (s : Service) (key : Key) : Except LockError Bool :=
  match s.slotState key with
  | .ok state => .ok (state.held?.any (0 < ·))
  | .error (.neverLocked _) => .ok false
  | .error e => .error e

/-- Drops the slots that are idle. -/
def evictIdle (s : Service) (call : CallId) : Turn :=
  let idle := s.slots.filter fun _ slot => decide slot.Idle
  let slots := s.slots.filter fun _ slot => !decide slot.Idle
  ⟨{ s with slots },
    [⟨call, .evicted idle.keys slots.size⟩, ⟨call, .answered (.ok (.count idle.size))⟩]⟩

def listen (s : Service) (call : CallId) (event : String) : Turn :=
  let listeners := s.listeners ++ [{ id := call, event }]
  answer { s with listeners, listening := true } call (.ok (.listener call))

def removeListener (s : Service) (call : CallId) (listener : CallId) : Turn :=
  answer { s with listeners := s.listeners.filter (·.id ≠ listener) } call
    (.ok (.flag (s.listeners.any (·.id = listener))))

def submit (s : Service) (call : CallId) : Request → Turn
  | .createType t => s.createType call t
  | .findType name => s.answer call ((s.registry.resolve name).map .type)
  | .typeNames => s.answer call (.ok (.names s.registry.names))
  | .groupTimeout => s.answer call (.ok (.groupTimeout s.groupTimeout))
  | .lock t id party => s.engage call t [id] party .hold
  | .lockMany t ids party => s.engage call t ids party .hold
  | .unlock t id party => s.unlockAll call t [id] party
  | .unlockMany t ids party => s.unlockAll call t ids party
  | .tryLock t id party timeout => s.engage call t [id] party (.attempt timeout)
  | .tryLockMany t ids party timeout =>
    s.engage call t ids party (.allOrNone timeout s.groupTimeout false)
  | .tryLockManyDetailed t ids party timeout =>
    s.engage call t ids party (.allOrNone timeout s.groupTimeout true)
  | .slotState key => s.answer call ((s.slotState key).map .state)
  | .isLocked key => s.answer call ((s.isLocked key).map .flag)
  | .slotCount => s.answer call (.ok (.count s.slots.size))
  | .evictIdle => s.evictIdle call
  | .listen event => s.listen call event
  | .removeListener listener => s.removeListener call listener

end FairLocks.Service
