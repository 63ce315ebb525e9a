import FairLocks.Proofs.Registrations
import FairLocks.Proofs.Sessions
import FairLocks.Proofs.Undrawn
import FairLocks.Proofs.Waiting
import FairLocks.Service.Progress

/-!
# Owners in order, ids once

A request is in normal form if it lists each owner and each id once, the owners ascending. A service
does with a request what it does with its normal form: a permit is held by a set of owners, whoever
is asked for is looked for in a list, and the ids are gone through without their repetitions. So
whatever is done to a service can be done in normal form, and what happens then is the normal form
of what happens.
-/
namespace FairLocks

set_option autoImplicit false

/-- The owners of the list in ascending order, each once. -/
def ordered (os : List OwnerId) : List OwnerId := (OwnerSet.ofList os).toList

def Party.normal : Party → Party
  | owner o => owner o
  | group os => group (ordered os)

def LockError.normal : LockError → LockError
  | notOwner key owners => notOwner key (ordered owners)
  | e => e

def LockEvent.normal (e : LockEvent) : LockEvent := { e with owners := ordered e.owners }

def Reply.normal (reply : Reply) : Reply := reply.mapError LockError.normal

def Deed.normal : Deed → Deed
  | granted key ticket holding party budget => granted key ticket holding party.normal budget
  | gaveUp key ticket party budget => gaveUp key ticket party.normal budget
  | returned key holding party => returned key holding party.normal
  | notReturned key e => notReturned key e.normal
  | rolledBack typeName failed released party => rolledBack typeName failed released party.normal
  | announced listener kind event => announced listener kind event.normal
  | answered reply => answered (Reply.normal reply)
  | deed => deed

/-- The fact with its owners listed in order. -/
def Fact.normal (f : Fact) : Fact := { f with deed := f.deed.normal }

def Stage.normal : Stage → Stage
  | undoing failed left error => undoing failed left (error.map LockError.normal)
  | stage => stage

def Caller.normal (c : Caller) : Caller :=
  { c with party := c.party.normal, stage := c.stage.normal }

/-- The service with the owners of its callers listed in order. -/
def Service.normal (s : Service) : Service :=
  { s with callers := s.callers.map fun _ c => c.normal }

def Turn.normal (t : Turn) : Turn := ⟨t.service.normal, t.facts.map Fact.normal⟩

def Request.normal : Request → Request
  | lock typeName id party => lock typeName id party.normal
  | lockMany typeName ids party => lockMany typeName (distinct ids) party.normal
  | unlock typeName id party => unlock typeName id party.normal
  | unlockMany typeName ids party => unlockMany typeName (distinct ids) party.normal
  | tryLock typeName id party timeout => tryLock typeName id party.normal timeout
  | tryLockMany typeName ids party timeout =>
    tryLockMany typeName (distinct ids) party.normal timeout
  | tryLockManyDetailed typeName ids party timeout =>
    tryLockManyDetailed typeName (distinct ids) party.normal timeout
  | request => request

def Action.normal : Action → Action
  | submit call request => submit call request.normal
  | a => a

def Command.normal : Command → Command
  | .call request => .call request.normal
  | .await request => .await request.normal
  | .burst requests => .burst (requests.map fun r => (r.1, r.2.normal))
  | command => command

@[simp] theorem mem_ordered {o : OwnerId} {os : List OwnerId} : o ∈ ordered os ↔ o ∈ os :=
  OwnerSet.mem_ofList

theorem ordered_eq_nil_iff {os : List OwnerId} : ordered os = [] ↔ os = [] := by
  simp only [List.eq_nil_iff_forall_not_mem, mem_ordered]

/-- Ids that are not repeated are left as they are. -/
theorem distinct_of_nodup {ids : List ResourceId} (h : ids.Nodup) : distinct ids = ids := by
  have hgo (seen : List ResourceId) (hseen : ∀ id ∈ ids, id ∉ seen) : distinct.go seen ids =
      ids := by
    induction ids generalizing seen with
    | nil => rfl
    | cons id ids ih =>
      obtain ⟨hid, hids⟩ := List.nodup_cons.1 h
      rw [distinct.go, if_neg (hseen id List.mem_cons_self), ih hids]
      intro id' hid' hmem
      rcases List.mem_cons.1 hmem with rfl | hmem
      · exact hid hid'
      · exact hseen id' (List.mem_cons_of_mem _ hid') hmem
  exact hgo [] fun _ _ => List.not_mem_nil

theorem distinct_distinct (ids : List ResourceId) : distinct (distinct ids) = distinct ids :=
  distinct_of_nodup (nodup_distinct ids)

namespace Party

@[simp] theorem listed_normal (party : Party) : party.normal.listed = ordered party.listed := by
  cases party <;> rfl

@[simp] theorem mode_normal (party : Party) : party.normal.mode = party.mode := by
  cases party <;> rfl

@[simp] theorem owners_normal (party : Party) : party.normal.owners = party.owners := by
  ext o
  simp [owners]

theorem holds_normal (party : Party) (g : Holding) : party.normal.Holds g ↔ party.Holds g := by
  simp [Holds]

end Party

@[simp] theorem Caller.eventOf_normal (c : Caller) (id : ResourceId) :
    c.normal.eventOf id = (c.eventOf id).normal := by
  simp [eventOf, LockEvent.normal, Caller.normal]

@[simp] theorem Caller.work_normal (c : Caller) : c.normal.work = c.work := by
  unfold work Caller.normal
  cases c.stage <;> rfl

@[simp] theorem Caller.deadline?_normal (c : Caller) : c.normal.deadline? = c.deadline? := by
  unfold deadline? Caller.normal
  cases c.stage <;> rfl

@[simp] theorem Caller.waits?_normal (c : Caller) : c.normal.waits? = c.waits? := by
  unfold waits? Caller.normal
  cases c.stage <;> rfl

namespace Dict

variable {κ α β : Type}

/-- What is read off the values and is kept by `f` is read off the values of the map. -/
theorem map_values {f : κ → α → α} {g : α → β} (h : ∀ k a, g (f k a) = g a) (d : Dict κ α) :
    (d.map f).entries.map (fun e => g e.2) = d.entries.map fun e => g e.2 := by
  simp only [map, List.map_map]
  exact List.map_congr_left fun e _ => h e.1 e.2

end Dict

theorem Turn.normal_andThen (t : Turn) {f g : Service → Turn} (h : ∀ s, (f s).normal = g s.normal) :
    (t.andThen f).normal = t.normal.andThen g := by
  have hmore := h t.service
  unfold andThen
  simp only [normal, ← h, List.map_append]

namespace Service

variable {s : Service} {call : CallId} {c : Caller}

@[simp] theorem get?_callers_normal (s : Service) (call : CallId) :
    s.normal.callers.get? call = (s.callers.get? call).map Caller.normal :=
  Dict.get?_map _ _ _

/-- What is read off a caller whatever the order of its owners is read off its normal form. -/
theorem bind_callers_normal {β : Type} {g : Caller → Option β} (hg : ∀ c, g c.normal = g c)
    (s : Service)
    (call : CallId) : (s.normal.callers.get? call).bind g = (s.callers.get? call).bind g := by
  rw [get?_callers_normal]
  cases s.callers.get? call with
  | none => rfl
  | some c => exact hg c

theorem normal_insert (s : Service) (slots : Dict Key Slot) (call : CallId) (c : Caller) :
    { s with slots, callers := s.callers.insert call c }.normal =
      { s.normal with slots, callers := s.normal.callers.insert call c.normal } := by
  simp only [normal, Dict.map_insert]

theorem normal_erase (s : Service) (slots : Dict Key Slot) (call : CallId) :
    { s with slots, callers := s.callers.erase call }.normal =
      { s.normal with slots, callers := s.normal.callers.erase call } := by
  simp only [normal, Dict.erase_map]

theorem announce_normal (s : Service) (call : CallId) (kind : EventKind) (event : LockEvent) :
    (s.announce call kind event).map Fact.normal = s.normal.announce call kind event.normal := by
  unfold announce
  split <;> rename_i hlistening
  · rw [if_pos (show s.normal.listening = true from hlistening), List.map_map]
    rfl
  · rw [if_neg (show ¬ s.normal.listening = true from hlistening)]
    rfl

theorem finish_normal (s : Service) (call : CallId) (reply : Reply) :
    (s.finish call reply).normal = s.normal.finish call (Reply.normal reply) := by
  unfold Turn.normal finish
  rw [normal_erase]
  rfl

theorem serve_normal (s : Service) (call : CallId) (c : Caller) (id : ResourceId) (ticket : Nat)
    (budget : Option Nat) (slot : Slot) :
    (s.serve call c id ticket budget slot).normal =
      s.normal.serve call c.normal id ticket budget slot := by
  have hgrant : slot.grant c.normal.party.owners call = slot.grant c.party.owners call := by
    rw [show c.normal.party.owners = c.party.owners from c.party.owners_normal]
  simp only [serve, Turn.normal, normal_insert, List.map_cons, announce_normal,
    Caller.eventOf_normal, hgrant]
  rfl

theorem slotFor_normal (s : Service) (call : CallId) (t : ResourceType) (id : ResourceId) :
    (s.slotFor call t id).2.map Fact.normal = (s.slotFor call t id).2 := by
  unfold slotFor
  split <;> rfl

theorem enter_normal (s : Service) (call : CallId) (c : Caller) (id : ResourceId) :
    (s.enter call c id).normal = s.normal.enter call c.normal id := by
  have hfound : s.normal.slotFor call c.normal.type id = s.slotFor call c.type id := rfl
  simp only [enter, hfound]
  split
  · have hserve := s.serve_normal call c id (s.slotFor call c.type id).1.enqueue.1
      (c.goal.budget c.began s.clock) (s.slotFor call c.type id).1.enqueue.2
    have hfacts := congrArg Turn.facts hserve
    have hservice := congrArg Turn.service hserve
    simp only [Turn.normal] at hfacts hservice
    simp only [Turn.normal, List.map_append, List.map_cons, slotFor_normal, hfacts, hservice]
    rfl
  · simp only [Turn.normal, normal_insert, List.map_append, slotFor_normal]
    rfl

theorem giveUp_normal (s : Service) (call : CallId) (c : Caller) (id : ResourceId) (ticket : Nat)
    (budget : Option Nat) (slot : Slot) :
    (s.giveUp call c id ticket budget slot).normal =
      s.normal.giveUp call c.normal id ticket budget slot := by
  have hgoal : c.normal.goal = c.goal := rfl
  simp only [giveUp, hgoal]
  split
  · simp only [Turn.normal, normal_insert]
    rfl
  · simp only [Turn.normal, finish, normal_erase]
    rfl

/-- What is given back does not depend on how its owners are listed. -/
theorem giveBack_normal (s : Service) (call : CallId) (key : Key) (party : Party)
    (p : Holding → Bool) :
    s.normal.giveBack call key party.normal p =
      ((s.giveBack call key party p).map Turn.normal).mapError LockError.normal := by
  have hslots : s.normal.slots = s.slots := rfl
  unfold giveBack
  rw [hslots, Party.listed_normal]
  cases s.slots.get? key with
  | none => rfl
  | some slot =>
    cases hrelease : slot.release? p with
    | none =>
      simp only [hrelease]
      rfl
    | some r =>
      simp only [hrelease, Except.map, Except.mapError, Turn.normal, List.map_cons, announce_normal]
      rfl

theorem undo_normal (s : Service) (call : CallId) (c : Caller) (failed : ResourceId)
    (member : ResourceId × Nat) (left : List (ResourceId × Nat)) (error : Option LockError) :
    (s.undo call c failed member left error).normal =
      s.normal.undo call c.normal failed member left (error.map LockError.normal) := by
  have hback := s.giveBack_normal call (c.keyOf member.1) c.party fun g => g.serial = member.2
  have hkey : c.normal.keyOf member.1 = c.keyOf member.1 := rfl
  have hparty : c.normal.party = c.party.normal := rfl
  unfold undo
  simp only [hkey, hparty, hback]
  cases s.giveBack call (c.keyOf member.1) c.party fun g => g.serial = member.2 with
  | ok t =>
    simp only [Except.map, Except.mapError, Turn.normal, normal_insert]
    rfl
  | error e =>
    simp only [Except.map, Except.mapError, Turn.normal, normal_insert]
    cases error <;> rfl

theorem undone_normal (s : Service) (call : CallId) (c : Caller) (failed : ResourceId)
    (error : Option LockError) :
    (s.undone call c failed error).normal = s.normal.undone call c.normal failed
      (error.map LockError.normal) := by
  cases error with
  | some e => exact s.finish_normal call (.error e)
  | none =>
    simp only [undone, Option.map_none, Turn.normal, List.cons_append, List.map_cons,
      List.map_append, announce_normal, Caller.eventOf_normal]
    simp only [finish, normal_erase]
    rfl

theorem doze_normal (s : Service) (c : Caller) (id : ResourceId) (ticket : Nat) (slot : Slot) :
    (s.doze c id ticket slot).normal = s.normal.doze c.normal id ticket slot := rfl

theorem resume_normal (s : Service) (call : CallId) (c : Caller) (id : ResourceId) (ticket : Nat)
    (budget deadline : Option Nat) :
    (s.resume call c id ticket budget deadline).map Turn.normal =
      s.normal.resume call c.normal id ticket budget deadline := by
  have hslots : s.normal.slots = s.slots := rfl
  have hkey : c.normal.keyOf id = c.keyOf id := rfl
  have hclock : s.normal.clock = s.clock := rfl
  simp only [resume, hslots, hkey, hclock]
  split
  · rfl
  · split
    · split
      · rw [Option.map_some, serve_normal]
      · split
        · rw [Option.map_some, giveUp_normal]
        · rw [Option.map_some, doze_normal]
    · rfl

/-- A move in normal form is the normal form of the move. -/
theorem move_normal (s : Service) (call : CallId) :
    (s.move call).map Turn.normal = s.normal.move call := by
  unfold move
  rw [get?_callers_normal]
  cases s.callers.get? call with
  | none => rfl
  | some c =>
    obtain ⟨type, party, goal, began, rest, taken, stage⟩ := c
    cases stage with
    | next =>
      cases rest with
      | nil => exact congrArg some (s.finish_normal call (.ok goal.success))
      | cons id rest => exact congrArg some (s.enter_normal call _ id)
    | waiting id ticket budget deadline => exact s.resume_normal call _ id ticket budget deadline
    | undoing failed left error =>
      cases left with
      | nil => exact congrArg some (s.undone_normal call _ failed error)
      | cons member left => exact congrArg some (s.undo_normal call _ failed member left error)

theorem answer_normal (s : Service) (call : CallId) (reply : Reply) :
    (s.answer call reply).normal = s.normal.answer call (Reply.normal reply) := rfl

/-- The checks look at the owners only to see that there are some. -/
theorem resolveFor_normal (s : Service) (typeName : String) (party : Party) :
    s.normal.resolveFor typeName party.normal = s.resolveFor typeName party := by
  have hregistry : s.normal.registry = s.registry := rfl
  unfold resolveFor
  simp only [hregistry, Party.mode_normal, Party.listed_normal, ordered_eq_nil_iff]

/-- The checks echo no owners. -/
theorem normal_of_resolveFor {typeName : String} {party : Party} {e : LockError}
    (h : s.resolveFor typeName party = .error e) : e.normal = e := by
  have hchecked := s.checked typeName party
  rw [h] at hchecked
  cases hchecked <;> rfl

theorem engage_normal (s : Service) (call : CallId) (typeName : String) (ids : List ResourceId)
    (party : Party) (goal : Goal) :
    (s.engage call typeName ids party goal).normal =
      s.normal.engage call typeName (distinct ids) party.normal goal := by
  unfold engage
  rw [resolveFor_normal]
  cases h : s.resolveFor typeName party with
  | error e =>
    simp only [answer_normal, Reply.normal, Except.mapError, normal_of_resolveFor h]
  | ok type =>
    simp only [distinct_distinct, Turn.normal, normal_insert]
    rfl

theorem giveBackAll_normal (s : Service) (call : CallId) (typeName : String) (party : Party)
    (ids : List ResourceId) :
    (s.giveBackAll call typeName party ids).normal =
      s.normal.giveBackAll call typeName party.normal ids := by
  induction ids generalizing s with
  | nil => rfl
  | cons id ids ih =>
    have hholds : (fun g => decide (party.normal.Holds g)) = fun g => decide (party.Holds g) :=
      funext fun g => decide_eq_decide.2 (party.holds_normal g)
    unfold giveBackAll
    rw [hholds, giveBack_normal]
    cases s.giveBack call (typeName, id) party fun g => decide (party.Holds g) with
    | error e => rfl
    | ok t => exact t.normal_andThen fun s => ih s

theorem unlockAll_normal (s : Service) (call : CallId) (typeName : String) (ids : List ResourceId)
    (party : Party) :
    (s.unlockAll call typeName ids party).normal =
      s.normal.unlockAll call typeName (distinct ids) party.normal := by
  unfold unlockAll
  rw [resolveFor_normal, distinct_distinct]
  cases h : s.resolveFor typeName party with
  | error e => simp only [answer_normal, Reply.normal, Except.mapError, normal_of_resolveFor h]
  | ok type => exact s.giveBackAll_normal call typeName party (distinct ids)

/-- No check but that of a return echoes owners. -/
theorem normal_of_resolve {r : Registry} {name : String} {e : LockError}
    (h : r.resolve name = .error e) :
    e.normal = e := by
  unfold Registry.resolve at h
  split at h
  · cases h
  · cases h
    rfl

theorem normal_of_slotState {key : Key} {e : LockError}
    (h : s.slotState key = .error e) : e.normal = e := by
  unfold slotState at h
  split at h
  · rename_i hresolve
    cases h
    exact normal_of_resolve hresolve
  · split at h
    · cases h
      rfl
    · cases h

theorem normal_of_isLocked {key : Key} {e : LockError} (h : s.isLocked key = .error e) :
    e.normal = e := by
  unfold isLocked at h
  split at h
  · cases h
  · cases h
  · rename_i hstate
    cases h
    exact normal_of_slotState hstate

/-- A reply that echoes no owners is in normal form. -/
theorem answer_normal_of {α : Type} {r : Except LockError α} (h : ∀ e, r = .error e → e.normal = e)
    (s : Service) (call : CallId) (f : α → Answer) :
    (s.answer call (r.map f)).normal = s.normal.answer call (r.map f) := by
  cases r with
  | ok a => rfl
  | error e => simp only [answer_normal, Except.map, Reply.normal, Except.mapError, h e rfl]

theorem createType_normal (s : Service) (call : CallId) (t : ResourceType) :
    (s.createType call t).normal = s.normal.createType call t := by
  have hregistry : s.normal.registry = s.registry := rfl
  unfold createType
  rw [hregistry]
  unfold Registry.register
  by_cases hcapacity : t.capacity = 0
  · simp only [if_pos hcapacity]
    rfl
  · simp only [if_neg hcapacity]
    rfl

/-- A request in normal form does the normal form of what it does. -/
theorem submit_normal (s : Service) (call : CallId) (request : Request) :
    (s.submit call request).normal = s.normal.submit call request.normal := by
  cases request with
  | lock | lockMany | tryLock | tryLockMany | tryLockManyDetailed => exact s.engage_normal _ _ _ _ _
  | unlock | unlockMany => exact s.unlockAll_normal _ _ _ _
  | slotState key => exact answer_normal_of (fun e => normal_of_slotState) s call _
  | isLocked key => exact answer_normal_of (fun e => normal_of_isLocked) s call _
  | findType name => exact answer_normal_of (fun e => normal_of_resolve) s call _
  | createType t => exact s.createType_normal call t
  | typeNames | groupTimeout | slotCount | evictIdle | listen | removeListener => rfl

theorem act_normal (s : Service) (a : Action) : (s.act a).normal = s.normal.act a.normal := by
  cases a with
  | submit call request => exact s.submit_normal call request
  | pass d => rfl
  | move call =>
    unfold act Action.normal
    simp only [← move_normal]
    cases s.move call <;> rfl

theorem run_normal (s : Service) (as : List Action) :
    (s.run as).normal = s.normal.run (as.map Action.normal) := by
  induction as generalizing s with
  | nil => rfl
  | cons a as ih =>
    rw [List.map_cons, run, run, ← act_normal]
    exact (s.act a).normal_andThen ih

theorem turns_normal (s : Service) (ass : List (List Action)) :
    (s.turns ass).map Turn.normal = s.normal.turns (ass.map (List.map Action.normal)) := by
  induction ass generalizing s with
  | nil => rfl
  | cons as ass ih =>
    rw [List.map_cons, turns, turns, List.map_cons, ← run_normal, ih]
    rfl

theorem firstMove_normal (s : Service) : s.firstMove.map Turn.normal = s.normal.firstMove := by
  have hkeys : s.normal.callers.keys = s.callers.keys := Dict.keys_map _ _
  unfold firstMove
  rw [hkeys, List.map_findSome?]
  congr 1
  funext call
  exact s.move_normal call

theorem isAwake_normal (s : Service) (c : Caller) : s.normal.isAwake c.normal = s.isAwake c := by
  unfold isAwake Caller.normal
  cases c.stage <;> rfl

theorem work_normal (s : Service) : s.normal.work = s.work := by
  refine work_congr ?_
  rw [show s.normal.callers = s.callers.map fun _ => Caller.normal from rfl, Dict.map, List.map_map]
  refine List.map_congr_left fun e _ => ?_
  simp only [Function.comp, Caller.work_normal, isAwake_normal]

theorem nextDeadline?_normal (s : Service) : s.normal.nextDeadline? = s.nextDeadline? :=
  nextDeadline?_congr (Dict.map_values (fun _ c => c.deadline?_normal) s.callers)

theorem settleWithin_normal (n : Nat) (s : Service) :
    (settleWithin n s).normal = settleWithin n s.normal := by
  induction n generalizing s with
  | zero => rfl
  | succ n ih =>
    unfold settleWithin
    rw [← firstMove_normal]
    cases s.firstMove with
    | none => rfl
    | some t => exact t.normal_andThen ih

theorem settle_normal (s : Service) : s.settle.normal = s.normal.settle := by
  unfold settle
  rw [work_normal]
  exact settleWithin_normal _ s

theorem driveWithin_normal (call : CallId) (n : Nat) (s : Service) :
    (driveWithin call n s).normal = driveWithin call n s.normal := by
  induction n generalizing s with
  | zero => rfl
  | succ n ih =>
    unfold driveWithin
    rw [← move_normal]
    cases s.move call with
    | none => rfl
    | some t => exact t.normal_andThen ih

theorem drive_normal (s : Service) (call : CallId) :
    (s.drive call).normal = s.normal.drive call := by
  unfold drive
  rw [work_normal]
  exact driveWithin_normal call _ s

theorem settleAt_normal (s : Service) (d : Nat) :
    (s.atInstant d).settle.normal = (s.normal.atInstant d).settle := settle_normal _

theorem advanceWithin_normal (instant n : Nat) (s : Service) :
    (advanceWithin instant n s).normal = advanceWithin instant n s.normal := by
  induction n generalizing s with
  | zero => rfl
  | succ n ih =>
    unfold advanceWithin
    rw [nextDeadline?_normal]
    split
    · rfl
    · split
      · rw [← settleAt_normal]
        exact Turn.normal_andThen _ ih
      · rfl

theorem advance_normal (s : Service) (duration : Nat) :
    (s.advance duration).normal = s.normal.advance duration := by
  unfold advance
  rw [work_normal]
  exact advanceWithin_normal _ _ s

theorem awaitWithin_normal (call : CallId) (n : Nat) (s : Service) :
    (awaitWithin call n s).normal = awaitWithin call n s.normal := by
  induction n generalizing s with
  | zero => rfl
  | succ n ih =>
    have hkeys : s.normal.callers.keys = s.callers.keys := Dict.keys_map _ _
    unfold awaitWithin
    rw [nextDeadline?_normal, hkeys]
    split
    · split
      · rfl
      · rw [← settleAt_normal]
        exact Turn.normal_andThen _ ih
    · rfl

theorem await_normal (s : Service) (call : CallId) :
    (s.await call).normal = s.normal.await call := by
  unfold await
  rw [work_normal]
  exact awaitWithin_normal call _ s

theorem start_normal (s : Service) (call : CallId) (request : Request) :
    (s.start call request).normal = s.normal.start call request.normal := by
  unfold start
  rw [← submit_normal]
  exact Turn.normal_andThen _ fun s => s.drive_normal call

theorem startAll_normal (s : Service) (requests : List (CallId × Request)) :
    (s.startAll requests).normal = s.normal.startAll (requests.map fun r => (r.1, r.2.normal)) := by
  induction requests generalizing s with
  | nil => rfl
  | cons r requests ih =>
    rw [List.map_cons, startAll, startAll, ← start_normal]
    exact Turn.normal_andThen _ ih

theorem perform_normal (s : Service) (call : CallId) (command : Command) :
    (s.perform call command).normal = s.normal.perform call command.normal := by
  cases command with
  | call request =>
    unfold perform Command.normal
    simp only [← start_normal]
    exact Turn.normal_andThen _ settle_normal
  | await request =>
    unfold perform Command.normal
    simp only [← start_normal, ← Turn.normal_andThen _ settle_normal]
    exact Turn.normal_andThen _ fun s => s.await_normal call
  | burst requests =>
    unfold perform Command.normal
    simp only [← startAll_normal]
    exact Turn.normal_andThen _ settle_normal
  | sleep duration => exact s.advance_normal duration
  | join call => exact s.await_normal call

/-- A session in normal form is the normal form of the session. -/
theorem session_normal (s : Service) (l : List (CallId × Command)) :
    (s.session l).map Turn.normal = s.normal.session (l.map fun x => (x.1, x.2.normal)) := by
  induction l generalizing s with
  | nil => rfl
  | cons x l ih =>
    rw [List.map_cons, session, session, List.map_cons, ih, ← perform_normal]
    rfl

end Service

end FairLocks
