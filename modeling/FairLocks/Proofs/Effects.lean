import FairLocks.Proofs.History
import FairLocks.Proofs.Visits
import FairLocks.Service.Progress

/-!
# What an action does

A request is read off its kind, as a move is off the stage of its caller. Each fact of an action
stands beside what the action found and the slots it leaves, so nobody who asks where a fact comes
from has to take an action apart again.
-/
namespace FairLocks

set_option autoImplicit false

variable {s : Service} {call : CallId} {c : Caller}

/-- A fact of an action, with what the action found and the slots that it leaves. -/
inductive Effect (s : Service) (call : CallId) (slots : Dict Key Slot) : Fact → Prop
  | registered (type : ResourceType) (previous : Option ResourceType) :
      Effect s call slots ⟨call, .registered type previous⟩
  | opened (key : Key) (slot : Slot) : Effect s call slots ⟨call, .opened key slot⟩
  | queued (key : Key) (ticket ahead : Nat) (waits : Bool) :
      Effect s call slots ⟨call, .queued key ticket ahead waits⟩
  | granted {c : Caller} {id : ResourceId} {ticket : Nat} {budget : Option Nat} {slot : Slot}
      (free : ((s.slots.get? (c.keyOf id)).map Slot.available).getD slot.capacity = slot.available)
      (serves : slot.Serves ticket)
      (left : slots.get? (c.keyOf id) = some (slot.grant c.party.owners call).2) :
      Effect s call slots
        ⟨call, .granted (c.keyOf id) ticket (slot.grant c.party.owners call).1 c.party budget⟩
  | gaveUp {c : Caller} {id : ResourceId} {ticket deadline : Nat} {budget : Option Nat}
      {slot : Slot} (working : s.callers.get? call = some c)
      (stage : c.stage = .waiting id ticket budget (some deadline))
      (found : s.slots.get? (c.keyOf id) = some slot) (waits : ¬ slot.Serves ticket)
      (late : deadline ≤ s.clock) (left : slots = s.slots.insert (c.keyOf id) (slot.leave ticket)) :
      Effect s call slots ⟨call, .gaveUp (c.keyOf id) ticket c.party budget⟩
  | returned {key : Key} {slot slot' : Slot} {p : Holding → Bool} {g : Holding} {party : Party}
      (found : s.slots.get? key = some slot) (released : slot.release? p = some (g, slot'))
      (left : slots.get? key = some slot') : Effect s call slots ⟨call, .returned key g party⟩
  | notReturned (key : Key) (e : LockError) : Effect s call slots ⟨call, .notReturned key e⟩
  | rolledBack (typeName : String) (failed : ResourceId) (released : List ResourceId)
      (party : Party) :
      Effect s call slots ⟨call, .rolledBack typeName failed released party⟩
  | evicted (remaining : Nat) (left : slots = s.slots.filter fun _ slot => !decide slot.Idle) :
      Effect s call slots
        ⟨call, .evicted (s.slots.filter fun _ slot => decide slot.Idle).keys remaining⟩
  | announced (listener : CallId) (kind : EventKind) (event : LockEvent) :
      Effect s call slots ⟨call, .announced listener kind event⟩
  | shown {key : Key} {slot : Slot} (found : s.slots.get? key = some slot) :
      Effect s call slots ⟨call, .answered (.ok (.state slot.state))⟩
  | answered {reply : Reply} (plain : ∀ state, reply ≠ .ok (.state state)) :
      Effect s call slots ⟨call, .answered reply⟩

theorem Goal.success_ne_state (goal : Goal) (state : SlotState) : goal.success ≠ .state state := by
  cases goal with
  | hold | attempt => exact Answer.noConfusion
  | allOrNone timeout spending detailed => cases detailed <;> exact Answer.noConfusion

theorem Goal.failure_ne_state (goal : Goal) (failed : ResourceId) (released : List ResourceId)
    (state : SlotState) : goal.failure failed released ≠ .state state := by
  cases goal with
  | hold | attempt => exact Answer.noConfusion
  | allOrNone timeout spending detailed => cases detailed <;> exact Answer.noConfusion

namespace Effect

variable {slots : Dict Key Slot}

theorem call_eq {f : Fact} (h : Effect s call slots f) : f.call = call := by
  cases h <;> rfl

theorem told {f : Fact} (tells : f.Tells call) : Effect s call slots f := by
  obtain ⟨x, deed⟩ := f
  obtain ⟨rfl, listener, kind, event, rfl⟩ := tells
  exact .announced listener kind event

theorem refused (e : LockError) : Effect s call slots ⟨call, .answered (.error e)⟩ :=
  .answered fun _ h => by cases h

theorem replied {answer : Answer} (plain : ∀ state, answer ≠ .state state) :
    Effect s call slots ⟨call, .answered (.ok answer)⟩ :=
  .answered fun state h => plain state (Except.ok.inj h)

end Effect

namespace Service

variable {f : Fact} {id : ResourceId} {ticket : Nat} {budget : Option Nat} {slot : Slot}

theorem effect_serve (serves : slot.Serves ticket)
    (free : ((s.slots.get? (c.keyOf id)).map Slot.available).getD slot.capacity = slot.available)
    (hf : f ∈ (s.serve call c id ticket budget slot).facts) :
    Effect s call (s.serve call c id ticket budget slot).service.slots f := by
  rcases List.mem_cons.1 hf with rfl | hf
  · exact .granted free serves (Dict.get?_insert_self _ _ _)
  · exact .told (tells_announce s call _ _ f hf)

/-- A slot that is made has all its permits free. -/
theorem available_slotFor (s : Service) (call : CallId) (t : ResourceType) (id : ResourceId) :
    ((s.slots.get? (t.name, id)).map Slot.available).getD (s.slotFor call t id).1.capacity =
      (s.slotFor call t id).1.available := by
  unfold slotFor
  split
  · rename_i slot hslot
    rw [hslot]
    rfl
  · rename_i hslot
    rw [hslot]
    rfl

theorem effect_enter (hf : f ∈ (s.enter call c id).facts) :
    Effect s call (s.enter call c id).service.slots f := by
  have hmade {slots : Dict Key Slot} (hf : f ∈ (s.slotFor call c.type id).2) :
      Effect s call slots f := by
    unfold slotFor at hf
    split at hf
    · exact absurd hf List.not_mem_nil
    · rw [List.mem_singleton.1 hf]
      exact .opened _ _
  simp only [enter] at hf ⊢
  split
  · rename_i serves
    rw [if_pos serves] at hf
    rcases List.mem_append.1 hf with hf | hf
    · exact hmade hf
    · rcases List.mem_cons.1 hf with rfl | hf
      · exact .queued _ _ _ _
      · exact effect_serve serves (available_slotFor s call c.type id) hf
  · rename_i waits
    rw [if_neg waits] at hf
    rcases List.mem_append.1 hf with hf | hf
    · exact hmade hf
    · rw [List.mem_singleton.1 hf]
      exact .queued _ _ _ _

theorem effect_giveUp {deadline : Nat} (working : s.callers.get? call = some c)
    (stage : c.stage = .waiting id ticket budget (some deadline))
    (found : s.slots.get? (c.keyOf id) = some slot) (waits : ¬ slot.Serves ticket)
    (late : deadline ≤ s.clock) (hf : f ∈ (s.giveUp call c id ticket budget slot).facts) :
    Effect s call (s.giveUp call c id ticket budget slot).service.slots f := by
  simp only [giveUp] at hf ⊢
  rcases List.mem_cons.1 hf with rfl | hf
  · refine .gaveUp working stage found waits late ?_
    split <;> rfl
  · split at hf
    · exact absurd hf List.not_mem_nil
    · rw [List.mem_singleton.1 hf]
      exact .replied (c.goal.failure_ne_state _ _)

theorem effect_undo {failed : ResourceId} {member : ResourceId × Nat}
    {left : List (ResourceId × Nat)}
    {error : Option LockError} (hf : f ∈ (s.undo call c failed member left error).facts) :
    Effect s call (s.undo call c failed member left error).service.slots f := by
  simp only [undo] at hf ⊢
  split
  · rename_i t ht
    rw [ht] at hf
    obtain ⟨slot, g, slot', told, found, released, htold, rfl⟩ := giveBack_ok ht
    rcases List.mem_cons.1 hf with rfl | hf
    · exact .returned found released (Dict.get?_insert_self _ _ _)
    · exact .told (htold f hf)
  · rename_i e he
    rw [he] at hf
    rw [List.mem_singleton.1 hf]
    exact .notReturned _ _

theorem effect_undone {failed : ResourceId} {error : Option LockError} {slots : Dict Key Slot}
    (hf : f ∈ (s.undone call c failed error).facts) : Effect s call slots f := by
  unfold undone at hf
  split at hf
  · rw [List.mem_singleton.1 hf]
    exact .refused _
  · rcases List.mem_cons.1 hf with rfl | hf
    · exact .rolledBack _ _ _ _
    · rcases List.mem_append.1 hf with hf | hf
      · exact .told (tells_announce s call _ _ f hf)
      · rw [List.mem_singleton.1 hf]
        exact .replied (c.goal.failure_ne_state _ _)

end Service

theorem Moved.effect {t : Turn} {f : Fact} (h : Moved s call t) (hf : f ∈ t.facts) :
    Effect s call t.service.slots f := by
  cases h with
  | succeeds =>
    rw [List.mem_singleton.1 hf]
    exact .replied (Goal.success_ne_state _)
  | enters => exact Service.effect_enter hf
  | takes working stage found serves =>
    refine Service.effect_serve serves ?_ hf
    rw [found]
    rfl
  | givesUp working stage found waits late =>
    obtain ⟨d, rfl, hlate⟩ := late
    exact Service.effect_giveUp working stage found waits hlate hf
  | dozes => exact absurd hf List.not_mem_nil
  | undoes => exact Service.effect_undo hf
  | undone => exact Service.effect_undone hf

/-- A move changes slots and callers and nothing else. -/
theorem Moved.frame {t : Turn} (h : Moved s call t) :
    ∃ slots callers, t.service = { s with slots, callers } := by
  cases h with
  | succeeds | takes | dozes => exact ⟨_, _, rfl⟩
  | enters =>
    simp only [Service.enter]
    split <;> exact ⟨_, _, rfl⟩
  | givesUp =>
    simp only [Service.giveUp]
    split <;> exact ⟨_, _, rfl⟩
  | undoes =>
    simp only [Service.undo]
    split
    · rename_i t ht
      obtain ⟨_, _, _, _, -, -, -, rfl⟩ := Service.giveBack_ok ht
      exact ⟨_, _, rfl⟩
    · exact ⟨_, _, rfl⟩
  | undone =>
    unfold Service.undone
    split <;> exact ⟨_, _, rfl⟩

/-- A move leaves its caller elsewhere or ends it, unless the caller goes back to sleep. Where it
leaves it waiting, it drew the ticket. -/
theorem Moved.callers {t : Turn} (h : Moved s call t) :
    t.service.callers = s.callers ∨ t.service.callers = s.callers.erase call ∨
      ∃ c, t.service.callers = s.callers.insert call c ∧
        ∀ id ticket budget deadline, c.stage = .waiting id ticket budget deadline →
          (∃ ahead, ⟨call, .queued (c.keyOf id) ticket ahead true⟩ ∈ t.facts) ∧
            budget = c.goal.budget c.began s.clock ∧
              deadline = budget.bind (Instant.after? s.clock) := by
  cases h with
  | succeeds => exact .inr (.inl rfl)
  | enters =>
    simp only [Service.enter]
    split
    · exact .inr (.inr ⟨_, rfl, fun _ _ _ _ stage => by cases stage⟩)
    · refine .inr (.inr ⟨_, rfl, fun id ticket budget deadline stage => ?_⟩)
      cases stage
      exact ⟨⟨_, List.mem_append_right _ List.mem_cons_self⟩, rfl, rfl⟩
  | takes => exact .inr (.inr ⟨_, rfl, fun _ _ _ _ stage => by cases stage⟩)
  | dozes => exact .inl rfl
  | givesUp =>
    simp only [Service.giveUp]
    split
    · exact .inr (.inr ⟨_, rfl, fun _ _ _ _ stage => by cases stage⟩)
    · exact .inr (.inl rfl)
  | undoes =>
    simp only [Service.undo]
    split
    · rename_i t ht
      obtain ⟨_, _, _, _, -, -, -, rfl⟩ := Service.giveBack_ok ht
      exact .inr (.inr ⟨_, rfl, fun _ _ _ _ stage => by cases stage⟩)
    · exact .inr (.inr ⟨_, rfl, fun _ _ _ _ stage => by cases stage⟩)
  | undone =>
    unfold Service.undone
    split
    · exact .inr (.inl rfl)
    · exact .inr (.inl rfl)

namespace Service

variable {f : Fact} {slots : Dict Key Slot}

theorem effect_error {e : LockError} (hf : f ∈ (s.answer call (.error e)).facts) :
    Effect s call slots f := by
  rw [List.mem_singleton.1 hf]
  exact .refused e

theorem effect_ok {answer : Answer} (hf : f ∈ (s.answer call (.ok answer)).facts)
    (plain : ∀ state, answer ≠ .state state) : Effect s call slots f := by
  rw [List.mem_singleton.1 hf]
  exact .replied plain

theorem effect_createType {type : ResourceType} (hf : f ∈ (s.createType call type).facts) :
    Effect s call slots f := by
  unfold createType at hf
  split at hf
  · exact effect_error hf
  · rcases List.mem_cons.1 hf with rfl | hf
    · exact .registered _ _
    · rw [List.mem_singleton.1 hf]
      exact .replied fun _ => Answer.noConfusion

theorem effect_evictIdle (hf : f ∈ (s.evictIdle call).facts) :
    Effect s call (s.evictIdle call).service.slots f := by
  rcases List.mem_cons.1 hf with rfl | hf
  · exact .evicted _ rfl
  · rw [List.mem_singleton.1 hf]
    exact .replied fun _ => Answer.noConfusion

theorem effect_engage {typeName : String} {ids : List ResourceId} {party : Party} {goal : Goal}
    (hf : f ∈ (s.engage call typeName ids party goal).facts) : Effect s call slots f := by
  unfold engage at hf
  split at hf
  · exact effect_error hf
  · exact absurd hf List.not_mem_nil

/-- The resources of other types and with other numbers are left alone. -/
theorem get?_giveBackAll (s : Service) {key : Key} {typeName : String} {party : Party}
    {ids : List ResourceId} (hkey : ∀ id ∈ ids, (typeName, id) ≠ key) :
    (s.giveBackAll call typeName party ids).service.slots.get? key = s.slots.get? key := by
  induction ids generalizing s with
  | nil => rfl
  | cons id ids ih =>
    unfold giveBackAll
    split
    · rfl
    · rename_i t ht
      obtain ⟨_, _, slot', _, -, -, -, rfl⟩ := giveBack_ok ht
      rw [Turn.service_andThen, ih _ fun i hi => hkey i (List.mem_cons_of_mem _ hi)]
      exact Dict.get?_insert_of_ne _ _ (hkey id List.mem_cons_self)

/-- Each resource is given back at most once, so its slot is left as that return leaves it. -/
theorem mem_giveBackAll {typeName : String} {party : Party} {ids : List ResourceId}
    (hids : ids.Nodup) (hf : f ∈ (s.giveBackAll call typeName party ids).facts) :
    (∃ id ∈ ids, ∃ slot p g slot', s.slots.get? (typeName, id) = some slot ∧
      slot.release? p = some (g, slot') ∧
      (s.giveBackAll call typeName party ids).service.slots.get? (typeName, id) = some slot' ∧
      f = ⟨call, .returned (typeName, id) g party⟩) ∨
    f.Tells call ∨ ∃ reply, f = ⟨call, .answered reply⟩ ∧ ∀ state, reply ≠ .ok (.state state) := by
  induction ids generalizing s with
  | nil =>
    rw [List.mem_singleton.1 hf]
    exact .inr (.inr ⟨_, rfl, fun _ h => by cases h⟩)
  | cons id ids ih =>
    obtain ⟨hid, hids⟩ := List.nodup_cons.1 hids
    have hother {i : ResourceId} (hi : i ∈ ids) : (typeName, i) ≠ (typeName, id) := by
      intro heq
      cases heq
      exact hid hi
    unfold giveBackAll at hf ⊢
    split
    · rename_i e he
      rw [he] at hf
      rw [List.mem_singleton.1 hf]
      exact .inr (.inr ⟨_, rfl, fun _ h => by cases h⟩)
    · rename_i t ht
      rw [ht] at hf
      obtain ⟨slot, g, slot', told, found, released, htold, rfl⟩ := giveBack_ok ht
      simp only [Turn.facts_andThen, Turn.service_andThen] at hf ⊢
      rcases List.mem_append.1 hf with hf | hf
      · rcases List.mem_cons.1 hf with rfl | hf
        · refine .inl ⟨id, List.mem_cons_self, slot, _, g, slot', found, released, ?_, rfl⟩
          rw [get?_giveBackAll _ fun i hi => hother hi]
          exact Dict.get?_insert_self _ _ _
        · exact .inr (.inl (htold f hf))
      · rcases ih hids hf with ⟨i, hi, slot₁, p, g₁, slot₂, found₁, released₁, left₁, rfl⟩ | hf
        · rw [Dict.get?_insert_of_ne _ _ (hother hi).symm] at found₁
          exact .inl ⟨i, List.mem_cons_of_mem _ hi, slot₁, p, g₁, slot₂, found₁,
            released₁, left₁, rfl⟩
        · exact .inr hf

theorem effect_unlockAll {typeName : String} {ids : List ResourceId} {party : Party}
    (hf : f ∈ (s.unlockAll call typeName ids party).facts) :
    Effect s call (s.unlockAll call typeName ids party).service.slots f := by
  unfold unlockAll at hf ⊢
  split
  · rename_i e he
    rw [he] at hf
    exact effect_error hf
  · rename_i type htype
    rw [htype] at hf
    rcases mem_giveBackAll (nodup_distinct ids) hf with
      ⟨id, -, slot, p, g, slot', found, released, left, rfl⟩ | htold | ⟨reply, rfl, plain⟩
    · exact .returned found released left
    · exact .told htold
    · exact .answered plain

theorem slotState_ok {key : Key} {state : SlotState} (h : s.slotState key = .ok state) :
    ∃ slot, s.slots.get? key = some slot ∧ state = slot.state := by
  unfold slotState at h
  split at h
  · cases h
  · split at h
    · cases h
    · rename_i slot found
      cases h
      exact ⟨slot, found, rfl⟩

theorem effect_slotState {key : Key} (hf : f ∈ (s.submit call (.slotState key)).facts) :
    Effect s call slots f := by
  rw [List.mem_singleton.1 hf]
  cases h : s.slotState key with
  | error e => exact .refused e
  | ok state =>
    obtain ⟨slot, found, rfl⟩ := slotState_ok h
    exact .shown found

theorem effect_submit {request : Request} (hf : f ∈ (s.submit call request).facts) :
    Effect s call (s.submit call request).service.slots f := by
  cases request with
  | createType t => exact effect_createType hf
  | evictIdle => exact effect_evictIdle hf
  | slotState key => exact effect_slotState hf
  | unlock | unlockMany => exact effect_unlockAll hf
  | lock | lockMany | tryLock | tryLockMany | tryLockManyDetailed => exact effect_engage hf
  | typeNames | groupTimeout | slotCount | listen
  | removeListener => exact effect_ok hf fun _ => Answer.noConfusion
  | findType name =>
    simp only [submit] at hf
    cases h : s.registry.resolve name <;> rw [h] at hf
    · exact effect_error hf
    · exact effect_ok hf fun _ => Answer.noConfusion
  | isLocked key =>
    simp only [submit] at hf
    cases h : s.isLocked key <;> rw [h] at hf
    · exact effect_error hf
    · exact effect_ok hf fun _ => Answer.noConfusion

theorem act_move {call : CallId} {t : Turn} (ht : s.move call = some t) :
    s.act (.move call) = t := by
  rw [act, ht]
  rfl

theorem frame_giveBackAll (s : Service) (call : CallId) (typeName : String) (party : Party)
    (ids : List ResourceId) :
    ∃ slots, (s.giveBackAll call typeName party ids).service = { s with slots } := by
  induction ids generalizing s with
  | nil => exact ⟨_, rfl⟩
  | cons id ids ih =>
    unfold giveBackAll
    split
    · exact ⟨_, rfl⟩
    · rename_i t ht
      obtain ⟨_, _, _, _, -, -, -, rfl⟩ := giveBack_ok ht
      obtain ⟨slots, hslots⟩ := ih { s with slots := _ }
      exact ⟨slots, hslots⟩

/-- What a request changes besides slots and callers is the registry or the listeners. -/
theorem frame_submit (s : Service) (call : CallId) (request : Request) :
    (∃ slots callers, (s.submit call request).service = { s with slots, callers }) ∨
    (∃ type registry, request = .createType type ∧
      (s.submit call request).service = { s with registry }) ∨
    (∃ event, request = .listen event ∧ (s.submit call request).service =
      { s with listeners := s.listeners ++ [⟨call, event⟩], listening := true }) ∨
    ∃ l, request = .removeListener l ∧ (s.submit call request).service =
      { s with listeners := s.listeners.filter (·.id ≠ l) } := by
  have hengage (typeName : String) (ids : List ResourceId) (party : Party) (goal : Goal) :
      ∃ slots callers, (s.engage call typeName ids party goal).service =
        { s with slots, callers } := by
    unfold engage
    split <;> exact ⟨_, _, rfl⟩
  have hunlock (typeName : String) (ids : List ResourceId) (party : Party) :
      ∃ slots callers, (s.unlockAll call typeName ids party).service =
        { s with slots, callers } := by
    unfold unlockAll
    split
    · exact ⟨_, _, rfl⟩
    · obtain ⟨slots, hslots⟩ := frame_giveBackAll s call typeName party (distinct ids)
      exact ⟨slots, s.callers, hslots⟩
  cases request with
  | createType type =>
    have htype : ∃ registry, (s.createType call type).service = { s with registry } := by
      unfold createType
      split <;> exact ⟨_, rfl⟩
    obtain ⟨registry, htype⟩ := htype
    exact .inr (.inl ⟨type, registry, rfl, htype⟩)
  | listen event => exact .inr (.inr (.inl ⟨event, rfl, rfl⟩))
  | removeListener l => exact .inr (.inr (.inr ⟨l, rfl, rfl⟩))
  | lock | lockMany | tryLock | tryLockMany | tryLockManyDetailed => exact .inl (hengage _ _ _ _)
  | unlock | unlockMany => exact .inl (hunlock _ _ _)
  | evictIdle | findType | typeNames | groupTimeout | slotState | isLocked | slotCount =>
    exact .inl ⟨_, _, rfl⟩

theorem clock_submit (s : Service) (call : CallId) (request : Request) :
    (s.submit call request).service.clock = s.clock := by
  rcases s.frame_submit call request with ⟨_, _, h⟩ | ⟨_, _, -, h⟩ | ⟨_, -, h⟩ |
    ⟨_, -, h⟩ <;> rw [h]

/-- The clock never goes back. -/
theorem clock_le_act (s : Service) (a : Action) : s.clock ≤ (s.act a).service.clock := by
  cases a with
  | submit call request => exact Nat.le_of_eq (s.clock_submit call request).symm
  | move call =>
    cases ht : s.move call with
    | none =>
      rw [act, ht]
      exact Nat.le_refl _
    | some t =>
      rw [act_move ht]
      obtain ⟨_, _, hframe⟩ := (moved ht).frame
      exact Nat.le_of_eq (by rw [hframe])
  | pass d => exact Nat.le_add_right _ _

theorem clock_le_run (s : Service) (as : List Action) : s.clock ≤ (s.run as).service.clock := by
  induction as generalizing s with
  | nil => exact Nat.le_refl _
  | cons a as ih => exact Nat.le_trans (s.clock_le_act a) (ih _)

/-- Each fact of an action is an effect of it. -/
theorem effect_act {a : Action} {f : Fact} (hf : f ∈ (s.act a).facts) :
    ∃ call, Effect s call (s.act a).service.slots f := by
  cases a with
  | submit call request => exact ⟨call, effect_submit hf⟩
  | pass d => exact absurd hf List.not_mem_nil
  | move call =>
    cases ht : s.move call with
    | none =>
      rw [act, ht] at hf
      exact absurd hf List.not_mem_nil
    | some t =>
      rw [act_move ht] at hf ⊢
      exact ⟨call, (moved ht).effect hf⟩

end Service

end FairLocks
