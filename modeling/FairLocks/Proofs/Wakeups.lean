import FairLocks.Proofs.Cascade
import FairLocks.Proofs.Dict

/-!
# Who is awake makes no difference

Wake-ups are complete: whatever a service does it would do as well if everyone who waits were awake.
For a caller that can be served is awake already, one whose deadline has passed moves by itself, and
any other that is awake goes back to sleep. So services that differ in nothing but in who is awake
stay so, whatever happens, and nobody is told of the difference. Left to themselves, their callers
come to the same end: there everyone who waits sleeps.
-/
namespace FairLocks

set_option autoImplicit false

/-- The slots with everyone awake who waits. -/
def rousedSlots (d : Dict Key Slot) : Dict Key Slot := d.map fun _ slot => slot.roused

def Service.roused (s : Service) : Service := { s with slots := rousedSlots s.slots }

def Turn.roused (t : Turn) : Turn := ⟨t.service.roused, t.facts⟩

section

variable {d d' : Dict Key Slot} {key : Key}

theorem get?_roused (d : Dict Key Slot) (key : Key) :
    (rousedSlots d).get? key = (d.get? key).map Slot.roused := Dict.get?_map _ _ _

theorem roused_insert (d : Dict Key Slot) (key : Key) (slot : Slot) :
    rousedSlots (d.insert key slot) = (rousedSlots d).insert key slot.roused :=
  Dict.map_insert _ _ _ _

theorem rousedSlots_rousedSlots (d : Dict Key Slot) :
    rousedSlots (rousedSlots d) = rousedSlots d := by
  rw [rousedSlots, rousedSlots, Dict.map_map]
  rfl

theorem Slot.eq_of_roused {slot slot' : Slot} (h : slot'.roused = slot.roused) :
    slot' = { slot with awake := slot'.awake } := by
  obtain ⟨key, capacity, mode, available, holdings, nextSerial, queue, nextTicket, awake⟩ := slot'
  cases slot
  cases h
  rfl

theorem get?_of_roused (h : rousedSlots d' = rousedSlots d) {slot : Slot}
    (hslot : d.get? key = some slot) :
    ∃ awake, d'.get? key = some { slot with awake } := by
  have hget := congrArg (·.get? key) h
  simp only [get?_roused, hslot, Option.map_some, Option.map_eq_some_iff] at hget
  obtain ⟨slot', hslot', hroused⟩ := hget
  exact ⟨slot'.awake, hslot'.trans (congrArg some (Slot.eq_of_roused hroused))⟩

theorem get?_none_of_roused (h : rousedSlots d' = rousedSlots d)
    (hslot : d.get? key = none) : d'.get? key = none := by
  have hget := congrArg (·.get? key) h
  simpa only [get?_roused, hslot, Option.map_none, Option.map_eq_none_iff] using hget

/-- The same slots are dropped. -/
theorem filter_of_roused (h : rousedSlots d' = rousedSlots d) (p : Bool → Bool) :
    rousedSlots (d'.filter fun _ slot => p (decide slot.Idle)) =
      rousedSlots (d.filter fun _ slot => p (decide slot.Idle)) := by
  have hfilter (d : Dict Key Slot) : rousedSlots (d.filter fun _ slot => p (decide slot.Idle)) =
      (rousedSlots d).filter fun _ slot => p (decide slot.Idle) := by
    rw [rousedSlots, rousedSlots, Dict.filter_map]
    rfl
  rw [hfilter, hfilter, h]

theorem size_of_roused (h : rousedSlots d' = rousedSlots d) : d'.size = d.size := by
  rw [← Dict.size_map (fun _ slot => Slot.roused slot) d',
    ← Dict.size_map (fun _ slot => Slot.roused slot) d]
  exact congrArg Dict.size h

theorem keys_of_roused (h : rousedSlots d' = rousedSlots d) : d'.keys = d.keys := by
  rw [← Dict.keys_map (fun _ slot => Slot.roused slot) d',
    ← Dict.keys_map (fun _ slot => Slot.roused slot) d]
  exact congrArg Dict.keys h

end

namespace Service

-- The second service has the slots `d`, the same but for who is awake.
variable {s : Service} {d : Dict Key Slot} {call : CallId} {c : Caller}

/-- Services that differ in nothing but in who is awake differ in their slots alone. -/
theorem exists_slots_of_roused {s' : Service} (h : s'.roused = s.roused) :
    ∃ d, rousedSlots d = rousedSlots s.slots ∧ s' = { s with slots := d } := by
  obtain ⟨registry, d, groupTimeout, listeners, listening, callers, clock⟩ := s'
  simp only [Service.roused, Service.mk.injEq] at h
  obtain ⟨rfl, h, rfl, rfl, rfl, rfl, rfl⟩ := h
  exact ⟨d, h, rfl⟩

/-- At another instant they differ in no more. -/
theorem roused_at {s' : Service} (h : s'.roused = s.roused) (clock : Nat) :
    { s' with clock }.roused = { s with clock }.roused :=
  congrArg (fun s : Service => { s with clock }) h

theorem serve_roused (h : rousedSlots d = rousedSlots s.slots) (call : CallId) (c : Caller)
    (id : ResourceId) (ticket : Nat) (budget : Option Nat) (slot : Slot) (awake : List Nat) :
    ({ s with slots := d }.serve call c id ticket budget { slot with awake }).roused =
      (s.serve call c id ticket budget slot).roused := by
  simp only [serve, Turn.roused, Service.roused, roused_insert, h]
  rfl

theorem enter_roused (h : rousedSlots d = rousedSlots s.slots) (call : CallId) (c : Caller)
    (id : ResourceId) :
    ({ s with slots := d }.enter call c id).roused = (s.enter call c id).roused := by
  obtain ⟨awake, made, hfound, hfound'⟩ : ∃ awake made,
      s.slotFor call c.type id = ((s.slotFor call c.type id).1, made) ∧
      { s with slots := d }.slotFor call c.type id =
        ({ (s.slotFor call c.type id).1 with awake }, made) := by
    unfold slotFor
    cases hslot : s.slots.get? (c.type.name, id) with
    | none =>
      simp only [get?_none_of_roused h hslot]
      exact ⟨_, _, rfl, rfl⟩
    | some slot =>
      obtain ⟨awake, hslot'⟩ := get?_of_roused h hslot
      simp only [hslot']
      exact ⟨awake, _, rfl, rfl⟩
  generalize (s.slotFor call c.type id).1 = found at hfound hfound'
  simp only [enter, hfound, hfound']
  by_cases serves : found.enqueue.2.Serves found.enqueue.1
  · have hserves : ({ found with awake } : Slot).enqueue.2.Serves
      ({ found with awake } : Slot).enqueue.1 := serves
    have hserve := serve_roused h call c id found.enqueue.1 (c.goal.budget c.began s.clock)
      found.enqueue.2 ({ found with awake } : Slot).enqueue.2.awake
    rw [if_pos serves, if_pos hserves]
    simp only [Turn.roused, Turn.mk.injEq] at hserve ⊢
    exact ⟨hserve.1, congrArg (fun fs => made ++ _ :: fs) hserve.2⟩
  · have hserves : ¬ ({ found with awake } : Slot).enqueue.2.Serves
      ({ found with awake } : Slot).enqueue.1 := serves
    rw [if_neg serves, if_neg hserves]
    simp only [Turn.roused, Service.roused, roused_insert, h]
    rfl

theorem giveUp_roused (h : rousedSlots d = rousedSlots s.slots) (call : CallId) (c : Caller)
    (id : ResourceId) (ticket : Nat) (budget : Option Nat) (slot : Slot) (awake : List Nat) :
    ({ s with slots := d }.giveUp call c id ticket budget { slot with awake }).roused =
      (s.giveUp call c id ticket budget slot).roused := by
  simp only [giveUp]
  split <;> simp only [finish, Turn.roused, Service.roused, roused_insert, h] <;> rfl

/-- That a caller goes back to sleep does not show. -/
theorem doze_roused {id : ResourceId} {slot : Slot} (hslot : s.slots.get? (c.keyOf id) = some slot)
    (ticket : Nat) :
    (s.doze c id ticket slot).roused = s.rest.roused := by
  have hdozed : rousedSlots (s.slots.insert (c.keyOf id) (slot.doze ticket)) =
      rousedSlots s.slots := by
    rw [roused_insert]
    apply Dict.insert_same
    rw [get?_roused, hslot]
    rfl
  simp only [doze, rest, Turn.roused, Service.roused, hdozed]

/-- A caller that can neither be served nor give up does nothing that shows. -/
theorem resume_roused_of_waits {id : ResourceId} {ticket : Nat} {budget deadline : Option Nat}
    {slot : Slot} (hslot : s.slots.get? (c.keyOf id) = some slot) (waits : ¬ slot.Serves ticket)
    (early : deadline.any (· ≤ s.clock) = false) :
    ((s.resume call c id ticket budget deadline).getD s.rest).roused = s.rest.roused := by
  rw [resume_of_waits hslot waits early]
  split
  · exact doze_roused hslot ticket
  · rfl

/-- The same is given back, or neither can give it back. -/
theorem giveBack_roused (h : rousedSlots d = rousedSlots s.slots) (call : CallId)
    (key : Key) (party : Party) (p : Holding → Bool) :
    (∃ e, s.giveBack call key party p = .error e ∧
      { s with slots := d }.giveBack call key party p = .error e) ∨
    ∃ t d', s.giveBack call key party p = .ok t ∧ rousedSlots d' = rousedSlots t.service.slots ∧
      { s with slots := d }.giveBack call key party p =
        .ok ⟨{ t.service with slots := d' }, t.facts⟩ := by
  unfold giveBack
  cases hslot : s.slots.get? key with
  | none =>
    simp only [get?_none_of_roused h hslot]
    exact .inl ⟨_, rfl, rfl⟩
  | some slot =>
    obtain ⟨awake, hslot'⟩ := get?_of_roused h hslot
    simp only [hslot', Slot.release?]
    cases slot.holdings.find? p with
    | none => exact .inl ⟨_, rfl, rfl⟩
    | some g =>
      refine .inr ⟨_, _, rfl, ?_, rfl⟩
      rw [roused_insert, roused_insert, h]
      rfl

theorem undo_roused (h : rousedSlots d = rousedSlots s.slots) (call : CallId) (c : Caller)
    (failed : ResourceId) (member : ResourceId × Nat) (left : List (ResourceId × Nat))
    (error : Option LockError) :
    ({ s with slots := d }.undo call c failed member left error).roused =
      (s.undo call c failed member left error).roused := by
  rcases giveBack_roused h call (c.keyOf member.1) c.party fun h =>
    decide (h.serial = member.2) with
    ⟨e, hfails, hfails'⟩ | ⟨t, d', hgiven, hsame, hgiven'⟩
  · simp only [undo, hfails, hfails', Turn.roused, Service.roused, h]
  · simp only [undo, hgiven, hgiven', Turn.roused, Service.roused, hsame]

theorem undone_roused (h : rousedSlots d = rousedSlots s.slots) (call : CallId) (c : Caller)
    (failed : ResourceId) (error : Option LockError) :
    ({ s with slots := d }.undone call c failed error).roused =
      (s.undone call c failed error).roused := by
  cases error with
  | some e => simp only [undone, finish, Turn.roused, Service.roused, h]
  | none =>
    simp only [undone, finish, Turn.roused, Service.roused, h]
    rfl

/-- Whoever can be served is awake, in both; so a caller is served in one if it is in the other,
gives up in one if it does in the other, and has no other move but to go back to sleep. -/
theorem resume_roused (h : rousedSlots d = rousedSlots s.slots)
    (hs : ∀ key slot, s.slots.get? key = some slot → slot.Sound)
    (hd : ∀ key slot, d.get? key = some slot → slot.Sound) (call : CallId) (c : Caller)
    (id : ResourceId) (ticket : Nat) (budget deadline : Option Nat) :
    (({ s with slots := d }.resume call c id ticket budget deadline).getD
        { s with slots := d }.rest).roused =
      ((s.resume call c id ticket budget deadline).getD s.rest).roused := by
  have hrest : { s with slots := d }.rest.roused = s.rest.roused := by
    simp only [rest, Turn.roused, Service.roused, h]
  cases hslot : s.slots.get? (c.keyOf id) with
  | none =>
    simp only [resume, hslot, get?_none_of_roused h hslot]
    exact hrest
  | some slot =>
    obtain ⟨awake, hslot'⟩ := get?_of_roused h hslot
    by_cases serves : slot.Serves ticket
    · have hawake : ticket ∈ slot.awake := (hs _ _ hslot).alert ticket serves
      have hawake' : ticket ∈ awake := (hd _ _ hslot').alert ticket serves
      rw [resume_of_serves hslot serves hawake,
        @resume_of_serves { s with slots := d } call c id ticket budget deadline _ hslot' serves
          hawake']
      exact serve_roused h call c id ticket budget slot awake
    · cases hlate : deadline.any (· ≤ s.clock) with
      | true =>
        rw [resume_of_late hslot serves hlate,
          @resume_of_late { s with slots := d } call c id ticket budget deadline _ hslot' serves
            hlate]
        exact giveUp_roused h call c id ticket budget slot awake
      | false =>
        rw [resume_roused_of_waits hslot serves hlate, ← hrest]
        exact @resume_roused_of_waits { s with slots := d } call c id ticket budget deadline _
          hslot' serves hlate

theorem act_move_roused (h : rousedSlots d = rousedSlots s.slots)
    (hs : ∀ key slot, s.slots.get? key = some slot → slot.Sound)
    (hd : ∀ key slot, d.get? key = some slot → slot.Sound) (call : CallId) :
    ({ s with slots := d }.act (.move call)).roused = (s.act (.move call)).roused := by
  have hrest : { s with slots := d }.rest.roused = s.rest.roused := by
    simp only [rest, Turn.roused, Service.roused, h]
  simp only [act, move]
  cases s.callers.get? call with
  | none => exact hrest
  | some c =>
    cases hstage : c.stage with
    | next =>
      cases hnext : c.rest with
      | nil =>
        simp only [hstage, hnext, Option.getD_some, finish, Turn.roused, Service.roused, h]
      | cons id rest =>
        simp only [hstage, hnext, Option.getD_some]
        exact enter_roused h call _ id
    | waiting id ticket budget deadline =>
      simp only [hstage]
      exact resume_roused h hs hd call c id ticket budget deadline
    | undoing failed left error =>
      cases left with
      | nil =>
        simp only [hstage, Option.getD_some]
        exact undone_roused h call c failed error
      | cons member left =>
        simp only [hstage, Option.getD_some]
        exact undo_roused h call c failed member left error

theorem giveBackAll_roused (h : rousedSlots d = rousedSlots s.slots) (call : CallId)
    (typeName : String) (party : Party) (ids : List ResourceId) :
    ({ s with slots := d }.giveBackAll call typeName party ids).roused =
      (s.giveBackAll call typeName party ids).roused := by
  induction ids generalizing s d with
  | nil => simp only [giveBackAll, answer, Turn.roused, Service.roused, h]
  | cons id ids ih =>
    rcases giveBack_roused h call (typeName, id) party fun h => party.Holds h with
      ⟨e, hfails, hfails'⟩ | ⟨t, d', hgiven, hsame, hgiven'⟩
    · simp only [giveBackAll, hfails, hfails', answer, Turn.roused, Service.roused, h]
    · have hrest := ih hsame
      simp only [Turn.roused, Turn.mk.injEq] at hrest
      simp only [giveBackAll, hgiven, hgiven', Turn.andThen, Turn.roused, hrest]

theorem slotState_roused (h : rousedSlots d = rousedSlots s.slots) (key : Key) :
    { s with slots := d }.slotState key = s.slotState key := by
  unfold slotState
  cases hslot : s.slots.get? key with
  | none => simp only [get?_none_of_roused h hslot]
  | some slot =>
    obtain ⟨awake, hslot'⟩ := get?_of_roused h hslot
    simp only [hslot']
    rfl

theorem evictIdle_roused (h : rousedSlots d = rousedSlots s.slots) (call : CallId) :
    ({ s with slots := d }.evictIdle call).roused = (s.evictIdle call).roused := by
  have hkept := filter_of_roused h fun b => !b
  have hidle := filter_of_roused h fun b => b
  simp only [evictIdle, Turn.roused, Service.roused, hkept, size_of_roused hkept,
    size_of_roused hidle, keys_of_roused hidle]

theorem act_submit_roused (h : rousedSlots d = rousedSlots s.slots) (call : CallId)
    (request : Request) :
    ({ s with slots := d }.act (.submit call request)).roused =
      (s.act (.submit call request)).roused := by
  have hanswer (reply : Reply) : ({ s with slots := d }.answer call reply).roused =
      (s.answer call reply).roused := by
    simp only [answer, Turn.roused, Service.roused, h]
  have hengage (typeName : String) (ids : List ResourceId) (party : Party) (goal : Goal) :
      ({ s with slots := d }.engage call typeName ids party goal).roused =
        (s.engage call typeName ids party goal).roused := by
    have hresolved : { s with slots := d }.resolveFor typeName party =
        s.resolveFor typeName party := rfl
    unfold engage
    rw [hresolved]
    cases s.resolveFor typeName party with
    | error e => exact hanswer _
    | ok type => simp only [Turn.roused, Service.roused, h]
  have hunlock (typeName : String) (ids : List ResourceId) (party : Party) :
      ({ s with slots := d }.unlockAll call typeName ids party).roused =
        (s.unlockAll call typeName ids party).roused := by
    have hresolved : { s with slots := d }.resolveFor typeName party =
        s.resolveFor typeName party := rfl
    unfold unlockAll
    rw [hresolved]
    cases s.resolveFor typeName party with
    | error e => exact hanswer _
    | ok type => exact giveBackAll_roused h call typeName party _
  cases request with
  | createType t =>
    simp only [act, submit, createType]
    cases s.registry.register t with
    | error e => exact hanswer _
    | ok r => simp only [Turn.roused, Service.roused, h]
  | findType | typeNames | groupTimeout => exact hanswer _
  | lock | lockMany | tryLock | tryLockMany | tryLockManyDetailed => exact hengage _ _ _ _
  | unlock | unlockMany => exact hunlock _ _ _
  | slotState key =>
    simp only [act, submit, slotState_roused h]
    exact hanswer _
  | isLocked key =>
    simp only [act, submit, isLocked, slotState_roused h]
    exact hanswer _
  | slotCount =>
    simp only [act, submit, size_of_roused h]
    exact hanswer _
  | evictIdle => exact evictIdle_roused h call
  | listen event => simp only [act, submit, listen, answer, Turn.roused, Service.roused, h]
  | removeListener listener =>
    simp only [act, submit, removeListener, answer, Turn.roused, Service.roused, h]

/-- Where every slot is sound, it makes no difference who is awake. -/
theorem act_roused {s s' : Service} (h : s'.roused = s.roused)
    (hs : ∀ key slot, s.slots.get? key = some slot → slot.Sound)
    (hs' : ∀ key slot, s'.slots.get? key = some slot → slot.Sound) (a : Action) :
    (s'.act a).roused = (s.act a).roused := by
  obtain ⟨d, hslots, rfl⟩ := exists_slots_of_roused h
  cases a with
  | submit call request => exact act_submit_roused hslots call request
  | move call => exact act_move_roused hslots hs hs' call
  | pass duration => simp only [act, Turn.roused, Service.roused, hslots]

/-- A service does what it would do with everyone awake. -/
theorem act_of_roused {s : Service} (hs : ∀ key slot, s.slots.get? key = some slot → slot.Sound)
    (a : Action) : (s.roused.act a).roused = (s.act a).roused := by
  refine act_roused ?_ hs ?_ a
  · rw [Service.roused, Service.roused, rousedSlots_rousedSlots]
  · intro key slot hslot
    obtain ⟨found, hfound, rfl⟩ :=
      Option.map_eq_some_iff.1 ((get?_roused s.slots key).symm.trans hslot)
    exact (hs key found hfound).roused

/-- Nothing that shows comes of it when the call moves: it has no move, or goes back to sleep. -/
def Silent (s : Service) (call : CallId) : Prop := (s.act (.move call)).roused = s.rest.roused

theorem silent_of_still {s : Service} {call : CallId}
    (still : s.move call = none) : s.Silent call := by
  simp only [Silent, act, still, Option.getD_none]

namespace Silent

variable {s : Service} {call : CallId} {t : Turn} (h : s.Silent call) (moves : s.move call = some t)

include h moves

theorem turn : t.roused = s.rest.roused := by
  rw [← h]
  simp only [act, moves, Option.getD_some]

theorem service : t.service.roused = s.roused := congrArg Turn.service (h.turn moves)

theorem andThen (f : Service → Turn) : t.andThen f = f t.service := by
  have hfacts : t.facts = [] := congrArg Turn.facts (h.turn moves)
  simp only [Turn.andThen, hfacts, List.nil_append]

/-- Before a move that does not show the callers settle as they do after it. -/
theorem settle (first : s.firstMove = some t) : s.settle = t.service.settle :=
  (settle_of_firstMove first).trans (h.andThen moves _)

end Silent

end Service

namespace Orderly

variable {past past' : List Fact} {s s' : Service}

/-- Where nobody has a move, everyone who waits sleeps. -/
theorem asleep_of_settled (ho : Orderly past s) (settled : s.Settled) {key : Key} {slot : Slot}
    (found : s.slots.get? key = some slot) : slot.awake = [] := by
  refine List.eq_nil_iff_forall_not_mem.2 fun ticket hawake => ?_
  obtain ⟨x, hwaits⟩ :=
    ho.exists_waits found ((ho.ledger.sound key slot found).awake_sub ticket hawake)
  obtain ⟨c, id, budget, deadline, working, stage, rfl⟩ := Service.waits?_eq_some.1 hwaits
  exact ((Service.still_iff_of_waiting working stage found).1 (Service.move_of_settled settled x)).1
    hawake

/-- Where everyone sleeps, there is no difference in who is awake. -/
theorem eq_of_roused (ho : Orderly past s) (ho' : Orderly past' s') (settled : s.Settled)
    (settled' : s'.Settled) (h : s'.roused = s.roused) : s' = s := by
  obtain ⟨d, hslots, rfl⟩ := Service.exists_slots_of_roused h
  have hasleep {past : List Fact} {s : Service} (ho : Orderly past s) (settled : s.Settled) :
      s.slots.map (fun _ slot => { slot with awake := [] }) = s.slots := by
    refine Dict.map_eq_self fun e he => ?_
    rw [← ho.asleep_of_settled settled (Dict.get?_of_mem he)]
  have hdrowsy (d : Dict Key Slot) : (rousedSlots d).map (fun _ slot => { slot with awake := [] }) =
      d.map fun _ slot => { slot with awake := [] } := Dict.map_map _ _ d
  have hsame : d = s.slots := by
    rw [← hasleep ho settled, ← hdrowsy, ← hslots, hdrowsy]
    exact (hasleep ho' settled').symm
  rw [hsame]

theorem act_roused (ho : Orderly past s) (ho' : Orderly past' s') (h : s'.roused = s.roused)
    (a : Action) : (s'.act a).roused = (s.act a).roused :=
  Service.act_roused h ho.ledger.sound ho'.ledger.sound a

theorem silent_congr (ho : Orderly past s) (ho' : Orderly past' s') (h : s'.roused = s.roused)
    (call : CallId) : s'.Silent call ↔ s.Silent call := by
  have hrest : s'.rest.roused = s.rest.roused := by
    simp only [Service.rest, Turn.roused, h]
  rw [Service.Silent, Service.Silent, ho.act_roused ho' h, hrest]

/-- A move that shows is made in the one if it is made in the other. -/
theorem move_of_shows (ho : Orderly past s) (ho' : Orderly past' s') (h : s'.roused = s.roused)
    {call : CallId} {t : Turn} (moves : s.move call = some t) (shows' : ¬ s.Silent call) :
    ∃ t', s'.move call = some t' ∧ t'.roused = t.roused := by
  cases moves' : s'.move call with
  | none => exact absurd ((ho.silent_congr ho' h call).1 (Service.silent_of_still moves')) shows'
  | some t' =>
    have hact := ho.act_roused ho' h (.move call)
    simp only [Service.act, moves, moves', Option.getD_some] at hact
    exact ⟨t', rfl, hact⟩

/-- If the first move shows in both, it is made by the same call. -/
theorem eq_of_first (ho : Orderly past s) (ho' : Orderly past' s') (h : s'.roused = s.roused)
    {x x' : CallId} {l l' r r' : List CallId} (hl : s.callers.keys = l ++ x :: r)
    (hl' : s'.callers.keys = l' ++ x' :: r') (before : ∀ y ∈ l, s.move y = none)
    (before' : ∀ y ∈ l', s'.move y = none) (shows' : ¬ s.Silent x)
    (shows'' : ¬ s'.Silent x') : x' = x := by
  have hkeys := congrArg (fun s : Service => s.callers.keys) h
  simp only [Service.roused] at hkeys
  rw [hl, hl'] at hkeys
  rcases List.append_eq_append_iff.1 hkeys with ⟨m, hm, hr⟩ | ⟨m, hm, hr⟩
  · cases m with
    | nil => exact (List.cons.inj hr).1
    | cons y m =>
      -- the other call comes before the first
      obtain ⟨rfl, -⟩ := List.cons.inj hr
      have hstill := before x' (by rw [hm]; simp)
      exact absurd ((ho.silent_congr ho' h x').2 (Service.silent_of_still hstill)) shows''
  · cases m with
    | nil => exact (List.cons.inj hr).1.symm
    | cons y m =>
      obtain ⟨rfl, -⟩ := List.cons.inj hr
      have hstill := before' x (by rw [hm]; simp)
      exact absurd ((ho.silent_congr ho' h x).1 (Service.silent_of_still hstill)) shows'

/-- Callers that are left to themselves do the same and come to the same end, whoever of them is
awake. -/
theorem settle_roused (ho : Orderly past s) (ho' : Orderly past' s') (h : s'.roused = s.roused) :
    s'.settle = s.settle := by
  induction hwork : s.work + s'.work using Nat.strongRecOn generalizing past past' s s' with
  | ind n ih =>
    cases first : s.firstMove with
    | none =>
      have settled := Service.firstMove_eq_none_iff.1 first
      cases first' : s'.firstMove with
      | none =>
        have settled' := Service.firstMove_eq_none_iff.1 first'
        rw [ho.eq_of_roused ho' settled settled' h]
      | some t' =>
        obtain ⟨x', moves'⟩ := Service.exists_move_of_firstMove first'
        have silent' : s'.Silent x' :=
          (ho.silent_congr ho' h x').2 (Service.silent_of_still
            (Service.move_of_settled settled x'))
        have hless := Service.work_lt_of_move moves'
        rw [silent'.settle moves' first']
        exact ih _ (by omega) ho (ho'.leads (.move ho'.permits moves'))
          ((silent'.service moves').trans h) rfl
    | some t =>
      obtain ⟨l, x, r, hl, moves, before⟩ := List.findSome?_eq_some_iff.1 first
      have hless := Service.work_lt_of_move moves
      have ho₁ := ho.leads (.move ho.permits moves)
      by_cases silent : s.Silent x
      · rw [silent.settle moves first]
        exact ih _ (by omega) ho₁ ho' (h.trans (silent.service moves).symm) rfl
      · obtain ⟨u, hu, hsame⟩ := ho.move_of_shows ho' h moves silent
        cases first' : s'.firstMove with
        | none =>
          have hstill := Service.move_of_settled (Service.firstMove_eq_none_iff.1 first') x
          cases hstill.symm.trans hu
        | some t' =>
          obtain ⟨l', x', r', hl', moves', before'⟩ := List.findSome?_eq_some_iff.1 first'
          have hless' := Service.work_lt_of_move moves'
          have ho₂ := ho'.leads (.move ho'.permits moves')
          by_cases silent' : s'.Silent x'
          · rw [silent'.settle moves' first']
            exact ih _ (by omega) ho ho₂ ((silent'.service moves').trans h) rfl
          · obtain rfl := ho.eq_of_first ho' h hl hl' before before' silent silent'
            cases hu.symm.trans moves'
            simp only [Turn.roused, Turn.mk.injEq] at hsame
            rw [Service.settle_of_firstMove first, Service.settle_of_firstMove first']
            simp only [Turn.andThen, hsame.2, ih _ (by omega) ho₁ ho₂ hsame.1 rfl]

/-- Where one call alone has a move that shows, the callers settle by it and by those that
follow. -/
theorem settle_of_alone (ho : Orderly past s) {x : CallId} {t : Turn} (moves : s.move x = some t)
    (alone : ∀ y, y ≠ x → s.Silent y) : s.settle = t.andThen Service.settle := by
  by_cases silent : s.Silent x
  · rw [silent.andThen moves]
    exact (ho.settle_roused (ho.leads (.move ho.permits moves)) (silent.service moves)).symm
  induction hwork : s.work using Nat.strongRecOn generalizing past s t with
  | ind n ih =>
    have hfirst : s.firstMove ≠ none := fun hnone => by
      have hstill := Service.move_of_settled (Service.firstMove_eq_none_iff.1 hnone) x
      cases hstill.symm.trans moves
    obtain ⟨u, first⟩ := Option.ne_none_iff_exists'.1 hfirst
    obtain ⟨y, hy⟩ := Service.exists_move_of_firstMove first
    by_cases hyx : y = x
    · subst hyx
      cases hy.symm.trans moves
      exact Service.settle_of_firstMove first
    · -- another call goes back to sleep first, and `x` still has its move
      have hsilent := alone y hyx
      have hless := Service.work_lt_of_move hy
      have hou := ho.leads (.move ho.permits hy)
      have hroused := hsilent.service hy
      obtain ⟨t', moves', hsame⟩ := ho.move_of_shows hou hroused moves silent
      simp only [Turn.roused, Turn.mk.injEq] at hsame
      have hsettle :=
        ih _ (by omega) hou moves' (fun z hz => (ho.silent_congr hou hroused z).2 (alone z hz))
        (fun hx => silent ((ho.silent_congr hou hroused x).1 hx)) rfl
      have hafter := (ho.leads (.move ho.permits moves)).settle_roused
        (hou.leads (.move hou.permits moves')) hsame.1
      rw [hsilent.settle hy first, hsettle]
      simp only [Turn.andThen, hsame.2, hafter]

end Orderly

end FairLocks
