import FairLocks.Proofs.Events
import FairLocks.Proofs.Shifts
import FairLocks.Proofs.Undrawn

/-!
# A service without some of its idle slots

A slot that is idle is as good as none: who comes to the resource makes it anew, and it differs from
the one that was dropped in nothing but the numbers it counts from. So two services that differ by
idle slots stay so whatever is done to them, and what is done leaves the same facts but for these
numbers, and but for what looks at the slots themselves. This needs that the slot would be made as
it was, and that nobody has the number of a permit on a slot that was dropped.
-/
namespace FairLocks

set_option autoImplicit false

/-- The second service is the first one without some of its idle slots. Where such a slot was made
anew, the first one counts from further on. -/
structure Service.Twin (o : Key → Shift) (s s' : Service) : Prop where
  registry : s.registry = s'.registry
  groupTimeout : s.groupTimeout = s'.groupTimeout
  listeners : s.listeners = s'.listeners
  listening : s.listening = s'.listening
  clock : s.clock = s'.clock
  keys : s.callers.keys = s'.callers.keys
  callers : ∀ call, Option.Rel (Caller.Twin o) (s.callers.get? call) (s'.callers.get? call)
  present : ∀ key slot', s'.slots.get? key = some slot' →
    s.slots.get? key = some (slot'.shift (o key))
  missing : ∀ key slot, s'.slots.get? key = none → s.slots.get? key = some slot → slot.Idle
  /-- What a caller may have to give back is on slots that both have. -/
  needed : ∀ call c', s'.callers.get? call = some c' → ∀ m ∈ c'.returning,
    ∃ slot', s'.slots.get? (c'.keyOf m.1) = some slot'

/-- The second turn is the first one without some idle slots. Its facts are the same but for the
numbers, or differ in a way that is excused. -/
def Turn.Twin (excused : Fact → Fact → Prop) (t t' : Turn) : Prop :=
  ∃ o, t.service.Twin o t'.service ∧
    List.Forall₂ (fun f f' => f = f'.shift o ∨ excused f f') (visible t.facts) (visible t'.facts)

/-- How the facts of an action may tell that idle slots are missing from the service. -/
inductive Action.Reveals (s : Service) : Action → Fact → Fact → Prop
  | slotCount (call : CallId) (n n' : Nat) :
      Reveals s (.submit call .slotCount) ⟨call, .answered (.ok (.count n))⟩
        ⟨call, .answered (.ok (.count n'))⟩
  | evicted (call : CallId) (keys keys' : List Key) (remaining remaining' : Nat) :
      Reveals s (.submit call .evictIdle) ⟨call, .evicted keys remaining⟩
        ⟨call, .evicted keys' remaining'⟩
  | evictIdle (call : CallId) (n n' : Nat) :
      Reveals s (.submit call .evictIdle) ⟨call, .answered (.ok (.count n))⟩
        ⟨call, .answered (.ok (.count n'))⟩
  | slotState (call : CallId) {key : Key} {slot : Slot} (found : s.slots.get? key = some slot)
      (idle : slot.Idle) :
      Reveals s (.submit call (.slotState key)) ⟨call, .answered (.ok (.state slot.state))⟩
        ⟨call, .answered (.error (.neverLocked key))⟩
  | unlock (call : CallId) {request : Request} {typeName : String} {ids : List ResourceId}
      {party : Party} {id : ResourceId} (returns : request.returns? = some (typeName, ids, party))
      (named : id ∈ ids) (nobody : holdingsAt s.slots (typeName, id) = []) :
      Reveals s (.submit call request)
        ⟨call, .answered (.error (.notOwner (typeName, id) party.listed))⟩
        ⟨call, .answered (.error (.neverLocked (typeName, id)))⟩

/-- Every slot is as a caller that may come to it would make it. -/
def Service.Uniform (s : Service) : Prop :=
  ∀ call c id slot, s.callers.get? call = some c → s.slots.get? (c.keyOf id) = some slot →
    slot.capacity = c.type.capacity ∧ slot.sharingMode = c.type.sharingMode

/-- Whoever waits stands in the queue of a slot that is there. -/
def Service.Queued (s : Service) : Prop :=
  ∀ call key ticket, s.waits? call = some (key, ticket) → ∃ slot, s.slots.get? key = some slot

theorem Dict.get?_insert_of_get? {κ α : Type} [DecidableEq κ] {d : Dict κ α} {k k' : κ} {a a' : α}
    (h : d.get? k' = some a') : ∃ a'', (d.insert k a).get? k' = some a'' := by
  rw [Dict.get?_insert]
  split
  · exact ⟨a, rfl⟩
  · exact ⟨a', h⟩

theorem Fact.Tells.shift_eq {f : Fact} {call : CallId} (h : f.Tells call)
    (o : Key → Shift) : f.shift o = f := by
  obtain ⟨x, deed⟩ := f
  obtain ⟨-, listener, kind, event, hdeed⟩ := h
  cases hdeed
  rfl

theorem Service.get?_evictIdle_eq_some {s : Service} {call : CallId} {key : Key} {slot : Slot} :
    (s.evictIdle call).service.slots.get? key = some slot ↔ s.slots.get? key = some slot ∧
      ¬ slot.Idle := by
  rw [evictIdle, Dict.get?_filter, Option.filter_eq_some_iff]
  simp

theorem Turn.Twin.of_shift {excused : Fact → Fact → Prop} {o : Key → Shift} {t t' : Turn}
    (hservice : t.service.Twin o t'.service)
    (hfacts : visible t.facts = visible (t'.facts.map (Fact.shift o))) : t.Twin excused t' := by
  refine ⟨o, hservice, ?_⟩
  rw [hfacts, visible_map_shift, List.forall₂_map_left_iff]
  exact List.forall₂_same.2 fun f _ => .inl rfl

namespace Service.Twin

variable {o : Key → Shift} {s s' : Service} {call : CallId} {c c' : Caller}
    {excused : Fact → Fact → Prop}

theorem caller (h : s.Twin o s') (hc' : s'.callers.get? call = some c') :
    ∃ c, s.callers.get? call = some c ∧ c.Twin o c' := by
  have hrel := h.callers call
  rw [hc'] at hrel
  cases hc : s.callers.get? call with
  | none => rw [hc] at hrel; cases hrel
  | some c =>
    rw [hc] at hrel
    cases hrel with
    | some htwin => exact ⟨c, rfl, htwin⟩

theorem caller_none (h : s.Twin o s') (hc' : s'.callers.get? call = none) :
    s.callers.get? call = none := by
  have hrel := h.callers call
  rw [hc'] at hrel
  cases hc : s.callers.get? call with
  | none => rfl
  | some c => rw [hc] at hrel; cases hrel

theorem insert_slot (h : s.Twin o s') (key : Key) (slot' : Slot) :
    { s with slots := s.slots.insert key (slot'.shift (o key)) }.Twin o
      { s' with slots := s'.slots.insert key slot' } := { h with
    present := by
      intro k slot hslot
      rw [Dict.get?_insert] at hslot ⊢
      split at hslot
      · rename_i heq
        subst heq
        cases hslot
        rw [if_pos rfl]
      · rename_i hne
        rw [if_neg hne, h.present k slot hslot]
    missing := by
      intro k slot hnone hslot
      rw [Dict.get?_insert] at hnone hslot
      split at hnone
      · cases hnone
      · rename_i hne
        rw [if_neg hne] at hslot
        exact h.missing k slot hnone hslot
    needed := by
      intro x c' hc' m hm
      obtain ⟨slot, hslot⟩ := h.needed x c' hc' m hm
      exact Dict.get?_insert_of_get? hslot }

theorem insert_caller (h : s.Twin o s') (call : CallId) (hc : c.Twin o c')
    (hneeded : ∀ m ∈ c'.returning, ∃ slot', s'.slots.get? (c'.keyOf m.1) = some slot') :
    { s with callers := s.callers.insert call c }.Twin o
      { s' with callers := s'.callers.insert call c' } := { h with
    keys := by rw [Dict.keys_insert, Dict.keys_insert, h.keys]
    callers := by
      intro x
      rw [Dict.get?_insert, Dict.get?_insert]
      split
      · exact .some hc
      · exact h.callers x
    needed := Dict.forall_get?_insert h.needed hneeded }

theorem erase_caller (h : s.Twin o s') (call : CallId) :
    { s with callers := s.callers.erase call }.Twin o
      { s' with callers := s'.callers.erase call } := { h with
    keys := by rw [Dict.keys_erase, Dict.keys_erase, h.keys]
    callers := by
      intro x
      rw [Dict.get?_erase, Dict.get?_erase]
      split
      · exact .none
      · exact h.callers x
    needed := by
      intro x c' hc'
      rw [Dict.get?_erase] at hc'
      split at hc'
      · cases hc'
      · exact h.needed x c' hc' }

/-- Where there is no slot it makes no difference what its shift is said to be. -/
theorem reshift (h : s.Twin o s') {key : Key} (hnone : s'.slots.get? key = none)
    (hqueued : s'.Queued)
    (d : Shift) : s.Twin (Function.update o key d) s' :=
  have hsame {k : Key} (hk : ∃ slot, s'.slots.get? k = some slot) : o k =
      Function.update o key d k := by
    obtain ⟨slot, hslot⟩ := hk
    rw [Function.update_of_ne]
    rintro rfl
    cases hnone.symm.trans hslot
  { h with
    callers := by
      intro x
      cases hc' : s'.callers.get? x with
      | none =>
        rw [h.caller_none hc']
        exact .none
      | some c' =>
        obtain ⟨c, hc, htwin⟩ := h.caller hc'
        rw [hc]
        refine .some (htwin.congr (fun id ticket budget deadline stage => hsame ?_)
          fun m hm => hsame ?_)
        · exact hqueued x _ ticket (waits?_eq_some.2 ⟨c', id, budget, deadline, hc', stage, rfl⟩)
        · exact h.needed x c' hc' m hm
    present := by
      intro k slot hslot
      rw [← hsame ⟨slot, hslot⟩]
      exact h.present k slot hslot }

theorem announce_eq (h : s.Twin o s') (call : CallId) (kind : EventKind) (event : LockEvent) :
    s.announce call kind event = s'.announce call kind event := by
  rw [announce, announce, h.listening, h.listeners]

/-- What listeners are told of has no numbers. -/
theorem shift_announce (o : Key → Shift) (s : Service) (call : CallId) (kind : EventKind)
    (event : LockEvent) :
    (s.announce call kind event).map (Fact.shift o) = s.announce call kind event := by
  have hsame : ∀ f ∈ s.announce call kind event, f.shift o = id f :=
    fun f hf => (tells_announce s call kind event f hf).shift_eq o
  rw [List.map_congr_left hsame, List.map_id]

theorem finish (h : s.Twin o s') (call : CallId) (reply : Reply) :
    (s.finish call reply).Twin excused (s'.finish call reply) :=
  .of_shift (h.erase_caller call) rfl

theorem serve (h : s.Twin o s') (call : CallId) (hc : c.Twin o c') (taking : c'.Taking)
    (held : ∀ m ∈ c'.returning, ∃ slot', s'.slots.get? (c'.keyOf m.1) = some slot')
    (id : ResourceId) (ticket : Nat) (budget : Option Nat) (slot' : Slot) :
    (s.serve call c id (ticket + (o (c'.keyOf id)).ticket) budget
      (slot'.shift (o (c'.keyOf id)))).service.Twin o
        (s'.serve call c' id ticket budget slot').service ∧
      (s.serve call c id (ticket + (o (c'.keyOf id)).ticket) budget
        (slot'.shift (o (c'.keyOf id)))).facts =
        (s'.serve call c' id ticket budget slot').facts.map (Fact.shift o) := by
  have htake := hc.take taking id (slot'.grant c'.party.owners call).1.serial
  obtain ⟨taken, rfl, -⟩ := hc
  simp only [Service.serve, Slot.grant_shift, List.map_cons, shift_announce, h.announce_eq]
  refine ⟨?_, rfl⟩
  refine (h.insert_slot (c'.keyOf id) (slot'.grant c'.party.owners call).2).insert_caller call htake
    fun m hm => ?_
  rcases Caller.mem_returning_take taking hm with hm | rfl
  · obtain ⟨slot, hslot⟩ := held m hm
    exact Dict.get?_insert_of_get? hslot
  · exact ⟨_, Dict.get?_insert_self _ _ _⟩

/-- The slots of a resource are the same but for the numbers, and if one has to be made, they are
now. -/
theorem slotFor (h : s.Twin o s') (hqueued : s'.Queued) (hkeyed : Keyed s.slots)
    (hsound : ∀ key slot, s.slots.get? key = some slot → slot.Sound) (call : CallId)
    (t : ResourceType) (id : ResourceId)
    (huniform : ∀ slot, s.slots.get? (t.name, id) = some slot →
      slot.capacity = t.capacity ∧ slot.sharingMode = t.sharingMode) :
    ∃ o' found' made made', s.Twin o' s' ∧
      s.slotFor call t id = (found'.shift (o' (t.name, id)), made) ∧
      s'.slotFor call t id = (found', made') ∧ visible made = [] ∧ visible made' = [] := by
  unfold Service.slotFor
  cases hslot' : s'.slots.get? (t.name, id) with
  | some slot' =>
    rw [h.present _ _ hslot']
    exact ⟨o, slot', [], [], h, rfl, rfl, rfl, rfl⟩
  | none =>
    have hmade : visible [⟨call, .opened (t.name, id) (Slot.fresh t id)⟩] = [] := rfl
    cases hslot : s.slots.get? (t.name, id) with
    | none =>
      refine ⟨Function.update o (t.name, id) .zero, Slot.fresh t id, _, _,
        h.reshift hslot' hqueued _, ?_, rfl, hmade, hmade⟩
      rw [Function.update_self, Slot.shift_zero]
    | some slot =>
      obtain ⟨hcapacity, hmode⟩ := huniform slot hslot
      have hidle := h.missing _ _ hslot' hslot
      refine ⟨Function.update o (t.name, id) ⟨slot.nextSerial, slot.nextTicket⟩,
        Slot.fresh t id, [], _, h.reshift hslot' hqueued _, ?_, rfl, rfl, hmade⟩
      rw [Function.update_self, ← hidle.eq_shift_fresh (hsound _ slot hslot) (hkeyed _ slot hslot)
        hcapacity hmode]

theorem enter_of_found (h : s.Twin o s') (hc : c.Twin o c') (htaking : c'.Taking)
    (held : ∀ m ∈ c'.returning, ∃ slot', s'.slots.get? (c'.keyOf m.1) = some slot')
    {id : ResourceId} {found' : Slot} {made made' : List Fact}
    (hfound : s.slotFor call c.type id = (found'.shift (o (c'.keyOf id)), made))
    (hfound' : s'.slotFor call c'.type id = (found', made')) (hmade : visible made = [])
    (hmade' : visible made' = []) : (s.enter call c id).Twin excused (s'.enter call c' id) := by
  have hwait := hc.wait htaking id found'.enqueue.1
  have hserve := h.serve call hc htaking held id found'.enqueue.1
  have hserves := Slot.serves_shift (s := found'.enqueue.2) (o := o (c'.keyOf id))
    (n := found'.enqueue.1)
  have hafter : Instant.after? s.clock = Instant.after? s'.clock := congrArg _ h.clock
  have hbudget : c.goal.budget c.began s.clock = c'.goal.budget c'.began s'.clock := by
    rw [hc.goal_eq, hc.began_eq, h.clock]
  obtain ⟨taken, rfl, -⟩ := hc
  simp only [Service.enter, hafter, hbudget, hfound, hfound', Slot.enqueue_shift,
    Slot.length_queue_shift]
  by_cases hnow : found'.enqueue.2.Serves found'.enqueue.1
  · rw [if_pos (hserves.2 hnow), if_pos hnow]
    obtain ⟨hservice, hfacts⟩ := hserve (c'.goal.budget c'.began s'.clock) found'.enqueue.2
    refine .of_shift hservice ?_
    rw [List.map_append, visible_append, visible_append, visible_map_shift, hmade, hmade',
      List.map_cons, hfacts]
    rfl
  · rw [if_neg (mt hserves.1 hnow), if_neg hnow]
    refine .of_shift ((h.insert_slot (c'.keyOf id) found'.enqueue.2).insert_caller call
      (hwait _ _) ?_) ?_
    · intro m hm
      rw [Caller.returning_wait htaking] at hm
      obtain ⟨slot, hslot⟩ := held m hm
      exact Dict.get?_insert_of_get? hslot
    · rw [List.map_append, visible_append, visible_append, visible_map_shift, hmade, hmade']
      rfl

theorem giveUp (h : s.Twin o s') (hc : c.Twin o c') (htaking : c'.Taking)
    (held : ∀ m ∈ c'.returning, ∃ slot', s'.slots.get? (c'.keyOf m.1) = some slot')
    (id : ResourceId) (ticket : Nat) (budget : Option Nat) (slot' : Slot) :
    (s.giveUp call c id (ticket + (o (c'.keyOf id)).ticket) budget
      (slot'.shift (o (c'.keyOf id)))).Twin excused (s'.giveUp call c' id ticket budget slot') := by
  have hslots := h.insert_slot (c'.keyOf id) (slot'.leave ticket)
  have hhalt {timeout : Nat} {spending : GroupTimeout} {detailed : Bool}
      (group : c'.goal = .allOrNone timeout spending detailed) := hc.halt htaking group id
  obtain ⟨taken, rfl, -⟩ := hc
  have hgoal : (c'.shift o taken).goal = c'.goal := rfl
  simp only [Service.giveUp, Slot.leave_shift, hgoal]
  split
  · rename_i group
    refine .of_shift (hslots.insert_caller call (hhalt group) fun m hm => ?_) rfl
    obtain ⟨slot, hslot⟩ := held m (Caller.returning_of_group group htaking ▸ hm)
    exact Dict.get?_insert_of_get? hslot
  · exact .of_shift (hslots.erase_caller call) rfl

theorem doze (h : s.Twin o s') (hc : c.Twin o c') (id : ResourceId) (ticket : Nat) (slot' : Slot) :
    (s.doze c id (ticket + (o (c'.keyOf id)).ticket) (slot'.shift (o (c'.keyOf id)))).Twin excused
      (s'.doze c' id ticket slot') := by
  have hkey : c.keyOf id = c'.keyOf id := by rw [Caller.keyOf, hc.type_eq, Caller.keyOf]
  simp only [Service.doze, Slot.doze_shift, hkey]
  exact .of_shift (h.insert_slot (c'.keyOf id) (slot'.doze ticket)) rfl

/-- Where both have the slot, the same is given back, or neither can give it back. -/
theorem giveBack (h : s.Twin o s') {key : Key} {slot' : Slot}
    (found : s'.slots.get? key = some slot') {p q : Holding → Bool}
    (hp : ∀ g : Holding, p (g.shift (o key).serial) = q g) (call : CallId) (party : Party) :
    (slot'.release? q = none ∧ s.giveBack call key party p =
      .error (.notOwner slot'.key party.listed) ∧
      s'.giveBack call key party q = .error (.notOwner slot'.key party.listed)) ∨
    ∃ t t', s.giveBack call key party p = .ok t ∧ s'.giveBack call key party q = .ok t' ∧
      t.service.Twin o t'.service ∧ t.facts = t'.facts.map (Fact.shift o) ∧
      t.service.callers = s.callers ∧ t'.service.callers = s'.callers := by
  have hrelease := Slot.release_shift (s := slot') (o := o key) hp
  simp only [Service.giveBack, h.present key slot' found, found, hrelease]
  cases slot'.release? q with
  | none => exact .inl ⟨rfl, rfl, rfl⟩
  | some r =>
    refine .inr ⟨_, _, rfl, rfl, h.insert_slot key r.2, ?_, rfl, rfl⟩
    rw [List.map_cons, shift_announce, h.announce_eq]
    rfl

theorem undo (h : s.Twin o s') (working' : s'.callers.get? call = some c') (hc : c.Twin o c')
    {failed : ResourceId} {member : ResourceId × Nat} {left : List (ResourceId × Nat)}
    {error : Option LockError} (stage : c'.stage = .undoing failed (member :: left) error) :
    (s.undo call c failed (c'.shiftPermit o member) (left.map (c'.shiftPermit o)) error).Twin
      excused
      (s'.undo call c' failed member left error) := by
  have hreturning : c'.returning = member :: left := Caller.returning_of_undoing stage
  have hneeded := h.needed call c' working'
  rw [hreturning] at hneeded
  obtain ⟨slot', found⟩ := hneeded member List.mem_cons_self
  have hundo := fun error => hc.undo failed left error
  rw [hc.party_eq] at hundo
  have hleft : ∀ m ∈ left, m ∈ c'.returning := fun m hm => hreturning ▸ List.mem_cons_of_mem _ hm
  have hback := h.giveBack found (p := fun g => g.serial = (c'.shiftPermit o member).2)
    (q := fun g => g.serial = member.2) (fun g => by simp [Holding.shift, Caller.shiftPermit])
    call c'.party
  have hkey : c.keyOf (c'.shiftPermit o member).1 = c'.keyOf member.1 := by
    rw [Caller.keyOf, hc.type_eq]
    rfl
  unfold Service.undo
  rw [hkey, hc.party_eq]
  rcases hback with ⟨-, hfails, hfails'⟩ | ⟨t, t', hok, hok', hservice, hfacts, -, hcallers⟩
  · simp only [hfails, hfails']
    refine .of_shift (h.insert_caller call (hundo _) fun m hm => ?_) rfl
    exact h.needed call c' working' m (hleft m hm)
  · simp only [hok, hok']
    refine .of_shift (hservice.insert_caller call (hundo error) fun m hm => ?_)
      (congrArg visible hfacts)
    exact hservice.needed call c' (by rw [hcallers, working']) m (hleft m hm)

theorem undone (h : s.Twin o s') (hc : c.Twin o c') (failed : ResourceId)
    (error : Option LockError) :
    (s.undone call c failed error).Twin excused (s'.undone call c' failed error) := by
  unfold Service.undone
  cases error with
  | some e => exact h.finish call _
  | none =>
    have hids := hc.ids_eq
    obtain ⟨taken, rfl, -⟩ := hc
    simp only [hids]
    refine .of_shift (h.erase_caller call) ?_
    rw [List.map_append, List.map_cons, shift_announce, h.announce_eq]
    rfl

/-- A caller comes to its next resource. -/
theorem enter (h : s.Twin o s') (hqueued : s'.Queued) (hkeyed : Keyed s.slots)
    (hsound : ∀ key slot, s.slots.get? key = some slot → slot.Sound) (huniform : s.Uniform)
    (working : s.callers.get? call = some c) (working' : s'.callers.get? call = some c')
    (stage : c'.stage = .next) (id : ResourceId) (rest : List ResourceId) :
    (s.enter call { c with rest } id).Twin excused (s'.enter call { c' with rest } id) := by
  obtain ⟨c₀, working₀, hc⟩ := h.caller working'
  cases working.symm.trans working₀
  obtain ⟨o', found', made, made', h', hfound, hfound', hmade, hmade'⟩ :=
    h.slotFor hqueued hkeyed hsound call c'.type id fun slot hslot => by
      rw [← hc.type_eq] at hslot ⊢
      exact huniform call c id slot working hslot
  rw [← hc.type_eq] at hfound
  obtain ⟨c₁, working₁, hc'⟩ := h'.caller working'
  cases working.symm.trans working₁
  have hnext := hc'.next rest
  simp only [stage, hc'.stage_next stage] at hnext ⊢
  refine h'.enter_of_found hnext (Caller.taking_next rfl) (fun m hm => ?_) ?_ hfound' hmade hmade'
  · refine h.needed call c' working' m ?_
    simpa only [Caller.returning, stage] using hm
  · rw [hfound, hc.type_eq]
    rfl

/-- A caller that stands in a queue is served, gives up, goes back to sleep or sleeps on. -/
theorem resume (h : s.Twin o s') (hqueued : s'.Queued) (working' : s'.callers.get? call = some c')
    (hc : c.Twin o c') {id : ResourceId} {ticket : Nat} {budget deadline : Option Nat}
    (stage : c'.stage = .waiting id ticket budget deadline) :
    Option.Rel (Turn.Twin excused)
      (s.resume call c id (ticket + (o (c'.keyOf id)).ticket) budget deadline)
      (s'.resume call c' id ticket budget deadline) := by
  obtain ⟨slot', found⟩ := hqueued call _ ticket
    (waits?_eq_some.2 ⟨c', id, budget, deadline, working', stage, rfl⟩)
  have held := h.needed call c' working'
  have htaking := Caller.taking_waiting stage
  have hserves := Slot.serves_shift (s := slot') (o := o (c'.keyOf id)) (n := ticket)
  have hkey : c.keyOf id = c'.keyOf id := by rw [Caller.keyOf, hc.type_eq, Caller.keyOf]
  simp only [Service.resume, hkey, h.present _ _ found, found, h.clock, Slot.mem_awake_shift]
  split
  · by_cases hnow : slot'.Serves ticket
    · rw [if_pos (hserves.2 hnow), if_pos hnow]
      obtain ⟨hservice, hfacts⟩ := h.serve call hc htaking held id ticket budget slot'
      exact .some (.of_shift hservice (congrArg visible hfacts))
    · rw [if_neg (mt hserves.1 hnow), if_neg hnow]
      split
      · exact .some (h.giveUp hc htaking held id ticket budget slot')
      · exact .some (h.doze hc id ticket slot')
  · exact .none

/-- A caller has a move in one service where it has one in the other, and it is the same. -/
theorem move (h : s.Twin o s') (hqueued : s'.Queued) (hkeyed : Keyed s.slots)
    (hsound : ∀ key slot, s.slots.get? key = some slot → slot.Sound) (huniform : s.Uniform)
    (call : CallId) :
    Option.Rel (Turn.Twin excused) (s.move call) (s'.move call) := by
  unfold Service.move
  cases working' : s'.callers.get? call with
  | none =>
    rw [h.caller_none working']
    exact .none
  | some c' =>
    obtain ⟨c, working, hc⟩ := h.caller working'
    rw [working]
    cases stage : c'.stage with
    | next =>
      simp only [hc.stage_next stage, stage, hc.rest_eq]
      cases c'.rest with
      | nil =>
        rw [hc.goal_eq]
        exact .some (h.finish call _)
      | cons id rest =>
        have henter : Turn.Twin excused _ _ :=
          h.enter hqueued hkeyed hsound huniform working working' stage id rest
        simp only [stage, hc.stage_next stage] at henter
        exact .some henter
    | waiting id ticket budget deadline =>
      simp only [hc.stage_waiting stage, stage]
      exact h.resume hqueued working' hc stage
    | undoing failed left error =>
      simp only [hc.stage_undoing stage, stage]
      cases left with
      | nil => exact .some (h.undone hc failed error)
      | cons member left => exact .some (h.undo working' hc stage)

theorem resolveFor_eq (h : s.Twin o s') (typeName : String) (party : Party) :
    s.resolveFor typeName party = s'.resolveFor typeName party := by
  rw [resolveFor, resolveFor, h.registry]

theorem answer (h : s.Twin o s') (call : CallId) (reply : Reply) :
    (s.answer call reply).Twin excused (s'.answer call reply) := .of_shift h rfl

theorem engage (h : s.Twin o s') (call : CallId) (typeName : String) (ids : List ResourceId)
    (party : Party)
    (goal : Goal) : (s.engage call typeName ids party goal).Twin excused
      (s'.engage call typeName ids party goal) := by
  unfold Service.engage
  rw [h.resolveFor_eq]
  cases s'.resolveFor typeName party with
  | error e => exact h.answer call _
  | ok type =>
    have hbegun (began : Nat) : Caller.Twin o ⟨type, party, goal, began, distinct ids, [], .next⟩
        ⟨type, party, goal, began, distinct ids, [], .next⟩ := .begun o rfl rfl
    have hcaller : Caller.Twin o ⟨type, party, goal, s.clock, distinct ids, [], .next⟩
        ⟨type, party, goal, s'.clock, distinct ids, [], .next⟩ := by
      rw [h.clock]
      exact hbegun s'.clock
    refine .of_shift (h.insert_caller call hcaller fun m hm => ?_) rfl
    exact absurd (Caller.mem_taken_of_returning (Caller.taking_next rfl) hm) List.not_mem_nil

/-- Permits are given back one resource after the other alike, until the first that nobody holds. -/
theorem giveBackAll (h : s.Twin o s') (hkeyed : Keyed s.slots) (call : CallId) (typeName : String)
    (party : Party) {ids : List ResourceId} (hids : ids.Nodup) :
    (s.giveBackAll call typeName party ids).service.Twin o
        (s'.giveBackAll call typeName party ids).service ∧
      List.Forall₂ (fun f f' => f = f'.shift o ∨ ∃ id ∈ ids,
        holdingsAt s.slots (typeName, id) = [] ∧
          f = ⟨call, .answered (.error (.notOwner (typeName, id) party.listed))⟩ ∧
          f' = ⟨call, .answered (.error (.neverLocked (typeName, id)))⟩)
        (visible (s.giveBackAll call typeName party ids).facts)
        (visible (s'.giveBackAll call typeName party ids).facts) := by
  induction ids generalizing s s' with
  | nil => exact ⟨h, .cons (.inl rfl) .nil⟩
  | cons id ids ih =>
    obtain ⟨hid, hids⟩ := List.nodup_cons.1 hids
    unfold Service.giveBackAll
    cases found : s'.slots.get? (typeName, id) with
    | none =>
      have hfails' : s'.giveBack call (typeName, id) party (fun g => party.Holds g) =
          .error (.neverLocked (typeName, id)) := by
        simp only [Service.giveBack, found]
      cases hslot : s.slots.get? (typeName, id) with
      | none =>
        have hfails : s.giveBack call (typeName, id) party (fun g => party.Holds g) =
            .error (.neverLocked (typeName, id)) := by
          simp only [Service.giveBack, hslot]
        simp only [hfails, hfails']
        exact ⟨h, .cons (.inl rfl) .nil⟩
      | some slot =>
        have hnobody : slot.holdings = [] := (h.missing _ _ found hslot).2.1
        have hfails : s.giveBack call (typeName, id) party (fun g => party.Holds g) =
            .error (.notOwner (typeName, id) party.listed) := by
          simp only [Service.giveBack, hslot, Slot.release?, hnobody, List.find?_nil,
            hkeyed _ slot hslot]
        simp only [hfails, hfails']
        refine ⟨h, .cons (.inr ⟨id, List.mem_cons_self, ?_, rfl, rfl⟩) .nil⟩
        rw [holdingsAt_eq hslot, hnobody]
    | some slot' =>
      rcases h.giveBack found (p := fun g => party.Holds g)
        (q := fun g => party.Holds g) (fun _ => rfl)
        call party with ⟨-, hfails, hfails'⟩ | ⟨t, t', hok, hok', hservice, hfacts, -⟩
      · simp only [hfails, hfails']
        exact ⟨h, .cons (.inl rfl) .nil⟩
      · simp only [hok, hok', Turn.andThen, visible_append]
        -- what was given back before is on another resource
        obtain ⟨_, _, slot, _, found, released, -, rfl⟩ := giveBack_ok hok
        have hne {id' : ResourceId} (hid' : id' ∈ ids) : (typeName, id) ≠ (typeName, id') := by
          rintro heq
          cases heq
          exact hid hid'
        have hentry : Entry s.slots ⟨call, .returned (typeName, id) _ party⟩ _ :=
          .returned found released
        have hkeyed' := hentry.keyed hkeyed
        obtain ⟨hmore, hmorefacts⟩ := ih hservice hkeyed' hids
        refine ⟨hmore, List.rel_append ?_ ?_⟩
        · rw [hfacts, visible_map_shift, List.forall₂_map_left_iff]
          exact List.forall₂_same.2 fun f _ => .inl rfl
        · refine hmorefacts.imp fun f f' hrel => hrel.imp_right ?_
          rintro ⟨id', hid', hnobody, hf⟩
          rw [holdingsAt_insert, if_neg (hne hid')] at hnobody
          exact ⟨id', List.mem_cons_of_mem _ hid', hnobody, hf⟩

theorem unlockAll (h : s.Twin o s') (hkeyed : Keyed s.slots) (call : CallId) {request : Request}
    {typeName : String} {ids : List ResourceId} {party : Party}
    (returns : request.returns? = some (typeName, ids, party)) :
    (s.unlockAll call typeName ids party).Twin ((Action.submit call request).Reveals s)
      (s'.unlockAll call typeName ids party) := by
  unfold Service.unlockAll
  rw [h.resolveFor_eq]
  cases s'.resolveFor typeName party with
  | error e => exact h.answer call _
  | ok type =>
    obtain ⟨hservice, hfacts⟩ := h.giveBackAll hkeyed call typeName party (nodup_distinct ids)
    refine ⟨o, hservice, hfacts.imp fun f f' hrel => hrel.imp_right ?_⟩
    rintro ⟨id, hid, hnobody, rfl, rfl⟩
    exact .unlock call returns (mem_distinct.1 hid) hnobody

/-- A free slot is shown in one service, and in the other none that was ever locked. -/
theorem slotState (h : s.Twin o s') (key : Key) :
    s.slotState key = s'.slotState key ∨ ∃ slot, s.slots.get? key = some slot ∧ slot.Idle ∧
      s.slotState key = .ok slot.state ∧ s'.slotState key = .error (.neverLocked key) := by
  unfold Service.slotState
  rw [h.registry]
  cases s'.registry.resolve key.1 with
  | error e => exact .inl rfl
  | ok type =>
    cases found : s'.slots.get? key with
    | some slot' =>
      left
      simp only [h.present key slot' found, Slot.state_shift]
    | none =>
      cases hslot : s.slots.get? key with
      | none => exact .inl rfl
      | some slot => exact .inr ⟨slot, rfl, h.missing key slot found hslot, rfl, rfl⟩

theorem isLocked_eq (h : s.Twin o s') (key : Key) : s.isLocked key = s'.isLocked key := by
  unfold isLocked
  rcases h.slotState key with heq | ⟨slot, -, hidle, hfree, hnone⟩
  · rw [heq]
  · have hheld : slot.state.held?.any (0 < ·) = false := by
      have havailable : slot.state.available = slot.state.capacity := hidle.1
      simp [SlotState.held?, havailable]
    rw [hfree, hnone]
    simp only [hheld]

/-- An eviction drops the idle slots that are missing already. -/
theorem evictIdle (h : s.Twin o s') (call : CallId)
    (hnothing : ∀ x c', s'.callers.get? x = some c' → c'.returning = []) :
    (s.evictIdle call).Twin ((Action.submit call .evictIdle).Reveals s) (s'.evictIdle call) := by
  have hservice : (s.evictIdle call).service.Twin o (s'.evictIdle call).service := { h with
    present := by
      intro key slot' hslot'
      obtain ⟨found, hbusy⟩ := get?_evictIdle_eq_some.1 hslot'
      exact get?_evictIdle_eq_some.2 ⟨h.present key slot' found, mt Slot.idle_shift.1 hbusy⟩
    missing := by
      intro key slot hnone hslot
      obtain ⟨found, hbusy⟩ := get?_evictIdle_eq_some.1 hslot
      cases found' : s'.slots.get? key with
      | none => exact h.missing key slot found' found
      | some slot' =>
        cases found.symm.trans (h.present key slot' found')
        cases hnone.symm.trans (get?_evictIdle_eq_some.2 ⟨found', mt Slot.idle_shift.2 hbusy⟩)
    needed := by
      intro x c' hc' m hm
      rw [hnothing x c' hc'] at hm
      exact absurd hm List.not_mem_nil }
  exact ⟨o, hservice, .cons (.inr (.evicted ..)) (.cons (.inr (.evictIdle ..)) .nil)⟩

/-- A request finds and leaves the same but for what it reveals. -/
theorem submit (h : s.Twin o s') (hkeyed : Keyed s.slots) (call : CallId) (request : Request)
    (hnothing : request = .evictIdle → ∀ x c', s'.callers.get? x = some c' → c'.returning = []) :
    (s.submit call request).Twin ((Action.submit call request).Reveals s)
      (s'.submit call request) := by
  cases request with
  | lock | lockMany | tryLock => exact h.engage call _ _ _ _
  | tryLockMany | tryLockManyDetailed =>
    simp only [Service.submit, h.groupTimeout]
    exact h.engage call _ _ _ _
  | unlock | unlockMany => exact h.unlockAll hkeyed call rfl
  | evictIdle => exact h.evictIdle call (hnothing rfl)
  | createType type =>
    simp only [Service.submit, createType, h.registry]
    cases s'.registry.register type with
    | error e => exact h.answer call _
    | ok r =>
      have hservice : { s with registry := r.1 }.Twin o { s' with registry := r.1 } :=
        { h with registry := rfl }
      exact .of_shift hservice rfl
  | slotState key =>
    simp only [Service.submit]
    rcases h.slotState key with heq | ⟨slot, hslot, hidle, hfree, hnone⟩
    · rw [heq]
      exact h.answer call _
    · rw [hfree, hnone]
      exact ⟨o, h, .cons (.inr (.slotState call hslot hidle)) .nil⟩
  | isLocked key =>
    simp only [Service.submit, h.isLocked_eq]
    exact h.answer call _
  | slotCount => exact ⟨o, h, .cons (.inr (.slotCount call _ _)) .nil⟩
  | findType name =>
    simp only [Service.submit, h.registry]
    exact h.answer call _
  | typeNames =>
    simp only [Service.submit, h.registry]
    exact h.answer call _
  | groupTimeout =>
    simp only [Service.submit, h.groupTimeout]
    exact h.answer call _
  | listen event =>
    have hservice : (s.listen call event).service.Twin o (s'.listen call event).service :=
      { h with listeners := congrArg (· ++ _) h.listeners, listening := rfl }
    exact .of_shift hservice rfl
  | removeListener listener =>
    have hservice : (s.removeListener call listener).service.Twin o
        (s'.removeListener call listener).service :=
      { h with listeners := congrArg (List.filter _) h.listeners }
    refine .of_shift hservice ?_
    simp only [Service.submit, Service.removeListener, h.listeners]
    rfl

/-- Whatever happens next is the same for both but for what it reveals. -/
theorem act (h : s.Twin o s') (hqueued : s'.Queued) (hkeyed : Keyed s.slots)
    (hsound : ∀ key slot, s.slots.get? key = some slot → slot.Sound) (huniform : s.Uniform)
    (a : Action)
    (hnothing : ∀ call, a = .submit call .evictIdle →
      ∀ x c', s'.callers.get? x = some c' → c'.returning = []) :
    (s.act a).Twin (a.Reveals s) (s'.act a) := by
  cases a with
  | submit call request => exact h.submit hkeyed call request fun heq => hnothing call (by rw [heq])
  | move call =>
    have hrel : Option.Rel (Turn.Twin ((Action.move call).Reveals s)) (s.move call)
        (s'.move call) :=
      h.move hqueued hkeyed hsound huniform call
    simp only [Service.act]
    generalize s.move call = m at hrel ⊢
    generalize s'.move call = m' at hrel ⊢
    cases hrel with
    | none => exact .of_shift h rfl
    | some htwin => exact htwin
  | pass d =>
    have hservice : (s.act (.pass d)).service.Twin o (s'.act (.pass d)).service :=
      { h with clock := congrArg (· + d) h.clock }
    exact .of_shift hservice rfl

/-- A service is its own twin after an eviction, unless a permit on a slot that is dropped may have
to be given back. -/
theorem evicted {s : Service} (call : CallId)
    (hnothing : ∀ x c, s.callers.get? x = some c → c.returning = []) :
    s.Twin (fun _ => .zero) (s.evictIdle call).service where
  registry := rfl
  groupTimeout := rfl
  listeners := rfl
  listening := rfl
  clock := rfl
  keys := rfl
  callers := by
    intro x
    change Option.Rel _ (s.callers.get? x) (s.callers.get? x)
    cases s.callers.get? x with
    | none => exact .none
    | some c => exact .some (.refl c)
  present := by
    intro key slot hslot
    rw [Slot.shift_zero]
    exact (get?_evictIdle_eq_some.1 hslot).1
  missing := by
    intro key slot hnone hslot
    by_contra hbusy
    cases hnone.symm.trans (get?_evictIdle_eq_some.2 ⟨hslot, hbusy⟩)
  needed := by
    intro x c hc m hm
    rw [hnothing x c hc] at hm
    exact absurd hm List.not_mem_nil

end Service.Twin

end FairLocks
