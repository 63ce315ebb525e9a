import FairLocks.Proofs.Effects
import FairLocks.Proofs.Group
import FairLocks.Proofs.Undrawn
import FairLocks.Session

/-!
# What a call sees and what it touches

A call that locks, unlocks or inspects comes to the resources that it names and to no other. What it
does is told by their slots alone, apart from the registry, the listeners and the clock, which it
leaves alone; and whatever it does, it changes no other slot and no other caller.
-/
namespace FairLocks

set_option autoImplicit false

/-- The resources that a request to lock, to unlock or to inspect names. -/
def Request.keys? : Request → Option (List Key)
  | lock typeName id _ => some [(typeName, id)]
  | lockMany typeName ids _ => some (ids.map fun id => (typeName, id))
  | unlock typeName id _ => some [(typeName, id)]
  | unlockMany typeName ids _ => some (ids.map fun id => (typeName, id))
  | tryLock typeName id _ _ => some [(typeName, id)]
  | tryLockMany typeName ids _ _ => some (ids.map fun id => (typeName, id))
  | tryLockManyDetailed typeName ids _ _ => some (ids.map fun id => (typeName, id))
  | slotState key => some [key]
  | isLocked key => some [key]
  | _ => none

/-- The resources that the caller has come to or may yet come to. -/
def Caller.ids (c : Caller) : List ResourceId :=
  c.rest ++ c.taken.map Prod.fst ++
    match c.stage with
    | .next => []
    | .waiting id _ _ _ => [id]
    | .undoing _ left _ => left.map Prod.fst

/-- If the call is at work, it comes to none but these resources. -/
def Service.Names (keys : List Key) (call : CallId) (s : Service) : Prop :=
  ∀ c, s.callers.get? call = some c → ∀ id ∈ c.ids, c.keyOf id ∈ keys

/-- The services differ at most in the slots of other resources than these. -/
def Service.Agree (keys : List Key) (s s' : Service) : Prop :=
  ∃ slots, s' = { s with slots } ∧ ∀ key ∈ keys, slots.get? key = s.slots.get? key

/-- The turns leave the same facts, and services that differ at most in other slots. -/
structure Turn.Agree (keys : List Key) (t t' : Turn) : Prop where
  facts : t'.facts = t.facts
  service : t.service.Agree keys t'.service

/-- From the first service to the second at most slots of these resources have changed, and the call
itself. -/
structure Service.Confined (keys : List Key) (call : CallId) (s s' : Service) : Prop where
  frame : ∃ slots callers, s' = { s with slots, callers }
  slots : ∀ key, key ∉ keys → s'.slots.get? key = s.slots.get? key
  others : s'.callers.erase call = s.callers.erase call

namespace Service.Confined

variable {keys : List Key} {call : CallId} {s s' s'' : Service}

theorem refl (keys : List Key) (call : CallId) (s : Service) : s.Confined keys call s :=
  ⟨⟨_, _, rfl⟩, fun _ _ => rfl, rfl⟩

theorem trans (h : s.Confined keys call s') (h' : s'.Confined keys call s'') :
    s.Confined keys call s'' where
  frame := by
    obtain ⟨_, _, rfl⟩ := h.frame
    obtain ⟨_, _, rfl⟩ := h'.frame
    exact ⟨_, _, rfl⟩
  slots := fun key hkey => (h'.slots key hkey).trans (h.slots key hkey)
  others := h'.others.trans h.others

/-- The slot of one of the resources changes, and the call goes on. -/
theorem insert {key : Key} (hkey : key ∈ keys) (slot : Slot) (c : Caller) :
    s.Confined keys call
      { s with slots := s.slots.insert key slot, callers := s.callers.insert call c } where
  frame := ⟨_, _, rfl⟩
  slots := by
    intro key' hkey'
    refine Dict.get?_insert_of_ne _ _ ?_
    rintro rfl
    exact hkey' hkey
  others := Dict.erase_insert_self _ _ _

theorem insert_slot {key : Key} (hkey : key ∈ keys) (slot : Slot) :
    s.Confined keys call { s with slots := s.slots.insert key slot } where
  frame := ⟨_, _, rfl⟩
  slots := by
    intro key' hkey'
    refine Dict.get?_insert_of_ne _ _ ?_
    rintro rfl
    exact hkey' hkey
  others := rfl

theorem insert_caller (c : Caller) :
    s.Confined keys call { s with callers := s.callers.insert call c } :=
  ⟨⟨_, _, rfl⟩, fun _ _ => rfl, Dict.erase_insert_self _ _ _⟩

theorem erase_caller : s.Confined keys call { s with callers := s.callers.erase call } :=
  ⟨⟨_, _, rfl⟩, fun _ _ => rfl, Dict.erase_of_get?_eq_none (Dict.get?_erase_self _ _)⟩

/-- If the call is at work neither before nor after, nothing but slots has changed. -/
theorem callers_eq (h : s.Confined keys call s') (idle : s.callers.get? call = none)
    (idle' : s'.callers.get? call = none) : s'.callers = s.callers := by
  rw [← Dict.erase_of_get?_eq_none idle, ← Dict.erase_of_get?_eq_none idle', h.others]

end Service.Confined

namespace Service.Names

variable {keys : List Key} {call : CallId} {s : Service} {slots : Dict Key Slot}

theorem of_idle (idle : s.callers.get? call = none) : s.Names keys call := by
  intro c hc
  cases idle.symm.trans hc

theorem erase : { s with slots, callers := s.callers.erase call }.Names keys call :=
  of_idle (Dict.get?_erase_self _ _)

/-- A caller goes on as one that comes to no other resource. -/
theorem insert {c c' : Caller} (hs : s.Names keys call) (working : s.callers.get? call = some c)
    (type : c'.type = c.type) (hids : c'.ids ⊆ c.ids) :
    { s with slots, callers := s.callers.insert call c' }.Names keys call := by
  intro c'' hc'' id hid
  cases (Dict.get?_insert_self _ _ _).symm.trans hc''
  rw [Caller.keyOf, type]
  exact hs c working id (hids hid)

end Service.Names

/-- A move changes no slot but of a resource that its caller came to. -/
theorem Moved.confined {keys : List Key} {call : CallId} {s : Service} {t : Turn}
    (h : Moved s call t)
    (hn : s.Names keys call) : s.Confined keys call t.service ∧ t.service.Names keys call := by
  cases h with
  | succeeds => exact ⟨.erase_caller, .erase⟩
  | @enters c id rest working stage next =>
    have hkey : c.keyOf id ∈ keys := hn c working id (by simp [Caller.ids, next])
    simp only [Service.enter]
    split
    · exact ⟨.insert hkey _ _, hn.insert working rfl (by simp [Caller.ids, stage, next])⟩
    · exact ⟨.insert hkey _ _, hn.insert working rfl (by simp [Caller.ids, stage, next])⟩
  | @takes c id _ _ _ _ working stage =>
    have hkey : c.keyOf id ∈ keys := hn c working id (by simp [Caller.ids, stage])
    exact ⟨.insert hkey _ _, hn.insert working rfl (by simp [Caller.ids, stage])⟩
  | @givesUp c id _ _ _ _ working stage =>
    have hkey : c.keyOf id ∈ keys := hn c working id (by simp [Caller.ids, stage])
    simp only [Service.giveUp]
    split
    · exact ⟨.insert hkey _ _, hn.insert working rfl (by simp [Caller.ids, stage])⟩
    · exact ⟨(Service.Confined.insert_slot hkey _).trans .erase_caller, .erase⟩
  | @dozes c id _ _ _ _ working stage =>
    have hkey : c.keyOf id ∈ keys := hn c working id (by simp [Caller.ids, stage])
    exact ⟨.insert_slot hkey _, hn⟩
  | @undoes c failed member left error working stage =>
    have hkey : c.keyOf member.1 ∈ keys := hn c working member.1 (by simp [Caller.ids, stage])
    have hleft : { c with stage := .undoing failed left error }.ids ⊆ c.ids := by
      intro id hid
      simp only [Caller.ids, stage, List.mem_append, List.map_cons, List.mem_cons] at hid ⊢
      tauto
    simp only [Service.undo]
    split
    · rename_i t ht
      obtain ⟨_, _, slot', _, -, -, -, rfl⟩ := Service.giveBack_ok ht
      exact ⟨.insert hkey _ _, hn.insert working rfl hleft⟩
    · exact ⟨.insert_caller _, hn.insert working rfl hleft⟩
  | undone =>
    unfold Service.undone
    split <;> exact ⟨.erase_caller, .erase⟩

namespace Service

variable {keys : List Key} {call : CallId} {s s' : Service}

/-- However far the call is driven, it changes no slot but of resources that it comes to. -/
theorem confined_driveWithin (n : Nat) (hn : s.Names keys call) :
    s.Confined keys call (driveWithin call n s).service := by
  induction n generalizing s with
  | zero => exact .refl _ _ _
  | succ n ih =>
    unfold driveWithin
    split
    · exact .refl _ _ _
    · rename_i t ht
      obtain ⟨hmove, hn'⟩ := (moved ht).confined hn
      exact hmove.trans (ih hn')

theorem confined_giveBackAll {typeName : String} {party : Party} {ids : List ResourceId}
    (hids : ∀ id ∈ ids, (typeName, id) ∈ keys) :
    s.Confined keys call (s.giveBackAll call typeName party ids).service where
  frame := by
    obtain ⟨slots, hslots⟩ := frame_giveBackAll s call typeName party ids
    exact ⟨slots, s.callers, hslots⟩
  slots := fun key hkey => get?_giveBackAll s fun id hid heq => hkey (heq ▸ hids id hid)
  others := by
    obtain ⟨slots, hslots⟩ := frame_giveBackAll s call typeName party ids
    rw [hslots]

theorem confined_engage {typeName : String} {ids : List ResourceId} {party : Party} {goal : Goal}
    (hr : s.registry.Sound) (idle : s.callers.get? call = none)
    (hids : ∀ id ∈ ids, (typeName, id) ∈ keys) :
    s.Confined keys call (s.engage call typeName ids party goal).service ∧
      (s.engage call typeName ids party goal).service.Names keys call := by
  unfold engage
  split
  · exact ⟨.refl _ _ _, .of_idle idle⟩
  · rename_i type htype
    refine ⟨.insert_caller _, fun c hc id hid => ?_⟩
    cases (Dict.get?_insert_self _ _ _).symm.trans hc
    have hname : type.name = typeName := (hr _ _ (resolveFor_ok htype)).1
    simp only [Caller.ids, List.map_nil, List.append_nil] at hid
    rw [Caller.keyOf, hname]
    exact hids id (mem_distinct.1 hid)

theorem confined_unlockAll {typeName : String} {ids : List ResourceId} {party : Party}
    (idle : s.callers.get? call = none) (hids : ∀ id ∈ ids, (typeName, id) ∈ keys) :
    s.Confined keys call (s.unlockAll call typeName ids party).service ∧
      (s.unlockAll call typeName ids party).service.Names keys call := by
  unfold unlockAll
  split
  · exact ⟨.refl _ _ _, .of_idle idle⟩
  · refine ⟨confined_giveBackAll fun id hid => hids id (mem_distinct.1 hid), .of_idle ?_⟩
    obtain ⟨slots, hslots⟩ := frame_giveBackAll s call typeName party (distinct ids)
    rw [hslots]
    exact idle

/-- A request changes no slot but of the resources that it names, and its call comes to no
others. -/
theorem confined_submit {request : Request} (hkeys : request.keys? = some keys)
    (hr : s.registry.Sound) (idle : s.callers.get? call = none) :
    s.Confined keys call (s.submit call request).service ∧
      (s.submit call request).service.Names keys call := by
  cases request with
  | lock | tryLock =>
    cases hkeys
    exact confined_engage hr idle (by simp)
  | lockMany | tryLockMany | tryLockManyDetailed =>
    cases hkeys
    exact confined_engage hr idle fun id hid => List.mem_map_of_mem hid
  | unlock =>
    cases hkeys
    exact confined_unlockAll idle (by simp)
  | unlockMany =>
    cases hkeys
    exact confined_unlockAll idle fun id hid => List.mem_map_of_mem hid
  | slotState | isLocked => exact ⟨.refl _ _ _, .of_idle idle⟩
  | createType | findType | typeNames | groupTimeout | slotCount | evictIdle | listen
  | removeListener =>
    cases hkeys

/-- A call that starts changes no slot but of the resources that it names. -/
theorem confined_start {request : Request} (hkeys : request.keys? = some keys)
    (hr : s.registry.Sound)
    (idle : s.callers.get? call = none) : s.Confined keys call (s.start call request).service := by
  obtain ⟨hsubmit, hn⟩ := confined_submit hkeys hr idle
  exact hsubmit.trans (confined_driveWithin _ hn)

end Service

namespace Service.Agree

variable {keys : List Key} {call : CallId} {s s' : Service} {c : Caller}

theorem get?_slots (h : s.Agree keys s') {key : Key} (hkey : key ∈ keys) :
    s'.slots.get? key = s.slots.get? key := by
  obtain ⟨slots, rfl, hslots⟩ := h
  exact hslots key hkey

theorem callers_eq (h : s.Agree keys s') : s'.callers = s.callers := by
  obtain ⟨slots, rfl, -⟩ := h
  rfl

/-- What is stored in both alike is stored alike. -/
theorem insert_slot (h : s.Agree keys s') (key : Key) (slot : Slot) :
    { s with slots := s.slots.insert key slot }.Agree keys
      { s' with slots := s'.slots.insert key slot } := by
  obtain ⟨slots, rfl, hslots⟩ := h
  refine ⟨_, rfl, fun key' hkey' => ?_⟩
  rw [Dict.get?_insert, Dict.get?_insert, hslots key' hkey']

theorem insert_caller (h : s.Agree keys s') (call : CallId) (c : Caller) :
    { s with callers := s.callers.insert call c }.Agree keys
      { s' with callers := s'.callers.insert call c } := by
  obtain ⟨slots, rfl, hslots⟩ := h
  exact ⟨slots, rfl, hslots⟩

theorem finish (h : s.Agree keys s') (call : CallId) (reply : Reply) :
    (s.finish call reply).Agree keys (s'.finish call reply) := by
  obtain ⟨slots, rfl, hslots⟩ := h
  exact ⟨rfl, slots, rfl, hslots⟩

theorem announce_eq (h : s.Agree keys s') (call : CallId) (kind : EventKind) (event : LockEvent) :
    s'.announce call kind event = s.announce call kind event := by
  obtain ⟨slots, rfl, -⟩ := h
  rfl

theorem serve (h : s.Agree keys s') (call : CallId) (c : Caller) (id : ResourceId) (ticket : Nat)
    (budget : Option Nat) (slot : Slot) :
    (s.serve call c id ticket budget slot).Agree keys (s'.serve call c id ticket budget slot) where
  facts := by
    unfold Service.serve
    rw [h.announce_eq]
  service := (h.insert_slot _ _).insert_caller _ _

theorem enter (h : s.Agree keys s') {id : ResourceId} (hkey : c.keyOf id ∈ keys) :
    (s.enter call c id).Agree keys (s'.enter call c id) := by
  have hslot := h.get?_slots hkey
  have hfound : s'.slotFor call c.type id = s.slotFor call c.type id := by
    unfold Service.slotFor
    rw [show s'.slots.get? (c.type.name, id) = s.slots.get? (c.type.name, id) from hslot]
  have hagree := h
  obtain ⟨slots, rfl, -⟩ := h
  simp only [Service.enter, hfound]
  split
  · have hserve := hagree.serve call c id (s.slotFor call c.type id).1.enqueue.1
      (c.goal.budget c.began s.clock) (s.slotFor call c.type id).1.enqueue.2
    exact ⟨congrArg (fun fs => _ ++ _ :: fs) hserve.facts, hserve.service⟩
  · exact ⟨rfl, (hagree.insert_slot _ _).insert_caller _ _⟩

theorem giveUp (h : s.Agree keys s') (id : ResourceId) (ticket : Nat) (budget : Option Nat)
    (slot : Slot) :
    (s.giveUp call c id ticket budget slot).Agree keys
      (s'.giveUp call c id ticket budget slot) := by
  simp only [Service.giveUp]
  split
  · exact ⟨rfl, (h.insert_slot _ _).insert_caller _ _⟩
  · exact ⟨rfl, ((h.insert_slot _ _).finish call (.ok (c.goal.failure id []))).service⟩

/-- A permit is given back in both or in neither. -/
theorem giveBack (h : s.Agree keys s') (call : CallId) {key : Key} (hkey : key ∈ keys)
    (party : Party) (p : Holding → Bool) :
    (∃ e, s.giveBack call key party p = .error e ∧ s'.giveBack call key party p = .error e) ∨
    ∃ t t', s.giveBack call key party p = .ok t ∧ s'.giveBack call key party p = .ok t' ∧
      t.Agree keys t' := by
  unfold Service.giveBack
  rw [h.get?_slots hkey]
  split
  · exact .inl ⟨_, rfl, rfl⟩
  · split
    · exact .inl ⟨_, rfl, rfl⟩
    · refine .inr ⟨_, _, rfl, rfl, ?_, h.insert_slot _ _⟩
      rw [h.announce_eq]

theorem undo (h : s.Agree keys s') {member : ResourceId × Nat} (hkey : c.keyOf member.1 ∈ keys)
    (failed : ResourceId) (left : List (ResourceId × Nat)) (error : Option LockError) :
    (s.undo call c failed member left error).Agree keys
      (s'.undo call c failed member left error) := by
  unfold Service.undo
  rcases h.giveBack call hkey c.party fun g => g.serial = member.2 with
    ⟨e, he, he'⟩ | ⟨t, t', ht, ht', hagree⟩
  · simp only [he, he']
    exact ⟨rfl, h.insert_caller _ _⟩
  · simp only [ht, ht']
    exact ⟨hagree.facts, hagree.service.insert_caller _ _⟩

theorem undone (h : s.Agree keys s') (failed : ResourceId) (error : Option LockError) :
    (s.undone call c failed error).Agree keys (s'.undone call c failed error) := by
  unfold Service.undone
  split
  · exact h.finish _ _
  · refine ⟨?_, (h.finish call (.ok (c.goal.failure failed (c.taken.map Prod.fst)))).service⟩
    rw [h.announce_eq]
    rfl

theorem resume (h : s.Agree keys s') {id : ResourceId} (hkey : c.keyOf id ∈ keys) (ticket : Nat)
    (budget deadline : Option Nat) :
    Option.Rel (Turn.Agree keys) (s.resume call c id ticket budget deadline)
      (s'.resume call c id ticket budget deadline) := by
  have hclock : s'.clock = s.clock := by
    obtain ⟨slots, rfl, -⟩ := h
    rfl
  unfold Service.resume
  rw [h.get?_slots hkey, hclock]
  split
  · exact .none
  · dsimp only
    split
    · split
      · exact .some (h.serve _ _ _ _ _ _)
      · split
        · exact .some (h.giveUp _ _ _ _)
        · exact .some ⟨rfl, h.insert_slot _ _⟩
    · exact .none

/-- A call that comes to none but these resources has the same move in both. -/
theorem move (h : s.Agree keys s') (hn : s.Names keys call) :
    Option.Rel (Turn.Agree keys) (s.move call) (s'.move call) := by
  unfold Service.move
  rw [h.callers_eq]
  split
  · exact .none
  · rename_i c working
    split
    · exact .some (h.finish _ _)
    · rename_i id rest stage next
      exact .some (h.enter (hn c working id (by simp [Caller.ids, next])))
    · rename_i _ id ticket budget deadline stage
      exact h.resume (hn c working id (by simp [Caller.ids, stage])) _ _ _
    · rename_i _ failed member left error stage
      exact .some (h.undo (hn c working member.1 (by simp [Caller.ids, stage])) _ _ _)
    · exact .some (h.undone _ _)

theorem driveWithin (n : Nat) (h : s.Agree keys s') (hn : s.Names keys call) :
    (Service.driveWithin call n s).Agree keys (Service.driveWithin call n s') := by
  induction n generalizing s s' with
  | zero => exact ⟨rfl, h⟩
  | succ n ih =>
    unfold Service.driveWithin
    have hmove := h.move hn
    cases ht : s.move call with
    | none =>
      rw [ht] at hmove
      cases ht' : s'.move call with
      | none => exact ⟨rfl, h⟩
      | some t' => rw [ht'] at hmove; cases hmove
    | some t =>
      rw [ht] at hmove
      cases ht' : s'.move call with
      | none => rw [ht'] at hmove; cases hmove
      | some t' =>
        rw [ht'] at hmove
        cases hmove with
        | some hagree =>
          have hrest := ih hagree.service ((moved ht).confined hn).2
          exact ⟨congrArg₂ (· ++ ·) hagree.facts hrest.facts, hrest.service⟩

theorem drive (h : s.Agree keys s') (hn : s.Names keys call) :
    (s.drive call).Agree keys (s'.drive call) := by
  -- in the slots of other resources others may be awake, so allow as many moves as are left in
  -- either
  rw [← driveWithin_of_work_le (Nat.le_max_left s.work s'.work),
    ← driveWithin_of_work_le (Nat.le_max_right s.work s'.work)]
  exact h.driveWithin _ hn

theorem giveBackAll (h : s.Agree keys s') (call : CallId) {typeName : String} (party : Party)
    {ids : List ResourceId} (hids : ∀ id ∈ ids, (typeName, id) ∈ keys) :
    (s.giveBackAll call typeName party ids).Agree keys
      (s'.giveBackAll call typeName party ids) := by
  induction ids generalizing s s' with
  | nil => exact ⟨rfl, h⟩
  | cons id ids ih =>
    unfold Service.giveBackAll
    rcases h.giveBack call (hids id List.mem_cons_self) party fun g => party.Holds g with
      ⟨e, he, he'⟩ | ⟨t, t', ht, ht', hagree⟩
    · simp only [he, he']
      exact ⟨rfl, h⟩
    · simp only [ht, ht']
      have hrest := ih hagree.service fun i hi => hids i (List.mem_cons_of_mem _ hi)
      exact ⟨congrArg₂ (· ++ ·) hagree.facts hrest.facts, hrest.service⟩

theorem resolveFor_eq (h : s.Agree keys s') (typeName : String) (party : Party) :
    s'.resolveFor typeName party = s.resolveFor typeName party := by
  obtain ⟨slots, rfl, -⟩ := h
  rfl

theorem engage (h : s.Agree keys s') (call : CallId) (typeName : String) (ids : List ResourceId)
    (party : Party) (goal : Goal) :
    (s.engage call typeName ids party goal).Agree keys
      (s'.engage call typeName ids party goal) := by
  have hchecks := h.resolveFor_eq typeName party
  have hagree := h
  obtain ⟨slots, rfl, -⟩ := h
  unfold Service.engage
  rw [hchecks]
  split
  · exact ⟨rfl, hagree⟩
  · exact ⟨rfl, hagree.insert_caller _ _⟩

theorem unlockAll (h : s.Agree keys s') (call : CallId) {typeName : String} {ids : List ResourceId}
    (party : Party) (hids : ∀ id ∈ ids, (typeName, id) ∈ keys) :
    (s.unlockAll call typeName ids party).Agree keys (s'.unlockAll call typeName ids party) := by
  unfold Service.unlockAll
  rw [h.resolveFor_eq]
  split
  · exact ⟨rfl, h⟩
  · exact h.giveBackAll call party fun id hid => hids id (mem_distinct.1 hid)

theorem slotState_eq (h : s.Agree keys s') {key : Key} (hkey : key ∈ keys) :
    s'.slotState key = s.slotState key := by
  have hslot := h.get?_slots hkey
  obtain ⟨slots, rfl, -⟩ := h
  unfold Service.slotState
  rw [hslot]

/-- A request does the same in both if they agree on what it names. -/
theorem submit (h : s.Agree keys s') (call : CallId) {request : Request}
    (hkeys : request.keys? = some keys) :
    (s.submit call request).Agree keys (s'.submit call request) := by
  have hgroup : s'.groupTimeout = s.groupTimeout := by
    obtain ⟨slots, rfl, -⟩ := h
    rfl
  cases request with
  | lock | lockMany | tryLock => exact h.engage _ _ _ _ _
  | tryLockMany | tryLockManyDetailed =>
    simp only [Service.submit, hgroup]
    exact h.engage _ _ _ _ _
  | unlock =>
    cases hkeys
    exact h.unlockAll _ _ (by simp)
  | unlockMany =>
    cases hkeys
    exact h.unlockAll _ _ fun id hid => List.mem_map_of_mem hid
  | slotState key =>
    cases hkeys
    refine ⟨?_, h⟩
    simp only [Service.submit, Service.answer, h.slotState_eq List.mem_cons_self]
  | isLocked key =>
    cases hkeys
    refine ⟨?_, h⟩
    simp only [Service.submit, Service.answer, Service.isLocked, h.slotState_eq List.mem_cons_self]
  | createType | findType | typeNames | groupTimeout | slotCount | evictIdle | listen
  | removeListener =>
    cases hkeys

/-- A call that starts does the same in both if they agree on what it names. -/
theorem start (h : s.Agree keys s') {request : Request} (hkeys : request.keys? = some keys)
    (hr : s.registry.Sound) (idle : s.callers.get? call = none) :
    (s.start call request).Agree keys (s'.start call request) := by
  have hsubmit := h.submit call hkeys
  have hdrive := hsubmit.service.drive (confined_submit hkeys hr idle).2
  exact ⟨congrArg₂ (· ++ ·) hsubmit.facts hdrive.facts, hdrive.service⟩

end Service.Agree

end FairLocks
