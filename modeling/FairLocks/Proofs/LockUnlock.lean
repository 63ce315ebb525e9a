import FairLocks.Proofs.Attempt
import FairLocks.Proofs.Refusals
import FairLocks.Proofs.Snapshots

/-!
# To lock and to unlock again

A lock of resources of which permits are to be had, followed by an unlock by the same owners, leaves
each slot with as many free permits as before. The permit that comes back is the oldest one that an
owner holds. That is the one just taken, unless the owners have held one before; then the one just
taken stands in for it, and where it has the same owners nothing but the order of the permits has
changed.
-/
namespace FairLocks

set_option autoImplicit false

/-- The state shows the same, be it that the permits were granted in another order. -/
def SlotState.Reordered (s s' : SlotState) : Prop :=
  ∃ holders, holders.Perm s.holders ∧ s' = { s with holders }

theorem OwnerSet.union_perm {ss ss' : List OwnerSet} (h : ss.Perm ss') : union ss = union ss' :=
  OwnerSet.ext fun o => by simp [h.mem_iff]

/-- Parties with the same owners hold the same permits. -/
theorem Party.holds_congr {party party' : Party} (same : party'.owners = party.owners)
    {g : Holding} :
    party'.Holds g ↔ party.Holds g := by
  have hmem (o : OwnerId) : o ∈ party'.listed ↔ o ∈ party.listed := by
    rw [← OwnerSet.mem_ofList, ← OwnerSet.mem_ofList]
    exact Iff.of_eq (congrArg (o ∈ ·) same)
  simp only [Party.Holds, hmem]

namespace Slot

variable {s : Slot} {owners : OwnerSet} {call : CallId} {p : Holding → Bool}

/-- The slot after a permit was taken and the oldest one that satisfies `p` was given back. -/
def exchanged (s : Slot) (owners : OwnerSet) (call : CallId) (p : Holding → Bool) : Slot :=
  { s.restored with
    holdings := (s.holdings ++ [(⟨s.nextSerial, owners, call⟩ : Holding)]).eraseP p }

theorem release?_exchanged (h : s.Sound) (hopen : s.Open)
    (hown : ∀ g : Holding, g.owners = owners → p g) :
    ∃ g, (s.taken owners call).release? p = some (g, s.exchanged owners call p) := by
  have hlast : p ⟨s.nextSerial, owners, call⟩ = true := hown _ rfl
  obtain ⟨g, hg⟩ : ∃ g, (s.holdings ++ [(⟨s.nextSerial, owners, call⟩ : Holding)]).find? p =
    some g :=
    Option.isSome_iff_exists.1 (List.find?_isSome.2 ⟨_, List.mem_append_right _ List.mem_cons_self,
      hlast⟩)
  have hpos := hopen.1
  have hbalanced := h.balanced
  have hback : min (s.available - 1 + 1) s.capacity = s.available := by omega
  refine ⟨g, ?_⟩
  rw [taken_eq h hopen, release?]
  simp only [hg]
  simp [exchanged, restored, wakeIf, hback, hopen.2]

/-- Where no permit satisfied the predicate before, the one that was taken is given back. -/
theorem exchanged_eq_restored (hown : ∀ g : Holding, g.owners = owners → p g)
    (h : ∀ g ∈ s.holdings, ¬ p g) :
    s.exchanged owners call p = s.restored := by
  have hlast : p ⟨s.nextSerial, owners, call⟩ = true := hown _ rfl
  rw [exchanged, List.eraseP_append_right _ h]
  simp [hlast, restored]

/-- Where only permits of the same owners satisfied the predicate before, one takes the place of
another. -/
theorem perm_exchanged (hown : ∀ g : Holding, g.owners = owners → p g)
    (h : ∀ g ∈ s.holdings, p g → g.owners = owners) :
    ((s.exchanged owners call p).holdings.map Holding.owners).Perm
      (s.holdings.map Holding.owners) := by
  cases hfind : s.holdings.find? p with
  | none => rw [exchanged_eq_restored hown fun g hg => List.find?_eq_none.1 hfind g hg, restored]
  | some g =>
    obtain ⟨hp, l, r, hlr, hl⟩ := List.find?_eq_some_iff_append.1 hfind
    have hl : ∀ k ∈ l, ¬ p k := fun k hk => by simpa using hl k hk
    have howners : g.owners = owners := h g (by simp [hlr]) hp
    have hholdings : (s.exchanged owners call p).holdings =
        l ++ (r ++ [⟨s.nextSerial, owners, call⟩]) := by
      rw [exchanged, hlr, List.append_assoc, List.eraseP_append_right _ hl, List.cons_append,
        List.eraseP_cons_of_pos hp]
    rw [hholdings, hlr]
    simp only [List.map_append, List.map_cons, List.map_nil, howners]
    exact List.perm_append_comm.append_left _

/-- Slots that differ in the order of the permits and in numbers that nobody sees show the same. -/
theorem state_reordered {s' : Slot} (key : s'.key = s.key) (mode : s'.sharingMode = s.sharingMode)
    (capacity : s'.capacity = s.capacity) (available : s'.available = s.available)
    (queue : s'.queue = s.queue)
    (perm : (s'.holdings.map Holding.owners).Perm (s.holdings.map Holding.owners)) :
    s.state.Reordered (s'.state) := by
  have hholders := perm.map OwnerSet.toList
  rw [List.map_map, List.map_map] at hholders
  refine ⟨_, hholders, ?_⟩
  simp only [state, Slot.owners, key, mode, capacity, available, queue, OwnerSet.union_perm perm]
  rfl

end Slot

/-- The type, the resources and the party of a request that takes permits and waits as long as it
takes. -/
def Request.locks? : Request → Option (String × List ResourceId × Party)
  | lock typeName id party => some (typeName, [id], party)
  | lockMany typeName ids party => some (typeName, ids, party)
  | _ => none

/-- The type, the resources and the party of a request that gives permits back. -/
def Request.unlocks? : Request → Option (String × List ResourceId × Party)
  | unlock typeName id party => some (typeName, [id], party)
  | unlockMany typeName ids party => some (typeName, ids, party)
  | _ => none

namespace Service

variable {s : Service} {call : CallId} {typeName : String} {party : Party} {ids : List ResourceId}

/-- A return is no reply, nor is what listeners are told of it. -/
theorem replies_returned (s : Service) (call : CallId) (key : Key) (g : Holding) (party : Party)
    (event : LockEvent) :
    (⟨call, .returned key g party⟩ :: s.announce call .unlocked event).filterMap Fact.reply? =
      [] := by
  rw [List.filterMap_cons_none rfl, replies_of_tells (tells_announce _ _ _ _)]

/-- Permits are given back on one resource after another if there is one on each. -/
theorem giveBackAll_ok (distinct : ids.Nodup) (left : ResourceId → Slot)
    (holds : ∀ id ∈ ids, ∃ slot g, s.slots.get? (typeName, id) = some slot ∧
      slot.release? (fun g => party.Holds g) = some (g, left id)) :
    (s.giveBackAll call typeName party ids).service =
        { s with slots := s.slots.insertAll (fun id => (typeName, id)) left ids } ∧
      (s.giveBackAll call typeName party ids).facts.filterMap Fact.reply? =
        [(call, .ok .done)] := by
  induction ids generalizing s with
  | nil => exact ⟨rfl, rfl⟩
  | cons id ids ih =>
    obtain ⟨hnotMem, hnodup⟩ := List.nodup_cons.1 distinct
    obtain ⟨slot, g, hslot, hrelease⟩ := holds id List.mem_cons_self
    obtain ⟨hservice, hreplies⟩ :=
      @ih { s with slots := s.slots.insert (typeName, id) (left id) } hnodup
      fun other hother => by
        have hne : (typeName, id) ≠ (typeName, other) := by
          intro heq
          cases heq
          exact hnotMem hother
        obtain ⟨slot', g', hslot', hrelease'⟩ := holds other (List.mem_cons_of_mem id hother)
        exact ⟨slot', g', (Dict.get?_insert_of_ne _ _ hne).trans hslot', hrelease'⟩
    simp only [giveBackAll, giveBack, hslot, hrelease, Turn.service_andThen,
      Turn.facts_andThen, hservice]
    refine ⟨rfl, ?_⟩
    rw [List.filterMap_append, hreplies, replies_returned]
    rfl

/-- Nobody is parked where permits are to be had. -/
theorem parkedOn_of_free {past : List Fact} (ho : Orderly past s) {key : Key}
    (free : ¬ s.Blocked key) :
    s.parkedOn key = [] := by
  refine List.filter_eq_nil_iff.2 fun other _ hparked => free ?_
  rw [decide_eq_true_eq, Option.map_eq_some_iff] at hparked
  obtain ⟨⟨key', ticket⟩, hwaits, rfl⟩ := hparked
  obtain ⟨slot, hslot, hticket⟩ := ho.exists_slot_of_waits hwaits
  exact ⟨slot, hslot, .inr (List.ne_nil_of_mem hticket)⟩

theorem seeks_of_locks {request : Request} (locks : request.locks? = some (typeName, ids, party))
    (spending : GroupTimeout) :
    request.seeks? = some (typeName, ids, party) ∧ request.aim spending = .hold ∧
      request.keys? = some (ids.map fun id => (typeName, id)) := by
  cases request with
  | lock | lockMany =>
    cases locks
    exact ⟨rfl, rfl, rfl⟩
  | tryLock | tryLockMany | tryLockManyDetailed | createType | findType | typeNames | groupTimeout
  | unlock | unlockMany | slotState | isLocked | slotCount | evictIdle | listen | removeListener =>
      cases locks

theorem submit_of_unlocks {request : Request}
    (unlocks : request.unlocks? = some (typeName, ids, party)) :
    s.submit call request = s.unlockAll call typeName ids party ∧
      request.keys? = some (ids.map fun id => (typeName, id)) := by
  cases request with
  | unlock | unlockMany =>
    cases unlocks
    exact ⟨rfl, rfl⟩
  | lock | lockMany | tryLock | tryLockMany | tryLockManyDetailed | createType | findType
  | typeNames | groupTimeout | slotState | isLocked | slotCount | evictIdle | listen
  | removeListener => cases unlocks

/-- An unlock that passes its checks is over at once. -/
theorem start_of_unlocks {type : ResourceType} {request : Request}
    (idle : s.callers.get? call = none) (resolved : s.resolveFor typeName party = .ok type)
    (unlocks : request.unlocks? = some (typeName, ids, party)) :
    s.start call request = s.giveBackAll call typeName party (distinct ids) := by
  have hsubmit : s.submit call request = s.giveBackAll call typeName party (distinct ids) := by
    rw [(submit_of_unlocks unlocks).1, unlockAll, resolved]
  obtain ⟨slots, hslots⟩ := frame_giveBackAll s call typeName party (distinct ids)
  rw [start_of_still, hsubmit]
  rw [hsubmit, hslots]
  exact move_of_idle idle

theorem start_unlock {type : ResourceType} {request : Request} (idle : s.callers.get? call = none)
    (resolved : s.resolveFor typeName party = .ok type)
    (unlocks : request.unlocks? = some (typeName, ids, party)) (left : ResourceId → Slot)
    (holds : ∀ id ∈ ids, ∃ slot g, s.slots.get? (typeName, id) = some slot ∧
      slot.release? (fun g => party.Holds g) = some (g, left id)) :
    (s.start call request).service =
        { s with slots := s.slots.insertAll (fun id => (typeName, id)) left (distinct ids) } ∧
      (s.start call request).facts.filterMap Fact.reply? = [(call, .ok .done)] := by
  rw [start_of_unlocks idle resolved unlocks]
  exact giveBackAll_ok (nodup_distinct ids) left fun id hid => holds id (mem_distinct.1 hid)

/-- The slots after a lock and an unlock. -/
def slotsExchanged (s : Service) (call : CallId) (c : Caller) (back : Party)
    (ids ids' : List ResourceId) : Dict Key Slot :=
  (s.withTaken call c ids).insertAll c.keyOf
    (fun id => (s.slotOf c id).exchanged c.party.owners call fun g => back.Holds g) ids'

theorem get?_slotsExchanged_of_notMem {c : Caller} {back : Party}
    {ids ids' : List ResourceId} {key : Key}
    (h : ∀ id ∈ ids, c.keyOf id ≠ key) (h' : ∀ id ∈ ids', c.keyOf id ≠ key) :
    (s.slotsExchanged call c back ids ids').get? key = s.slots.get? key := by
  rw [slotsExchanged, Dict.get?_insertAll_of_notMem _ _ h', withTaken,
    Dict.get?_insertAll_of_notMem _ _ h]

/-- A permit of all the owners is one that they hold. -/
theorem holds_of_owners {party party' : Party} {type : ResourceType}
    (resolved : s.resolveFor typeName party' = .ok type) (same : party'.owners = party.owners)
    (g : Holding)
    (hg : g.owners = party.owners) : party'.Holds g := by
  obtain ⟨-, -, hnamed⟩ := resolveFor_ok_iff.1 resolved
  have hlisted : party'.listed ≠ [] := by
    intro heq
    cases party' with
    | owner o => cases heq
    | group os => exact hnamed (congrArg Party.group heq)
  obtain ⟨o, os, hcons⟩ := List.exists_cons_of_ne_nil hlisted
  have ho : o ∈ party'.listed := by
    rw [hcons]
    exact List.mem_cons_self
  refine ⟨o, ho, ?_⟩
  rw [hg, ← same]
  exact OwnerSet.mem_ofList.2 ho

theorem unparked_of_free {past : List Fact} (orderly : Orderly past s) {typeName : String}
    {ids : List ResourceId} (free : ∀ id ∈ ids, ¬ s.Blocked (typeName, id)) :
    ∀ key ∈ ids.map fun id => (typeName, id), s.parkedOn key = [] := by
  intro key hkey
  obtain ⟨id, hid, rfl⟩ := List.mem_map.1 hkey
  exact parkedOn_of_free orderly (free id hid)

/-- Of a resource that has just been taken, a permit that the owners hold can be given back. -/
theorem release?_withTaken {a : CallId} {type : ResourceType} {party' : Party} {goal : Goal}
    (ho : Outset s a (s.beginner type ids party goal))
    (free : ∀ id ∈ distinct ids, ¬ s.Blocked (type.name, id))
    {id : ResourceId} (hid : id ∈ distinct ids) (hold : ∀ g : Holding, g.owners = party.owners →
      party'.Holds g) :
    ∃ slot g, (s.withTaken a (s.beginner type ids party goal) (distinct ids)).get? (type.name, id) =
      some slot ∧
      slot.release? (fun g => party'.Holds g) = some (g,
        (s.slotOf (s.beginner type ids party goal) id).exchanged party.owners a fun g =>
          party'.Holds g) := by
  obtain ⟨g, hg⟩ := Slot.release?_exchanged (ho.slotOf_sound id) (ho.slotOf_open (free id hid))
    fun g hg => decide_eq_true (hold g hg)
  exact ⟨_, g, Dict.get?_insertAll_of_mem _ _ (Caller.keyOf_inj _) hid, hg⟩

/-- A lock and an unlock of the same resources are all that happens in the session. -/
theorem inSession_lock_unlock {past : List Fact} (orderly : Orderly past s) (settled : s.Settled)
    {a b : CallId} (idleA : s.callers.get? a = none) (idleB : s.callers.get? b = none)
    {lock unlock : Request} {ids' : List ResourceId} {party' : Party} {type : ResourceType}
    (locks : lock.locks? = some (type.name, ids, party))
    (unlocks : unlock.unlocks? = some (type.name, ids', party'))
    (sameIds : ∀ id, id ∈ ids ↔ id ∈ ids') (sameOwners : party'.owners = party.owners)
    (resolved : s.resolveFor type.name party = .ok type)
    (resolved' : s.resolveFor type.name party' = .ok type)
    (free : ∀ id ∈ ids, ¬ s.Blocked (type.name, id)) {ca cb : Command}
    (hca : ca ∈ [.call lock, .await lock]) (hcb : cb ∈ [.call unlock, .await unlock]) :
    (s.inSession [(a, ca), (b, cb)]).facts.filterMap Fact.reply? =
      [(a, .ok .done), (b, .ok .done)] ∧
      (s.inSession [(a, ca), (b, cb)]).service = { s with
        slots := s.slotsExchanged a (s.beginner type ids party .hold) party' (distinct ids)
          (distinct ids') } := by
  have hr := orderly.registry
  have hfree : ∀ id ∈ distinct ids, ¬ s.Blocked (type.name, id) :=
    fun id hid => free id (mem_distinct.1 hid)
  have ho : Outset s a (s.beginner type ids party .hold) :=
    orderly.outset idleA resolved s.groupTimeout ids fun id hid hblocked =>
      absurd hblocked (hfree id hid)
  obtain ⟨seeks, aims, names⟩ := seeks_of_locks locks s.groupTimeout
  obtain ⟨-, names'⟩ := @submit_of_unlocks s b _ _ _ _ unlocks
  have unparked := unparked_of_free orderly free
  have unparked' := unparked_of_free orderly fun id hid => free id ((sameIds id).2 hid)
  -- the lock
  obtain ⟨hservice, hreplies⟩ := start_free seeks aims resolved ho names hr hfree
  have endsA : s.Completes a lock := by
    rw [Completes, hservice]
    exact idleA
  obtain ⟨settledA, hperformA⟩ := endsA.perform_eq names hr idleA settled unparked
  -- the unlock, which finds what the lock has left
  rw [hservice] at settledA
  have holds : ∀ id ∈ ids', ∃ slot g,
      (s.withTaken a (s.beginner type ids party .hold) (distinct ids)).get? (type.name, id) =
        some slot ∧
        slot.release? (fun g => party'.Holds g) = some (g,
          (s.slotOf (s.beginner type ids party .hold) id).exchanged party.owners a fun g =>
            party'.Holds g) := by
    intro id hid
    have hmem := mem_distinct.2 ((sameIds id).2 hid)
    exact release?_withTaken ho hfree hmem fun g hg => holds_of_owners resolved' sameOwners g hg
  obtain ⟨hserviceB, hrepliesB⟩ := @start_unlock { s with
    slots := s.withTaken a (s.beginner type ids party .hold) (distinct ids) } b type.name party'
      ids' type unlock
    idleB resolved' unlocks _ holds
  have endsB :
      Completes { s with slots := s.withTaken a (s.beginner type ids party .hold) (distinct ids) } b
      unlock := by
    rw [Completes, hserviceB]
    exact idleB
  have hperformB := (endsB.perform_eq names' hr idleB settledA unparked').2 cb hcb
  have hsession : s.inSession [(a, ca), (b, cb)] = (s.start a lock).andThen fun s =>
      s.start b unlock := by
    simp only [inSession, afterSession, session, hperformA ca hca, hservice, hperformB,
      Turn.andThen, List.flatMap_cons, List.flatMap_nil, List.append_nil]
  rw [hsession, Turn.facts_andThen, Turn.service_andThen, List.filterMap_append, hreplies,
    hservice, hrepliesB, hserviceB]
  exact ⟨rfl, rfl⟩

end Service

/-- A lock and then an unlock of the same resources by the same owners, in a session that begins
where nobody has a move and a permit of each of the resources is to be had, both return. Slots of
other resources are not touched, and slots that were made for the lock are free. A slot that was
there before shows what it showed, if none of the owners held a permit; and if only these owners
together held permits, it does so but for the order of the permits. -/
theorem lock_unlock (h : History) (settled : h.service.Settled) {a b : CallId}
    (idleA : h.service.callers.get? a = none) (idleB : h.service.callers.get? b = none)
    {lock unlock : Request} {typeName : String} {ids ids' : List ResourceId} {party party' : Party}
    {type : ResourceType} (locks : lock.locks? = some (typeName, ids, party))
    (unlocks : unlock.unlocks? = some (typeName, ids', party'))
    (sameIds : ∀ id, id ∈ ids ↔ id ∈ ids') (sameOwners : party'.owners = party.owners)
    (resolved : h.service.resolveFor typeName party = .ok type)
    (resolved' : h.service.resolveFor typeName party' = .ok type)
    (free : ∀ id ∈ ids, ¬ h.service.Blocked (typeName, id)) :
    ∀ ca ∈ [Command.call lock, .await lock], ∀ cb ∈ [Command.call unlock, .await unlock],
      let t := h.service.inSession [(a, ca), (b, cb)]
      t.facts.filterMap Fact.reply? = [(a, .ok .done), (b, .ok .done)] ∧
      ∃ slots, t.service = { h.service with slots } ∧
        (∀ key, (∀ id ∈ ids, key ≠ (typeName, id)) → slots.get? key = h.service.slots.get? key) ∧
        ∀ id ∈ ids, ∃ slot', slots.get? (typeName, id) = some slot' ∧
          (h.service.slots.get? (typeName, id) = none →
            slot'.Idle ∧ slot'.state.phase = .free) ∧
          ∀ slot, h.service.slots.get? (typeName, id) = some slot →
            ((∀ g ∈ slot.holdings, ¬ party.Holds g) → slot'.state = slot.state) ∧
            ((∀ g ∈ slot.holdings, party.Holds g → g.owners = party.owners) →
              slot.state.Reordered slot'.state) := by
  have orderly := h.orderly
  generalize h.service = s at *
  obtain ⟨rfl, hpermits⟩ := orderly.registry _ _ (Service.resolveFor_ok resolved)
  intro ca hca cb hcb
  obtain ⟨hreplies, hservice⟩ :=
    Service.inSession_lock_unlock orderly settled idleA idleB locks unlocks sameIds
    sameOwners resolved resolved' free hca hcb
  have hown (g : Holding) (hg : g.owners = party.owners) : decide (party'.Holds g) = true :=
    decide_eq_true (Service.holds_of_owners resolved' sameOwners g hg)
  refine ⟨hreplies, _, hservice, fun key hkey => ?_, fun id hid => ?_⟩
  · refine Service.get?_slotsExchanged_of_notMem (fun id hid => ?_) fun id hid => ?_
    · exact (hkey id (mem_distinct.1 hid)).symm
    · exact (hkey id ((sameIds id).2 (mem_distinct.1 hid))).symm
  · have hslot : (s.slotsExchanged a (s.beginner type ids party .hold) party' (distinct ids)
      (distinct ids')).get?
        (type.name, id) = some ((s.slotOf (s.beginner type ids party .hold) id).exchanged
          party.owners a fun g => party'.Holds g) :=
      Dict.get?_insertAll_of_mem _ _ (Caller.keyOf_inj _) (mem_distinct.2 ((sameIds id).1 hid))
    refine ⟨_, hslot, fun hnone => ?_, fun slot hsome => ?_⟩
    · have hfresh : s.slotOf (s.beginner type ids party .hold) id = Slot.fresh type id := by
        rw [Service.slotOf, Caller.keyOf, Service.beginner, hnone, Option.getD_none]
      rw [hfresh, Slot.exchanged_eq_restored hown fun g hg => absurd hg List.not_mem_nil,
        SlotState.phase_eq_free_iff]
      exact ⟨⟨rfl, rfl, rfl⟩, rfl⟩
    · have hsame : s.slotOf (s.beginner type ids party .hold) id = slot := by
        rw [Service.slotOf, Caller.keyOf, Service.beginner, hsome, Option.getD_some]
      rw [hsame]
      constructor
      · intro hnobody
        rw [Slot.exchanged_eq_restored hown fun g hg =>
          by simpa [Party.holds_congr sameOwners] using hnobody g hg,
          Slot.state_restored]
      · intro hsole
        exact Slot.state_reordered rfl rfl rfl rfl rfl
          (Slot.perm_exchanged hown fun g hg =>
            by simpa [Party.holds_congr sameOwners] using hsole g hg)

/-- The owners 1 and 2 hold a permit of the first document already, and owner 3 one of the first and
the second. -/
def heldAlready : History where
  start := .withType ⟨"doc", 3, .sharedGroup⟩
  actions := [.submit 1 (.lock "doc" 1 (.group [1, 2])), .move 1, .move 1,
    .submit 2 (.lockMany "doc" [1, 2] (.group [3])), .move 2, .move 2, .move 2]
  isNew := Service.new_withType (by decide)
  numbered := by decide

/-- They lock and unlock both documents and a third. Of the first document the older permit is given
back, so owner 3 is in front afterwards. -/
theorem lock_unlock_heldAlready :
    ∃ t slots first second first' second' third', t = heldAlready.service.inSession
        [(3, .call (.lockMany "doc" [1, 2, 3, 2] (.group [2, 1]))),
          (4, .await (.unlockMany "doc" [3, 3, 1, 2] (.group [1, 2, 1])))] ∧
      t.facts.filterMap Fact.reply? = [(3, .ok .done), (4, .ok .done)] ∧
      t.service = { heldAlready.service with slots } ∧
      heldAlready.service.slots.get? ("doc", 1) = some first ∧ slots.get? ("doc", 1) = some first' ∧
      first.state.Reordered first'.state ∧
      first.state.holders = [[1, 2], [3]] ∧ first'.state.holders = [[3], [1, 2]] ∧
      heldAlready.service.slots.get? ("doc", 2) = some second ∧
        slots.get? ("doc", 2) = some second' ∧
      second'.state = second.state ∧
      slots.get? ("doc", 3) = some third' ∧ third'.state.phase = .free := by
  have settled : heldAlready.service.Settled := Service.firstMove_eq_none_iff.1 rfl
  have idle : heldAlready.service.callers.get? 3 = none ∧
      heldAlready.service.callers.get? 4 = none := ⟨rfl, rfl⟩
  have resolved : heldAlready.service.resolveFor "doc" (.group [2, 1]) =
      .ok ⟨"doc", 3, .sharedGroup⟩ := rfl
  have resolved' : heldAlready.service.resolveFor "doc" (.group [1, 2, 1]) =
      .ok ⟨"doc", 3, .sharedGroup⟩ := rfl
  have locks : (Request.lockMany "doc" [1, 2, 3, 2] (.group [2, 1])).locks? =
    some ("doc", [1, 2, 3, 2], .group [2, 1]) := rfl
  have unlocks : (Request.unlockMany "doc" [3, 3, 1, 2] (.group [1, 2, 1])).unlocks? =
    some ("doc", [3, 3, 1, 2], .group [1, 2, 1]) := rfl
  have sameIds : ∀ id : ResourceId, id ∈ [1, 2, 3, 2] ↔ id ∈ [3, 3, 1, 2] := by
    intro id
    simp only [List.mem_cons, List.not_mem_nil, or_false]
    tauto
  obtain ⟨hreplies, slots, hservice, -, hslots⟩ :=
    lock_unlock heldAlready settled idle.1 idle.2 locks unlocks sameIds
    (by decide) resolved resolved' (by decide) _ List.mem_cons_self _
    (List.mem_cons_of_mem _ List.mem_cons_self)
  obtain rfl := congrArg Service.slots hservice
  obtain ⟨first', hfirst', -, hfirst⟩ := hslots 1 (by decide)
  obtain ⟨second', hsecond', -, hsecond⟩ := hslots 2 (by decide)
  obtain ⟨third', hthird', hfree, -⟩ := hslots 3 (by decide)
  refine ⟨_, _, _, _, first', second', third', rfl, hreplies, hservice, rfl, hfirst',
    (hfirst _ rfl).2 (by decide), rfl, ?_, rfl, hsecond', (hsecond _ rfl).1 (by decide), hthird',
    (hfree rfl).2⟩
  cases (show _ = some _ from rfl).symm.trans hfirst'
  rfl

end FairLocks
