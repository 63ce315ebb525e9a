import FairLocks.Proofs.Attempt
import FairLocks.Proofs.Wakeups

/-!
# The exact outcome of an undisturbed attempt

Whoever waits does so for a resource that is blocked, and of such a resource nothing changes that
could serve somebody. So while a call is on its way through the resources that it can have, and
back, nobody else does more until a deadline of their own than to wake and go back to sleep, and a
session that awaits the call sees it return: with everything, or with everything as it was before.
-/
namespace FairLocks

set_option autoImplicit false

/-- While somebody is at work, something is left to do. -/
theorem Service.work_pos_of_working {s : Service} {call : CallId} {c : Caller}
    (working : s.callers.get? call = some c) : 0 < s.work := by
  have hless := @work_of_erase s call { s with callers := s.callers.erase call } c working rfl
    (work_pos c)
  omega

/-- Who waits without a move waits for a deadline that is still to come. -/
theorem Service.clock_lt_deadline {s : Service} {call : CallId} (still : s.move call = none)
    {c : Caller} {id : ResourceId} {ticket : Nat} {budget deadline : Option Nat} {slot : Slot}
    (working : s.callers.get? call = some c) (stage : c.stage = .waiting id ticket budget deadline)
    (found : s.slots.get? (c.keyOf id) = some slot) {d : Nat} (hd : c.deadline? = some d) :
      s.clock < d := by
  rw [Caller.deadline?, stage] at hd
  exact ((still_iff_of_waiting working stage found).1 still).2 d hd

namespace Attempt

variable {s s' : Service} {call : CallId} {c₀ : Caller} {latest : Nat}
  {replies : List (CallId × Reply)}

/-- The call touches no caller but its own. -/
theorem get?_other (h : Attempt s call c₀ latest s' replies) {other : CallId} (hne : other ≠ call) :
    s'.callers.get? other = s.callers.get? other := by
  cases h with
  | next | waiting => exact Dict.get?_insert_of_ne _ _ hne.symm
  | acquired => rfl
  | undoing _ same =>
    obtain ⟨d, -, rfl⟩ := Service.exists_slots_of_roused same
    exact Dict.get?_insert_of_ne _ _ hne.symm
  | rolledBack _ same =>
    obtain ⟨d, -, rfl⟩ := Service.exists_slots_of_roused same
    rfl

end Attempt

namespace Service

section

-- The resource `key` is blocked, and the call is on its way through resources that are not.
variable {s : Service} {call : CallId} {c₀ : Caller} {key : Key} {slot : Slot}
  (hslot : s.slots.get? key = some slot) (hblocked : s.Blocked key)
  {ids : List ResourceId} (free : ∀ id ∈ ids, ¬ s.Blocked (c₀.keyOf id))

include hblocked free

theorem keyOf_ne_of_blocked : ∀ id ∈ ids, c₀.keyOf id ≠ key := by
  rintro id hid rfl
  exact free id hid hblocked

include hslot

theorem get?_withTaken_of_blocked : (s.withTaken call c₀ ids).get? key = some slot := by
  rw [withTaken, Dict.get?_insertAll_of_notMem _ _ (keyOf_ne_of_blocked hblocked free), hslot]

/-- It may be the resource that the call itself waits for. -/
theorem exists_get?_failed (failed : ResourceId) (after : Slot → Slot) :
    ∃ slot',
      ((s.withTaken call c₀ ids).insert (c₀.keyOf failed) (after (s.slotOf c₀ failed))).get? key =
        some slot' ∧ (slot' = slot ∨ slot' = after slot) := by
  by_cases hkey : c₀.keyOf failed = key
  · subst hkey
    refine ⟨_, Dict.get?_insert_self _ _ _, .inr ?_⟩
    rw [slotOf, hslot, Option.getD_some]
  · refine ⟨slot, ?_, .inl rfl⟩
    rw [Dict.get?_insert_of_ne _ _ hkey, get?_withTaken_of_blocked hslot hblocked free]

/-- On the way back, too, it is served as before. -/
theorem exists_get?_restored {released : List ResourceId} (hsub : released ⊆ ids)
    {failed : ResourceId} {d : Dict Key Slot}
    (hd : rousedSlots d = rousedSlots (s.withRestored call c₀ ids failed released)) :
    ∃ slot', d.get? key = some slot' ∧ slot'.available = slot.available ∧
      slot'.queue.head? = slot.queue.head? := by
  obtain ⟨slot₀, hslot₀, hsame⟩ := exists_get?_failed hslot hblocked free failed Slot.passed
  have hapart := keyOf_ne_of_blocked hblocked fun id hid => free id (hsub hid)
  have hkept : (s.withRestored call c₀ ids failed released).get? key = some slot₀ := by
    rw [withRestored, Dict.get?_insertAll_of_notMem _ _ hapart, hslot₀]
  obtain ⟨awake, hslot'⟩ := get?_of_roused hd hkept
  refine ⟨_, hslot', ?_⟩
  rcases hsame with rfl | rfl <;> exact ⟨rfl, rfl⟩

end

end Service

namespace Attempt

variable {s s' : Service} {call : CallId} {c₀ : Caller} {latest : Nat}
  {replies : List (CallId × Reply)}

/-- A queue in which somebody stands is served as before. As long as the call has not given up
nobody is woken there, and then it makes no difference who is. -/
theorem get?_awaited (h : Attempt s call c₀ latest s' replies) {key : Key} {slot : Slot}
    (hslot : s.slots.get? key = some slot) (hqueue : slot.queue ≠ []) :
    ∃ slot', s'.slots.get? key = some slot' ∧ slot'.available = slot.available ∧
      slot'.queue.head? = slot.queue.head? ∧
      (slot'.awake = slot.awake ∨ ∀ s'', s''.roused = s'.roused →
        Attempt s call c₀ latest s'' replies) := by
  have hblocked : s.Blocked key := ⟨slot, hslot, .inr hqueue⟩
  cases h with
  | next _ _ _ free | acquired free =>
    exact ⟨slot, Service.get?_withTaken_of_blocked hslot hblocked free, rfl, rfl, .inl rfl⟩
  | @waiting _ _ failed _ _ _ _ _ _ first =>
    obtain ⟨slot', hslot', rfl | rfl⟩ :=
      Service.exists_get?_failed hslot hblocked first.free failed fun slot => slot.enqueue.2
    · exact ⟨_, hslot', rfl, rfl, .inl rfl⟩
    · -- the call comes last
      obtain ⟨ticket, queue, hcons⟩ := List.exists_cons_of_ne_nil hqueue
      refine ⟨_, hslot', rfl, ?_, .inl ?_⟩
      · rw [Slot.enqueue, hcons]
        rfl
      · exact if_neg fun hempty => hqueue hempty.2
  | undoing first same =>
    obtain ⟨d, hd, rfl⟩ := Service.exists_slots_of_roused same
    obtain ⟨slot', hslot', havailable, hhead⟩ :=
      Service.exists_get?_restored hslot hblocked first.free (List.subset_append_left _ _) hd
    exact ⟨slot', hslot', havailable, hhead, .inr fun s'' h => .undoing first (h.trans same)⟩
  | rolledBack first same =>
    obtain ⟨d, hd, rfl⟩ := Service.exists_slots_of_roused same
    obtain ⟨slot', hslot', havailable, hhead⟩ :=
      Service.exists_get?_restored hslot hblocked first.free (List.Subset.refl _) hd
    exact ⟨slot', hslot', havailable, hhead, .inr fun s'' h => .rolledBack first (h.trans same)⟩

end Attempt

/-- Where nobody has a move, whoever is at work stands in a queue and cannot be served. -/
structure Service.Parked (s : Service) : Prop where
  settled : s.Settled
  queued : ∀ call key ticket, s.waits? call = some (key, ticket) →
    ∃ slot, s.slots.get? key = some slot ∧ ticket ∈ slot.queue ∧ ¬ slot.Serves ticket

namespace Attempt

variable {s s' : Service} {call : CallId} {c₀ : Caller} {latest : Nat}
  {replies : List (CallId × Reply)}

/-- If another has a move before a deadline of its own, it goes back to sleep. -/
theorem dozes (h : Attempt s call c₀ latest s' replies) (parked : s.Parked) {other : CallId}
    (hne : other ≠ call)
    (patient : ∀ c d, s.callers.get? other = some c → c.deadline? = some d → s'.clock < d)
    {t : Turn} (moves : s'.move other = some t) :
    Attempt s call c₀ latest t.service replies ∧ t.facts = [] ∧ t.service.clock = s'.clock := by
  have hcaller := h.get?_other hne
  cases hworking : s.callers.get? other with
  | none => cases (Service.move_of_idle (hcaller.trans hworking)).symm.trans moves
  | some c =>
    have hstill := parked.settled other ((Dict.mem_keys_iff _ _).2 ⟨c, hworking⟩)
    obtain ⟨id, ticket, budget, deadline, stage⟩ := Service.waiting_of_still hstill hworking
    obtain ⟨slot, hslot, hticket, waits⟩ := parked.queued other (c.keyOf id) ticket
      (Service.waits?_eq_some.2 ⟨c, id, budget, deadline, hworking, stage, rfl⟩)
    obtain ⟨slot', hslot', havailable, hhead, hawake⟩ :=
      h.get?_awaited hslot (List.ne_nil_of_mem hticket)
    have waits' : ¬ slot'.Serves ticket := by rwa [Slot.Serves, havailable, hhead]
    have hcoming : ∀ d, deadline = some d → s'.clock < d := by
      intro d hd
      exact patient c d hworking (by rw [Caller.deadline?, stage, hd])
    rcases hawake with hasleep | hroused
    · -- nobody has woken it
      have hbefore := ((Service.still_iff_of_waiting hworking stage hslot).1 hstill).1
      rw [← hasleep] at hbefore
      have hstill' := (Service.still_iff_of_waiting (hcaller.trans hworking) stage hslot').2
        ⟨hbefore, hcoming⟩
      cases hstill'.symm.trans moves
    · obtain rfl :=
        Service.eq_doze_of_move (hcaller.trans hworking) stage hslot' waits' hcoming moves
      exact ⟨hroused _ (congrArg Turn.service (Service.doze_roused hslot' ticket)), rfl, rfl⟩

/-- When all settle, only the call does something that shows. -/
theorem settle (h : Attempt s call c₀ latest s' replies) (ho : Outset s call c₀) (parked : s.Parked)
    (patient : ∀ other c d, other ≠ call → s.callers.get? other = some c → c.deadline? = some d →
      s'.clock < d) :
    Attempt s call c₀ latest s'.settle.service (replies ++ s'.settle.facts.filterMap Fact.reply?) ∧
      s'.settle.service.clock = s'.clock := by
  have hsettle (n : Nat) : Attempt s call c₀ latest (Service.settleWithin n s').service
      (replies ++ (Service.settleWithin n s').facts.filterMap Fact.reply?) ∧
        (Service.settleWithin n s').service.clock = s'.clock := by
    induction n generalizing s' replies with
    | zero => simpa [Service.settleWithin, Service.rest] using h
    | succ n ih =>
      unfold Service.settleWithin
      split
      · simpa [Service.rest] using h
      · rename_i t hfirst
        obtain ⟨mover, moves⟩ := Service.exists_move_of_firstMove hfirst
        rw [Turn.facts_andThen, List.filterMap_append, ← List.append_assoc]
        by_cases hmover : mover = call
        · subst hmover
          have hclock : t.service.clock = s'.clock := by
            obtain ⟨_, _, hframe⟩ := (moved moves).frame
            rw [hframe]
          obtain ⟨hmore, hsame⟩ := ih (ho.move h moves) (hclock ▸ patient)
          exact ⟨hmore, hsame.trans hclock⟩
        · obtain ⟨hdozed, hfacts, hclock⟩ :=
            h.dozes parked hmover (fun c d => patient mover c d hmover) moves
          obtain ⟨hmore, hsame⟩ := ih hdozed (hclock ▸ patient)
          rw [hfacts, List.filterMap_nil, List.append_nil]
          exact ⟨hmore, hsame.trans hclock⟩
  exact hsettle _

/-- A call without a move has been answered, or it waits for a deadline that is still to come. -/
theorem ended_or_waits (h : Attempt s call c₀ latest s' replies) (ho : Outset s call c₀)
    (hstill : s'.move call = none) : s'.callers.get? call = none ∨
      ∃ c since, s'.callers.get? call = some c ∧ s.clock ≤ since ∧ since ≤ latest ∧
        c.deadline? = (c₀.goal.budget c₀.began since).bind (Instant.after? since) ∧
        ∀ d, c.deadline? = some d → s'.clock < d := by
  cases h with
  | acquired => exact .inl ho.idle
  | rolledBack _ same =>
    obtain ⟨d, -, rfl⟩ := Service.exists_slots_of_roused same
    exact .inl ho.idle
  | @next _ rest => cases rest <;> simp [Service.move, Service.callerAt] at hstill
  | @undoing _ _ left _ _ _ _ same =>
    obtain ⟨d, -, rfl⟩ := Service.exists_slots_of_roused same
    cases left <;> simp [Service.move, Service.callerAt] at hstill
  | @waiting taken rest failed since clock _ later intime now first hbudget =>
    subst hbudget
    refine .inr ⟨_, since, Service.get?_amid _ _ _, later, intime, rfl, ?_⟩
    exact fun d hd => Service.clock_lt_deadline hstill (Service.get?_amid _ _ _) rfl
      (Dict.get?_insert_self _ _ _) hd

/-- A call that waited from the start, and whose deadline has passed, has been answered. -/
theorem gone_of_late (h : Attempt s call c₀ s.clock s' replies) (ho : Outset s call c₀)
    (hstill : s'.move call = none) {instant : Nat}
    (hdeadline : (c₀.goal.budget c₀.began s.clock).bind (Instant.after? s.clock) = some instant)
    (late : instant ≤ s'.clock) : s'.callers.get? call = none := by
  rcases h.ended_or_waits ho hstill with hgone | ⟨c, since, -, hlater, hintime, hc, hcoming⟩
  · exact hgone
  · obtain rfl : since = s.clock := Nat.le_antisymm hintime hlater
    exact absurd (hcoming instant (hc.trans hdeadline)) (Nat.not_lt.2 late)

/-- The deadline of an attempt that has come to its resources at once. -/
theorem deadline_at_once {began timeout : Nat} (representable : began + timeout < Instant.horizon)
    (spending : GroupTimeout) (detailed : Bool) :
    ((Goal.allOrNone timeout spending detailed).budget began began).bind (Instant.after? began) =
      some (began + timeout) := by
  have hdeadline : Instant.after? began timeout = some (began + timeout) := if_pos representable
  cases spending with
  | perMember => exact hdeadline
  | sharedBudget => simp [Goal.budget, hdeadline]

/-- The call is the next whose wait may end. -/
theorem nextDeadline?_eq (h : Attempt s call c₀ latest s' replies) {c : Caller} {instant : Nat}
    (working : s'.callers.get? call = some c) (hc : c.deadline? = some instant)
    (patient : ∀ other c d, other ≠ call → s.callers.get? other = some c → c.deadline? = some d →
      instant < d) :
    s'.nextDeadline? = some instant := by
  refine List.min?_eq_some_iff.2 ⟨List.mem_filterMap.2 ⟨_, Dict.mem_entries_of_get? working, hc⟩,
    ?_⟩
  intro d hd
  obtain ⟨e, he, hdeadline⟩ := List.mem_filterMap.1 hd
  have hworking := Dict.get?_of_mem he
  by_cases hother : e.1 = call
  · rw [hother] at hworking
    cases working.symm.trans hworking
    cases hc.symm.trans hdeadline
    exact Nat.le_refl _
  · exact Nat.le_of_lt (patient e.1 e.2 d hother (h.get?_other hother ▸ hworking) hdeadline)

/-- Awaiting the call lets time pass until its deadline, where it is answered. Then nobody has a
move. -/
theorem await (h : Attempt s call c₀ s.clock s' replies) (ho : Outset s call c₀) (parked : s.Parked)
    (settled : s'.Settled) (hclock : s'.clock = s.clock) {instant : Nat}
    (hinstant : s.clock ≤ instant)
    (hdeadline : (c₀.goal.budget c₀.began s.clock).bind (Instant.after? s.clock) = some instant)
    (patient : ∀ other c d, other ≠ call → s.callers.get? other = some c → c.deadline? = some d →
      instant < d) :
    Attempt s call c₀ s.clock (s'.await call).service
      (replies ++ (s'.await call).facts.filterMap Fact.reply?) ∧
      (s'.await call).service.callers.get? call = none ∧ (s'.await call).service.Settled := by
  have hstill := Service.move_of_settled settled call
  rcases h.ended_or_waits ho hstill with hgone | ⟨c, since, working, hlater, hintime, hc, -⟩
  · rw [Service.await_of_idle hgone]
    exact ⟨by simpa [Service.rest] using h, hgone, settled⟩
  · obtain rfl : since = s.clock := Nat.le_antisymm hintime hlater
    rw [hdeadline] at hc
    -- at the deadline only the call acts, and it waits no longer
    have hpassed : Attempt s call c₀ s.clock (s'.atInstant instant) replies :=
      h.pass_of_still hstill (Nat.le_max_left _ _)
    obtain ⟨hsettled, hsame⟩ := hpassed.settle ho parked fun other c d hne hother hd => by
      have hlt := patient other c d hne hother hd
      change max s'.clock instant < d
      omega
    have settled' := Service.settled_settle (s'.atInstant instant)
    have hstill' := Service.move_of_settled settled' call
    have hgone := hsettled.gone_of_late ho hstill' hdeadline
      (hsame ▸ Nat.le_max_right s'.clock instant)
    obtain ⟨n, hn⟩ : ∃ n, s'.work = n + 1 :=
      Nat.exists_eq_succ_of_ne_zero (Nat.ne_of_gt (Service.work_pos_of_working working))
    have hawait : s'.await call = (s'.atInstant instant).settle := by
      rw [Service.await, hn, Service.awaitWithin, if_pos ((Dict.mem_keys_iff _ _).2 ⟨c, working⟩),
        h.nextDeadline?_eq working hc patient]
      simp only [Turn.andThen, Service.awaitWithin_of_idle hgone, Service.rest, List.append_nil]
    rw [hawait]
    exact ⟨hsettled, hgone, settled'⟩

end Attempt

namespace Service

/-- The first blocked id decides: the call gets everything if there is none, and nothing if there is
one. -/
def outcomeOf (s : Service) (typeName : String) (ids : List ResourceId) : GroupOutcome :=
  match (distinct ids).find? fun id => s.Blocked (typeName, id) with
  | none => .acquired
  | some failed =>
    .rolledBack failed ((distinct ids).takeWhile fun id => ¬ s.Blocked (typeName, id))

/-- The slots that an undisturbed attempt leaves. -/
def slotsAfter (s : Service) (call : CallId) (type : ResourceType) (ids : List ResourceId)
    (party : Party) : Dict Key Slot :=
  match s.outcomeOf type.name ids with
  | .acquired => s.withTaken call (s.beginner type ids party .hold) (distinct ids)
  | .rolledBack failed released =>
    s.withRestored call (s.beginner type ids party .hold) released failed released

/-- All slots show what they showed before, and there are new ones, all free, for the resources that
were released. -/
structure Restored (s : Service) (type : ResourceType) (released : List ResourceId)
    (slots : Dict Key Slot) : Prop where
  existing : ∀ key slot, s.slots.get? key = some slot →
    ∃ slot', slots.get? key = some slot' ∧ slot'.state = slot.state
  made : ∀ id ∈ released, s.slots.get? (type.name, id) = none →
    ∃ slot', slots.get? (type.name, id) = some slot' ∧ slot'.Idle ∧
      slot'.state = (Slot.fresh type id).state
  absent : ∀ key, s.slots.get? key = none → (∀ id ∈ released, key ≠ (type.name, id)) →
    slots.get? key = none

theorem outcomeOf_withGroupTimeout (s : Service) (spending : GroupTimeout) (typeName : String)
    (ids : List ResourceId) : (s.withGroupTimeout spending).outcomeOf typeName ids =
      s.outcomeOf typeName ids := rfl

theorem slotsAfter_withGroupTimeout (s : Service) (spending : GroupTimeout) (call : CallId)
    (type : ResourceType) (ids : List ResourceId) (party : Party) :
    (s.withGroupTimeout spending).slotsAfter call type ids party =
      s.slotsAfter call type ids party := rfl

variable {s : Service} {call : CallId} {type : ResourceType} {ids taken rest : List ResourceId}
    {party : Party}
  {goal : Goal} {failed : ResourceId}

theorem outcomeOf_of_free (h : ∀ id ∈ distinct ids, ¬ s.Blocked (type.name, id)) :
    s.outcomeOf type.name ids = .acquired := by
  have hnone : (distinct ids).find? (fun id => s.Blocked (type.name, id)) = none :=
    List.find?_eq_none.2 fun id hid => by simpa using h id hid
  rw [outcomeOf, hnone]

theorem FirstBlocked.outcomeOf
    (h : s.FirstBlocked (s.beginner type ids party goal) taken failed rest) :
    s.outcomeOf type.name ids = .rolledBack failed taken := by
  have hway : distinct ids = taken ++ failed :: rest := h.way
  have hfree : ∀ id ∈ taken, ¬ s.Blocked (type.name, id) := h.free
  have hblocked : s.Blocked (type.name, failed) := h.blocked
  have hfind : (distinct ids).find? (fun id => s.Blocked (type.name, id)) = some failed := by
    refine List.find?_eq_some_iff_append.2 ⟨by simpa using hblocked, taken, rest, hway, ?_⟩
    exact fun id hid => by simpa using hfree id hid
  have htake : (distinct ids).takeWhile (fun id => ¬ s.Blocked (type.name, id)) = taken := by
    rw [hway, List.takeWhile_append_of_pos (by simpa using hfree),
      List.takeWhile_cons_of_neg (by simpa using hblocked), List.append_nil]
  rw [Service.outcomeOf, hfind]
  simp only [htake]

/-- If something is blocked, something is blocked first. -/
theorem exists_firstBlocked {c₀ : Caller} (h : ¬ ∀ id ∈ c₀.rest, ¬ s.Blocked (c₀.keyOf id)) :
    ∃ taken failed rest, s.FirstBlocked c₀ taken failed rest := by
  cases hfind : c₀.rest.find? fun id => s.Blocked (c₀.keyOf id) with
  | none => exact absurd (fun id hid => by simpa using List.find?_eq_none.1 hfind id hid) h
  | some failed =>
    obtain ⟨hblocked, taken, rest, hway, hfree⟩ := List.find?_eq_some_iff_append.1 hfind
    exact ⟨taken, failed, rest, hway,
      fun id hid => by simpa using hfree id hid, by simpa using hblocked⟩

/-- What was taken and given back, and what was waited for in vain, shows as before. -/
theorem FirstBlocked.restored {c₀ : Caller} (h : s.FirstBlocked c₀ taken failed rest) :
    s.Restored c₀.type taken (s.withRestored call c₀ taken failed taken) where
  existing := by
    intro key slot hslot
    have hsame {id : ResourceId} (hkey : c₀.keyOf id = key) : s.slotOf c₀ id = slot := by
      rw [slotOf, hkey, hslot, Option.getD_some]
    by_cases htaken : ∃ id ∈ taken, c₀.keyOf id = key
    · obtain ⟨id, hid, rfl⟩ := htaken
      refine ⟨_, Dict.get?_insertAll_of_mem _ _ c₀.keyOf_inj hid, ?_⟩
      rw [hsame rfl, Slot.state_restored]
    · have hnot : ∀ id ∈ taken, c₀.keyOf id ≠ key := fun id hid hkey => htaken ⟨id, hid, hkey⟩
      rw [withRestored, Dict.get?_insertAll_of_notMem _ _ hnot]
      by_cases hfailed : c₀.keyOf failed = key
      · subst hfailed
        refine ⟨_, Dict.get?_insert_self _ _ _, ?_⟩
        rw [hsame rfl, Slot.state_passed]
      · refine ⟨slot, ?_, rfl⟩
        rw [Dict.get?_insert_of_ne _ _ hfailed, withTaken, Dict.get?_insertAll_of_notMem _ _ hnot,
          hslot]
  made := by
    intro id hid hnone
    have hfresh : s.slotOf c₀ id = Slot.fresh c₀.type id := by
      rw [slotOf, Caller.keyOf, hnone, Option.getD_none]
    refine ⟨_, Dict.get?_insertAll_of_mem _ _ c₀.keyOf_inj hid, ?_⟩
    rw [hfresh, Slot.state_restored]
    exact ⟨⟨rfl, rfl, rfl⟩, rfl⟩
  absent := by
    intro key hnone hnot
    have hnot : ∀ id ∈ taken, c₀.keyOf id ≠ key := fun id hid => (hnot id hid).symm
    have hfailed : c₀.keyOf failed ≠ key := by
      rintro rfl
      obtain ⟨slot, hslot, -⟩ := h.blocked
      cases hnone.symm.trans hslot
    rw [withRestored, Dict.get?_insertAll_of_notMem _ _ hnot, Dict.get?_insert_of_ne _ _ hfailed,
      withTaken, Dict.get?_insertAll_of_notMem _ _ hnot, hnone]

end Service

/-- The call has returned, with this outcome and these slots, and nothing else has changed but the
time and who is awake. -/
structure Turn.Returns (t : Turn) (s : Service) (call : CallId) (outcome : GroupOutcome)
    (slots : Dict Key Slot) : Prop where
  reply : t.facts.filterMap Fact.reply? = [(call, .ok (.outcome outcome))]
  service : t.service.roused = { s with slots, clock := t.service.clock }.roused

/-- An attempt that is over has the outcome that the first blocked id decides. -/
theorem Attempt.outcome {s s' : Service} {call : CallId} {type : ResourceType}
    {ids : List ResourceId} {party : Party}
    {timeout : Nat} {spending : GroupTimeout} {latest : Nat} {replies : List (CallId × Reply)}
    (h : Attempt s call (s.beginner type ids party (.allOrNone timeout spending true))
      latest s' replies)
    (hgone : s'.callers.get? call = none) :
    replies = [(call, .ok (.outcome (s.outcomeOf type.name ids)))] ∧
      s'.roused =
        { s with slots := s.slotsAfter call type ids party, clock := s'.clock }.roused := by
  cases h with
  | next | waiting => cases (Service.get?_amid _ _ _).symm.trans hgone
  | undoing _ same =>
    obtain ⟨d, -, rfl⟩ := Service.exists_slots_of_roused same
    cases (Service.get?_amid _ _ _).symm.trans hgone
  | acquired free =>
    have houtcome : s.outcomeOf type.name ids = .acquired := Service.outcomeOf_of_free free
    rw [Service.slotsAfter, houtcome]
    exact ⟨rfl, rfl⟩
  | rolledBack first same =>
    rw [Service.slotsAfter, first.outcomeOf]
    obtain ⟨d, hd, rfl⟩ := Service.exists_slots_of_roused same
    exact ⟨rfl, same⟩

theorem Orderly.parked {past : List Fact} {s : Service} (ho : Orderly past s) (settled : s.Settled)
    (spending : GroupTimeout) : (s.withGroupTimeout spending).Parked where
  settled := settled.congr rfl rfl fun _ _ _ _ => rfl
  queued := by
    intro call key ticket hwaits
    obtain ⟨slot, found, hticket⟩ := ho.exists_slot_of_waits hwaits
    obtain ⟨c, id, budget, deadline, working, stage, rfl⟩ := Service.waits?_eq_some.1 hwaits
    exact ⟨slot, found, hticket, Service.waits_of_still ho working stage found
      (Service.move_of_settled settled call)⟩

namespace Service

variable {s : Service} {call : CallId} {typeName : String} {ids : List ResourceId} {party : Party}
    {type : ResourceType}
  {timeout : Nat}

section

variable (resolved : s.resolveFor typeName party = .ok type)
  (ho : Outset s call (s.beginner type ids party (.allOrNone timeout s.groupTimeout true)))

include resolved ho

/-- An attempt that is over when nobody else has acted has returned. -/
theorem run_attempt {as : List Action} (undisturbed : ∀ a ∈ as, a.Undisturbed call) {t : Turn}
    (ht : t = s.run (.submit call (.tryLockManyDetailed typeName ids party timeout) :: as))
    (hgone : t.service.callers.get? call = none) :
    t.Returns s call (s.outcomeOf type.name ids) (s.slotsAfter call type ids party) := by
  have seeks : (Request.tryLockManyDetailed typeName ids party timeout).seeks? =
      some (typeName, ids, party) := rfl
  obtain ⟨latest, hrun⟩ := (attempt_submit seeks rfl resolved).run ho undisturbed
  rw [run, Turn.andThen] at ht
  subst ht
  obtain ⟨hreplies, hservice⟩ := hrun.outcome hgone
  rw [← List.filterMap_append] at hreplies
  exact ⟨hreplies, hservice⟩

/-- Awaiting an attempt ends it, if nobody else has a deadline up to that of the call. Then nobody
has a move. -/
theorem perform_attempt (hr : s.registry.Sound) (parked : s.Parked)
    (representable : s.clock + timeout < Instant.horizon)
    (patient : ∀ other c d, s.callers.get? other = some c → c.deadline? = some d →
      s.clock + timeout < d) :
    let t := s.perform call (.await (.tryLockManyDetailed typeName ids party timeout))
    t.Returns s call (s.outcomeOf type.name ids) (s.slotsAfter call type ids party) ∧
      t.service.Settled := by
  intro t
  have seeks : (Request.tryLockManyDetailed typeName ids party timeout).seeks? =
      some (typeName, ids, party) := rfl
  have names : (Request.tryLockManyDetailed typeName ids party timeout).keys? =
    some (ids.map fun id => (typeName, id)) := rfl
  have hclock := clock_start names hr ho.idle
  obtain ⟨hsettled, hsame⟩ := (attempt_start seeks rfl resolved ho).settle ho parked
    fun other c d _ hother hd => by
    have hlt := patient other c d hother hd
    omega
  obtain ⟨hended, hgone, settled⟩ := hsettled.await ho parked (settled_settle _)
    (hsame.trans hclock) (Nat.le_add_right _ _)
    (Attempt.deadline_at_once representable s.groupTimeout true)
    fun other c d _ => patient other c d
  obtain ⟨hreplies, hservice⟩ := hended.outcome hgone
  refine ⟨⟨?reply, ?service⟩, ?settled⟩
  case reply =>
    rw [← hreplies]
    simp only [t, perform, Turn.service_andThen, Turn.facts_andThen, List.filterMap_append]
  case service =>
    simp only [t, perform, Turn.service_andThen]
    exact hservice
  case settled =>
    simp only [t, perform, Turn.service_andThen]
    exact settled

end

end Service

/-- An attempt, begun where nobody has a move, gets all resources if none of them is blocked: it
leaves what a call that only takes them leaves. Otherwise it is told the first that is blocked and
the ones before it, every slot shows what it showed before, and the only new slots are free ones of
the resources that were released. So it is in every run in which nobody else acts, and in a session
that awaits the call, if nobody else has a deadline up to that of the call; there nobody has a move
in the end. Neither the timeout nor the way in which it is spent makes a difference. -/
theorem attempt_exact (h : History) (settled : h.service.Settled) {call : CallId}
    (idle : h.service.callers.get? call = none) {typeName : String} {party : Party}
    {type : ResourceType}
    (resolved : h.service.resolveFor typeName party = .ok type) (ids : List ResourceId) :
    ∃ slots : Dict Key Slot,
      (match h.service.outcomeOf typeName ids with
      | .acquired => (h.service.start call (.lockMany typeName ids party)).service =
          { h.service with slots } ∧
          (h.service.start call (.lockMany typeName ids party)).facts.filterMap Fact.reply? =
            [(call, .ok .done)]
      | .rolledBack _ released => h.service.Restored type released slots) ∧
      ∀ (spending : GroupTimeout) (timeout : Nat),
        (∀ as : List Action, (∀ a ∈ as, a.Undisturbed call) →
          let t := (h.service.withGroupTimeout spending).run
            (.submit call (.tryLockManyDetailed typeName ids party timeout) :: as)
          t.service.callers.get? call = none →
            t.Returns (h.service.withGroupTimeout spending) call
              (h.service.outcomeOf typeName ids) slots) ∧
        (h.service.clock + timeout < Instant.horizon →
          (∀ other c d, h.service.callers.get? other = some c → c.deadline? = some d →
            h.service.clock + timeout < d) →
          let t := (h.service.withGroupTimeout spending).perform call
            (.await (.tryLockManyDetailed typeName ids party timeout))
          t.Returns (h.service.withGroupTimeout spending) call
            (h.service.outcomeOf typeName ids) slots ∧ t.service.Settled) := by
  have orderly := h.orderly
  generalize h.service = s at *
  obtain ⟨rfl, -⟩ := orderly.registry _ _ (Service.resolveFor_ok resolved)
  refine ⟨s.slotsAfter call type ids party, ?_, fun spending timeout => ?_⟩
  · by_cases free : ∀ id ∈ distinct ids, ¬ s.Blocked (type.name, id)
    · have ho : Outset s call (s.beginner type ids party .hold) :=
        orderly.outset idle resolved s.groupTimeout ids fun id hid hblocked =>
          absurd hblocked (free id hid)
      rw [Service.slotsAfter, Service.outcomeOf_of_free free]
      exact Service.start_free rfl rfl resolved ho rfl orderly.registry free
    · obtain ⟨taken, failed, rest, first⟩ : ∃ taken failed rest,
          s.FirstBlocked (s.beginner type ids party .hold) taken failed rest :=
            Service.exists_firstBlocked free
      rw [Service.slotsAfter, first.outcomeOf]
      exact first.restored
  · have resolved' : (s.withGroupTimeout spending).resolveFor type.name party = .ok type := resolved
    have ho : Outset (s.withGroupTimeout spending) call
        (s.beginner type ids party (.allOrNone timeout spending true)) :=
      orderly.outset idle resolved spending ids fun _ _ _ => ⟨_, _, _, rfl⟩
    rw [← Service.outcomeOf_withGroupTimeout s spending,
      ← Service.slotsAfter_withGroupTimeout s spending]
    constructor
    · intro as undisturbed t hgone
      exact Service.run_attempt resolved' ho undisturbed rfl hgone
    · intro representable patient
      exact Service.perform_attempt resolved' ho orderly.registry (orderly.parked settled spending)
        representable patient

/-- Groups that have an owner in common hold one permit of the first document and both of the
second, for which another group waits until the instant 100. -/
def sharedAlready : History where
  start := .withType ⟨"doc", 2, .sharedGroup⟩
  actions := [.submit 1 (.lockMany "doc" [1, 2] (.group [2, 1])), .move 1, .move 1, .move 1,
    .submit 2 (.lock "doc" 2 (.group [2, 3])), .move 2, .move 2,
    .submit 3 (.tryLock "doc" 2 (.group [4]) 100), .move 3]
  isNew := Service.new_groupDoc
  numbered := by decide

/-- One more such group cannot have the second document, in no time and in a while; the first and a
new third it can have. -/
theorem attempt_exact_sharedAlready :
    ∃ slots both, sharedAlready.service.Restored ⟨"doc", 2, .sharedGroup⟩ [3, 1] slots ∧
      (∀ spending, ((sharedAlready.service.withGroupTimeout spending).perform 4
        (.await (.tryLockManyDetailed "doc" [3, 1, 3, 2, 5] (.group [9, 2]) 99))).Returns
          (sharedAlready.service.withGroupTimeout spending) 4 (.rolledBack 2 [3, 1]) slots) ∧
      ((sharedAlready.service.withGroupTimeout .sharedBudget).run
        (.submit 4 (.tryLockManyDetailed "doc" [3, 1, 3, 2, 5] (.group [9, 2]) 0) ::
          [.move 4, .pass 7, .move 4, .move 4, .move 4, .move 4, .move 4, .move 4])).Returns
        (sharedAlready.service.withGroupTimeout .sharedBudget) 4 (.rolledBack 2 [3, 1]) slots ∧
      (sharedAlready.service.start 4 (.lockMany "doc" [3, 1, 3] (.group [9, 2]))).service =
        { sharedAlready.service with slots := both } ∧
      ((sharedAlready.service.withGroupTimeout .perMember).perform 4
        (.await (.tryLockManyDetailed "doc" [3, 1, 3] (.group [9, 2]) 0))).Returns
          (sharedAlready.service.withGroupTimeout .perMember) 4 .acquired both := by
  have settled : sharedAlready.service.Settled := Service.firstMove_eq_none_iff.1 rfl
  have idle : sharedAlready.service.callers.get? 4 = none := rfl
  have resolved : sharedAlready.service.resolveFor "doc" (.group [9, 2]) =
      .ok ⟨"doc", 2, .sharedGroup⟩ := rfl
  have patient (timeout : Nat) (ht : timeout < 100) : ∀ other c d,
    sharedAlready.service.callers.get? other = some c →
      c.deadline? = some d → sharedAlready.service.clock + timeout < d := by
    intro other c d hc hd
    have hkeys : other ∈ [3] := (Dict.mem_keys_iff _ _).2 ⟨c, hc⟩
    rw [List.mem_singleton.1 hkeys] at hc
    cases hc
    cases hd
    exact (Nat.zero_add _).symm ▸ ht
  have hblocked : sharedAlready.service.outcomeOf "doc" [3, 1, 3, 2, 5] = .rolledBack 2 [3, 1] :=
    rfl
  have hfree : sharedAlready.service.outcomeOf "doc" [3, 1, 3] = .acquired := rfl
  obtain ⟨slots, hslots, hends⟩ := attempt_exact sharedAlready settled idle resolved [3, 1, 3, 2, 5]
  obtain ⟨both, hboth, htakes⟩ := attempt_exact sharedAlready settled idle resolved [3, 1, 3]
  rw [hblocked] at hslots hends
  rw [hfree] at hboth htakes
  refine ⟨slots, both, hslots, fun spending => ?_, ?_, hboth.1, ?_⟩
  · exact ((hends spending 99).2 (by decide) (patient 99 (by decide))).1
  · exact (hends .sharedBudget 0).1 _ (by simp [Action.Undisturbed]) rfl
  · exact ((htakes .perMember 0).2 (by decide) (patient 0 (by decide))).1

end FairLocks
