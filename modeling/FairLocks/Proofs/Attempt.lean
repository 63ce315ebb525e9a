import FairLocks.Proofs.Commuting
import FairLocks.Proofs.Wakeups

/-!
# A call that nobody disturbs

While nobody else acts, what a call does to the slots is told by the slots that it finds when it
begins. It takes a permit of each resource in turn, as long as one is free and nobody waits. The
first resource of which no permit is to be had it waits for, and when it gives up it gives back the
permits it took, by their serials. What is left of all this are the serials and the tickets that
were drawn, and that others who wait for what it gave up are awake, until they find that they must
wait on.
-/
namespace FairLocks

set_option autoImplicit false

namespace Dict

variable {κ α β : Type} [DecidableEq κ]

/-- Puts in one value after another. -/
def insertAll (d : Dict κ α) (key : β → κ) (value : β → α) (l : List β) : Dict κ α :=
  l.foldl (fun d b => d.insert (key b) (value b)) d

variable (d : Dict κ α) {key : β → κ} (value : β → α)

theorem insertAll_snoc (l : List β) (b : β) :
    d.insertAll key value (l ++ [b]) = (d.insertAll key value l).insert (key b) (value b) := by
  simp [insertAll]

/-- What was not put in is as before. -/
theorem get?_insertAll_of_notMem {l : List β} {k : κ} (h : ∀ b ∈ l, key b ≠ k) :
    (d.insertAll key value l).get? k = d.get? k := by
  induction l generalizing d with
  | nil => rfl
  | cons b l ih =>
    change ((d.insert (key b) (value b)).insertAll key value l).get? k = _
    rw [ih _ fun b' hb' => h b' (List.mem_cons_of_mem b hb'),
      get?_insert_of_ne _ _ (h b List.mem_cons_self)]

theorem get?_insertAll_of_mem (hkey : ∀ b b', key b = key b' → b = b') {l : List β} {b : β}
    (hb : b ∈ l) :
    (d.insertAll key value l).get? (key b) = some (value b) := by
  induction l generalizing d with
  | nil => cases hb
  | cons head l ih =>
    change ((d.insert (key head) (value head)).insertAll key value l).get? (key b) = _
    by_cases hmem : b ∈ l
    · exact ih _ hmem
    · obtain rfl := (List.mem_cons.1 hb).resolve_right hmem
      rw [get?_insertAll_of_notMem, get?_insert_self]
      intro b' hb' heq
      exact hmem (hkey b' b heq ▸ hb')

end Dict

namespace Slot

variable {s : Slot}

/-- A permit is free and nobody waits. -/
def Open (s : Slot) : Prop := 0 < s.available ∧ s.queue = []

instance (s : Slot) : Decidable s.Open := inferInstanceAs (Decidable (_ ∧ _))

/-- The slot after somebody came and was served. -/
def taken (s : Slot) (owners : OwnerSet) (call : CallId) : Slot := (s.enqueue.2.grant owners call).2

/-- The slot after somebody came, was served and gave the permit back. -/
def restored (s : Slot) : Slot :=
  { s with nextSerial := s.nextSerial + 1, nextTicket := s.nextTicket + 1 }

/-- The slot after somebody came and gave up, which wakes the others. -/
def passed (s : Slot) : Slot := { s with nextTicket := s.nextTicket + 1, awake := s.queue }

/-- Who comes is served just where a permit is free and nobody waits. -/
theorem serves_enqueue_iff (h : s.Sound) : s.enqueue.2.Serves s.enqueue.1 ↔ s.Open := by
  refine and_congr_right fun _ => ?_
  cases hqueue : s.queue with
  | nil => simp [enqueue, hqueue]
  | cons ticket queue =>
    have hlt := h.ticket_lt ticket (by rw [hqueue]; exact List.mem_cons_self)
    simp only [enqueue, hqueue, List.cons_append, List.head?_cons, Option.some.injEq,
      reduceCtorEq, iff_false]
    omega

theorem taken_eq (h : s.Sound) (hopen : s.Open) (owners : OwnerSet) (call : CallId) :
    s.taken owners call = { s.restored with
      available := s.available - 1
      holdings := s.holdings ++ [⟨s.nextSerial, owners, call⟩] } := by
  have hnobody := h.awake_eq_nil hopen.2
  simp [taken, enqueue, grant, restored, wakeIf, hopen.1, hopen.2, hnobody]

/-- The permit that was taken is the one that its serial finds, and without it all is as before. -/
theorem release?_taken (h : s.Sound) (hopen : s.Open) (owners : OwnerSet) (call : CallId) :
    (s.taken owners call).release? (fun g => g.serial = s.nextSerial) =
      some (⟨s.nextSerial, owners, call⟩, s.restored) := by
  have hother : ∀ g ∈ s.holdings, ¬ (decide (g.serial = s.nextSerial) = true) := by
    intro g hg
    have hlt := h.serial_lt g hg
    simp only [decide_eq_true_eq]
    omega
  have hfind : (s.holdings ++ [(⟨s.nextSerial, owners, call⟩ : Holding)]).find?
      (fun g => g.serial = s.nextSerial) = some ⟨s.nextSerial, owners, call⟩ := by
    rw [List.find?_append, List.find?_eq_none.2 hother]
    simp
  have hpos := hopen.1
  have hbalanced := h.balanced
  have hback : min (s.available - 1 + 1) s.capacity = s.available := by omega
  rw [taken_eq h hopen, release?]
  simp only [hfind, List.eraseP_append_right _ hother]
  simp [restored, wakeIf, hopen.2, hback]

/-- Whoever comes and must wait falls asleep. -/
theorem awake_enqueue (h : ¬ s.Open) : s.enqueue.2.awake = s.awake := if_neg h

/-- Who gives up takes the ticket along, and wakes the others. -/
theorem leave_enqueue (h : s.Sound) : s.enqueue.2.leave s.nextTicket = s.passed := by
  have hstay : s.queue.filter (fun ticket => decide (ticket ≠ s.nextTicket)) = s.queue := by
    refine List.filter_eq_self.2 fun ticket hticket => ?_
    have hlt := h.ticket_lt ticket hticket
    rw [decide_eq_true_eq]
    omega
  rw [leave, enqueue, List.filter_append, hstay]
  simp [passed, wakeIf]

@[simp] theorem state_restored (s : Slot) : s.restored.state = s.state := rfl

@[simp] theorem state_passed (s : Slot) : s.passed.state = s.state := rfl

end Slot

namespace Caller

theorem keyOf_inj (c : Caller) (id id' : ResourceId) (h : c.keyOf id = c.keyOf id') : id = id' :=
  congrArg Prod.snd h

end Caller

namespace Service

/-- The slot of the resource has no permit free, or somebody waits for one. -/
def Blocked (s : Service) (key : Key) : Prop :=
  ∃ slot, s.slots.get? key = some slot ∧ (slot.available = 0 ∨ slot.queue ≠ [])

instance (s : Service) (key : Key) : Decidable (s.Blocked key) :=
  decidable_of_iff (∃ slot ∈ s.slots.get? key, slot.available = 0 ∨ slot.queue ≠ []) Iff.rfl

/-- The slot that the caller finds, or makes. -/
def slotOf (s : Service) (c : Caller) (id : ResourceId) : Slot :=
  (s.slots.get? (c.keyOf id)).getD (Slot.fresh c.type id)

theorem slotFor_fst (s : Service) (call : CallId) (c : Caller) (id : ResourceId) :
    (s.slotFor call c.type id).1 = s.slotOf c id := by
  unfold slotFor slotOf Caller.keyOf
  cases s.slots.get? (c.type.name, id) <;> rfl

theorem replies_slotFor (s : Service) (call : CallId) (type : ResourceType) (id : ResourceId) :
    (s.slotFor call type id).2.filterMap Fact.reply? = [] := by
  unfold slotFor
  split <;> rfl

section

variable {s : Service} {call : CallId} {c : Caller} {id : ResourceId}

/-- A resource that is not blocked can be taken. -/
theorem slotOf_open (permits : 0 < c.type.capacity)
    (h : ¬ s.Blocked (c.keyOf id)) : (s.slotOf c id).Open := by
  unfold slotOf
  cases hslot : s.slots.get? (c.keyOf id) with
  | none => exact ⟨permits, rfl⟩
  | some slot =>
    constructor
    · refine Nat.pos_of_ne_zero fun hnone => ?_
      exact h ⟨slot, hslot, .inl hnone⟩
    · by_contra hqueue
      exact h ⟨slot, hslot, .inr hqueue⟩

theorem slotOf_not_open (h : s.Blocked (c.keyOf id)) : ¬ (s.slotOf c id).Open := by
  obtain ⟨slot, hslot, hblocked⟩ := h
  simp only [slotOf, hslot, Option.getD_some]
  rintro ⟨hpos, hqueue⟩
  rcases hblocked with hnone | hwaits
  · omega
  · exact hwaits hqueue

theorem slotOf_sound (sound : ∀ key slot, s.slots.get? key = some slot → slot.Sound)
    (permits : 0 < c.type.capacity) : (s.slotOf c id).Sound := by
  unfold slotOf
  cases hslot : s.slots.get? (c.keyOf id) with
  | none => exact Slot.sound_fresh permits id
  | some slot => exact sound _ slot hslot

/-- The service while the call is at work, when all others stand still. -/
def amid (s : Service) (call : CallId) (slots : Dict Key Slot) (c : Caller)
    (clock : Nat) : Service :=
  { s with slots, callers := s.callers.insert call c, clock }

@[simp] theorem get?_amid (slots : Dict Key Slot) (c : Caller) (clock : Nat) :
    (s.amid call slots c clock).callers.get? call = some c := Dict.get?_insert_self _ _ _

variable {slots : Dict Key Slot} {before : Caller} {clock : Nat} {slot : Slot}

/-- The caller comes to a resource of which a permit is to be had. -/
theorem enter_open (found : (s.amid call slots before clock).slotOf c id = slot) (h : slot.Sound)
    (hopen : slot.Open) :
    ((s.amid call slots before clock).enter call c id).service =
        s.amid call (slots.insert (c.keyOf id) (slot.taken c.party.owners call))
          { c with taken := c.taken ++ [(id, slot.nextSerial)], stage := .next } clock ∧
      ((s.amid call slots before clock).enter call c id).facts.filterMap Fact.reply? = [] := by
  have hserves := (Slot.serves_enqueue_iff h).2 hopen
  simp only [enter, slotFor_fst, found, hserves, if_true]
  constructor
  · simp only [serve, amid, Dict.insert_insert]
    rfl
  · rw [List.filterMap_append, replies_slotFor, List.filterMap_cons_none rfl, replies_serve]
    rfl

/-- The caller comes to a resource of which no permit is to be had. -/
theorem enter_blocked (found : (s.amid call slots before clock).slotOf c id = slot) (h : slot.Sound)
    (hblocked : ¬ slot.Open) {budget : Option Nat}
    (hbudget : c.goal.budget c.began clock = budget) :
    ((s.amid call slots before clock).enter call c id).service =
        s.amid call (slots.insert (c.keyOf id) slot.enqueue.2)
          { c with
            stage := .waiting id slot.nextTicket budget (budget.bind (Instant.after? clock)) }
          clock ∧
      ((s.amid call slots before clock).enter call c id).facts.filterMap Fact.reply? = [] := by
  have hserves := mt (Slot.serves_enqueue_iff h).1 hblocked
  have hbudget : c.goal.budget c.began (s.amid call slots before clock).clock = budget := hbudget
  simp only [enter, slotFor_fst, found, hserves, if_false, hbudget]
  constructor
  · simp only [amid, Dict.insert_insert]
    rfl
  · rw [List.filterMap_append, replies_slotFor]
    rfl

/-- A caller that gives up its place in a queue starts to give back what it took. -/
theorem giveUp_allOrNone (hgoal : c.goal.AllOrNone) (ticket : Nat) (budget : Option Nat) :
    ((s.amid call slots before clock).giveUp call c id ticket budget slot).service =
        s.amid call (slots.insert (c.keyOf id) (slot.leave ticket))
        { c with stage := .undoing id c.taken none }
          clock ∧
      ((s.amid call slots before clock).giveUp call c id ticket budget slot).facts.filterMap
        Fact.reply? = [] := by
  obtain ⟨timeout, spending, detailed, hgoal⟩ := hgoal
  simp only [giveUp, amid, Dict.insert_insert]
  constructor <;> split
  · rfl
  · rename_i other
    exact absurd hgoal (other _ _ _)
  · rfl
  · rename_i other
    exact absurd hgoal (other _ _ _)

/-- A permit that its serial finds is given back. -/
theorem undo_found {failed : ResourceId} {member : ResourceId × Nat}
    {left : List (ResourceId × Nat)} {error : Option LockError} {g : Holding} {slot' : Slot}
    (found : slots.get? (c.keyOf member.1) = some slot)
    (released : slot.release? (fun g => g.serial = member.2) = some (g, slot')) :
    ((s.amid call slots before clock).undo call c failed member left error).service =
        s.amid call (slots.insert (c.keyOf member.1) slot')
          { c with stage := .undoing failed left error } clock ∧
      ((s.amid call slots before clock).undo call c failed member left error).facts.filterMap
        Fact.reply? = [] := by
  have hfound : (s.amid call slots before clock).slots.get? (c.keyOf member.1) = some slot := found
  simp only [undo, giveBack, hfound, released]
  constructor
  · simp only [amid, Dict.insert_insert]
  · rw [List.filterMap_cons_none rfl, replies_of_tells (tells_announce _ _ _ _)]

/-- A call that has given back all that it took is answered. -/
theorem undone_restored (failed : ResourceId) :
    (s.undone call c failed none).service = { s with callers := s.callers.erase call } ∧
      (s.undone call c failed none).facts.filterMap Fact.reply? =
        [(call, .ok (c.goal.failure failed (c.taken.map Prod.fst)))] := by
  refine ⟨rfl, ?_⟩
  have htold := replies_of_tells (tells_announce s call .rolledBack (c.eventOf failed))
  change (s.announce call .rolledBack (c.eventOf failed) ++ [_]).filterMap Fact.reply? = _
  rw [List.filterMap_append, htold]
  rfl

end

end Service

namespace Service

variable (s : Service) (call : CallId) (c₀ : Caller)

/-- The slots when permits have been taken. -/
def withTaken (taken : List ResourceId) : Dict Key Slot :=
  s.slots.insertAll c₀.keyOf (fun id => (s.slotOf c₀ id).taken c₀.party.owners call) taken

/-- The slots when permits have been taken, the wait for one more was given up, and some have been
given back. -/
def withRestored (taken : List ResourceId) (failed : ResourceId)
    (released : List ResourceId) : Dict Key Slot :=
  ((s.withTaken call c₀ taken).insert (c₀.keyOf failed) (s.slotOf c₀ failed).passed).insertAll
    c₀.keyOf
    (fun id => (s.slotOf c₀ id).restored) released

/-- The permit that the caller takes of a resource. -/
def permitOf (id : ResourceId) : ResourceId × Nat := (id, (s.slotOf c₀ id).nextSerial)

/-- The caller when it has taken permits. -/
def callerAt (taken rest : List ResourceId) (stage : Stage) : Caller :=
  { c₀ with rest, taken := taken.map (s.permitOf c₀), stage }

@[simp] theorem keyOf_callerAt (taken rest : List ResourceId) (stage : Stage) (id : ResourceId) :
    (s.callerAt c₀ taken rest stage).keyOf id = c₀.keyOf id := rfl

/-- The caller can take what comes before `failed`, and that is blocked. -/
structure FirstBlocked (taken : List ResourceId) (failed : ResourceId)
    (rest : List ResourceId) : Prop where
  way : c₀.rest = taken ++ failed :: rest
  free : ∀ id ∈ taken, ¬ s.Blocked (c₀.keyOf id)
  blocked : s.Blocked (c₀.keyOf failed)

end Service

/-- How far the call has got since it began at the first service, and what it has replied, when
nobody else has done anything and the call has come to no resource after the instant `latest`. Once
it has given up, others are awake, who may go back to sleep. -/
inductive Attempt (s : Service) (call : CallId) (c₀ : Caller) (latest : Nat) :
    Service → List (CallId × Reply) → Prop
  | next {taken rest : List ResourceId} {clock : Nat} (later : s.clock ≤ clock)
      (intime : clock ≤ latest)
      (way : c₀.rest = taken ++ rest) (free : ∀ id ∈ taken, ¬ s.Blocked (c₀.keyOf id)) :
      Attempt s call c₀ latest
        (s.amid call (s.withTaken call c₀ taken) (s.callerAt c₀ taken rest .next) clock) []
  | acquired {clock : Nat} (free : ∀ id ∈ c₀.rest, ¬ s.Blocked (c₀.keyOf id)) :
      Attempt s call c₀ latest { s with slots := s.withTaken call c₀ c₀.rest, clock }
        [(call, .ok c₀.goal.success)]
  | waiting {taken rest : List ResourceId} {failed : ResourceId} {since clock : Nat}
      {budget : Option Nat} (later : s.clock ≤ since) (intime : since ≤ latest)
      (now : since ≤ clock) (first : s.FirstBlocked c₀ taken failed rest)
      (hbudget : c₀.goal.budget c₀.began since = budget) :
      Attempt s call c₀ latest (s.amid call
        ((s.withTaken call c₀ taken).insert (c₀.keyOf failed) (s.slotOf c₀ failed).enqueue.2)
        (s.callerAt c₀ taken rest (.waiting failed (s.slotOf c₀ failed).nextTicket budget
          (budget.bind (Instant.after? since)))) clock) []
  | undoing {s' : Service} {released left rest : List ResourceId} {failed : ResourceId}
      {clock : Nat} (first : s.FirstBlocked c₀ (released ++ left) failed rest)
      (same : s'.roused = (s.amid call (s.withRestored call c₀ (released ++ left) failed released)
        (s.callerAt c₀ (released ++ left) rest (.undoing failed (left.map (s.permitOf c₀)) none))
          clock).roused) :
      Attempt s call c₀ latest s' []
  | rolledBack {s' : Service} {taken rest : List ResourceId} {failed : ResourceId} {clock : Nat}
      (first : s.FirstBlocked c₀ taken failed rest)
      (same : s'.roused =
        { s with slots := s.withRestored call c₀ taken failed taken, clock }.roused) :
      Attempt s call c₀ latest s' [(call, .ok (c₀.goal.failure failed taken))]

/-- What holds where a call begins. Whoever may have to wait can give up. -/
structure Outset (s : Service) (call : CallId) (c₀ : Caller) : Prop where
  idle : s.callers.get? call = none
  sound : ∀ key slot, s.slots.get? key = some slot → slot.Sound
  begun : c₀.Begun
  patient : ∀ id ∈ c₀.rest, s.Blocked (c₀.keyOf id) → c₀.goal.AllOrNone

namespace Outset

variable {s : Service} {call : CallId} {c₀ : Caller} (ho : Outset s call c₀)

include ho

theorem slotOf_sound (id : ResourceId) : (s.slotOf c₀ id).Sound :=
  Service.slotOf_sound ho.sound ho.begun.permits

theorem slotOf_open {id : ResourceId} (h : ¬ s.Blocked (c₀.keyOf id)) : (s.slotOf c₀ id).Open :=
  Service.slotOf_open ho.begun.permits h

/-- What the caller comes to has not been touched. -/
theorem get?_withTaken {taken rest : List ResourceId} {id : ResourceId}
    (way : c₀.rest = taken ++ id :: rest) :
    (s.withTaken call c₀ taken).get? (c₀.keyOf id) = s.slots.get? (c₀.keyOf id) := by
  have hnodup := ho.begun.distinct
  rw [way, List.nodup_append] at hnodup
  refine Dict.get?_insertAll_of_notMem _ _ fun other hother heq => ?_
  exact hnodup.2.2 other hother id List.mem_cons_self (c₀.keyOf_inj _ _ heq)

/-- What is given back next has been taken and is as it was left. -/
theorem get?_withRestored {released left rest : List ResourceId} {failed id : ResourceId}
    (way : c₀.rest = released ++ id :: left ++ failed :: rest) :
    (s.withRestored call c₀ (released ++ id :: left) failed released).get? (c₀.keyOf id) =
      some ((s.slotOf c₀ id).taken c₀.party.owners call) := by
  have hnodup := ho.begun.distinct
  rw [way, List.nodup_append] at hnodup
  obtain ⟨htaken, -, hfailed⟩ := hnodup
  have hne : c₀.keyOf failed ≠ c₀.keyOf id := fun heq =>
    hfailed id (by simp) failed List.mem_cons_self (c₀.keyOf_inj _ _ heq).symm
  rw [Service.withRestored, Dict.get?_insertAll_of_notMem, Dict.get?_insert_of_ne _ _ hne]
  · exact Dict.get?_insertAll_of_mem _ _ c₀.keyOf_inj (by simp)
  · intro other hother heq
    exact (List.nodup_append.1 htaken).2.2 other hother id List.mem_cons_self (c₀.keyOf_inj _ _ heq)

/-- A caller that is answered leaves the others as they were. -/
theorem erase_insert (c : Caller) : (s.callers.insert call c).erase call = s.callers := by
  rw [Dict.erase_insert_self, Dict.erase_of_get?_eq_none ho.idle]

/-- The call comes to its next resource, or has taken them all. -/
theorem move_next {taken rest : List ResourceId} {clock latest : Nat} (later : s.clock ≤ clock)
    (intime : clock ≤ latest) (way : c₀.rest = taken ++ rest)
    (free : ∀ id ∈ taken, ¬ s.Blocked (c₀.keyOf id)) {t : Turn}
    (moves : (s.amid call (s.withTaken call c₀ taken) (s.callerAt c₀ taken rest .next) clock).move
      call = some t) :
    Attempt s call c₀ latest t.service (t.facts.filterMap Fact.reply?) := by
  cases rest with
  | nil =>
    simp only [Service.move, Service.get?_amid, Service.callerAt, Option.some.injEq] at moves
    rw [List.append_nil] at way
    rw [← moves, Service.finish, Service.amid, ho.erase_insert, ← way]
    rw [← way] at free
    exact .acquired free
  | cons id rest =>
    have hmove : (s.amid call (s.withTaken call c₀ taken)
      (s.callerAt c₀ taken (id :: rest) .next) clock).move call =
        some (Service.enter (s.amid call (s.withTaken call c₀ taken)
          (s.callerAt c₀ taken (id :: rest) .next) clock) call
            (s.callerAt c₀ taken rest .next) id) := by
      simp only [Service.move, Service.get?_amid, Service.callerAt]
    obtain rfl := Option.some.inj (hmove.symm.trans moves)
    -- it finds what was there when it began
    have hfound : Service.slotOf (s.amid call (s.withTaken call c₀ taken)
        (s.callerAt c₀ taken (id :: rest) .next) clock) (s.callerAt c₀ taken rest .next) id =
          s.slotOf c₀ id :=
      congrArg (Option.getD · _) (ho.get?_withTaken way)
    by_cases hblocked : s.Blocked (c₀.keyOf id)
    · obtain ⟨hservice, hreplies⟩ := Service.enter_blocked hfound (ho.slotOf_sound id)
        (Service.slotOf_not_open hblocked) rfl
      rw [hservice, hreplies]
      exact .waiting later intime (Nat.le_refl _) ⟨way, free, hblocked⟩ rfl
    · obtain ⟨hservice, hreplies⟩ :=
        Service.enter_open hfound (ho.slotOf_sound id) (ho.slotOf_open hblocked)
      have hway : c₀.rest = (taken ++ [id]) ++ rest := by simp [way]
      have hfree : ∀ other ∈ taken ++ [id], ¬ s.Blocked (c₀.keyOf other) := by
        intro other hother
        rcases List.mem_append.1 hother with hother | hother
        · exact free other hother
        · rwa [List.mem_singleton.1 hother]
      have hnext : Attempt s call c₀ latest _ [] := .next later intime hway hfree
      rw [Service.withTaken, Dict.insertAll_snoc, Service.callerAt, List.map_append] at hnext
      rw [hservice, hreplies]
      exact hnext

/-- The call has waited long enough, and starts to give back what it took. -/
theorem move_waiting {taken rest : List ResourceId} {failed : ResourceId} {clock latest : Nat}
    (first : s.FirstBlocked c₀ taken failed rest) {budget deadline : Option Nat} {t : Turn}
    (moves : (s.amid call ((s.withTaken call c₀ taken).insert (c₀.keyOf failed)
      (s.slotOf c₀ failed).enqueue.2)
      (s.callerAt c₀ taken rest (.waiting failed (s.slotOf c₀ failed).nextTicket budget deadline))
      clock).move call = some t) :
    Attempt s call c₀ latest t.service (t.facts.filterMap Fact.reply?) := by
  have hsound := ho.slotOf_sound failed
  have hserves : ¬ (s.slotOf c₀ failed).enqueue.2.Serves (s.slotOf c₀ failed).nextTicket :=
    mt (Slot.serves_enqueue_iff hsound).1 (Service.slotOf_not_open first.blocked)
  have hmem : failed ∈ c₀.rest := by simp [first.way]
  cases moved moves with
  | succeeds working stage | enters working stage | undoes working stage | undone working stage =>
    cases (Service.get?_amid _ _ _).symm.trans working
    cases stage
  | takes working stage found serves =>
    cases (Service.get?_amid _ _ _).symm.trans working
    cases stage
    cases (Dict.get?_insert_self _ _ _).symm.trans found
    exact absurd serves hserves
  | givesUp working stage found =>
    cases (Service.get?_amid _ _ _).symm.trans working
    cases stage
    cases (Dict.get?_insert_self _ _ _).symm.trans found
    have hundoing :
        Attempt s call c₀ latest (s.amid call (s.withRestored call c₀ ([] ++ taken) failed [])
          (s.callerAt c₀ ([] ++ taken) rest (.undoing failed (taken.map (s.permitOf c₀)) none))
            clock) [] :=
      @Attempt.undoing s call c₀ latest _ [] taken rest failed clock first rfl
    rw [Service.withRestored, ← Slot.leave_enqueue hsound] at hundoing
    have hpatient :
      (s.callerAt c₀ taken rest (.waiting failed (s.slotOf c₀ failed).nextTicket
        budget deadline)).goal.AllOrNone := ho.patient failed hmem first.blocked
    obtain ⟨hservice, hreplies⟩ := Service.giveUp_allOrNone hpatient _ _
    rw [hservice, hreplies, Service.keyOf_callerAt, Dict.insert_insert]
    exact hundoing
  | dozes working stage found _ _ woken =>
    cases (Service.get?_amid _ _ _).symm.trans working
    cases stage
    cases (Dict.get?_insert_self _ _ _).symm.trans found
    -- it was not awake when it began to wait, and nobody has woken it
    rw [Slot.awake_enqueue (Service.slotOf_not_open first.blocked)] at woken
    exact absurd (hsound.ticket_lt _ (hsound.awake_sub _ woken)) (Nat.lt_irrefl _)

/-- The call gives back the next permit, or has given them all back. -/
theorem move_undoing {released left rest : List ResourceId} {failed : ResourceId}
    {clock latest : Nat} (first : s.FirstBlocked c₀ (released ++ left) failed rest) {s' : Service}
    (same : s'.roused = (s.amid call (s.withRestored call c₀ (released ++ left) failed released)
      (s.callerAt c₀ (released ++ left) rest (.undoing failed (left.map (s.permitOf c₀)) none))
        clock).roused)
    {t : Turn} (moves : s'.move call = some t) :
    Attempt s call c₀ latest t.service (t.facts.filterMap Fact.reply?) := by
  obtain ⟨d, hd, rfl⟩ := Service.exists_slots_of_roused same
  cases moved moves with
  | succeeds working stage | enters working stage | takes working stage | givesUp working stage
  | dozes working stage =>
    cases (Service.get?_amid _ _ _).symm.trans working
    cases stage
  | undone working stage =>
    cases (Service.get?_amid _ _ _).symm.trans working
    cases left with
    | cons => cases stage
    | nil =>
      cases stage
      simp only [List.append_nil, List.map_nil] at first hd ⊢
      obtain ⟨hroused, hfacts⟩ := Turn.mk.inj (Service.undone_roused hd call
        (s.callerAt c₀ released rest (.undoing failed [] none)) failed none)
      have hreleased : (s.callerAt c₀ released rest (.undoing failed [] none)).taken.map Prod.fst =
          released := by
        simp [Service.callerAt, Function.comp_def, Service.permitOf]
      obtain ⟨hservice, hreplies⟩ := @Service.undone_restored
        (s.amid call (s.withRestored call c₀ released failed released)
          (s.callerAt c₀ released rest (.undoing failed [] none)) clock)
        call (s.callerAt c₀ released rest (.undoing failed [] none)) failed
      rw [hservice, Service.amid, ho.erase_insert] at hroused
      rw [hfacts, hreplies, hreleased]
      exact .rolledBack first hroused
  | undoes working stage =>
    cases (Service.get?_amid _ _ _).symm.trans working
    cases left with
    | nil => cases stage
    | cons id left =>
      cases stage
      have hserial := Slot.release?_taken (ho.slotOf_sound id)
        (ho.slotOf_open (first.free id (by simp)))
        c₀.party.owners call
      have hfound := ho.get?_withRestored first.way
      have hway : released ++ id :: left = (released ++ [id]) ++ left := by simp
      obtain ⟨hservice, hreplies⟩ := @Service.undo_found s call
        (s.callerAt c₀ (released ++ id :: left) rest
          (.undoing failed ((id :: left).map (s.permitOf c₀)) none))
        _ _ clock _ failed (s.permitOf c₀ id) (left.map (s.permitOf c₀)) none _ _ hfound hserial
      obtain ⟨hroused, hfacts⟩ := Turn.mk.inj (Service.undo_roused hd call
        (s.callerAt c₀ (released ++ id :: left) rest
          (.undoing failed ((id :: left).map (s.permitOf c₀)) none))
        failed (s.permitOf c₀ id) (left.map (s.permitOf c₀)) none)
      rw [hservice] at hroused
      rw [hfacts, hreplies]
      refine @Attempt.undoing s call c₀ latest _ (released ++ [id]) left rest failed clock
        (hway ▸ first) ?_
      rw [hroused, ← hway, Service.withRestored, Service.withRestored, Dict.insertAll_snoc]
      rfl

/-- A step of the call that nobody disturbs. -/
theorem move {s' : Service} {latest : Nat} {replies : List (CallId × Reply)}
    (h : Attempt s call c₀ latest s' replies) {t : Turn} (moves : s'.move call = some t) :
    Attempt s call c₀ latest t.service (replies ++ t.facts.filterMap Fact.reply?) := by
  cases h with
  | next later intime way free => exact ho.move_next later intime way free moves
  | waiting _ _ _ first => exact ho.move_waiting first moves
  | undoing first same => exact ho.move_undoing first same moves
  | acquired => simp [Service.move, ho.idle] at moves
  | rolledBack _ same =>
    obtain ⟨d, -, rfl⟩ := Service.exists_slots_of_roused same
    simp [Service.move, ho.idle] at moves

/-- While the call is driven, nobody else acts. -/
theorem drive {s' : Service} {latest : Nat} {replies : List (CallId × Reply)}
    (h : Attempt s call c₀ latest s' replies) :
    Attempt s call c₀ latest (s'.drive call).service
      (replies ++ (s'.drive call).facts.filterMap Fact.reply?) := by
  have hdrive (n : Nat) : Attempt s call c₀ latest (s'.driveWithin call n).service
      (replies ++ (s'.driveWithin call n).facts.filterMap Fact.reply?) := by
    induction n generalizing s' replies with
    | zero => simpa [Service.driveWithin, Service.rest] using h
    | succ n ih =>
      unfold Service.driveWithin
      split
      · simpa [Service.rest] using h
      · rename_i t moves
        rw [Turn.facts_andThen, List.filterMap_append, ← List.append_assoc]
        exact ih (ho.move h moves)
  exact hdrive _

end Outset

/-- What may happen while nobody but the call acts. -/
def Action.Undisturbed (call : CallId) : Action → Prop
  | .submit _ _ => False
  | .move other => other = call
  | .pass _ => True

namespace Attempt

variable {s s' : Service} {call : CallId} {c₀ : Caller} {latest : Nat}
    {replies : List (CallId × Reply)}

/-- Time passes, and the call may come to a resource later. -/
theorem pass (h : Attempt s call c₀ latest s' replies) {clock : Nat} (hle : s'.clock ≤ clock) :
    Attempt s call c₀ (max latest clock) { s' with clock } replies := by
  cases h with
  | next later _ way free => exact .next (Nat.le_trans later hle) (Nat.le_max_right _ _) way free
  | acquired free => exact .acquired free
  | waiting later intime now first hbudget =>
    exact .waiting later (Nat.le_trans intime (Nat.le_max_left _ _))
      (Nat.le_trans now hle) first hbudget
  | undoing first same =>
    exact @Attempt.undoing _ _ _ _ _ _ _ _ _ clock first (Service.roused_at same clock)
  | rolledBack first same =>
    exact @Attempt.rolledBack _ _ _ _ _ _ _ _ clock first (Service.roused_at same clock)

/-- Time passes while the call has no move. -/
theorem pass_of_still (h : Attempt s call c₀ latest s' replies) (hstill : s'.move call = none)
    {clock : Nat}
    (hle : s'.clock ≤ clock) : Attempt s call c₀ latest { s' with clock } replies := by
  cases h with
  | @next _ rest => cases rest <;> simp [Service.move, Service.callerAt] at hstill
  | acquired free => exact .acquired free
  | waiting later intime now first hbudget =>
    exact .waiting later intime (Nat.le_trans now hle) first hbudget
  | undoing first same =>
    exact @Attempt.undoing _ _ _ _ _ _ _ _ _ clock first (Service.roused_at same clock)
  | rolledBack first same =>
    exact @Attempt.rolledBack _ _ _ _ _ _ _ _ clock first (Service.roused_at same clock)

theorem run (h : Attempt s call c₀ latest s' replies) (ho : Outset s call c₀) {as : List Action}
    (undisturbed : ∀ a ∈ as, a.Undisturbed call) : ∃ latest,
    Attempt s call c₀ latest (s'.run as).service
      (replies ++ (s'.run as).facts.filterMap Fact.reply?) := by
  induction as generalizing s' latest replies with
  | nil => exact ⟨latest, by simpa using h⟩
  | cons a as ih =>
    rw [Service.facts_run_cons, List.filterMap_append, ← List.append_assoc]
    have ha := undisturbed a List.mem_cons_self
    have hmore := fun a' ha' => undisturbed a' (List.mem_cons_of_mem a ha')
    cases a with
    | submit => cases ha
    | pass d => exact ih (by simpa [Service.act] using h.pass (Nat.le_add_right _ d)) hmore
    | move other =>
      obtain rfl : other = call := ha
      have hmoved : Attempt s other c₀ latest (s'.act (.move other)).service
          (replies ++ (s'.act (.move other)).facts.filterMap Fact.reply?) := by
        simp only [Service.act]
        cases hmove : s'.move other with
        | none => simpa [Service.rest] using h
        | some t => exact ho.move h hmove
      exact ih hmoved hmore

/-- Where nothing is blocked the call takes everything before it stops. -/
theorem acquired_of_free (h : Attempt s call c₀ latest s' replies) (hstill : s'.move call = none)
    (free : ∀ id ∈ c₀.rest, ¬ s.Blocked (c₀.keyOf id)) :
    replies = [(call, .ok c₀.goal.success)] ∧
      s' = { s with slots := s.withTaken call c₀ c₀.rest, clock := s'.clock } := by
  have hfree {taken rest : List ResourceId} {failed : ResourceId}
      (first : s.FirstBlocked c₀ taken failed rest) : False :=
    free failed (by simp [first.way]) first.blocked
  cases h with
  | acquired => exact ⟨rfl, rfl⟩
  | @next _ rest => cases rest <;> simp [Service.move, Service.callerAt] at hstill
  | waiting _ _ _ first | undoing first | rolledBack first => exact (hfree first).elim

end Attempt

namespace Service

variable {s : Service} {call : CallId} {request : Request} {typeName : String}
    {ids : List ResourceId} {party : Party}
  {type : ResourceType}

theorem clock_start {keys : List Key} (names : request.keys? = some keys) (hr : s.registry.Sound)
    (idle : s.callers.get? call = none) : (s.start call request).service.clock = s.clock := by
  obtain ⟨_, _, hframe⟩ := (confined_start names hr idle).frame
  rw [hframe]

/-- The caller as which a request for permits begins. -/
def beginner (s : Service) (type : ResourceType) (ids : List ResourceId) (party : Party)
    (goal : Goal) : Caller :=
  { type, party, goal, began := s.clock, rest := distinct ids, taken := [], stage := .next }

variable {goal : Goal} (seeks : request.seeks? = some (typeName, ids, party))
  (aims : request.aim s.groupTimeout = goal) (resolved : s.resolveFor typeName party = .ok type)

include seeks aims resolved

/-- A request for permits that passes its checks has all its resources still to come to. -/
theorem attempt_submit : Attempt s call (s.beginner type ids party goal) s.clock
    (s.submit call request).service
    ((s.submit call request).facts.filterMap Fact.reply?) := by
  have hsubmit : s.submit call request =
      ⟨s.amid call s.slots (s.beginner type ids party goal) s.clock, []⟩ := by
    rw [submit_of_seeks seeks, engage, resolved, aims]
    rfl
  have hway : (s.beginner type ids party goal).rest = [] ++ distinct ids := rfl
  rw [hsubmit]
  exact .next (Nat.le_refl _) (Nat.le_refl _) hway (by simp)

/-- Then it is driven until it cannot move. -/
theorem attempt_start (ho : Outset s call (s.beginner type ids party goal)) :
    Attempt s call (s.beginner type ids party goal) s.clock (s.start call request).service
      ((s.start call request).facts.filterMap Fact.reply?) := by
  rw [start, Turn.facts_andThen, List.filterMap_append]
  exact ho.drive (attempt_submit seeks aims resolved)

/-- A call for resources of which none is blocked is answered at once. -/
theorem start_free (ho : Outset s call (s.beginner type ids party goal)) {keys : List Key}
    (names : request.keys? = some keys) (hr : s.registry.Sound)
    (free : ∀ id ∈ distinct ids, ¬ s.Blocked (type.name, id)) :
    (s.start call request).service =
        { s with slots := s.withTaken call (s.beginner type ids party goal) (distinct ids) } ∧
      (s.start call request).facts.filterMap Fact.reply? = [(call, .ok goal.success)] := by
  obtain ⟨hreplies, hservice⟩ :=
    (attempt_start seeks aims resolved ho).acquired_of_free (move_drive _ _) free
  rw [clock_start names hr ho.idle] at hservice
  exact ⟨hservice, hreplies⟩

end Service

/-- A call for permits that passes its checks has what it needs, in either way to spend timeouts. -/
theorem Orderly.outset {past : List Fact} {s : Service} (ho : Orderly past s) {call : CallId}
    (idle : s.callers.get? call = none) {typeName : String} {party : Party} {type : ResourceType}
    (resolved : s.resolveFor typeName party = .ok type) (spending : GroupTimeout)
    (ids : List ResourceId) {goal : Goal}
    (patient : ∀ id ∈ distinct ids, s.Blocked (type.name, id) → goal.AllOrNone) :
    Outset (s.withGroupTimeout spending) call (s.beginner type ids party goal) where
  idle := idle
  sound := ho.ledger.sound
  begun := ⟨rfl, rfl, nodup_distinct ids, (ho.registry _ _ (Service.resolveFor_ok resolved)).2⟩
  patient := patient

end FairLocks
