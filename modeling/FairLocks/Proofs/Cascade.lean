import FairLocks.Proofs.Orderly
import FairLocks.Service.Progress

/-!
# No permit lies idle while somebody waits

Callers that are left to themselves stop after finitely many moves, in whatever order they move,
because each move leaves less to do. No wake-up is lost on the way: a caller at the head of a line
for a permit that is free is awake. So where nobody has a move, nobody stands in line for a permit
that is free: the head of the line would take it.
-/
namespace FairLocks

set_option autoImplicit false

/-- The calls move one after another, each by a move that it has. -/
inductive Cascade : Service → List CallId → Service → Prop
  | nil {s : Service} : Cascade s [] s
  | cons {s s' : Service} {call : CallId} {calls : List CallId} {t : Turn}
      (moves : s.move call = some t) (more : Cascade t.service calls s') :
        Cascade s (call :: calls) s'

namespace Cascade

variable {s s' : Service} {calls : List CallId}

/-- Each move of a cascade is paid for by the work that was left. -/
theorem length_add_work_le (h : Cascade s calls s') : calls.length + s'.work ≤ s.work := by
  induction h with
  | nil => simp
  | cons moves _ ih =>
    have hless := Service.work_lt_of_move moves
    rw [List.length_cons]
    omega

theorem orderly {past : List Fact} (h : Cascade s calls s') (ho : Orderly past s) :
    ∃ past', Orderly past' s' := by
  induction h generalizing past with
  | nil => exact ⟨past, ho⟩
  | cons moves _ ih => exact ih (ho.leads (.move ho.permits moves))

theorem of_settleWithin (n : Nat) (s : Service) :
    ∃ calls, Cascade s calls (Service.settleWithin n s).service := by
  induction n generalizing s with
  | zero => exact ⟨[], .nil⟩
  | succ n ih =>
    unfold Service.settleWithin
    split
    · exact ⟨[], .nil⟩
    · rename_i t ht
      obtain ⟨call, hcall⟩ := Service.exists_move_of_firstMove ht
      obtain ⟨calls, hcalls⟩ := ih t.service
      exact ⟨call :: calls, .cons hcall hcalls⟩

end Cascade

/-- Every ticket in a queue is that of a call that waits. -/
theorem Orderly.exists_waits {past : List Fact} {s : Service} (ho : Orderly past s) {key : Key}
    {slot : Slot}
    (found : s.slots.get? key = some slot) {ticket : Nat} (hticket : ticket ∈ slot.queue) : ∃ x,
      s.waits? x = some (key, ticket) := by
  obtain ⟨x, hline⟩ := (ho.ledger.mem_queue_iff found).1 hticket
  exact ⟨x, (ho.lined _ _ _).1 hline⟩

namespace Service

section

variable {s : Service} {call : CallId} {c : Caller}

/-- Who is at work and has no move waits. -/
theorem waiting_of_still (still : s.move call = none) (working : s.callers.get? call = some c) :
    ∃ id ticket budget deadline, c.stage = .waiting id ticket budget deadline := by
  unfold move at still
  simp only [working] at still
  cases hstage : c.stage with
  | next => cases hrest : c.rest <;> simp [hstage, hrest] at still
  | undoing failed left error => cases left <;> simp [hstage] at still
  | waiting id ticket budget deadline => exact ⟨id, ticket, budget, deadline, rfl⟩

/-- Who waits has no move while it sleeps and its deadline is still to come. -/
theorem still_iff_of_waiting {id : ResourceId} {ticket : Nat} {budget deadline : Option Nat}
    {slot : Slot}
    (working : s.callers.get? call = some c) (stage : c.stage = .waiting id ticket budget deadline)
    (found : s.slots.get? (c.keyOf id) = some slot) :
    s.move call = none ↔ ticket ∉ slot.awake ∧ ∀ d, deadline = some d → s.clock < d := by
  have hresume : s.move call = s.resume call c id ticket budget deadline := by
    simp only [move, working, stage]
  rw [hresume]
  exact resume_eq_none_iff found

/-- Who can neither be served nor give up has no move but to go back to sleep. -/
theorem eq_doze_of_move {id : ResourceId} {ticket : Nat} {budget deadline : Option Nat}
    {slot : Slot} (working : s.callers.get? call = some c)
    (stage : c.stage = .waiting id ticket budget deadline)
    (found : s.slots.get? (c.keyOf id) = some slot) (waits : ¬ slot.Serves ticket)
    (early : ∀ d, deadline = some d → s.clock < d) {t : Turn} (moves : s.move call = some t) :
    t = s.doze c id ticket slot := by
  simp only [move, working, stage, resume_of_waits found waits (early_iff.1 early)] at moves
  split at moves
  · exact (Option.some.inj moves).symm
  · cases moves

/-- Who waits where nobody has lost a wake-up, and has no move, cannot be served. -/
theorem waits_of_still {past : List Fact} (ho : Orderly past s) {id : ResourceId} {ticket : Nat}
    {budget deadline : Option Nat} {slot : Slot} (working : s.callers.get? call = some c)
    (stage : c.stage = .waiting id ticket budget deadline)
    (found : s.slots.get? (c.keyOf id) = some slot)
    (still : s.move call = none) : ¬ slot.Serves ticket := fun serves =>
  ((still_iff_of_waiting working stage found).1 still).1 (ho.awake_of_serves found serves)

end

/-- Whether nobody has a move is told by the callers, the clock, and the slots that somebody waits
for. -/
theorem Settled.congr {s s' : Service} (settled : s.Settled) (callers : s'.callers = s.callers)
    (clock : s'.clock = s.clock)
    (awaited : ∀ call key ticket, s.waits? call = some (key, ticket) →
      s'.slots.get? key = s.slots.get? key) : s'.Settled := by
  intro call hcall
  rw [callers] at hcall
  have hstill := settled call hcall
  obtain ⟨c, working⟩ := (Dict.mem_keys_iff _ _).1 hcall
  have working' : s'.callers.get? call = some c := by rw [callers, working]
  obtain ⟨id, ticket, budget, deadline, stage⟩ := waiting_of_still hstill working
  have hslot := awaited call (c.keyOf id) ticket
    (waits?_eq_some.2 ⟨c, id, budget, deadline, working, stage, rfl⟩)
  cases found : s.slots.get? (c.keyOf id) with
  | none => simp [move, working', stage, resume, hslot, found]
  | some slot =>
    rw [still_iff_of_waiting working stage found] at hstill
    rw [still_iff_of_waiting working' stage (hslot.trans found), clock]
    exact hstill

end Service

/-- Where a permit is free and somebody waits for it, the caller at the head of the line takes it
when it moves next. -/
theorem Orderly.head_takes {past : List Fact} {s : Service} (ho : Orderly past s) {key : Key}
    {slot : Slot}
    (found : s.slots.get? key = some slot) {ticket : Nat} (serves : slot.Serves ticket) :
    ∃ call c id budget deadline, s.callers.get? call = some c ∧ c.keyOf id = key ∧
      c.stage = .waiting id ticket budget deadline ∧
      s.move call = some (s.serve call c id ticket budget slot) := by
  obtain ⟨call, hwaits⟩ := ho.exists_waits found (List.mem_of_head? serves.2)
  obtain ⟨c, id, budget, deadline, working, stage, rfl⟩ := Service.waits?_eq_some.1 hwaits
  refine ⟨call, c, id, budget, deadline, working, rfl, stage, ?_⟩
  simp only [Service.move, working, stage]
  exact Service.resume_of_serves found serves (ho.awake_of_serves found serves)

/-- Where nobody has a move, whoever waits for a resource waits for a permit that is out. -/
theorem Orderly.available_or_queue {past : List Fact} {s : Service} (ho : Orderly past s)
    (settled : s.Settled) {key : Key} {slot : Slot} (found : s.slots.get? key = some slot) :
    slot.available = 0 ∨ slot.queue = [] := by
  by_contra hidle
  obtain ⟨hfree, hsomebody⟩ := not_or.1 hidle
  obtain ⟨ticket, queue, hqueue⟩ := List.exists_cons_of_ne_nil hsomebody
  have serves : slot.Serves ticket := ⟨Nat.pos_of_ne_zero hfree, by rw [hqueue]; rfl⟩
  obtain ⟨call, c, _, _, _, working, -, -, hmove⟩ := ho.head_takes found serves
  have hstays := settled call ((Dict.mem_keys_iff _ _).2 ⟨c, working⟩)
  cases hstays.symm.trans hmove

/-- After anything that happens, the callers that can move do so finitely often, in whatever order;
every such cascade goes on to an end, `settle` being one of them. Wherever it has come to, the
caller at the head of a queue is awake if a permit is free, and takes it when it moves; so where the
cascade ends every slot has no permit free or nobody in its queue. -/
theorem no_idle_permit (h : History) :
    (∀ calls s, Cascade h.service calls s → calls.length ≤ h.service.work ∧
      ∃ more s', Cascade s more s' ∧ s'.Settled) ∧
    (∃ calls, Cascade h.service calls h.service.settle.service) ∧
    ∀ calls s, Cascade h.service calls s → ∀ key slot, s.slots.get? key = some slot →
      (∀ ticket, slot.Serves ticket → ticket ∈ slot.awake ∧
        ∃ call t g party budget, s.waits? call = some (key, ticket) ∧ s.move call = some t ∧
          ⟨call, .granted key ticket g party budget⟩ ∈ t.facts) ∧
      (s.Settled → slot.available = 0 ∨ slot.queue = []) := by
  refine ⟨fun calls s hcascade => ⟨?_, ?_⟩, Cascade.of_settleWithin _ _, ?_⟩
  · have hpaid := hcascade.length_add_work_le
    omega
  · obtain ⟨more, hmore⟩ := Cascade.of_settleWithin s.work s
    exact ⟨more, _, hmore, s.settled_settle⟩
  · intro calls s hcascade key slot found
    obtain ⟨past, ho⟩ := hcascade.orderly h.orderly
    refine ⟨fun ticket serves => ⟨ho.awake_of_serves found serves, ?_⟩, fun hsettled =>
      ho.available_or_queue hsettled found⟩
    obtain ⟨call, c, id, budget, deadline, working, rfl, stage, hmove⟩ := ho.head_takes found serves
    exact ⟨call, _, _, _, _, Service.waits?_eq_some.2 ⟨c, id, budget, deadline, working, stage,
      rfl⟩, hmove, List.mem_cons_self⟩

/-- One unlock lets a call for two resources go on: it takes the first, cannot get the second in
time, gives the first back, and so lets another call have it. A fourth call waits for the second; it
is woken when the first gives up behind it, and goes back to sleep. -/
def relay : History where
  start := .withType ⟨"doc", 1, .exclusivePerOwner⟩
  actions := [.submit 1 (.lockMany "doc" [1, 2] (.owner 9)), .move 1, .move 1, .move 1,
    .submit 2 (.tryLockMany "doc" [1, 2] (.owner 7) 0), .move 2,
    .submit 3 (.lock "doc" 1 (.owner 8)), .move 3, .submit 4 (.lock "doc" 2 (.owner 6)), .move 4,
    .submit 5 (.unlock "doc" 1 (.owner 9))]
  isNew := Service.new_doc
  numbered := by decide

theorem no_idle_permit_relay :
    ∃ s, Cascade relay.service [2, 2, 2, 2, 2, 3, 3, 4] s ∧ 8 ≤ relay.service.work ∧
      (∃ more s', Cascade s more s' ∧ s'.Settled) ∧
      ∃ slot, s.slots.get? ("doc", 2) = some slot ∧ slot.queue = [1] ∧
        (slot.available = 0 ∨ slot.queue = []) := by
  obtain ⟨hends, -, hidle⟩ := no_idle_permit relay
  have hcascade : Cascade relay.service [2, 2, 2, 2, 2, 3, 3, 4]
      (relay.service.run ([2, 2, 2, 2, 2, 3, 3, 4].map .move)).service :=
    .cons rfl
      (.cons rfl (.cons rfl (.cons rfl (.cons rfl (.cons rfl (.cons rfl (.cons rfl .nil)))))))
  have hsettled := Service.firstMove_eq_none_iff.1
    (show (relay.service.run ([2, 2, 2, 2, 2, 3, 3, 4].map .move)).service.firstMove =
      none from rfl)
  obtain ⟨hlength, hmore⟩ := hends _ _ hcascade
  exact ⟨_, hcascade, hlength, hmore, _, rfl, rfl, (hidle _ _ hcascade ("doc", 2) _ rfl).2 hsettled⟩

end FairLocks
