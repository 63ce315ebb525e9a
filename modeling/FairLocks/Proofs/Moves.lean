import FairLocks.Proofs.Effects

/-!
# Moves are steps

A move is one step of its caller, but for two: by the first move towards a resource the slot is made
if there is none, the ticket is drawn, and the permit taken if the caller can be served at once; and
a caller that goes back to sleep takes no step. So every action is a few steps of one call, and a
history leads from a new service to the one it ends in.
-/
namespace FairLocks

set_option autoImplicit false

variable {past : List Fact} {s : Service} {call : CallId} {c : Caller}

namespace Step

theorem serve {id : ResourceId} {ticket : Nat} {budget deadline : Option Nat} {slot : Slot}
    (working : s.callers.get? call = some c) (stage : c.stage = .waiting id ticket budget deadline)
    (found : s.slots.get? (c.keyOf id) = some slot) (serves : slot.Serves ticket) :
    Step past s call (s.serve call c id ticket budget slot) := by
  have htold := Service.tells_announce s call .locked (c.eventOf id)
  exact .advance working (.granted stage htold)
    (.cons (.granted found serves) (.silent fun f hf => (htold f hf).silent))

theorem giveUp {id : ResourceId} {ticket : Nat} {budget deadline : Option Nat} {slot : Slot}
    (working : s.callers.get? call = some c) (stage : c.stage = .waiting id ticket budget deadline)
    (found : s.slots.get? (c.keyOf id) = some slot) :
    Step past s call (s.giveUp call c id ticket budget slot) := by
  simp only [Service.giveUp]
  split
  · rename_i hgoal
    exact .advance working (.gaveUp stage hgoal) (.cons (.gaveUp found) .nil)
  · rename_i hsingle
    exact .finish working (.gaveUp stage fun timeout spending detailed =>
      hsingle timeout spending detailed)
      (.cons (.gaveUp found) (.cons (.silent trivial) .nil))

theorem undo {failed : ResourceId} {member : ResourceId × Nat} {left : List (ResourceId × Nat)}
    {error : Option LockError} (working : s.callers.get? call = some c)
    (stage : c.stage = .undoing failed (member :: left) error) :
    Step past s call (s.undo call c failed member left error) := by
  simp only [Service.undo]
  split
  · rename_i t ht
    obtain ⟨slot, g, slot', told, found, released, htold, rfl⟩ := Service.giveBack_ok ht
    obtain ⟨-, -, -, -, hserial, -⟩ := Slot.release_eq released
    exact .advance working (.returned stage (of_decide_eq_true hserial) htold)
      (Service.entries_returned found released htold)
  · rename_i e he
    have hmissing := Service.giveBack_error he
    refine .advance working (.notReturned stage fun g hg heq => ?_) (.cons (.silent trivial) .nil)
    exact hmissing g hg (decide_eq_true heq)

theorem undone {failed : ResourceId} {error : Option LockError}
    (working : s.callers.get? call = some c) (stage : c.stage = .undoing failed [] error) :
    Step past s call (s.undone call c failed error) := by
  unfold Service.undone
  cases error with
  | some e => exact .finish working (.failed stage) (.cons (.silent trivial) .nil)
  | none =>
    have htold := Service.tells_announce s call .rolledBack (c.eventOf failed)
    refine .finish working (.rolledBack stage htold) (.silent fun f hf => ?_)
    rcases List.mem_cons.1 hf with rfl | hf
    · trivial
    · rcases List.mem_append.1 hf with hf | hf
      · exact (htold f hf).silent
      · rw [List.mem_singleton.1 hf]
        trivial

end Step

namespace Leads

/-- The slot of the next resource is there, made if there was none. -/
theorem opened {id : ResourceId} (working : s.callers.get? call = some c) (stage : c.stage = .next)
    (permits : 0 < c.type.capacity) :
    ∃ s₁, Leads (· = call) past s (past ++ (s.slotFor call c.type id).2) s₁ ∧
      s₁.slots.get? (c.keyOf id) = some (s.slotFor call c.type id).1 ∧
      s₁.callers.get? call = some c ∧
      ∀ slot c', { s₁ with
          slots := s₁.slots.insert (c.keyOf id) slot, callers := s₁.callers.insert call c' } =
        { s with
          slots := s.slots.insert (c.keyOf id) slot, callers := s.callers.insert call c' } := by
  unfold Service.slotFor
  cases hslot : s.slots.get? (c.type.name, id) with
  | some slot =>
    refine ⟨s, ?_, hslot, working, fun _ _ => rfl⟩
    rw [List.append_nil]
    exact .refl
  | none =>
    have hstart : Leads (· = call) past s past s := .refl
    have hentry : Entry s.slots ⟨call, .opened (c.keyOf id) (Slot.fresh c.type id)⟩
        (s.slots.insert (c.keyOf id) (Slot.fresh c.type id)) := .opened hslot permits
    have hopened :=
      hstart.step rfl (.advance working (@Caller.Advance.opened call s.slots c id stage)
        (.cons hentry .nil))
    refine ⟨_, hopened, Dict.get?_insert_self _ _ _, Dict.get?_insert_self _ _ _, fun slot c' => ?_⟩
    simp only [Dict.insert_insert]

/-- Being served does not depend on how the caller came to be at the head of the queue. -/
theorem serve_of_queued (s : Service) (call : CallId) (c : Caller) (rest : List ResourceId)
    (stage : Stage) (id : ResourceId) (ticket : Nat) (budget : Option Nat) (slot slot' : Slot) :
    Service.serve { s with
        slots := s.slots.insert (c.keyOf id) slot
        callers := s.callers.insert call { c with rest, stage } }
      call { c with rest, stage } id ticket budget slot' =
    s.serve call { c with rest } id ticket budget slot' := by
  unfold Service.serve Caller.keyOf
  simp only [Dict.insert_insert]
  rfl

theorem enter {id : ResourceId} {rest : List ResourceId} (working : s.callers.get? call = some c)
    (stage : c.stage = .next) (next : c.rest = id :: rest) (permits : 0 < c.type.capacity) :
    Leads (· = call) past s (past ++ (s.enter call { c with rest } id).facts)
      (s.enter call { c with rest } id).service := by
  obtain ⟨s₁, hopened, found, working₁, hinsert⟩ :=
    @opened past s call c id working stage permits
  generalize hfound : (s.slotFor call c.type id).1 = slot at found
  generalize hbudget : c.goal.budget c.began s.clock = budget
  have hqueued (waits : Bool) (deadline : Option Nat) :=
    have hadvance : c.Advance call s₁.slots
        [⟨call, .queued (c.keyOf id) slot.nextTicket slot.queue.length waits⟩]
        { c with rest, stage := .waiting id slot.nextTicket budget deadline } := .queued stage next
    hopened.step rfl (.advance working₁ hadvance (.cons (.queued found) .nil))
  simp only [hinsert] at hqueued
  unfold Service.enter
  simp only [hfound, hbudget]
  split
  · rename_i serves
    -- the ticket is drawn and served in one move
    have hserved :=
      (hqueued false none).step rfl (@Step.serve _ _ call _ id slot.nextTicket budget none
        slot.enqueue.2 (Dict.get?_insert_self _ _ _) rfl (Dict.get?_insert_self _ _ _) serves)
    rw [serve_of_queued, List.append_assoc, List.append_assoc] at hserved
    exact hserved
  · have hwaits := hqueued true (budget.bind (Instant.after? s.clock))
    rw [List.append_assoc] at hwaits
    exact hwaits

theorem move {t : Turn} (permits : ∀ call c, s.callers.get? call = some c → 0 < c.type.capacity)
    (h : s.move call = some t) : Leads (· = call) past s (past ++ t.facts) t.service := by
  have hstart : Leads (· = call) past s past s := .refl
  cases moved h with
  | succeeds working stage done =>
    exact hstart.step rfl (.finish working (.success stage done) (.cons (.silent trivial) .nil))
  | enters working stage next => exact enter working stage next (permits call _ working)
  | takes working stage found serves => exact hstart.step rfl (.serve working stage found serves)
  | givesUp working stage found => exact hstart.step rfl (.giveUp working stage found)
  | dozes working stage found waits =>
    simp only [Service.doze, List.append_nil]
    exact hstart.doze (.intro found waits)
  | undoes working stage => exact hstart.step rfl (.undo working stage)
  | undone working stage => exact hstart.step rfl (.undone working stage)

end Leads

end FairLocks
