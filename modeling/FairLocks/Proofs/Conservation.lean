import FairLocks.Proofs.Orderly

/-!
# No permit is lost or made up

In every slot the free permits and those that are out add up to the capacity, and on every resource
the permits granted are those returned and those out, also where its slot was dropped and made
again. So an action that grants a permit finds one free, and one that returns a permit finds room
for it.
-/
namespace FairLocks

set_option autoImplicit false

namespace Service

variable {s : Service} {a : Action} {call : CallId} {key : Key} {ticket : Nat} {g : Holding}
  {party : Party} {budget : Option Nat}

/-- An action that grants a permit takes it from those that were free. -/
theorem available_of_granted (hf : ⟨call, .granted key ticket g party budget⟩ ∈ (s.act a).facts) :
    ∃ slot', (s.act a).service.slots.get? key = some slot' ∧
      ((s.slots.get? key).map Slot.available).getD slot'.capacity = slot'.available + 1 := by
  obtain ⟨y, effect⟩ := effect_act hf
  cases effect with
  | granted free serves left => exact ⟨_, left, free.trans (Nat.sub_add_cancel serves.1).symm⟩

/-- A permit that an action returns was out, and its slot is left as the return leaves it. -/
theorem released_of_returned (hf : ⟨call, .returned key g party⟩ ∈ (s.act a).facts) :
    ∃ slot p slot', s.slots.get? key = some slot ∧ slot.release? p = some (g, slot') ∧
      (s.act a).service.slots.get? key = some slot' := by
  obtain ⟨y, effect⟩ := effect_act hf
  cases effect with
  | returned found released left => exact ⟨_, _, _, found, released, left⟩

/-- A state that is answered is that of a slot. -/
theorem exists_slot_of_answered {state : SlotState}
    (hf : ⟨call, .answered (.ok (.state state))⟩ ∈ (s.act a).facts) :
    ∃ key slot, s.slots.get? key = some slot ∧ state = slot.state := by
  obtain ⟨y, effect⟩ := effect_act hf
  cases effect with
  | shown found => exact ⟨_, _, found, rfl⟩
  | answered plain => exact absurd rfl (plain state)

end Service

/-- In every slot the free permits and those that are out add up to the capacity, and on every
resource the permits granted are those returned and those out. No action takes a permit that is not
free, returns one more than there are, or shows a slot with more free permits than it has. -/
theorem permits_conserved (h : History) :
    (∀ key slot, h.service.slots.get? key = some slot →
      0 < slot.capacity ∧ slot.available + slot.holdings.length = slot.capacity) ∧
    (∀ key, h.facts.countP (·.grants key) = h.facts.countP (·.returns key) +
      ((h.service.slots.get? key).map (·.holdings.length)).getD 0) ∧
    (∀ before a after, h.actions = before ++ a :: after → ∀ call key g party,
      let s := (h.start.run before).service
      let s' := (s.act a).service
      (∀ ticket budget, ⟨call, .granted key ticket g party budget⟩ ∈ (s.act a).facts →
        ∃ slot', s'.slots.get? key = some slot' ∧
          ((s.slots.get? key).map Slot.available).getD slot'.capacity = slot'.available + 1) ∧
      (⟨call, .returned key g party⟩ ∈ (s.act a).facts →
        ∃ slot slot', s.slots.get? key = some slot ∧ s'.slots.get? key = some slot' ∧
          slot.available < slot.capacity ∧ slot'.available = slot.available + 1)) ∧
    ∀ call st, ⟨call, .answered (.ok (.state st))⟩ ∈ h.facts →
      st.held? = some st.holders.length := by
  have hsound {before after : List Action} (ha : h.actions = before ++ after) :
      ∀ key slot, (h.start.run before).service.slots.get? key = some slot → slot.Sound :=
    (h.upTo ha).orderly.ledger.sound
  refine ⟨fun key slot hslot => ?_, fun key => ?_,
    fun before a after ha call key g party => ⟨?_, ?_⟩, ?_⟩
  · have hs := h.orderly.ledger.sound key slot hslot
    exact ⟨hs.capacity_pos, hs.balanced⟩
  · rw [h.orderly.ledger.grants_eq_returns_add_held key, holdingsAt]
    cases h.service.slots.get? key <;> rfl
  · exact fun ticket budget hf => Service.available_of_granted hf
  · intro hf
    obtain ⟨slot, p, slot', hslot, hrelease, hslot'⟩ := Service.released_of_returned hf
    obtain ⟨hlt, heq⟩ := (hsound ha key slot hslot).release_available hrelease
    exact ⟨slot, slot', hslot, hslot', hlt, heq⟩
  · intro call st hf
    obtain ⟨before, a, after, ha, hf⟩ := Service.exists_act_of_mem_run hf
    obtain ⟨key, slot, hslot, rfl⟩ := Service.exists_slot_of_answered hf
    have hbalanced := (hsound ha key slot hslot).balanced
    have hle : slot.available ≤ slot.capacity := by omega
    simp only [SlotState.held?, Slot.state, hle, if_true, List.length_map, Option.some.injEq]
    omega

/-- A permit is taken, looked at and returned. -/
def roundTrip : History where
  start := .withType ⟨"doc", 1, .exclusivePerOwner⟩
  actions := [.submit 1 (.lock "doc" 1 (.owner 7)), .move 1, .submit 2 (.slotState ("doc", 1)),
    .submit 3 (.unlock "doc" 1 (.owner 7))]
  isNew := Service.new_doc
  numbered := by decide

theorem permits_conserved_roundTrip :
    (∃ slot, roundTrip.service.slots.get? ("doc", 1) = some slot ∧
      slot.available + slot.holdings.length = slot.capacity) ∧
    (∃ slot', (roundTrip.start.run (roundTrip.actions.take 2)).service.slots.get? ("doc", 1) =
      some slot' ∧
      1 = slot'.available + 1) ∧
    (∃ slot slot', (roundTrip.start.run (roundTrip.actions.take 3)).service.slots.get? ("doc", 1) =
        some slot ∧ roundTrip.service.slots.get? ("doc", 1) = some slot' ∧
      slot.available < slot.capacity ∧ slot'.available = slot.available + 1) ∧
    ∃ st, ⟨2, .answered (.ok (.state st))⟩ ∈ roundTrip.facts ∧ st.held? = some 1 := by
  obtain ⟨hslots, -, hactions, hstates⟩ := permits_conserved roundTrip
  refine ⟨⟨_, rfl, (hslots ("doc", 1) _ rfl).2⟩, ?_, ?_, _, List.mem_of_getElem? (i := 3) rfl, ?_⟩
  · obtain ⟨slot', hslot', hfree⟩ :=
      (hactions [.submit 1 (.lock "doc" 1 (.owner 7))] (.move 1) _ rfl 1 ("doc", 1) _ (.owner 7)).1
        0 none (List.mem_of_getElem? (i := 2) rfl)
    cases hslot'
    exact ⟨_, rfl, hfree⟩
  · exact (hactions (roundTrip.actions.take 3) (.submit 3 (.unlock "doc" 1 (.owner 7))) [] rfl 3
      ("doc", 1) _ (.owner 7)).2 (List.mem_of_getElem? (i := 0) rfl)
  · exact hstates 2 _ (List.mem_of_getElem? (i := 3) rfl)

end FairLocks
