import FairLocks.Proofs.Undrawn
import FairLocks.Proofs.Wakeups

/-!
# A service without one of its callers

A caller is deleted from a service together with the tickets it drew. As long as none of these
tickets is served, whatever another call does comes to the same with and without the caller: it
finds the same, leaves the same, and its facts are alike but for the tickets and for the number of
callers it saw in a queue. Only who is awake may differ, which is left out of the comparison.
-/
namespace FairLocks

set_option autoImplicit false

/-- The caller with the ticket it has where those in `o` have not been drawn. -/
def Caller.relabel (o : Key → Option Nat) (c : Caller) : Caller :=
  { c with
    stage :=
      match c.stage with
      | .waiting id ticket budget deadline =>
        .waiting id (renumber (o (c.keyOf id)) ticket) budget deadline
      | .next => .next
      | .undoing failed left error => .undoing failed left error }

/-- The service without the caller and without the tickets in `o`, with everyone else awake. -/
def Service.without (s : Service) (x : CallId) (o : Key → Option Nat) : Service :=
  { s with
    slots := s.slots.map fun key slot => slot.undraw (o key)
    callers := (s.callers.erase x).map fun _ c => c.relabel o }

/-- How many of the tickets in `o` stand in the queue of the resource. -/
def Service.drawn (s : Service) (o : Key → Option Nat) (key : Key) : Nat :=
  ((s.slots.get? key).map (Slot.drawn (o key))).getD 0

/-- The facts are the same but for the tickets, and the first one counts `n` callers more in a
queue. -/
inductive Fact.Alike (n : Key → Nat) : Fact → Fact → Prop
  | same (f : Fact) : Alike n f f
  | queued (call : CallId) (key : Key) (ticket ticket' ahead : Nat) (waits : Bool) :
      Alike n ⟨call, .queued key ticket (ahead + n key) waits⟩
        ⟨call, .queued key ticket' ahead waits⟩
  | granted (call : CallId) (key : Key) (ticket ticket' : Nat) (g : Holding) (party : Party)
      (budget : Option Nat) :
      Alike n ⟨call, .granted key ticket g party budget⟩ ⟨call, .granted key ticket' g party budget⟩
  | gaveUp (call : CallId) (key : Key) (ticket ticket' : Nat) (party : Party)
      (budget : Option Nat) :
      Alike n ⟨call, .gaveUp key ticket party budget⟩ ⟨call, .gaveUp key ticket' party budget⟩
  | shown (call : CallId) (state : SlotState) :
      Alike n ⟨call, .answered (.ok (.state
          { state with waiting := state.waiting + n (state.typeName, state.resourceId) }))⟩
        ⟨call, .answered (.ok (.state state))⟩

/-- The second turn is the first one without the caller, but for who is awake. -/
structure Turn.Shadows (x : CallId) (o : Key → Option Nat) (n : Key → Nat)
    (t t' : Turn) : Prop where
  service : t'.service.roused = t.service.without x o
  facts : List.Forall₂ (Fact.Alike n) t.facts t'.facts

/-- The tickets in `o` are drawn from slots that are there, are not served, and are no other
caller's. -/
structure Deletable (s : Service) (x : CallId) (o : Key → Option Nat) : Prop where
  absent : ∀ key, s.slots.get? key = none → o key = none
  unserved : ∀ key slot, s.slots.get? key = some slot → slot.Unserved (o key)
  others : ∀ y key ticket, y ≠ x → s.waits? y = some (key, ticket) → o key ≠ some ticket

theorem alike_refl (n : Key → Nat) (fs : List Fact) : List.Forall₂ (Fact.Alike n) fs fs := by
  induction fs with
  | nil => exact .nil
  | cons f fs ih => exact .cons (.same f) ih

section

variable {s : Service} {x : CallId} {o : Key → Option Nat} {n : Key → Nat}

/-- Whoever is left is awake. -/
@[simp] theorem rousedSlots_without (s : Service) (x : CallId) (o : Key → Option Nat) :
    rousedSlots (s.without x o).slots = (s.without x o).slots := by
  rw [rousedSlots, Service.without, Dict.map_map]
  rfl

@[simp] theorem Service.roused_without (s : Service) (x : CallId) (o : Key → Option Nat) :
    (s.without x o).roused = s.without x o := by
  rw [Service.roused, rousedSlots_without]

/-- Who is awake makes no difference to what is left without the caller. -/
theorem Service.without_of_roused {s' : Service} (h : s'.roused = s.roused) :
    s'.without x o = s.without x o := by
  have hroused (s : Service) : s.roused.without x o = s.without x o := by
    simp only [Service.without, Service.roused, rousedSlots, Dict.map_map]
    rfl
  rw [← hroused s', h, hroused]

theorem Turn.Shadows.of_without {t t' : Turn} (service : t'.service = t.service.without x o)
    (facts : List.Forall₂ (Fact.Alike n) t.facts t'.facts) : t.Shadows x o n t' :=
  ⟨by rw [service, Service.roused_without], facts⟩

theorem Turn.Shadows.of_roused {t t' u u' : Turn} (hu : u.roused = t.roused)
    (hu' : u'.roused = t'.roused)
    (h : t.Shadows x o n t') : u.Shadows x o n u' := by
  obtain ⟨hservice, hfacts⟩ := Turn.mk.inj hu
  obtain ⟨hservice', hfacts'⟩ := Turn.mk.inj hu'
  refine ⟨?_, by rw [hfacts, hfacts']; exact h.facts⟩
  rw [hservice', h.service, Service.without_of_roused hservice]

end

namespace Service

variable {s : Service} {x y : CallId} {o : Key → Option Nat} {n : Key → Nat}
    {c : Caller} {key : Key}

theorem get?_slots_without (s : Service) (x : CallId) (o : Key → Option Nat) (key : Key) :
    (s.without x o).slots.get? key = (s.slots.get? key).map fun slot => slot.undraw (o key) :=
  Dict.get?_map _ _ _

theorem get?_callers_without (hy : y ≠ x) :
    (s.without x o).callers.get? y = (s.callers.get? y).map fun c => c.relabel o := by
  rw [without, Dict.get?_map, Dict.get?_erase_of_ne _ hy.symm]

theorem without_insert_slot (slot : Slot) :
    { s with slots := s.slots.insert key slot }.without x o =
      { s.without x o with slots := (s.without x o).slots.insert key (slot.undraw (o key)) } := by
  simp only [without, Dict.map_insert]

theorem without_insert_caller (hy : y ≠ x) (c : Caller) :
    { s with callers := s.callers.insert y c }.without x o =
      { s.without x o with callers := (s.without x o).callers.insert y (c.relabel o) } := by
  simp only [without, Dict.erase_insert_of_ne _ _ hy, Dict.map_insert]

theorem without_erase_caller (y : CallId) :
    { s with callers := s.callers.erase y }.without x o =
      { s.without x o with callers := (s.without x o).callers.erase y } := by
  simp only [without, Dict.erase_map, Dict.erase_comm _ y x]

/-- What another caller does to a slot and to itself is the same without the caller. -/
theorem without_insert_both (hy : y ≠ x) (slot : Slot) (c : Caller) :
    { s with slots := s.slots.insert key slot, callers := s.callers.insert y c }.without x o =
      { s.without x o with
        slots := (s.without x o).slots.insert key (slot.undraw (o key))
        callers := (s.without x o).callers.insert y (c.relabel o) } := by
  simp only [without, Dict.map_insert, Dict.erase_insert_of_ne _ _ hy]

theorem drawn_eq {slot : Slot} (h : s.slots.get? key = some slot) :
    s.drawn o key = slot.drawn (o key) := by
  rw [drawn, h]
  rfl

theorem shadows_finish (s : Service) (y : CallId) (reply : Reply) :
    (s.finish y reply).Shadows x o n ((s.without x o).finish y reply) :=
  .of_without (without_erase_caller y).symm (alike_refl n _)

theorem shadows_serve (hy : y ≠ x) {id : ResourceId} {ticket : Nat} {slot slot' : Slot}
    (hserves : slot.Serves ticket) (hother : o (c.keyOf id) ≠ some ticket)
    (hslot' : slot'.roused = slot.undraw (o (c.keyOf id))) (budget : Option Nat) :
    (s.serve y c id ticket budget slot).Shadows x o n ((s.without x o).serve y (c.relabel o) id
      (renumber (o (c.keyOf id)) ticket) budget slot') := by
  have hgrant : (slot'.grant c.party.owners y).1 = (slot.grant c.party.owners y).1 ∧
      (slot'.grant c.party.owners y).2.roused =
        (slot.grant c.party.owners y).2.undraw (o (c.keyOf id)) := by
    have hundrawn := Slot.grant_undraw hserves hother c.party.owners y
    rwa [← hslot'] at hundrawn
  have hparty : (c.relabel o).party = c.party := rfl
  constructor
  · simp only [serve, hparty, Service.roused, roused_insert, rousedSlots_without, hgrant.1]
    rw [without_insert_both hy, ← hgrant.2]
    rfl
  · simp only [serve, hparty, hgrant.1]
    exact .cons (.granted y _ _ _ _ _ _) (alike_refl n _)

theorem shadows_enter (hy : y ≠ x) (hs : Deletable s x o) (c : Caller) (id : ResourceId) :
    (s.enter y c id).Shadows x o (s.drawn o) ((s.without x o).enter y (c.relabel o) id) := by
  -- the slots of the resource in both services, and what is made of them
  obtain ⟨found, hfound, hmade, hunserved, hahead⟩ : ∃ found, s.slotFor y c.type id =
      (found, (s.slotFor y c.type id).2) ∧
      (s.without x o).slotFor y c.type id = (found.undraw (o (c.keyOf id)),
        (s.slotFor y c.type id).2) ∧
      found.Unserved (o (c.keyOf id)) ∧
      found.queue.length = (found.undraw (o (c.keyOf id))).queue.length +
        s.drawn o (c.keyOf id) := by
    cases hslot : s.slots.get? (c.type.name, id) with
    | some slot =>
      refine ⟨slot, ?_, ?_, hs.unserved _ _ hslot, ?_⟩
      · simp only [slotFor, hslot]
      · simp only [slotFor, get?_slots_without, hslot, Option.map_some]
        rfl
      · rw [drawn_eq (show s.slots.get? (c.keyOf id) = some slot from hslot)]
        exact Slot.length_queue _ slot
    | none =>
      have hnone : o (c.keyOf id) = none := hs.absent _ hslot
      refine ⟨Slot.fresh c.type id, ?_, ?_, ?_, ?_⟩
      · simp only [slotFor, hslot]
      · simp only [slotFor, get?_slots_without, hslot, Option.map_none, hnone, Slot.undraw_none]
        rfl
      · rw [hnone]
        exact Slot.unserved_none _
      · rw [hnone, Slot.undraw_none, drawn, show s.slots.get? (c.keyOf id) = none from hslot]
        rfl
  have hnew : o (c.keyOf id) ≠ some found.nextTicket := fun heq =>
    Nat.lt_irrefl _ (hunserved _ heq).1
  obtain ⟨hticket, hslot⟩ := Slot.enqueue_undraw hunserved
  have hserves : (found.undraw (o (c.keyOf id))).enqueue.2.Serves
    (renumber (o (c.keyOf id)) found.enqueue.1) ↔
      found.enqueue.2.Serves found.enqueue.1 := by
    have hundrawn := Slot.serves_undraw (n := found.enqueue.1) hunserved.enqueue hnew
    rwa [← hslot] at hundrawn
  generalize hopened : (s.slotFor y c.type id).2 = made at hfound hmade
  have htype : (c.relabel o).type = c.type := rfl
  simp only [enter, hfound, htype, hmade, hticket]
  by_cases hnow : found.enqueue.2.Serves found.enqueue.1
  · rw [if_pos hnow, if_pos (hserves.2 hnow)]
    have hserved := shadows_serve (s := s) (n := s.drawn o) hy hnow hnew hslot
      (c.goal.budget c.began s.clock)
    refine ⟨hserved.service, List.rel_append (alike_refl _ made) (.cons ?_ hserved.facts)⟩
    rw [hahead]
    exact .queued y _ _ _ _ _
  · rw [if_neg hnow, if_neg (mt hserves.1 hnow)]
    refine ⟨?_, List.rel_append (alike_refl _ made) (.cons ?_ .nil)⟩
    · simp only [Service.roused, roused_insert, rousedSlots_without, hslot]
      rw [without_insert_both hy]
      rfl
    · rw [hahead]
      exact .queued y _ _ _ _ _

theorem shadows_giveUp (hy : y ≠ x) {id : ResourceId} {ticket : Nat}
    (hother : o (c.keyOf id) ≠ some ticket) (budget : Option Nat) (slot : Slot) :
    (s.giveUp y c id ticket budget slot).Shadows x o n ((s.without x o).giveUp y (c.relabel o) id
      (renumber (o (c.keyOf id)) ticket) budget (slot.undraw (o (c.keyOf id)))) := by
  have hleave := Slot.leave_undraw (s := slot) hother
  have hgoal : (c.relabel o).goal = c.goal := rfl
  simp only [giveUp, hgoal, hleave]
  split
  · apply Turn.Shadows.of_without
    · rw [without_insert_both hy]
      rfl
    · exact .cons (.gaveUp y _ _ _ _ _) .nil
  · apply Turn.Shadows.of_without
    · simp only [finish]
      rw [without_erase_caller (s :=
        { s with slots := s.slots.insert (c.keyOf id) (slot.leave ticket) }), without_insert_slot]
      rfl
    · exact .cons (.gaveUp y _ _ _ _ _) (alike_refl n _)

theorem giveBack_without (s : Service) (x y : CallId) (o : Key → Option Nat) (key : Key)
    (party : Party)
    (p : Holding → Bool) : (s.without x o).giveBack y key party p =
      (s.giveBack y key party p).map fun t => ⟨t.service.without x o, t.facts⟩ := by
  unfold giveBack
  rw [get?_slots_without]
  cases s.slots.get? key with
  | none => rfl
  | some slot =>
    simp only [Option.map_some, Slot.release_undraw]
    cases slot.release? p with
    | none => rfl
    | some r =>
      simp only [Option.map_some, Except.map, without_insert_slot]
      rfl

theorem shadows_undo (hy : y ≠ x) (failed : ResourceId) (member : ResourceId × Nat)
    (left : List (ResourceId × Nat)) (error : Option LockError) :
    (s.undo y c failed member left error).Shadows x o n
      ((s.without x o).undo y (c.relabel o) failed member left error) := by
  have hback := giveBack_without s x y o (c.keyOf member.1) c.party fun h =>
    decide (h.serial = member.2)
  have hkey : (c.relabel o).keyOf member.1 = c.keyOf member.1 := rfl
  have hparty : (c.relabel o).party = c.party := rfl
  simp only [undo, hkey, hparty, hback]
  cases s.giveBack y (c.keyOf member.1) c.party fun h => decide (h.serial = member.2) with
  | ok t =>
    refine .of_without ?_ (alike_refl n _)
    rw [without_insert_caller hy]
    rfl
  | error e =>
    refine .of_without ?_ (alike_refl n _)
    rw [without_insert_caller hy]
    rfl

theorem shadows_undone (s : Service) (y : CallId) (c : Caller) (failed : ResourceId)
    (error : Option LockError) :
    (s.undone y c failed error).Shadows x o n
      ((s.without x o).undone y (c.relabel o) failed error) := by
  unfold undone
  cases error with
  | some e => exact shadows_finish s y _
  | none =>
    have hfinish := shadows_finish (x := x) (o := o) (n := n) s y
      (.ok (c.goal.failure failed (c.taken.map Prod.fst)))
    refine ⟨hfinish.service, .cons (.same _) (alike_refl n _)⟩

/-- A caller that waits for a permit is served, gives up, or neither shows anything. -/
theorem shadows_resume (hy : y ≠ x) (hs : Deletable s x o)
    (hsound : ∀ key slot, s.slots.get? key = some slot → slot.Sound)
    (working : s.callers.get? y = some c) {id : ResourceId} {ticket : Nat}
    {budget deadline : Option Nat} (stage : c.stage = .waiting id ticket budget deadline) :
    ((s.resume y c id ticket budget deadline).getD s.rest).Shadows x o n
      (((s.without x o).resume y (c.relabel o) id (renumber (o (c.keyOf id)) ticket)
        budget deadline).getD (s.without x o).rest) := by
  have hother : o (c.keyOf id) ≠ some ticket :=
    hs.others y _ _ hy (waits?_eq_some.2 ⟨c, id, budget, deadline, working, stage, rfl⟩)
  have hslot' := get?_slots_without s x o (c.keyOf id)
  cases hslot : s.slots.get? (c.keyOf id) with
  | none =>
    rw [hslot, Option.map_none] at hslot'
    have hkey : (s.without x o).slots.get? ((c.relabel o).keyOf id) = none := hslot'
    simp only [resume, hslot, hkey]
    exact .of_without rfl .nil
  | some slot =>
    rw [hslot, Option.map_some] at hslot'
    have hkey : (s.without x o).slots.get? ((c.relabel o).keyOf id) =
        some (slot.undraw (o (c.keyOf id))) := hslot'
    have hserves := Slot.serves_undraw (hs.unserved _ _ hslot) hother
    by_cases hnow : slot.Serves ticket
    · -- whoever can be served is awake, in both
      have hawake := (hsound _ _ hslot).alert ticket hnow
      have hawake' : renumber (o (c.keyOf id)) ticket ∈ (slot.undraw (o (c.keyOf id))).awake :=
        List.mem_of_head? (hserves.2 hnow).2
      rw [resume_of_serves hslot hnow hawake, resume_of_serves hkey (hserves.2 hnow) hawake']
      have hsame : (slot.undraw (o (c.keyOf id))).roused = slot.undraw (o (c.keyOf id)) := rfl
      exact shadows_serve hy hnow hother hsame budget
    · have hwaits := mt hserves.1 hnow
      cases hlate : deadline.any (· ≤ s.clock) with
      | true =>
        have hlate' : deadline.any (· ≤ (s.without x o).clock) = true := hlate
        rw [resume_of_late hslot hnow hlate, resume_of_late hkey hwaits hlate']
        exact shadows_giveUp hy hother budget slot
      | false =>
        have hlate' : deadline.any (· ≤ (s.without x o).clock) = false := hlate
        exact .of_roused (resume_roused_of_waits hslot hnow hlate)
          (resume_roused_of_waits hkey hwaits hlate') (.of_without rfl .nil)

/-- Another caller that has a move in one service has the same in the other, or one that does not
show. -/
theorem shadows_act_move (hy : y ≠ x) (hs : Deletable s x o)
    (hsound : ∀ key slot, s.slots.get? key = some slot → slot.Sound) :
    (s.act (.move y)).Shadows x o (s.drawn o) ((s.without x o).act (.move y)) := by
  simp only [act, move]
  rw [get?_callers_without hy]
  cases hc : s.callers.get? y with
  | none => exact .of_without rfl .nil
  | some c =>
    have hrest : (c.relabel o).rest = c.rest := rfl
    rw [Option.map_some]
    cases hstage : c.stage with
    | next =>
      have hstage' : (c.relabel o).stage = .next := by simp only [Caller.relabel, hstage]
      simp only [hstage, hstage', hrest]
      cases c.rest with
      | nil => exact shadows_finish s y _
      | cons id rest => exact shadows_enter hy hs { c with rest, stage := .next } id
    | waiting id ticket budget deadline =>
      have hstage' : (c.relabel o).stage =
          .waiting id (renumber (o (c.keyOf id)) ticket) budget deadline := by
        simp only [Caller.relabel, hstage]
      simp only [hstage, hstage']
      exact shadows_resume hy hs hsound hc hstage
    | undoing failed left error =>
      have hstage' : (c.relabel o).stage = .undoing failed left error := by
        simp only [Caller.relabel, hstage]
      simp only [hstage, hstage']
      cases left with
      | nil => exact shadows_undone s y c failed error
      | cons member left => exact shadows_undo hy failed member left error

theorem engage_without (hy : y ≠ x) (typeName : String) (ids : List ResourceId) (party : Party)
    (goal : Goal) : (s.without x o).engage y typeName ids party goal =
      ⟨(s.engage y typeName ids party goal).service.without x o,
        (s.engage y typeName ids party goal).facts⟩ := by
  have hresolve : (s.without x o).resolveFor typeName party = s.resolveFor typeName party := rfl
  unfold engage
  rw [hresolve]
  cases s.resolveFor typeName party with
  | error e => rfl
  | ok type =>
    simp only [without_insert_caller hy]
    rfl

theorem giveBackAll_without (s : Service) (x y : CallId) (o : Key → Option Nat) (typeName : String)
    (party : Party) (ids : List ResourceId) : (s.without x o).giveBackAll y typeName party ids =
      ⟨(s.giveBackAll y typeName party ids).service.without x o,
        (s.giveBackAll y typeName party ids).facts⟩ := by
  induction ids generalizing s with
  | nil => rfl
  | cons id ids ih =>
    simp only [giveBackAll, giveBack_without]
    cases s.giveBack y (typeName, id) party fun h => decide (party.Holds h) with
    | error e => rfl
    | ok t =>
      simp only [Except.map, Turn.andThen, ih]

theorem unlockAll_without (s : Service) (x y : CallId) (o : Key → Option Nat) (typeName : String)
    (ids : List ResourceId) (party : Party) : (s.without x o).unlockAll y typeName ids party =
      ⟨(s.unlockAll y typeName ids party).service.without x o,
        (s.unlockAll y typeName ids party).facts⟩ := by
  have hresolve : (s.without x o).resolveFor typeName party = s.resolveFor typeName party := rfl
  unfold unlockAll
  rw [hresolve]
  cases s.resolveFor typeName party with
  | error e => rfl
  | ok type => exact giveBackAll_without s x y o typeName party _

/-- An inspection shows the same but for the number of callers that wait. -/
theorem alike_slotState (hkeyed : Keyed s.slots) (x y : CallId) (o : Key → Option Nat) (key : Key) :
    Fact.Alike (s.drawn o) ⟨y, .answered ((s.slotState key).map .state)⟩
      ⟨y, .answered (((s.without x o).slotState key).map .state)⟩ := by
  have hregistry : (s.without x o).registry = s.registry := rfl
  unfold slotState
  rw [hregistry, get?_slots_without]
  cases s.registry.resolve key.1 with
  | error e => exact .same _
  | ok type =>
    cases hslot : s.slots.get? key with
    | none => exact .same _
    | some slot =>
      have hwaiting := Slot.length_queue (o key) slot
      rw [← drawn_eq hslot] at hwaiting
      have hstate : slot.state = { (slot.undraw (o key)).state with
          waiting := (slot.undraw (o key)).state.waiting + s.drawn o key } := by
        simp only [Slot.state, hwaiting]
        rfl
      have hshown := Fact.Alike.shown (n := s.drawn o) y (slot.undraw (o key)).state
      rw [show ((slot.undraw (o key)).state.typeName, (slot.undraw (o key)).state.resourceId) =
        key from hkeyed key slot hslot] at hshown
      simp only [Option.map_some, Except.map, hstate]
      exact hshown

theorem isLocked_without (s : Service) (x : CallId) (o : Key → Option Nat) (key : Key) :
    (s.without x o).isLocked key = s.isLocked key := by
  have hregistry : (s.without x o).registry = s.registry := rfl
  unfold isLocked slotState
  rw [hregistry, get?_slots_without]
  cases s.registry.resolve key.1 with
  | error e => rfl
  | ok type => cases s.slots.get? key <;> rfl

/-- A slot is idle in one service where it is in the other, so the same slots are dropped. -/
theorem shadows_evictIdle (hs : Deletable s x o)
    (hsound : ∀ key slot, s.slots.get? key = some slot → slot.Sound)
    (y : CallId) : (s.evictIdle y).Shadows x o n ((s.without x o).evictIdle y) := by
  have hidle : ∀ e ∈ s.slots.entries, (e.2.undraw (o e.1)).Idle ↔ e.2.Idle := fun e he =>
    Slot.idle_undraw (hs.unserved _ _ (Dict.get?_of_mem he)) (hsound _ _ (Dict.get?_of_mem he))
  have hdropped : (s.without x o).slots.filter (fun _ slot => decide slot.Idle) =
      (s.slots.filter fun _ slot => decide slot.Idle).map fun key slot => slot.undraw (o key) := by
    rw [without, Dict.filter_map]
    congr 1
    exact Dict.filter_congr fun e he => decide_eq_decide.2 (hidle e he)
  have hkept : (s.without x o).slots.filter (fun _ slot => !decide slot.Idle) =
      (s.slots.filter fun _ slot => !decide slot.Idle).map fun key slot => slot.undraw (o key) := by
    rw [without, Dict.filter_map]
    congr 1
    exact Dict.filter_congr fun e he => congrArg _ (decide_eq_decide.2 (hidle e he))
  apply Turn.Shadows.of_without
  · simp only [evictIdle, hkept]
    rfl
  · simp only [evictIdle, hdropped, hkept, Dict.keys_map, Dict.size_map]
    exact alike_refl n _

/-- A request of another caller finds and leaves the same. -/
theorem shadows_submit (hy : y ≠ x) (hs : Deletable s x o)
    (hsound : ∀ key slot, s.slots.get? key = some slot → slot.Sound) (hkeyed : Keyed s.slots)
    (request : Request) : (s.submit y request).Shadows x o (s.drawn o)
    ((s.without x o).submit y request) := by
  have hexact {t t' : Turn} (h : t' = ⟨t.service.without x o, t.facts⟩) :
      t.Shadows x o (s.drawn o) t' := by
    rw [h]
    exact .of_without rfl (alike_refl _ _)
  cases request with
  | lock | lockMany | tryLock | tryLockMany
  | tryLockManyDetailed => exact hexact (engage_without hy _ _ _ _)
  | unlock | unlockMany => exact hexact (unlockAll_without s x y o _ _ _)
  | evictIdle => exact shadows_evictIdle hs hsound y
  | createType type =>
    have hregistry : (s.without x o).registry = s.registry := rfl
    simp only [submit, createType, hregistry]
    cases s.registry.register type <;> exact .of_without rfl (alike_refl _ _)
  | slotState key => exact .of_without rfl (.cons (alike_slotState hkeyed x y o key) .nil)
  | isLocked key =>
    have hlocked := isLocked_without s x o key
    simp only [submit, hlocked]
    exact .of_without rfl (alike_refl _ _)
  | slotCount =>
    have hsize : (s.without x o).slots.size = s.slots.size := Dict.size_map _ _
    simp only [submit, hsize]
    exact .of_without rfl (alike_refl _ _)
  | findType | typeNames | groupTimeout | listen
  | removeListener => exact .of_without rfl (alike_refl _ _)

/-- The other callers are the same where the tickets that they wait with are. -/
theorem relabel_congr {o' : Key → Option Nat}
    (h : ∀ y key ticket, s.waits? y = some (key, ticket) →
      renumber (o key) ticket = renumber (o' key) ticket) :
    ((s.callers.erase x).map fun _ c => c.relabel o) = (s.callers.erase x).map fun _ c =>
      c.relabel o' := by
  refine Dict.map_congr fun e he => ?_
  have hc : s.callers.get? e.1 = some e.2 := Dict.get?_of_mem (List.mem_filter.1 he).1
  cases hstage : e.2.stage with
  | next | undoing => simp only [Caller.relabel, hstage]
  | waiting id ticket budget deadline =>
    have hticket := h _ _ _ (waits?_eq_some.2 ⟨e.2, id, budget, deadline, hc, hstage, rfl⟩)
    simp only [Caller.relabel, hstage, hticket]

/-- Which tickets are left out matters only where a slot stands. -/
theorem without_congr {o' : Key → Option Nat}
    (ho : ∀ key slot, s.slots.get? key = some slot → o key = o' key)
    (hwait : ∀ y key ticket, s.waits? y = some (key, ticket) → ∃ slot,
      s.slots.get? key = some slot) :
    s.without x o = s.without x o' := by
  have hslots : (s.slots.map fun key slot => slot.undraw (o key)) =
      s.slots.map fun key slot => slot.undraw (o' key) :=
    Dict.map_congr fun e he => by rw [ho _ _ (Dict.get?_of_mem he)]
  have hcallers : ((s.callers.erase x).map fun _ c => c.relabel o) =
      (s.callers.erase x).map fun _ c => c.relabel o' := by
    refine relabel_congr fun y key ticket hwaits => ?_
    obtain ⟨slot, hslot⟩ := hwait y key ticket hwaits
    rw [ho key slot hslot]
  rw [without, without, hslots, hcallers]

/-- A ticket that has just been drawn is left out together with its caller, and nothing is left of
them. -/
theorem without_draw {slot : Slot} (hs : slot.Sound) (hslot : s.slots.get? key = some slot)
    (hwaits : ∀ z ticket, s.waits? z = some (key, ticket) → ticket < slot.nextTicket) (c : Caller)
    (ho : o key = some slot.nextTicket) (hnone : ∀ k, k ≠ key → o k = none) :
    { s with
      slots := s.slots.insert key slot.enqueue.2
      callers := s.callers.insert x c }.without x o = s.without x fun _ => none := by
  obtain ⟨hdrawn, hsame⟩ := Slot.undraw_enqueue_self hs
  have hold : (s.slots.map fun k slot => slot.undraw (o k)) = rousedSlots s.slots := by
    refine Dict.map_congr fun e he => ?_
    by_cases hk : e.1 = key
    · have hfound := Dict.get?_of_mem he
      rw [hk, hslot] at hfound
      cases hfound
      rw [hk, ho, hsame]
    · rw [hnone e.1 hk, Slot.undraw_none]
  have hall : (s.slots.map fun _ slot => slot.undraw none) = rousedSlots s.slots :=
    Dict.map_congr fun e _ => Slot.undraw_none e.2
  have hcallers : ((s.callers.erase x).map fun _ c => c.relabel o) =
      (s.callers.erase x).map fun _ c => c.relabel fun _ => none := by
    refine relabel_congr fun z k ticket hwaiting => ?_
    by_cases hk : k = key
    · subst hk
      rw [ho]
      exact renumber_of_le (Nat.le_of_lt (hwaits z ticket hwaiting))
    · rw [hnone k hk]
  have hfound : (rousedSlots s.slots).get? key = some slot.roused := by
    rw [get?_roused, hslot, Option.map_some]
  simp only [without, Dict.map_insert, hold, hall, ho, hdrawn, Dict.insert_same hfound,
    Dict.erase_insert_self, hcallers]

/-- A caller that leaves takes its ticket along. -/
theorem without_leave {slot : Slot} {ticket : Nat} (hslot : s.slots.get? key = some slot)
    (ho : o key = some ticket) :
    { s with
      slots := s.slots.insert key (slot.leave ticket)
      callers := s.callers.erase x }.without x o = s.without x o := by
  have hsame : (s.slots.map fun k slot => slot.undraw (o k)).get? key =
      some (slot.undraw (some ticket)) := by
    rw [Dict.get?_map, hslot, Option.map_some, ho]
  have hgone : (s.callers.erase x).erase x = s.callers.erase x :=
    Dict.erase_of_get?_eq_none (Dict.get?_erase_self _ _)
  simp only [without, Dict.map_insert, ho, Slot.undraw_leave_self, Dict.insert_same hsame, hgone]

end Service

end FairLocks
