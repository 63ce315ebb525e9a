import FairLocks.Proofs.Slot
import FairLocks.Service.Basic

/-!
# Slots that count from elsewhere

A slot draws serials and tickets by counting. Where it starts makes no difference to what is done
with it: an operation on the slot that counts from further on comes to the same, but for the
numbers. A slot that is idle is one that has just been made, counted from where it has come to.
-/
namespace FairLocks

set_option autoImplicit false

/-- How much further on a slot counts. -/
structure Shift where
  serial : Nat
  ticket : Nat

def Shift.zero : Shift := ⟨0, 0⟩

def Holding.shift (n : Nat) (g : Holding) : Holding := { g with serial := g.serial + n }

namespace Slot

/-- The slot with all its numbers counted from further on. -/
def shift (o : Shift) (s : Slot) : Slot :=
  { s with
    holdings := s.holdings.map (Holding.shift o.serial)
    nextSerial := s.nextSerial + o.serial
    queue := s.queue.map (· + o.ticket)
    nextTicket := s.nextTicket + o.ticket
    awake := s.awake.map (· + o.ticket) }

variable {s : Slot} {o : Shift} {n : Nat}

theorem shift_zero (s : Slot) : s.shift .zero = s := by
  have hholdings : s.holdings.map (Holding.shift 0) = s.holdings := List.map_id _
  have hqueue : s.queue.map (· + 0) = s.queue := List.map_id _
  have hawake : s.awake.map (· + 0) = s.awake := List.map_id _
  rw [shift, Shift.zero, hholdings, hqueue, hawake]
  rfl

theorem enqueue_shift (o : Shift) (s : Slot) :
    (s.shift o).enqueue = (s.enqueue.1 + o.ticket, s.enqueue.2.shift o) := by
  have hempty : s.queue.map (· + o.ticket) = [] ↔ s.queue = [] := List.map_eq_nil_iff
  simp only [enqueue, shift, hempty, apply_ite (List.map (· + o.ticket)), List.map_append,
    List.map_cons, List.map_nil, Nat.add_right_comm]

theorem serves_shift : (s.shift o).Serves (n + o.ticket) ↔ s.Serves n := by
  have hhead : (s.shift o).queue.head? = s.queue.head?.map (· + o.ticket) := List.head?_map
  rw [Serves, Serves, hhead]
  refine and_congr_right fun _ => ?_
  cases s.queue.head? with
  | none => simp
  | some m => simp

theorem mem_awake_shift : n + o.ticket ∈ (s.shift o).awake ↔ n ∈ s.awake := by
  simp [shift]

theorem filter_map_add (l : List Nat) (k : Nat) (p : Nat → Bool) :
    (l.map (· + k)).filter p = (l.filter fun m => p (m + k)).map (· + k) :=
  List.filter_map

theorem wakeIf_shift (p : Prop) [Decidable p] : (s.shift o).wakeIf p = (s.wakeIf p).shift o := by
  simp only [wakeIf, shift, apply_ite (List.map (· + o.ticket))]

theorem doze_shift : (s.shift o).doze (n + o.ticket) = (s.doze n).shift o := by
  simp only [doze, shift, filter_map_add, ne_eq, Nat.add_right_cancel_iff]

theorem grant_shift (owners : OwnerSet) (grantee : CallId) : (s.shift o).grant owners grantee =
    ((s.grant owners grantee).1.shift o.serial, (s.grant owners grantee).2.shift o) := by
  have hwaits : s.queue.tail.map (· + o.ticket) ≠ [] ↔ s.queue.tail ≠ [] :=
    not_congr List.map_eq_nil_iff
  have hhead (m : Nat) : (s.queue.map (· + o.ticket)).head? ≠ some (m + o.ticket) ↔
      s.queue.head? ≠ some m := by
    rw [List.head?_map]
    cases s.queue.head? <;> simp
  simp only [grant, ← wakeIf_shift]
  simp only [wakeIf, shift, Holding.shift, List.map_append, List.map_cons, List.map_nil,
    ← List.map_tail, hwaits, filter_map_add, hhead, Nat.add_right_comm]

theorem leave_shift : (s.shift o).leave (n + o.ticket) = (s.leave n).shift o := by
  have hqueue : (s.queue.map (· + o.ticket)).filter (· ≠ n + o.ticket) =
      (s.queue.filter (· ≠ n)).map (· + o.ticket) := by
    simp only [filter_map_add, ne_eq, Nat.add_right_cancel_iff]
  simp only [leave, ← wakeIf_shift]
  simp only [wakeIf, shift, hqueue]

/-- What is returned is the same if the predicate does not depend on where the serials start. -/
theorem release_shift {p p' : Holding → Bool} (hp : ∀ g : Holding, p (g.shift o.serial) = p' g) :
    (s.shift o).release? p = (s.release? p').map fun r => (r.1.shift o.serial, r.2.shift o) := by
  have hcomp : p ∘ Holding.shift o.serial = p' := funext hp
  have hfind : (s.holdings.map (Holding.shift o.serial)).find? p =
      (s.holdings.find? p').map (Holding.shift o.serial) := by
    rw [List.find?_map, hcomp]
  have herase : (s.holdings.map (Holding.shift o.serial)).eraseP p =
      (s.holdings.eraseP p').map (Holding.shift o.serial) := by
    rw [List.eraseP_map, hcomp]
  have hempty : s.queue.map (· + o.ticket) = [] ↔ s.queue = [] := List.map_eq_nil_iff
  simp only [release?, show (s.shift o).holdings = s.holdings.map (Holding.shift o.serial) from rfl,
    hfind]
  cases s.holdings.find? p' with
  | none => rfl
  | some g =>
    simp only [Option.map_some, ← wakeIf_shift]
    simp only [wakeIf, shift, herase, ne_eq, hempty]

theorem idle_shift : (s.shift o).Idle ↔ s.Idle := by
  simp only [Idle, shift, List.map_eq_nil_iff]

theorem map_owners_shift (o : Shift) (s : Slot) :
    (s.shift o).holdings.map Holding.owners = s.holdings.map Holding.owners := by
  rw [shift, List.map_map]
  rfl

theorem owners_shift (o : Shift) (s : Slot) : (s.shift o).owners = s.owners := by
  rw [owners, map_owners_shift, owners]

theorem length_queue_shift (o : Shift) (s : Slot) : (s.shift o).queue.length = s.queue.length :=
  List.length_map _

theorem state_shift (o : Shift) (s : Slot) : (s.shift o).state = s.state := by
  have hholders : ((s.shift o).holdings.map fun g => g.owners.toList) =
      s.holdings.map fun g => g.owners.toList := by
    rw [shift, List.map_map]
    rfl
  simp only [state, owners_shift, hholders, length_queue_shift]
  rfl

/-- An idle slot is a new one that counts from where it has come to. -/
theorem Idle.eq_shift_fresh {t : ResourceType} {id : ResourceId} (h : s.Idle) (hs : s.Sound)
    (hkey : s.key = (t.name, id)) (hcapacity : s.capacity = t.capacity)
    (hmode : s.sharingMode = t.sharingMode) :
    s = (fresh t id).shift ⟨s.nextSerial, s.nextTicket⟩ := by
  obtain ⟨hfree, hnone, hqueue⟩ := h
  have hawake := hs.awake_eq_nil hqueue
  clear hs
  obtain ⟨key, capacity, mode, available, holdings, nextSerial, queue, nextTicket, awake⟩ := s
  simp only at hkey hcapacity hmode hfree hnone hqueue hawake
  subst hkey hfree hnone hqueue hcapacity hmode hawake
  simp [fresh, shift]

end Slot

namespace Caller

/-- The permits that the caller may have to give back. -/
def returning (c : Caller) : List (ResourceId × Nat) :=
  match c.stage with
  | .undoing _ left _ => left
  | _ =>
    match c.goal with
    | .allOrNone _ _ _ => c.taken
    | _ => []

/-- A permit of the caller by its number where the slots count from further on. -/
def shiftPermit (c : Caller) (o : Key → Shift) (m : ResourceId × Nat) : ResourceId × Nat :=
  (m.1, m.2 + (o (c.keyOf m.1)).serial)

/-- The caller by its numbers where the slots count from further on; it took its permits by
these. -/
def shift (o : Key → Shift) (taken : List (ResourceId × Nat)) (c : Caller) : Caller :=
  { c with
    taken
    stage :=
      match c.stage with
      | .next => .next
      | .waiting id ticket budget deadline =>
        .waiting id (ticket + (o (c.keyOf id)).ticket) budget deadline
      | .undoing failed left error => .undoing failed (left.map (c.shiftPermit o)) error }

/-- The first caller is the second one where the slots count from further on. Of the permits that
the caller keeps whatever comes, only the resources are known. -/
def Twin (o : Key → Shift) (c c' : Caller) : Prop :=
  ∃ taken, c = c'.shift o taken ∧ taken.map Prod.fst = c'.taken.map Prod.fst ∧
    c.returning = c'.returning.map (c'.shiftPermit o)

/-- The caller has not given up. -/
def Taking (c : Caller) : Prop := ∀ failed left error, c.stage ≠ .undoing failed left error

theorem taking_next {c : Caller} (stage : c.stage = .next) : c.Taking := by
  intro failed left error hundoing
  cases stage.symm.trans hundoing

theorem taking_waiting {c : Caller} {id : ResourceId} {ticket : Nat} {budget deadline : Option Nat}
    (stage : c.stage = .waiting id ticket budget deadline) : c.Taking := by
  intro failed left error hundoing
  cases stage.symm.trans hundoing

theorem returning_of_undoing {c : Caller} {failed : ResourceId} {left : List (ResourceId × Nat)}
    {error : Option LockError} (stage : c.stage = .undoing failed left error) :
      c.returning = left := by
  simp only [returning, stage]

/-- Until it gives up, a timed call for several resources may have to give back all it took. -/
theorem returning_of_group {c : Caller} {timeout : Nat} {spending : GroupTimeout} {detailed : Bool}
    (group : c.goal = .allOrNone timeout spending detailed) (taking : c.Taking) :
    c.returning = c.taken := by
  cases stage : c.stage with
  | next | waiting => simp only [returning, stage, group]
  | undoing failed left error => exact absurd stage (taking failed left error)

theorem returning_of_single {c : Caller}
    (single : ∀ timeout spending detailed, c.goal ≠ .allOrNone timeout spending detailed)
    (taking : c.Taking) : c.returning = [] := by
  cases stage : c.stage with
  | undoing failed left error => exact absurd stage (taking failed left error)
  | next | waiting =>
    cases group : c.goal with
    | allOrNone timeout spending detailed => exact absurd group (single timeout spending detailed)
    | hold | attempt => simp only [returning, stage, group]

theorem mem_taken_of_returning {c : Caller} (taking : c.Taking) {m : ResourceId × Nat}
    (hm : m ∈ c.returning) :
    m ∈ c.taken := by
  cases group : c.goal with
  | allOrNone timeout spending detailed => rwa [returning_of_group group taking] at hm
  | hold | attempt =>
    rw [returning_of_single (by simp [group]) taking] at hm
    exact absurd hm List.not_mem_nil

/-- A caller that takes a permit may have to give it back, and what it took before. -/
theorem mem_returning_take {c : Caller} {m n : ResourceId × Nat} (taking : c.Taking)
    (hm : m ∈ { c with taken := c.taken ++ [n], stage := .next }.returning) :
      m ∈ c.returning ∨ m = n := by
  cases group : c.goal with
  | allOrNone timeout spending detailed =>
    rw [returning_of_group group taking]
    rw [returning_of_group (c := { c with taken := _, stage := .next }) group
      (taking_next rfl)] at hm
    simpa using hm
  | hold | attempt =>
    rw [returning_of_single (by simp [group]) (taking_next rfl)] at hm
    exact absurd hm List.not_mem_nil

theorem returning_wait {c : Caller} (taking : c.Taking) (id : ResourceId) (ticket : Nat)
    (budget deadline : Option Nat) :
    { c with stage := .waiting id ticket budget deadline }.returning = c.returning := by
  cases stage : c.stage with
  | next | waiting => simp only [returning, stage]
  | undoing failed left error => exact absurd stage (taking failed left error)

namespace Twin

variable {o o' : Key → Shift} {c c' : Caller}

theorem type_eq (h : c.Twin o c') : c.type = c'.type := by
  obtain ⟨taken, rfl, -, -⟩ := h
  rfl

theorem party_eq (h : c.Twin o c') : c.party = c'.party := by
  obtain ⟨taken, rfl, -, -⟩ := h
  rfl

theorem goal_eq (h : c.Twin o c') : c.goal = c'.goal := by
  obtain ⟨taken, rfl, -, -⟩ := h
  rfl

theorem began_eq (h : c.Twin o c') : c.began = c'.began := by
  obtain ⟨taken, rfl, -, -⟩ := h
  rfl

theorem rest_eq (h : c.Twin o c') : c.rest = c'.rest := by
  obtain ⟨taken, rfl, -, -⟩ := h
  rfl

theorem ids_eq (h : c.Twin o c') : c.taken.map Prod.fst = c'.taken.map Prod.fst := by
  obtain ⟨taken, rfl, hids, -⟩ := h
  exact hids

theorem stage_next (h : c.Twin o c') (stage : c'.stage = .next) : c.stage = .next := by
  obtain ⟨taken, rfl, -, -⟩ := h
  simp only [shift, stage]

theorem stage_waiting (h : c.Twin o c') {id : ResourceId} {ticket : Nat}
    {budget deadline : Option Nat} (stage : c'.stage = .waiting id ticket budget deadline) :
    c.stage = .waiting id (ticket + (o (c'.keyOf id)).ticket) budget deadline := by
  obtain ⟨taken, rfl, -, -⟩ := h
  simp only [shift, stage]

theorem stage_undoing (h : c.Twin o c') {failed : ResourceId} {left : List (ResourceId × Nat)}
    {error : Option LockError} (stage : c'.stage = .undoing failed left error) :
    c.stage = .undoing failed (left.map (c'.shiftPermit o)) error := by
  obtain ⟨taken, rfl, -, -⟩ := h
  simp only [shift, stage]

theorem taking (h : c.Twin o c') (taking : c'.Taking) : c.Taking := by
  cases stage : c'.stage with
  | next => exact taking_next (h.stage_next stage)
  | waiting => exact taking_waiting (h.stage_waiting stage)
  | undoing failed left error => exact absurd stage (taking failed left error)

theorem work_eq (h : c.Twin o c') : c.work = c'.work := by
  have hlength : c.taken.length = c'.taken.length := by
    simpa using congrArg List.length h.ids_eq
  cases stage : c'.stage with
  | next => simp only [work, stage, h.stage_next stage, h.rest_eq, hlength]
  | waiting => simp only [work, stage, h.stage_waiting stage, h.rest_eq, hlength]
  | undoing => simp only [work, stage, h.stage_undoing stage, List.length_map]

theorem deadline?_eq (h : c.Twin o c') : c.deadline? = c'.deadline? := by
  cases stage : c'.stage with
  | next => simp only [deadline?, stage, h.stage_next stage]
  | waiting => simp only [deadline?, stage, h.stage_waiting stage]
  | undoing => simp only [deadline?, stage, h.stage_undoing stage]

/-- A caller that has not given up is the same up to what it may have to give back. -/
theorem taken_eq (h : c.Twin o c') (taking : c'.Taking) {timeout : Nat} {spending : GroupTimeout}
    {detailed : Bool} (group : c'.goal = .allOrNone timeout spending detailed) :
    c.taken = c'.taken.map (c'.shiftPermit o) := by
  have hreturning := returning_of_group (h.goal_eq.trans group) (h.taking taking)
  rw [← hreturning, ← returning_of_group group taking]
  obtain ⟨taken, rfl, -, hshifted⟩ := h
  exact hshifted

theorem refl (c : Caller) : c.Twin (fun _ => .zero) c := by
  have hsame (l : List (ResourceId × Nat)) : l.map (c.shiftPermit fun _ => .zero) = l :=
    List.map_id l
  refine ⟨c.taken, ?_, rfl, (hsame _).symm⟩
  obtain ⟨type, party, goal, began, rest, taken, stage⟩ := c
  cases stage with
  | next | waiting => rfl
  | undoing failed left error => simp only [shift, hsame]

/-- The callers start alike. -/
theorem begun (o : Key → Shift) {c : Caller} (stage : c.stage = .next) (taken : c.taken = []) :
    c.Twin o c := by
  have hnone : c.returning = [] := List.eq_nil_iff_forall_not_mem.2 fun m hm => by
    have hmem := mem_taken_of_returning (taking_next stage) hm
    rw [taken] at hmem
    exact List.not_mem_nil hmem
  refine ⟨[], ?_, by rw [taken], by rw [hnone]; rfl⟩
  obtain ⟨type, party, goal, began, rest, _, _⟩ := c
  cases stage
  cases taken
  rfl

/-- Only the shifts of the resources matter where the caller waits or has something to give back. -/
theorem congr (h : c.Twin o c')
    (hwaits : ∀ id ticket budget deadline, c'.stage = .waiting id ticket budget deadline →
      o (c'.keyOf id) = o' (c'.keyOf id))
    (hreturning : ∀ m ∈ c'.returning, o (c'.keyOf m.1) = o' (c'.keyOf m.1)) : c.Twin o' c' := by
  obtain ⟨taken, rfl, hids, hshifted⟩ := h
  have hpermits : c'.returning.map (c'.shiftPermit o) = c'.returning.map (c'.shiftPermit o') :=
    List.map_congr_left fun m hm => by rw [shiftPermit, shiftPermit, hreturning m hm]
  refine ⟨taken, ?_, hids, hshifted.trans hpermits⟩
  cases stage : c'.stage with
  | next => simp only [shift, stage]
  | waiting id ticket budget deadline =>
    simp only [shift, stage, hwaits id ticket budget deadline stage]
  | undoing failed left error =>
    rw [returning_of_undoing stage] at hpermits
    simp only [shift, stage, hpermits]

/-- The caller goes on to its next resource. -/
theorem next (h : c.Twin o c') (rest : List ResourceId) :
    { c with rest }.Twin o { c' with rest } := by
  obtain ⟨taken, rfl, hids, hshifted⟩ := h
  exact ⟨taken, rfl, hids, hshifted⟩

/-- Callers that have not given up are alike if what they took is. -/
theorem of_taking (hcaller : ∃ taken, c = c'.shift o taken)
    (hids : c.taken.map Prod.fst = c'.taken.map Prod.fst) (taking : c'.Taking) (hold : c.Taking)
    (hgroup : ∀ timeout spending detailed, c'.goal = .allOrNone timeout spending detailed →
      c.taken = c'.taken.map (c'.shiftPermit o)) : c.Twin o c' := by
  obtain ⟨taken, rfl⟩ := hcaller
  refine ⟨taken, rfl, hids, ?_⟩
  cases group : c'.goal with
  | allOrNone timeout spending detailed =>
    rw [returning_of_group group taking, returning_of_group (c := c'.shift o taken) group hold]
    exact hgroup _ _ _ group
  | hold | attempt =>
    have single : ∀ timeout spending detailed, c'.goal ≠ .allOrNone timeout spending detailed := by
      simp [group]
    rw [returning_of_single single taking, returning_of_single (c := c'.shift o taken) single hold,
      List.map_nil]

/-- The caller waits. -/
theorem wait (h : c.Twin o c') (taking : c'.Taking) (id : ResourceId) (ticket : Nat)
    (budget deadline : Option Nat) :
    { c with stage := .waiting id (ticket + (o (c'.keyOf id)).ticket) budget deadline }.Twin o
      { c' with stage := .waiting id ticket budget deadline } := by
  refine of_taking ?_ h.ids_eq (taking_waiting rfl) (taking_waiting rfl) fun _ _ _ =>
    h.taken_eq taking
  obtain ⟨taken, rfl, -⟩ := h
  exact ⟨taken, rfl⟩

/-- The caller takes a permit. -/
theorem take (h : c.Twin o c') (taking : c'.Taking) (id : ResourceId) (serial : Nat) :
    { c with taken := c.taken ++ [(id, serial + (o (c'.keyOf id)).serial)], stage := .next }.Twin o
      { c' with taken := c'.taken ++ [(id, serial)], stage := .next } := by
  have hids : (c.taken ++ [(id, serial + (o (c'.keyOf id)).serial)]).map Prod.fst =
      (c'.taken ++ [(id, serial)]).map Prod.fst := by
    rw [List.map_append, List.map_append, h.ids_eq]
    rfl
  refine of_taking ?_ hids (taking_next rfl) (taking_next rfl) fun _ _ _ group => ?_
  · obtain ⟨taken, rfl, -⟩ := h
    exact ⟨_, rfl⟩
  · have htaken : c.taken = c'.taken.map (c'.shiftPermit o) := h.taken_eq taking group
    simp only [htaken, List.map_append, List.map_cons, List.map_nil]
    rfl

/-- The caller gives up, and is about to give back what it took. -/
theorem halt (h : c.Twin o c') (taking : c'.Taking) {timeout : Nat} {spending : GroupTimeout}
    {detailed : Bool} (group : c'.goal = .allOrNone timeout spending detailed)
    (failed : ResourceId) :
    { c with stage := .undoing failed c.taken none }.Twin o
      { c' with stage := .undoing failed c'.taken none } := by
  have htaken := h.taken_eq taking group
  obtain ⟨taken, rfl, hids, -⟩ := h
  change taken = _ at htaken
  subst htaken
  exact ⟨_, rfl, hids, rfl⟩

/-- The caller has tried to give back one of what was left. -/
theorem undo (h : c.Twin o c') (failed : ResourceId) (left : List (ResourceId × Nat))
    (error : Option LockError) :
    { c with stage := .undoing failed (left.map (c'.shiftPermit o)) error }.Twin o
      { c' with stage := .undoing failed left error } := by
  obtain ⟨taken, rfl, hids, -⟩ := h
  exact ⟨taken, rfl, hids, rfl⟩

end Twin

end Caller

/-- The deed by the numbers of slots that count from further on. -/
def Deed.shift (o : Key → Shift) : Deed → Deed
  | queued key ticket ahead waits => queued key (ticket + (o key).ticket) ahead waits
  | granted key ticket g party budget =>
    granted key (ticket + (o key).ticket) (g.shift (o key).serial) party budget
  | gaveUp key ticket party budget => gaveUp key (ticket + (o key).ticket) party budget
  | returned key g party => returned key (g.shift (o key).serial) party
  | deed => deed

def Fact.shift (o : Key → Shift) (f : Fact) : Fact := { f with deed := f.deed.shift o }

/-- The fact tells that a slot was made. -/
def Fact.opens (f : Fact) : Bool :=
  match f.deed with
  | .opened _ _ => true
  | _ => false

theorem Fact.opens_shift (o : Key → Shift) (f : Fact) : (f.shift o).opens = f.opens := by
  obtain ⟨call, deed⟩ := f
  cases deed <;> rfl

/-- The facts without those that slots were made: no caller and no listener is told of these, and no
log shows them. -/
def visible (fs : List Fact) : List Fact := fs.filter fun f => !f.opens

theorem visible_append (fs gs : List Fact) : visible (fs ++ gs) = visible fs ++ visible gs := by
  rw [visible, List.filter_append]
  rfl

theorem visible_map_shift (o : Key → Shift) (fs : List Fact) :
    visible (fs.map (Fact.shift o)) = (visible fs).map (Fact.shift o) := by
  rw [visible, List.filter_map, visible]
  congr 1
  exact List.filter_congr fun f _ => by simp [Fact.opens_shift]

end FairLocks
