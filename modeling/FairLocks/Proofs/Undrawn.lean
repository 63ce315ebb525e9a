import FairLocks.Proofs.Dict
import FairLocks.Proofs.Slot

/-!
# Slots without a ticket

A ticket that is taken out of a slot as if it had never been drawn leaves the other tickets in their
order, each after it with the number before its own. As long as the slot does not serve the ticket,
everything that is done to the slot with another one comes to the same with and without it, but for
who is awake. So the slot without the ticket is told with everyone awake.
-/
namespace FairLocks

set_option autoImplicit false

/-- The number that a ticket has where the ticket in the option has not been drawn. -/
def renumber (o : Option Nat) (n : Nat) : Nat :=
  match o with
  | none => n
  | some t => if t < n then n - 1 else n

theorem renumber_inj {o : Option Nat} {a b : Nat} (ha : o ≠ some a) (hb : o ≠ some b) :
    renumber o a = renumber o b ↔ a = b := by
  cases o with
  | none => exact Iff.rfl
  | some t =>
    have hta : t ≠ a := fun heq => ha (heq ▸ rfl)
    have htb : t ≠ b := fun heq => hb (heq ▸ rfl)
    simp only [renumber]
    split <;> split <;> omega

theorem renumber_of_le {t n : Nat} (h : n ≤ t) : renumber (some t) n = n := if_neg (Nat.not_lt.2 h)

theorem renumber_succ {o : Option Nat} {n : Nat} (h : ∀ t, o = some t → t < n) :
    renumber o (n + 1) = renumber o n + 1 := by
  cases o with
  | none => rfl
  | some t =>
    have hlt := h t rfl
    rw [renumber, renumber, if_pos hlt, if_pos (Nat.lt_succ_of_lt hlt)]
    omega

namespace Slot

/-- The slot as it is where the ticket in the option has not been drawn. -/
def undraw (o : Option Nat) (s : Slot) : Slot :=
  let undrawn : Slot := { s with
    queue := (s.queue.filter fun n => o ≠ some n).map (renumber o)
    nextTicket := renumber o s.nextTicket }
  undrawn.roused

/-- The ticket in the option has been drawn and is not served. -/
def Unserved (o : Option Nat) (s : Slot) : Prop := ∀ t, o = some t → t < s.nextTicket ∧ ¬ s.Serves t

/-- How often the ticket in the option stands in the queue. -/
def drawn (o : Option Nat) (s : Slot) : Nat := s.queue.countP fun n => o = some n

@[simp] theorem undraw_none (s : Slot) : s.undraw none = s.roused := by
  have hall : s.queue.filter (fun n => decide (none ≠ some n)) = s.queue := by simp
  have hsame : (fun n => renumber none n) = id := rfl
  rw [undraw, hall]
  change roused
    { s with queue := s.queue.map (fun n => renumber none n), nextTicket := s.nextTicket } = _
  rw [hsame, List.map_id]

theorem unserved_none (s : Slot) : s.Unserved none := fun n h => by cases h

theorem length_queue (o : Option Nat) (s : Slot) :
    s.queue.length = (s.undraw o).queue.length + s.drawn o := by
  have hsplit := List.length_eq_countP_add_countP (fun n => decide (o = some n)) (l := s.queue)
  have hothers : (s.undraw o).queue.length = s.queue.countP fun n => decide (o ≠ some n) := by
    rw [undraw, roused, List.length_map, List.countP_eq_length_filter]
  have hnot : (s.queue.countP fun n => decide (¬ decide (o = some n) = true)) =
      s.queue.countP fun n => decide (o ≠ some n) := by
    congr 1
    funext n
    simp
  rw [hothers, drawn]
  omega

variable {o : Option Nat} {s : Slot} {n : Nat}

theorem Unserved.enqueue (hu : s.Unserved o) : s.enqueue.2.Unserved o := by
  intro t ht
  obtain ⟨hlt, hnot⟩ := hu t ht
  refine ⟨Nat.lt_succ_of_lt hlt, fun hserves => hnot ⟨hserves.1, ?_⟩⟩
  have hhead := hserves.2
  simp only [Slot.enqueue, List.head?_append] at hhead
  cases hqueue : s.queue.head? with
  | some x =>
    rw [hqueue] at hhead
    exact hhead
  | none =>
    rw [hqueue] at hhead
    cases hhead
    exact absurd hlt (Nat.lt_irrefl _)

/-- Leaving out a ticket that is not served changes nobody's turn. -/
theorem serves_undraw (hu : s.Unserved o) (hn : o ≠ some n) :
    (s.undraw o).Serves (renumber o n) ↔ s.Serves n := by
  have havailable : (s.undraw o).available = s.available := rfl
  rw [Serves, Serves, havailable]
  apply and_congr_right
  intro hfree
  cases hqueue : s.queue with
  | nil => simp [undraw, roused, hqueue]
  | cons x queue =>
    by_cases hx : o = some x
    · -- the ticket stands in front, so no permit is free
      have hserves : s.Serves x := ⟨hfree, by rw [hqueue]; rfl⟩
      exact absurd hserves (hu x hx).2
    · simp [undraw, roused, hqueue, hx, renumber_inj hx hn]

theorem enqueue_undraw (hu : s.Unserved o) : (s.undraw o).enqueue.1 = renumber o s.enqueue.1 ∧
    (s.undraw o).enqueue.2.roused = s.enqueue.2.undraw o := by
  have hnew : o ≠ some s.nextTicket := fun heq => Nat.lt_irrefl _ (hu _ heq).1
  have hnext := renumber_succ (n := s.nextTicket) fun t ht => (hu t ht).1
  simp [Slot.enqueue, undraw, roused, hnew, hnext]

theorem grant_undraw (hserves : s.Serves n) (hn : o ≠ some n) (owners : OwnerSet)
    (grantee : CallId) :
    ((s.undraw o).grant owners grantee).1 = (s.grant owners grantee).1 ∧
      ((s.undraw o).grant owners grantee).2.roused = (s.grant owners grantee).2.undraw o := by
  have hqueue := queue_eq_cons hserves
  have htail : (s.undraw o).queue.tail = (s.queue.tail.filter fun n => o ≠ some n).map
      (renumber o) := by
    rw [undraw, roused, hqueue, List.filter_cons_of_pos (by simpa using hn), List.map_cons,
      List.tail_cons, List.tail_cons]
  refine ⟨rfl, ?_⟩
  simp only [grant, roused, wakeIf, htail]
  rfl

theorem leave_undraw (hn : o ≠ some n) :
    (s.undraw o).leave (renumber o n) = (s.leave n).undraw o := by
  have hqueue : ((s.queue.filter fun t => o ≠ some t).map (renumber o)).filter (· ≠ renumber o n) =
      ((s.queue.filter (· ≠ n)).filter fun t => o ≠ some t).map (renumber o) := by
    rw [List.filter_map, List.filter_filter, List.filter_filter]
    congr 1
    refine List.filter_congr fun t _ => ?_
    by_cases ht : o = some t
    · simp [ht]
    · simp [ht, renumber_inj ht hn]
  simp only [leave, undraw, roused, wakeIf, if_true, hqueue]

/-- The ticket itself leaves nothing more when it goes. -/
theorem undraw_leave_self (t : Nat) : (s.leave t).undraw (some t) = s.undraw (some t) := by
  simp only [leave, undraw, roused, wakeIf, List.filter_filter, Option.some.injEq, ne_eq,
    decide_not, eq_comm, Bool.and_self]

/-- A ticket that has just been drawn leaves the slot as it was before. -/
theorem undraw_enqueue_self (hs : s.Sound) :
    s.enqueue.2.undraw (some s.nextTicket) = s.roused ∧
      s.undraw (some s.nextTicket) = s.roused := by
  have hold : s.queue.filter (fun n => decide (some s.nextTicket ≠ some n)) = s.queue := by
    refine List.filter_eq_self.2 fun n hn => decide_eq_true fun heq => ?_
    cases heq
    exact Nat.lt_irrefl _ (hs.ticket_lt _ hn)
  have hsame : s.queue.map (renumber (some s.nextTicket)) = s.queue := by
    have hid : s.queue.map (renumber (some s.nextTicket)) = s.queue.map id :=
      List.map_congr_left fun n hn => renumber_of_le (Nat.le_of_lt (hs.ticket_lt n hn))
    rw [hid, List.map_id]
  constructor
  · have hqueue : (s.queue ++ [s.nextTicket]).filter
      (fun n => decide (some s.nextTicket ≠ some n)) = s.queue := by
      rw [List.filter_append, hold]
      simp
    have hnext : renumber (some s.nextTicket) (s.nextTicket + 1) = s.nextTicket := by
      simp [renumber]
    simp only [undraw, roused, Slot.enqueue, hqueue, hsame, hnext]
  · have hnext : renumber (some s.nextTicket) s.nextTicket = s.nextTicket := by
      simp [renumber]
    simp only [undraw, roused, hold, hsame, hnext]

theorem release_undraw (o : Option Nat) (s : Slot) (p : Holding → Bool) :
    (s.undraw o).release? p = (s.release? p).map fun r => (r.1, r.2.undraw o) := by
  have hsame : (s.undraw o).holdings = s.holdings := rfl
  unfold release?
  rw [hsame]
  cases s.holdings.find? p with
  | none => rfl
  | some g =>
    simp only [Option.map_some, Option.some.injEq, Prod.mk.injEq, true_and, undraw, roused, wakeIf]
    exact congrArg (Slot.mk s.key _ _ _ _ _ _ _) (ite_self _)

/-- A slot where a ticket waits in vain is not idle, since a permit is out or somebody else waits
too. -/
theorem idle_undraw (hu : s.Unserved o) (hs : s.Sound) : (s.undraw o).Idle ↔ s.Idle := by
  constructor
  · rintro ⟨hfree, hnone, hqueue⟩
    refine ⟨hfree, hnone, ?_⟩
    cases hhead : s.queue with
    | nil => rfl
    | cons x queue =>
      exfalso
      have hx : o = some x := by
        by_contra hx
        simp [undraw, roused, hhead, hx] at hqueue
      have hpos : 0 < s.available := by
        have heq : s.available = s.capacity := hfree
        rw [heq]
        exact hs.capacity_pos
      exact (hu x hx).2 ⟨hpos, by rw [hhead]; rfl⟩
  · rintro ⟨hfree, hnone, hqueue⟩
    exact ⟨hfree, hnone, by simp [undraw, roused, hqueue]⟩

end Slot

end FairLocks
