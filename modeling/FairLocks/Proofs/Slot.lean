import Mathlib.Data.List.Nodup
import FairLocks.Slot

/-!
# Sound slots

What holds of a slot from its making on. The free permits and those that are out add up to the
capacity; the permits that are out ascend by their serials and the waiting callers by their tickets,
and both stay below the next number to be drawn. Whoever is awake waits, and a caller that can be
served is awake: no wake-up is lost. Every operation on slots keeps this.
-/
namespace FairLocks.Slot

set_option autoImplicit false

structure Sound (s : Slot) : Prop where
  capacity_pos : 0 < s.capacity
  balanced : s.available + s.holdings.length = s.capacity
  serials : (s.holdings.map Holding.serial).Pairwise (· < ·)
  serial_lt : ∀ h ∈ s.holdings, h.serial < s.nextSerial
  tickets : s.queue.Pairwise (· < ·)
  ticket_lt : ∀ t ∈ s.queue, t < s.nextTicket
  awake_sub : ∀ t ∈ s.awake, t ∈ s.queue
  alert : ∀ t, s.Serves t → t ∈ s.awake

section

-- Waking changes only who is awake.
variable (s : Slot) (p : Prop) [Decidable p]

@[simp] theorem wakeIf_key : (s.wakeIf p).key = s.key := rfl

@[simp] theorem wakeIf_capacity : (s.wakeIf p).capacity = s.capacity := rfl

@[simp] theorem wakeIf_sharingMode : (s.wakeIf p).sharingMode = s.sharingMode := rfl

@[simp] theorem wakeIf_available : (s.wakeIf p).available = s.available := rfl

@[simp] theorem wakeIf_holdings : (s.wakeIf p).holdings = s.holdings := rfl

@[simp] theorem wakeIf_nextSerial : (s.wakeIf p).nextSerial = s.nextSerial := rfl

@[simp] theorem wakeIf_queue : (s.wakeIf p).queue = s.queue := rfl

@[simp] theorem wakeIf_nextTicket : (s.wakeIf p).nextTicket = s.nextTicket := rfl

end

theorem queue_eq_cons {s : Slot} {ticket : Nat} (h : s.Serves ticket) :
    s.queue = ticket :: s.queue.tail := by
  obtain ⟨l, hl⟩ := List.head?_eq_some_iff.1 h.2
  rw [hl, List.tail_cons]

/-- Releasing takes out the first permit that satisfies the predicate and nothing else, and wakes
those that wait. -/
theorem release_eq {s s' : Slot} {p : Holding → Bool} {h : Holding}
    (hr : s.release? p = some (h, s')) :
    ∃ l r, s.holdings = l ++ h :: r ∧ (∀ k ∈ l, ¬ p k) ∧ p h ∧
      s' = { s with
        holdings := l ++ r
        available := min (s.available + 1) s.capacity
        awake := if s.queue ≠ [] then s.queue else s.awake } := by
  unfold release? at hr
  split at hr
  · cases hr
  · rename_i found hfound
    cases hr
    obtain ⟨hp, l, r, hlr, hl⟩ := List.find?_eq_some_iff_append.1 hfound
    have hl : ∀ k ∈ l, ¬ p k := fun k hk => by simpa using hl k hk
    refine ⟨l, r, hlr, hl, hp, ?_⟩
    rw [hlr, List.eraseP_append_right _ hl, List.eraseP_cons_of_pos hp]
    rfl

theorem release_eq_none {s : Slot} {p : Holding → Bool} (hr : s.release? p = none) :
    ∀ h ∈ s.holdings, ¬ p h := by
  unfold release? at hr
  split at hr
  · rename_i hnone
    exact List.find?_eq_none.1 hnone
  · cases hr

/-- After a return everyone is awake who waits, also where that is nobody. -/
theorem release_awake {s : Slot} (hsub : ∀ t ∈ s.awake, t ∈ s.queue) :
    (if s.queue ≠ [] then s.queue else s.awake) = s.queue := by
  split
  · rfl
  · rename_i hqueue
    rw [not_not] at hqueue
    rw [hqueue, List.eq_nil_iff_forall_not_mem]
    exact fun t ht => by simpa [hqueue] using hsub t ht

theorem release_none {s : Slot} {p : Holding → Bool} (hnone : ∀ h ∈ s.holdings, ¬ p h) :
    s.release? p = none := by
  rw [release?, List.find?_eq_none.2 hnone]

theorem sound_fresh {t : ResourceType} (h : 0 < t.capacity)
    (id : ResourceId) : (fresh t id).Sound where
  capacity_pos := h
  balanced := rfl
  serials := .nil
  serial_lt := fun _ hk => absurd hk List.not_mem_nil
  tickets := .nil
  ticket_lt := fun _ ht => absurd ht List.not_mem_nil
  awake_sub := fun _ ht => ht
  alert := fun _ hserves => by cases hserves.2

namespace Sound

variable {s s' : Slot}

theorem enqueue (hs : s.Sound) : s.enqueue.2.Sound where
  capacity_pos := hs.capacity_pos
  balanced := hs.balanced
  serials := hs.serials
  serial_lt := hs.serial_lt
  tickets := by
    refine List.pairwise_append.2 ⟨hs.tickets, List.pairwise_singleton _ _, ?_⟩
    intro t ht u hu
    rw [List.mem_singleton.1 hu]
    exact hs.ticket_lt t ht
  ticket_lt := by
    intro t ht
    rcases List.mem_append.1 ht with ht | ht
    · exact Nat.lt_succ_of_lt (hs.ticket_lt t ht)
    · rw [List.mem_singleton.1 ht]
      exact Nat.lt_succ_self _
  awake_sub := by
    intro t ht
    simp only [Slot.enqueue] at ht ⊢
    split at ht
    · rcases List.mem_append.1 ht with ht | ht
      · exact List.mem_append_left _ (hs.awake_sub t ht)
      · exact List.mem_append_right _ ht
    · exact List.mem_append_left _ (hs.awake_sub t ht)
  alert := by
    rintro t ⟨hpos, hhead⟩
    simp only [Slot.enqueue] at hpos hhead ⊢
    by_cases hqueue : s.queue = []
    · rw [hqueue, List.nil_append, List.head?_cons, Option.some.injEq] at hhead
      rw [if_pos ⟨hpos, hqueue⟩, hhead]
      exact List.mem_append_right _ List.mem_cons_self
    · -- the head is who it was
      rw [List.head?_append_of_ne_nil _ hqueue] at hhead
      rw [if_neg fun h => hqueue h.2]
      exact hs.alert t ⟨hpos, hhead⟩

theorem grant (hs : s.Sound) {ticket : Nat} (hserves : s.Serves ticket) (owners : OwnerSet)
    (grantee : CallId) : (s.grant owners grantee).2.Sound where
  capacity_pos := hs.capacity_pos
  balanced := by
    have hpos := hserves.1
    have hb := hs.balanced
    simp only [Slot.grant, wakeIf, List.length_append, List.length_singleton]
    omega
  serials := by
    simp only [Slot.grant, wakeIf, List.map_append, List.map_cons, List.map_nil]
    refine List.pairwise_append.2 ⟨hs.serials, List.pairwise_singleton _ _, ?_⟩
    intro n hn m hm
    obtain ⟨h, hh, rfl⟩ := List.mem_map.1 hn
    rw [List.mem_singleton.1 hm]
    exact hs.serial_lt h hh
  serial_lt := by
    intro h hh
    rcases List.mem_append.1 hh with hh | hh
    · exact Nat.lt_succ_of_lt (hs.serial_lt h hh)
    · rw [List.mem_singleton.1 hh]
      exact Nat.lt_succ_self _
  tickets := hs.tickets.sublist (List.tail_sublist _)
  ticket_lt := fun t ht => hs.ticket_lt t (List.mem_of_mem_tail ht)
  awake_sub := by
    intro t ht
    simp only [Slot.grant, wakeIf] at ht ⊢
    split at ht
    · exact ht
    · obtain ⟨hawake, hne⟩ := List.mem_filter.1 ht
      have hmem := hs.awake_sub t hawake
      rw [queue_eq_cons hserves, List.mem_cons] at hmem
      refine hmem.resolve_left fun heq => ?_
      simp [hserves.2, heq] at hne
  alert := by
    rintro t ⟨hpos, hhead⟩
    have hmem := List.mem_of_head? hhead
    simp only [Slot.grant, wakeIf] at hpos hmem ⊢
    rwa [if_pos ⟨hpos, List.ne_nil_of_mem hmem⟩]

theorem leave (hs : s.Sound) (ticket : Nat) : (s.leave ticket).Sound where
  capacity_pos := hs.capacity_pos
  balanced := hs.balanced
  serials := hs.serials
  serial_lt := hs.serial_lt
  tickets := hs.tickets.sublist List.filter_sublist
  ticket_lt := fun t ht => hs.ticket_lt t (List.mem_filter.1 ht).1
  awake_sub := fun _ ht => ht
  alert := fun _ hserves => List.mem_of_head? hserves.2

/-- Whoever can be served does not go back to sleep. -/
theorem doze (hs : s.Sound) {ticket : Nat} (hwaits : ¬ s.Serves ticket) :
    (s.doze ticket).Sound where
  capacity_pos := hs.capacity_pos
  balanced := hs.balanced
  serials := hs.serials
  serial_lt := hs.serial_lt
  tickets := hs.tickets
  ticket_lt := hs.ticket_lt
  awake_sub := fun t ht => hs.awake_sub t (List.mem_filter.1 ht).1
  alert := by
    intro t hserves
    refine List.mem_filter.2 ⟨hs.alert t hserves, decide_eq_true ?_⟩
    rintro rfl
    exact hwaits hserves

/-- Nobody is awake where nobody waits. -/
theorem awake_eq_nil (hs : s.Sound) (hqueue : s.queue = []) : s.awake = [] :=
  List.eq_nil_iff_forall_not_mem.2 fun t ht => by simpa [hqueue] using hs.awake_sub t ht

/-- A permit is returned only where one is out, so the count of free permits is not cut off. -/
theorem release_available (hs : s.Sound) {p : Holding → Bool} {h : Holding}
    (hr : s.release? p = some (h, s')) :
    s.available < s.capacity ∧ s'.available = s.available + 1 := by
  obtain ⟨l, r, hlr, -, -, rfl⟩ := release_eq hr
  have hb := hs.balanced
  rw [hlr, List.length_append, List.length_cons] at hb
  have hlt : s.available < s.capacity := by omega
  exact ⟨hlt, Nat.min_eq_left hlt⟩

/-- A slot with one permit less out and one more free, where everyone who waits is awake, is
sound. -/
theorem without (hs : s.Sound) {l r : List Holding} {h : Holding} (hlr : s.holdings = l ++ h :: r) :
    Sound { s with holdings := l ++ r, available := s.available + 1, awake := s.queue } := by
  have hsub : (l ++ r).Sublist s.holdings := by
    rw [hlr]
    exact (List.sublist_cons_self h r).append_left l
  refine ⟨hs.capacity_pos, ?_, hs.serials.sublist (hsub.map _),
    fun k hk => hs.serial_lt k (hsub.subset hk), hs.tickets, hs.ticket_lt, fun _ ht => ht,
    fun _ hserves => List.mem_of_head? hserves.2⟩
  have hb := hs.balanced
  rw [hlr, List.length_append, List.length_cons] at hb
  simp only [List.length_append]
  omega

theorem release (hs : s.Sound) {p : Holding → Bool} {h : Holding}
    (hr : s.release? p = some (h, s')) : s'.Sound := by
  obtain ⟨-, havailable⟩ := hs.release_available hr
  obtain ⟨l, r, hlr, -, -, rfl⟩ := release_eq hr
  simp only at havailable
  rw [havailable, release_awake hs.awake_sub]
  exact hs.without hlr

theorem nodup_serials (hs : s.Sound) : (s.holdings.map Holding.serial).Nodup :=
  hs.serials.imp fun hlt => Nat.ne_of_lt hlt

theorem nodup_queue (hs : s.Sound) : s.queue.Nodup := hs.tickets.imp fun hlt => Nat.ne_of_lt hlt

end Sound

/-- The second slot is the first one later on: it has the same key, capacity and mode, and a permit
that is out was out before or has a serial drawn since. -/
structure Continues (s s' : Slot) : Prop where
  key_eq : s'.key = s.key
  capacity_eq : s'.capacity = s.capacity
  mode_eq : s'.sharingMode = s.sharingMode
  serial_le : s.nextSerial ≤ s'.nextSerial
  holding : ∀ h ∈ s'.holdings, h ∈ s.holdings ∨ s.nextSerial ≤ h.serial

namespace Continues

theorem refl (s : Slot) : s.Continues s := ⟨rfl, rfl, rfl, Nat.le_refl _, fun _ => .inl⟩

theorem enqueue (s : Slot) : s.Continues s.enqueue.2 :=
  ⟨rfl, rfl, rfl, Nat.le_refl _, fun _ => .inl⟩

theorem leave (s : Slot) (ticket : Nat) : s.Continues (s.leave ticket) :=
  ⟨rfl, rfl, rfl, Nat.le_refl _, fun _ => .inl⟩

/-- It makes no difference who is awake. -/
theorem awake (s : Slot) (awake : List Nat) : s.Continues { s with awake } :=
  ⟨rfl, rfl, rfl, Nat.le_refl _, fun _ => .inl⟩

theorem grant (s : Slot) (owners : OwnerSet) (grantee : CallId) :
    s.Continues (s.grant owners grantee).2 := by
  refine ⟨rfl, rfl, rfl, Nat.le_succ _, fun h hh => ?_⟩
  rcases List.mem_append.1 hh with hh | hh
  · exact .inl hh
  · rw [List.mem_singleton.1 hh]
    exact .inr (Nat.le_refl _)

theorem release {s s' : Slot} {p : Holding → Bool} {h : Holding}
    (hr : s.release? p = some (h, s')) : s.Continues s' := by
  obtain ⟨l, r, hlr, -, -, rfl⟩ := release_eq hr
  refine ⟨rfl, rfl, rfl, Nat.le_refl _, fun k hk => .inl ?_⟩
  rw [hlr]
  exact ((List.sublist_cons_self h r).append_left l).subset hk

end Continues

/-- The slot with everyone awake who waits. -/
def roused (s : Slot) : Slot := { s with awake := s.queue }

theorem Sound.roused {s : Slot} (hs : s.Sound) : s.roused.Sound where
  capacity_pos := hs.capacity_pos
  balanced := hs.balanced
  serials := hs.serials
  serial_lt := hs.serial_lt
  tickets := hs.tickets
  ticket_lt := hs.ticket_lt
  awake_sub := fun _ ht => ht
  alert := fun _ hserves => List.mem_of_head? hserves.2

end FairLocks.Slot
