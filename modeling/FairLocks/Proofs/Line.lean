import FairLocks.Proofs.Ledger

/-!
# The line of waiting callers

The facts tell who stands in line for a resource: whoever drew a ticket and has neither been granted
a permit nor given up since. The line is the queue of the slot with the callers beside the tickets.
Whoever stays in it only moves forward, and only its head is granted a permit.
-/
namespace FairLocks

set_option autoImplicit false

/-- The fact tells that the ticket left the queue of the resource, served or not. -/
def Fact.leaves (key : Key) (ticket : Nat) (f : Fact) : Bool :=
  match f.deed with
  | .granted k t _ _ _ => decide (k = key ∧ t = ticket)
  | .gaveUp k t _ _ => decide (k = key ∧ t = ticket)
  | _ => false

/-- The line for the resource after one more fact. -/
def lineAfter (key : Key) (line : List (CallId × Nat)) (f : Fact) : List (CallId × Nat) :=
  match f.deed with
  | .queued k ticket _ _ => if k = key then line ++ [(f.call, ticket)] else line
  | .granted k ticket _ _ _ => if k = key then line.filter (·.2 ≠ ticket) else line
  | .gaveUp k ticket _ _ => if k = key then line.filter (·.2 ≠ ticket) else line
  | _ => line

/-- The callers in line for the resource, each with its ticket. -/
def lineAt (key : Key) (past : List Fact) : List (CallId × Nat) := past.foldl (lineAfter key) []

theorem lineAt_append (key : Key) (past fs : List Fact) :
    lineAt key (past ++ fs) = fs.foldl (lineAfter key) (lineAt key past) :=
  List.foldl_append

/-- A deed by which nobody comes into a line or leaves one. -/
def Deed.KeepsLine : Deed → Prop
  | queued _ _ _ _ => False
  | granted _ _ _ _ _ => False
  | gaveUp _ _ _ _ => False
  | _ => True

theorem Deed.Silent.keepsLine {deed : Deed} (h : deed.Silent) : deed.KeepsLine := by
  cases deed <;> trivial

theorem lineAfter_kept {f : Fact} (h : f.deed.KeepsLine) (key : Key) (line : List (CallId × Nat)) :
    lineAfter key line f = line := by
  obtain ⟨call, deed⟩ := f
  cases deed <;> first | rfl | exact h.elim

theorem lineAt_kept {past fs : List Fact} (h : ∀ f ∈ fs, f.deed.KeepsLine) (key : Key) :
    lineAt key (past ++ fs) = lineAt key past := by
  rw [lineAt_append]
  induction fs with
  | nil => rfl
  | cons f fs ih =>
    rw [List.foldl_cons, lineAfter_kept (h f List.mem_cons_self)]
    exact ih fun g hg => h g (List.mem_cons_of_mem _ hg)

theorem lineAt_cons {past fs : List Fact} {f : Fact} (h : ∀ f ∈ fs, f.deed.KeepsLine) (key : Key) :
    lineAt key (past ++ f :: fs) = lineAfter key (lineAt key past) f := by
  rw [List.append_cons, lineAt_kept h, lineAt_append, List.foldl_cons, List.foldl_nil]

/-- Whoever does not leave stays in line, behind none but those who were in front before. -/
theorem lineAfter_keeps {key : Key} {x : CallId × Nat} {f : Fact} (hf : f.leaves key x.2 = false)
    (l r : List (CallId × Nat)) :
    ∃ l' r', lineAfter key (l ++ x :: r) f = l' ++ x :: r' ∧ l'.Sublist l := by
  obtain ⟨call, deed⟩ := f
  have hstay : ∃ l' r', l ++ x :: r = l' ++ x :: r' ∧ l'.Sublist l :=
    ⟨l, r, rfl, List.Sublist.refl l⟩
  have hfilter (ticket : Nat) (hne : x.2 ≠ ticket) :
      ∃ l' r', (l ++ x :: r).filter (·.2 ≠ ticket) = l' ++ x :: r' ∧ l'.Sublist l := by
    refine ⟨l.filter (·.2 ≠ ticket), r.filter (·.2 ≠ ticket), ?_, List.filter_sublist⟩
    rw [List.filter_append, List.filter_cons_of_pos (by simpa using hne)]
  cases deed with
  | queued k ticket ahead waits =>
    by_cases hk : k = key
    · refine ⟨l, r ++ [(call, ticket)], ?_, List.Sublist.refl l⟩
      simp [lineAfter, hk]
    · simpa [lineAfter, hk] using hstay
  | granted k ticket h party budget =>
    by_cases hk : k = key
    · have hne : x.2 ≠ ticket := fun heq => by simp [Fact.leaves, hk, heq] at hf
      simpa only [lineAfter, if_pos hk] using hfilter ticket hne
    · simpa only [lineAfter, if_neg hk] using hstay
  | gaveUp k ticket party budget =>
    by_cases hk : k = key
    · have hne : x.2 ≠ ticket := fun heq => by simp [Fact.leaves, hk, heq] at hf
      simpa only [lineAfter, if_pos hk] using hfilter ticket hne
    · simpa only [lineAfter, if_neg hk] using hstay
  | registered | opened | returned | notReturned | rolledBack | evicted | announced | answered =>
    exact hstay

/-- A queue changes only by a ticket drawn, by a grant to its head, and by a caller that gives
up. -/
theorem Entry.queue {d d' : Dict Key Slot} {f : Fact} (he : Entry d f d') (key : Key) :
    (∃ ticket ahead waits, f.deed = .queued key ticket ahead waits ∧
      queueAt d' key = queueAt d key ++ [ticket]) ∨
    (∃ ticket h party budget, f.deed = .granted key ticket h party budget ∧
      queueAt d key = ticket :: queueAt d' key) ∨
    (∃ ticket party budget, f.deed = .gaveUp key ticket party budget ∧
      queueAt d' key = (queueAt d key).filter (· ≠ ticket)) ∨
    ((∀ line, lineAfter key line f = line) ∧ queueAt d' key = queueAt d key) := by
  cases he with
  | silent changesNothing =>
    exact .inr (.inr (.inr ⟨lineAfter_kept changesNothing.keepsLine key, rfl⟩))
  | opened free =>
    refine .inr (.inr (.inr ⟨fun _ => rfl, queueAt_insert_same ?_ key⟩))
    rw [queueAt, free]
    rfl
  | @queued _ k slot ahead waits found =>
    by_cases hk : k = key
    · subst hk
      refine .inl ⟨_, ahead, waits, rfl, ?_⟩
      rw [queueAt_insert, if_pos rfl, queueAt_eq found]
      rfl
    · refine .inr (.inr (.inr ⟨fun _ => if_neg hk, ?_⟩))
      rw [queueAt_insert, if_neg hk]
  | @granted call k slot ticket party budget found serves =>
    by_cases hk : k = key
    · subst hk
      refine .inr (.inl ⟨ticket, _, party, budget, rfl, ?_⟩)
      rw [queueAt_insert, if_pos rfl, queueAt_eq found]
      exact Slot.queue_eq_cons serves
    · refine .inr (.inr (.inr ⟨fun _ => if_neg hk, ?_⟩))
      rw [queueAt_insert, if_neg hk]
  | @gaveUp call k slot ticket party budget found =>
    by_cases hk : k = key
    · subst hk
      refine .inr (.inr (.inl ⟨ticket, party, budget, rfl, ?_⟩))
      rw [queueAt_insert, if_pos rfl, queueAt_eq found]
      rfl
    · refine .inr (.inr (.inr ⟨fun _ => if_neg hk, ?_⟩))
      rw [queueAt_insert, if_neg hk]
  | returned found released =>
    obtain ⟨l, r, -, -, -, rfl⟩ := Slot.release_eq released
    refine .inr (.inr (.inr ⟨fun _ => rfl, queueAt_insert_same ?_ key⟩))
    rw [queueAt_eq found]
  | evicted => exact .inr (.inr (.inr ⟨fun _ => rfl, (views_filter_busy d key).2⟩))

theorem map_snd_filter (line : List (CallId × Nat)) (ticket : Nat) :
    (line.filter (·.2 ≠ ticket)).map Prod.snd = (line.map Prod.snd).filter (· ≠ ticket) := by
  rw [List.filter_map]
  rfl

namespace Ledger

variable {past : List Fact} {d : Dict Key Slot}

/-- The queue of a slot holds the tickets of the callers in line, in their order. -/
theorem queueAt_eq_line (h : Ledger past d) (key : Key) :
    queueAt d key = (lineAt key past).map Prod.snd := by
  induction h with
  | nil => rfl
  | @snoc past d d' f hpast he ih =>
    rw [lineAt_append, List.foldl_cons, List.foldl_nil]
    obtain ⟨call, deed⟩ := f
    rcases he.queue key with ⟨ticket, ahead, waits, hf, hd'⟩ | ⟨ticket, g, party, budget, hf, hd⟩ |
      ⟨ticket, party, budget, hf, hd'⟩ | ⟨hline, hd'⟩
    · subst hf
      rw [hd', ih]
      simp [lineAfter]
    · subst hf
      have hnodup := hpast.nodup_queueAt key
      rw [hd, List.nodup_cons] at hnodup
      simp only [lineAfter, if_true]
      rw [map_snd_filter, ← ih, hd, List.filter_cons_of_neg (by simp)]
      refine (List.filter_eq_self.2 fun t ht => ?_).symm
      exact decide_eq_true fun heq => hnodup.1 (heq ▸ ht)
    · subst hf
      simp only [lineAfter, if_true]
      rw [map_snd_filter, ← ih, hd']
    · rw [hline, hd', ih]
  | dozed _ hdoze ih => rw [hdoze.queueAt_eq, ih]

/-- A ticket stands in the queue if somebody stands in line with it. -/
theorem mem_queueAt_iff (h : Ledger past d) {key : Key} {ticket : Nat} :
    ticket ∈ queueAt d key ↔ ∃ call, (call, ticket) ∈ lineAt key past := by
  rw [h.queueAt_eq_line, List.mem_map]
  constructor
  · rintro ⟨⟨call, n⟩, hmem, rfl⟩
    exact ⟨call, hmem⟩
  · rintro ⟨call, hmem⟩
    exact ⟨(call, ticket), hmem, rfl⟩

theorem mem_queue_iff (h : Ledger past d) {key : Key} {slot : Slot} (hslot : d.get? key = some slot)
    {ticket : Nat} : ticket ∈ slot.queue ↔ ∃ call, (call, ticket) ∈ lineAt key past := by
  rw [← queueAt_eq hslot, h.mem_queueAt_iff]

/-- No two callers in line have the same ticket. -/
theorem eq_of_mem_line (h : Ledger past d) {key : Key} {call call' : CallId} {ticket : Nat}
    (hc : (call, ticket) ∈ lineAt key past) (hc' : (call', ticket) ∈ lineAt key past) :
    call = call' := by
  have hnodup := h.nodup_queueAt key
  rw [h.queueAt_eq_line key] at hnodup
  exact congrArg Prod.fst (List.inj_on_of_nodup_map hnodup hc hc' rfl)

end Ledger

end FairLocks
