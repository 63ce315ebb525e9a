import Mathlib.Data.List.Range
import FairLocks.Proofs.Orderly
import FairLocks.Proofs.Refusals

/-!
# The numbers of one slot

Every attempt to get a permit draws a ticket of its own, and every permit is granted under a serial
of its own; both are counted up from the making of the slot on. So for as long as the slot lives a
ticket stands for one attempt and a serial for one permit, be it out or returned. Nothing is said
here across the end of a slot: the next one for the same resource counts from the start.
-/
namespace FairLocks

set_option autoImplicit false

namespace Slot

/-- Something that was done to a slot. What is refused does nothing to it. -/
inductive Change where
  /-- An attempt to get a permit drew the ticket. -/
  | queued (ticket : Nat)
  /-- The attempt with the ticket got the permit. -/
  | granted (ticket : Nat) (permit : Holding)
  /-- The attempt with the ticket ended without a permit. -/
  | gaveUp (ticket : Nat)
  | returned (permit : Holding)

@[simp]
def Change.ticket? : Change → Option Nat
  | queued ticket => some ticket
  | _ => none

@[simp]
def Change.grant? : Change → Option Holding
  | granted _ permit => some permit
  | _ => none

@[simp]
def Change.return? : Change → Option Holding
  | returned permit => some permit
  | _ => none

/-- The tickets of all attempts, in the order in which these began. -/
def ticketsIn (past : List Change) : List Nat := past.filterMap Change.ticket?

/-- All permits that were granted, in order. -/
def grantsIn (past : List Change) : List Holding := past.filterMap Change.grant?

/-- All permits that were returned, in order. -/
def returnsIn (past : List Change) : List Holding := past.filterMap Change.return?

/-- A slot that was made for the type, after all that was done to it, oldest first. Attempts begin,
are granted permits and give up in any order, whatever their deadlines, and a permit that is
returned may have been looked for in any way, be it by an owner, by a group or by its serial. In
between, who was woken and cannot be served goes back to sleep. -/
inductive Life (t : ResourceType) : List Change → Slot → Prop
  | made (id : ResourceId) : Life t [] (fresh t id)
  | queued {past : List Change} {s : Slot} (before : Life t past s) :
      Life t (past ++ [.queued s.enqueue.1]) s.enqueue.2
  | granted {past : List Change} {s : Slot} {ticket : Nat} (before : Life t past s)
      (serves : s.Serves ticket) (owners : OwnerSet) (grantee : CallId) :
      Life t (past ++ [.granted ticket (s.grant owners grantee).1]) (s.grant owners grantee).2
  | gaveUp {past : List Change} {s : Slot} (before : Life t past s) (ticket : Nat) :
      Life t (past ++ [.gaveUp ticket]) (s.leave ticket)
  | returned {past : List Change} {s s' : Slot} {p : Holding → Bool} {g : Holding}
      (before : Life t past s)
      (released : s.release? p = some (g, s')) : Life t (past ++ [.returned g]) s'
  | dozed {past : List Change} {s : Slot} {ticket : Nat} (before : Life t past s)
      (waits : ¬ s.Serves ticket) : Life t past (s.doze ticket)

section Views

variable (past : List Change) (c : Change)

@[simp] theorem ticketsIn_snoc : ticketsIn (past ++ [c]) = ticketsIn past ++ c.ticket?.toList := by
  cases c <;> simp [ticketsIn]

@[simp] theorem grantsIn_snoc : grantsIn (past ++ [c]) = grantsIn past ++ c.grant?.toList := by
  cases c <;> simp [grantsIn]

@[simp] theorem returnsIn_snoc : returnsIn (past ++ [c]) = returnsIn past ++ c.return?.toList := by
  cases c <;> simp [returnsIn]

end Views

namespace Life

variable {t : ResourceType} {past : List Change} {s : Slot} {g : Holding}

theorem balanced (life : Life t past s) : s.available + s.holdings.length = s.capacity := by
  induction life with
  | made => rfl
  | queued _ ih | gaveUp _ _ ih | dozed _ _ ih => exact ih
  | granted _ serves _ _ ih =>
    have hpos := serves.1
    simp only [grant, wakeIf_available, wakeIf_holdings, wakeIf_capacity, List.length_append,
      List.length_singleton]
    omega
  | returned _ released ih =>
    obtain ⟨l, r, hlr, -, -, rfl⟩ := release_eq released
    rw [hlr, List.length_append, List.length_cons] at ih
    simp only [List.length_append]
    omega

/-- Whoever is awake waits. -/
theorem awake_sub (life : Life t past s) : ∀ ticket ∈ s.awake, ticket ∈ s.queue := by
  induction life with
  | made => exact fun ticket hawake => absurd hawake List.not_mem_nil
  | queued _ ih =>
    intro ticket hawake
    simp only [enqueue, List.mem_append] at hawake ⊢
    split at hawake
    · exact (List.mem_append.1 hawake).imp_left (ih ticket)
    · exact .inl (ih ticket hawake)
  | @granted _ s first _ serves owners grantee ih =>
    intro ticket hawake
    simp only [grant, wakeIf] at hawake ⊢
    split at hawake
    · exact hawake
    · obtain ⟨hbefore, hne⟩ := List.mem_filter.1 hawake
      have hmem := ih ticket hbefore
      rw [queue_eq_cons serves, List.mem_cons] at hmem
      refine hmem.resolve_left fun heq => of_decide_eq_true hne ?_
      rw [serves.2, heq]
  | gaveUp => exact fun ticket hawake => hawake
  | returned _ released ih =>
    obtain ⟨l, r, -, -, -, rfl⟩ := release_eq released
    intro ticket hawake
    simp only at hawake ⊢
    split at hawake
    · exact hawake
    · exact ih ticket hawake
  | dozed _ _ ih => exact fun ticket hawake => ih ticket (List.mem_of_mem_filter hawake)

/-- Tickets are counted up without a gap. -/
theorem tickets_eq (life : Life t past s) : ticketsIn past = List.range s.nextTicket := by
  induction life with
  | made => rfl
  | dozed _ _ ih => exact ih
  | queued _ ih => simp [enqueue, ih, List.range_succ]
  | granted _ _ _ _ ih => simpa [grant] using ih
  | gaveUp _ _ ih => simpa [leave] using ih
  | returned _ released ih =>
    obtain ⟨-, -, -, -, -, rfl⟩ := release_eq released
    simpa using ih

/-- Serials are counted up without a gap. -/
theorem serials_eq (life : Life t past s) :
    (grantsIn past).map Holding.serial = List.range s.nextSerial := by
  induction life with
  | made => rfl
  | dozed _ _ ih => exact ih
  | queued _ ih => simpa [enqueue] using ih
  | granted _ _ _ _ ih => simp [grant, ih, List.range_succ]
  | gaveUp _ _ ih => simpa [leave] using ih
  | returned _ released ih =>
    obtain ⟨-, -, -, -, -, rfl⟩ := release_eq released
    simpa using ih

/-- Whoever waits drew a ticket, and all wait in the order in which they did. -/
theorem queue_sublist (life : Life t past s) : s.queue.Sublist (ticketsIn past) := by
  induction life with
  | made => exact .slnil
  | dozed _ _ ih => exact ih
  | queued _ ih => simpa [enqueue] using ih
  | granted _ _ _ _ ih => simpa [grant] using (List.tail_sublist _).trans ih
  | gaveUp _ _ ih => simpa [leave] using List.filter_sublist.trans ih
  | returned _ released ih =>
    obtain ⟨-, -, -, -, -, rfl⟩ := release_eq released
    simpa using ih

/-- What is out was granted, and stands in the order of the grants. -/
theorem holdings_sublist (life : Life t past s) : s.holdings.Sublist (grantsIn past) := by
  induction life with
  | made => exact .slnil
  | dozed _ _ ih => exact ih
  | queued _ ih => simpa [enqueue] using ih
  | granted _ _ _ _ ih => simpa [grant] using ih
  | gaveUp _ _ ih => simpa [leave] using ih
  | returned _ released ih =>
    obtain ⟨l, r, hlr, -, -, rfl⟩ := release_eq released
    rw [hlr] at ih
    simpa using ((List.sublist_cons_self _ r).append_left l).trans ih

/-- Each permit went to another attempt, and none to one that still waits. -/
theorem serials_add_waiting_le (life : Life t past s) :
    s.nextSerial + s.queue.length ≤ s.nextTicket := by
  induction life with
  | made => exact Nat.le_refl 0
  | dozed _ _ ih => exact ih
  | queued _ ih =>
    simp only [enqueue, List.length_append, List.length_singleton]
    omega
  | granted _ serves _ _ ih =>
    have hqueue := congrArg List.length (queue_eq_cons serves)
    rw [List.length_cons] at hqueue
    simp only [grant, wakeIf_queue, wakeIf_nextSerial, wakeIf_nextTicket]
    omega
  | @gaveUp _ s _ ticket ih =>
    have hfewer := List.length_filter_le (fun n => decide (n ≠ ticket)) s.queue
    simp only [leave, wakeIf_queue, wakeIf_nextSerial, wakeIf_nextTicket]
    omega
  | returned _ released ih =>
    obtain ⟨-, -, -, -, -, rfl⟩ := release_eq released
    exact ih

theorem serial_lt (life : Life t past s) (hg : g ∈ grantsIn past) : g.serial < s.nextSerial := by
  have hserial : g.serial ∈ (grantsIn past).map Holding.serial := List.mem_map_of_mem hg
  rw [life.serials_eq] at hserial
  exact List.mem_range.1 hserial

theorem nodup_serials (life : Life t past s) : ((grantsIn past).map Holding.serial).Nodup := by
  rw [life.serials_eq]
  exact List.nodup_range

/-- No two permits were granted under one serial. -/
theorem eq_of_serial (life : Life t past s) {k : Holding} (hk : k ∈ grantsIn past)
    (hg : g ∈ grantsIn past)
    (hserial : k.serial = g.serial) : k = g :=
  List.inj_on_of_nodup_map life.nodup_serials hk hg hserial

theorem granted_of_returned (life : Life t past s) (hg : g ∈ returnsIn past) :
    g ∈ grantsIn past := by
  induction life with
  | made => exact absurd hg List.not_mem_nil
  | queued _ ih | gaveUp _ _ ih => simpa using ih (by simpa using hg)
  | dozed _ _ ih => exact ih hg
  | granted _ _ _ _ ih =>
    rw [grantsIn_snoc]
    exact List.mem_append_left _ (ih (by simpa using hg))
  | @returned past _ _ _ k before released ih =>
    obtain ⟨l, r, hlr, -, -, -⟩ := release_eq released
    have hk : k ∈ grantsIn past := before.holdings_sublist.subset (by simp [hlr])
    simp only [returnsIn_snoc, Change.return?, Option.toList_some, List.mem_append,
      List.mem_singleton] at hg
    rcases hg with hg | rfl
    · simpa using ih hg
    · simpa using hk

/-- A permit that was granted is out until it is returned. -/
theorem out_iff (life : Life t past s) (hg : g ∈ grantsIn past) :
    g ∈ s.holdings ↔ g ∉ returnsIn past := by
  induction life with
  | made => exact absurd hg List.not_mem_nil
  | dozed _ _ ih => exact ih hg
  | queued _ ih => simpa [enqueue] using ih (by simpa using hg)
  | gaveUp _ _ ih => simpa [leave] using ih (by simpa using hg)
  | @granted past s _ before _ owners grantee ih =>
    -- its serial is the next one, so it was neither granted nor returned before
    have hnew : (s.grant owners grantee).1 ∉ grantsIn past := fun hold =>
      Nat.lt_irrefl _ (before.serial_lt hold)
    have hout : (s.grant owners grantee).2.holdings = s.holdings ++ [(s.grant owners grantee).1] :=
      rfl
    simp only [grantsIn_snoc, Change.grant?, Option.toList_some, List.mem_append,
      List.mem_singleton] at hg
    simp only [returnsIn_snoc, Change.return?, Option.toList_none, List.append_nil, hout,
      List.mem_append, List.mem_singleton]
    rcases hg with hg | rfl
    · have hne : g ≠ (s.grant owners grantee).1 := fun heq => hnew (heq ▸ hg)
      rw [or_iff_left hne]
      exact ih hg
    · exact ⟨fun _ hreturned => hnew (before.granted_of_returned hreturned), fun _ => .inr rfl⟩
  | @returned past s _ _ k before released ih =>
    obtain ⟨l, r, hlr, -, -, rfl⟩ := release_eq released
    -- it stood in one place, so it is gone, and nothing else is
    have hnodup := before.holdings_sublist.nodup before.nodup_serials.of_map
    rw [hlr, List.nodup_middle, List.nodup_cons] at hnodup
    have hbefore := ih (by simpa using hg)
    rw [hlr, List.perm_middle.mem_iff, List.mem_cons] at hbefore
    have hkept : g ∉ returnsIn (past ++ [.returned k]) ↔ g ∉ returnsIn past ∧ g ≠ k := by simp
    rw [hkept, ← hbefore]
    constructor
    · intro hout
      exact ⟨.inr hout, fun heq => hnodup.1 (heq ▸ hout)⟩
    · rintro ⟨hout, hne⟩
      exact hout.resolve_left hne

/-- As long as a permit is out, its serial finds it. Whoever waits is woken. -/
theorem release?_of_out (life : Life t past s) (hout : g ∈ s.holdings) :
    ∃ l r, s.holdings = l ++ g :: r ∧ s.release? (fun k => k.serial = g.serial) = some (g, { s with
      holdings := l ++ r
      available := s.available + 1
      awake := s.queue }) := by
  cases hrelease : s.release? fun k => decide (k.serial = g.serial) with
  | none => exact absurd (decide_eq_true rfl) (release_eq_none hrelease g hout)
  | some released =>
    obtain ⟨k, s'⟩ := released
    obtain ⟨l, r, hlr, -, hserial, rfl⟩ := release_eq hrelease
    have hk : k ∈ s.holdings := by simp [hlr]
    have hgranted := life.holdings_sublist.subset
    obtain rfl := life.eq_of_serial (hgranted hk) (hgranted hout) (of_decide_eq_true hserial)
    have hbalanced := life.balanced
    rw [hlr, List.length_append, List.length_cons] at hbalanced
    have hroom : min (s.available + 1) s.capacity = s.available + 1 := by omega
    exact ⟨l, r, hlr, by rw [hroom, release_awake life.awake_sub]⟩

/-- Once a permit was returned, its serial finds nothing. -/
theorem not_serial_of_returned (life : Life t past s) (hg : g ∈ returnsIn past) {k : Holding}
    (hk : k ∈ s.holdings) : k.serial ≠ g.serial := by
  intro hserial
  have hgranted := life.granted_of_returned hg
  obtain rfl := life.eq_of_serial (life.holdings_sublist.subset hk) hgranted hserial
  exact (life.out_iff hgranted).1 hk hg

end Life

/-- Where one ticket can be served no other can. -/
theorem Serves.unique {s : Slot} {ticket ticket' : Nat} (h : s.Serves ticket)
    (h' : s.Serves ticket') : ticket = ticket' :=
  Option.some.inj (h.2.symm.trans h'.2)

end Slot

/-! The facts of a history tell the life of the slot that a resource has at its end. -/

/-- What was done to the slot of the resource, after one more fact. A slot that is made begins a new
life. -/
def changesAfter (key : Key) (changes : List Slot.Change) (f : Fact) : List Slot.Change :=
  match f.deed with
  | .opened k _ => if k = key then [] else changes
  | .queued k ticket _ _ => if k = key then changes ++ [.queued ticket] else changes
  | .granted k ticket g _ _ => if k = key then changes ++ [.granted ticket g] else changes
  | .gaveUp k ticket _ _ => if k = key then changes ++ [.gaveUp ticket] else changes
  | .returned k g _ => if k = key then changes ++ [.returned g] else changes
  | _ => changes

/-- What was done to the last slot that was made for the resource. -/
def changesAt (key : Key) (past : List Fact) : List Slot.Change := past.foldl (changesAfter key) []

theorem changesAt_snoc (key : Key) (past : List Fact) (f : Fact) :
    changesAt key (past ++ [f]) = changesAfter key (changesAt key past) f := by
  rw [changesAt, List.foldl_append]
  rfl

theorem changesAfter_silent {f : Fact} (h : f.deed.Silent) (key : Key)
    (changes : List Slot.Change) :
    changesAfter key changes f = changes := by
  obtain ⟨call, deed⟩ := f
  cases deed <;> first | rfl | exact h.elim

theorem exists_life_insert {d : Dict Key Slot} {key k : Key} {s slot : Slot}
    {changes changes' : List Slot.Change}
    (lives : ∀ slot, d.get? key = some slot → ∃ t, Slot.Life t changes slot)
    (changed : k = key → ∃ t, Slot.Life t changes' s)
    (found : (d.insert k s).get? key = some slot) :
    ∃ t, Slot.Life t (if k = key then changes' else changes) slot := by
  rw [Dict.get?_insert] at found
  split at found
  · rename_i hkey
    rw [if_pos hkey, ← Option.some.inj found]
    exact changed hkey
  · rename_i hkey
    rw [if_neg hkey]
    exact lives slot found

/-- Each slot of the table has the life that the facts tell. -/
theorem Ledger.exists_life {past : List Fact} {d : Dict Key Slot} (h : Ledger past d) {key : Key} :
    ∀ slot, d.get? key = some slot → ∃ t, Slot.Life t (changesAt key past) slot := by
  induction h with
  | nil => exact fun slot found => absurd found (by simp)
  | @snoc past d d' f _ he ih =>
    intro slot found
    rw [changesAt_snoc]
    cases he with
    | silent changesNothing =>
      rw [changesAfter_silent changesNothing]
      exact ih slot found
    | @opened _ t id => exact exists_life_insert ih (fun _ => ⟨t, .made id⟩) found
    | queued there =>
      exact exists_life_insert ih (fun hkey => (ih _ (hkey ▸ there)).imp fun _ life => life.queued)
        found
    | granted there serves =>
      exact exists_life_insert ih
        (fun hkey => (ih _ (hkey ▸ there)).imp fun _ life => life.granted serves _ _) found
    | gaveUp there =>
      exact exists_life_insert ih (fun hkey => (ih _ (hkey ▸ there)).imp fun _ life =>
        life.gaveUp _) found
    | returned there released =>
      exact exists_life_insert ih (fun hkey => (ih _ (hkey ▸ there)).imp fun _ life =>
        life.returned released) found
    | evicted =>
      rw [Dict.get?_filter, Option.filter_eq_some_iff] at found
      exact ih slot found.1
  | dozed _ hdoze ih =>
    intro slot found
    cases hdoze with
    | intro there waits =>
      rw [Dict.get?_insert] at found
      split at found
      · rename_i hkey
        rw [← Option.some.inj found]
        exact (ih _ (hkey ▸ there)).imp fun _ life => life.dozed waits
      · exact ih slot found

/-- What the facts tell of a resource since its slot was made is the life of that slot. -/
theorem History.exists_life (h : History) {key : Key} {slot : Slot}
    (found : h.service.slots.get? key = some slot) :
    ∃ t, Slot.Life t (changesAt key h.facts) slot :=
  h.orderly.ledger.exists_life slot found

/-- The permits that are out ascend by their serials and the waiting attempts by their tickets,
below the next numbers to be drawn. No ticket is drawn twice and no serial granted twice; there are
no more of either than attempts, so 64 bits hold both as long as fewer than 2 to the 64th attempts
began. Hence a release by the serial of a permit that was granted returns exactly this permit while
it is out, and wakes whoever waits; once it was returned, such a release is refused and changes
nothing. Only one ticket can be served at a time. -/
theorem serials_identify_permits {t : ResourceType} {past : List Slot.Change} {s : Slot}
    (life : Slot.Life t past s) :
    ((s.holdings.map Holding.serial).Pairwise (· < ·) ∧ ∀ g ∈ s.holdings, g.serial < s.nextSerial) ∧
    (s.queue.Pairwise (· < ·) ∧ ∀ ticket ∈ s.queue, ticket < s.nextTicket) ∧
    (Slot.ticketsIn past = List.range s.nextTicket ∧
      (Slot.grantsIn past).map Holding.serial = List.range s.nextSerial ∧
        s.nextSerial ≤ s.nextTicket) ∧
    (∀ g ∈ Slot.grantsIn past, ∀ (service : Service) (key : Key), service.slots.get? key = some s →
      ∀ (call : CallId) (party : Party),
        (g ∉ Slot.returnsIn past → ∃ l r, s.holdings = l ++ g :: r ∧
          service.giveBack call key party (fun k => k.serial = g.serial) = .ok
            ⟨{ service with
                slots := service.slots.insert key
                  { s with holdings := l ++ r, available := s.available + 1, awake := s.queue } },
              ⟨call, .returned key g party⟩ ::
                service.announce call .unlocked ⟨key.1, key.2, party.listed⟩⟩) ∧
        (g ∈ Slot.returnsIn past → service.giveBack call key party (fun k => k.serial = g.serial) =
          .error (.notOwner s.key party.listed))) ∧
    ∀ ticket ticket', s.Serves ticket → s.Serves ticket' → ticket = ticket' := by
  have hserials := life.holdings_sublist.map Holding.serial
  rw [life.serials_eq] at hserials
  have htickets := life.queue_sublist
  rw [life.tickets_eq] at htickets
  refine ⟨⟨?ascend, ?below⟩, ⟨?line, ?drawn⟩, ⟨life.tickets_eq, life.serials_eq, ?counted⟩,
    ?releases, fun _ _ => Slot.Serves.unique⟩
  case ascend => exact List.pairwise_lt_range.sublist hserials
  case below => exact fun g hg => life.serial_lt (life.holdings_sublist.subset hg)
  case line => exact List.pairwise_lt_range.sublist htickets
  case drawn => exact fun ticket hticket => List.mem_range.1 (htickets.subset hticket)
  case counted => exact Nat.le_of_add_right_le life.serials_add_waiting_le
  case releases =>
    intro g hg service key found call party
    constructor
    · intro hkept
      obtain ⟨l, r, hlr, hrelease⟩ := life.release?_of_out ((life.out_iff hg).2 hkept)
      exact ⟨l, r, hlr, by simp only [Service.giveBack, found, hrelease]⟩
    · intro hreturned
      have hnone : s.release? (fun k => decide (k.serial = g.serial)) = none := by
        refine Slot.release_none fun k hk hserial => ?_
        exact life.not_serial_of_returned hreturned hk (of_decide_eq_true hserial)
      simp only [Service.giveBack, found, hnone]

/-- Two groups that have owner 9 in common hold a document, a third caller gives up at once, the
second group gives its permit back, and owner 8 gets it. -/
def overlappingGroups : History where
  start := .withType ⟨"doc", 2, .sharedGroup⟩
  actions := [.submit 1 (.lock "doc" 1 (.group [9, 10])), .move 1, .move 1,
    .submit 2 (.lock "doc" 1 (.group [7, 9])), .move 2, .move 2,
    .submit 3 (.tryLock "doc" 1 (.group [5]) 0), .move 3, .move 3,
    .submit 4 (.unlock "doc" 1 (.group [7])), .submit 5 (.lock "doc" 1 (.group [8])),
    .move 5, .move 5]
  isNew := Service.new_groupDoc
  numbered := by decide

/-- The serial of the second group finds nothing any more, although owner 9 holds another permit.
That of the permit that came after finds this one alone. -/
theorem serials_identify_permits_overlappingGroups :
    overlappingGroups.service.giveBack 6 ("doc", 1) (.group [7, 9]) (fun g => g.serial = 1) =
      .error (.notOwner ("doc", 1) [7, 9]) ∧
    ∃ turn slot,
      overlappingGroups.service.giveBack 6 ("doc", 1) (.group [8]) (fun g => g.serial = 2) =
        .ok turn ∧
      turn.service.slots.get? ("doc", 1) = some slot ∧
        slot.holdings = [⟨0, OwnerSet.ofList [9, 10], 1⟩] := by
  have found : overlappingGroups.service.slots.get? ("doc", 1) =
      some ⟨("doc", 1), 2, .sharedGroup, 0,
        [⟨0, OwnerSet.ofList [9, 10], 1⟩, ⟨2, OwnerSet.ofList [8], 5⟩], 3, [], 4, []⟩ := rfl
  obtain ⟨t, life⟩ := overlappingGroups.exists_life found
  obtain ⟨-, -, -, hreleases, -⟩ := serials_identify_permits life
  constructor
  · exact (hreleases ⟨1, OwnerSet.ofList [7, 9], 2⟩ (by decide) _ _ found 6 (.group [7, 9])).2
      (by decide)
  · obtain ⟨l, r, hlr, hgiven⟩ :=
      (hreleases ⟨2, OwnerSet.ofList [8], 5⟩ (by decide) _ _ found 6 (.group [8])).1 (by decide)
    refine ⟨_, _, hgiven, Dict.get?_insert_self _ _ _, ?_⟩
    -- the permit with serial 2 is the second of two
    rcases l with _ | ⟨first, _ | ⟨second, l⟩⟩
    · cases hlr
    · cases hlr
      rfl
    · cases l <;> cases hlr

end FairLocks
