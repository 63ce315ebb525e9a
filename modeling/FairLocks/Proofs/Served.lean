import FairLocks.Proofs.Tickets

/-!
# Tickets that are served, and tickets that were drawn

Whoever stands at the head of a queue while a permit is free stays there until it takes one,
whatever the others do. And the facts tell which ticket a call drew from a slot that still stands:
it is older than those to be drawn, it is nobody else's, and it is the one that the call waits with.
-/
namespace FairLocks

set_option autoImplicit false

/-- The call waits, and its ticket is served. -/
def Service.Bound (s : Service) (x : CallId) : Prop :=
  ∃ key ticket slot, s.waits? x = some (key, ticket) ∧ s.slots.get? key = some slot ∧
    slot.Serves ticket

namespace Slot

variable {s s' : Slot} {ticket : Nat}

theorem Serves.enqueue (h : s.Serves ticket) : s.enqueue.2.Serves ticket := by
  refine ⟨h.1, ?_⟩
  simp only [Slot.enqueue, List.head?_append, h.2]
  rfl

theorem Serves.leave (h : s.Serves ticket) {n : Nat}
    (hne : ticket ≠ n) : (s.leave n).Serves ticket := by
  refine ⟨h.1, ?_⟩
  rw [Slot.leave, wakeIf_queue, queue_eq_cons h, List.filter_cons_of_pos (by simpa using hne),
    List.head?_cons]

theorem Serves.release (h : s.Serves ticket) (hs : s.Sound) {p : Holding → Bool} {g : Holding}
    (hr : s.release? p = some (g, s')) : s'.Serves ticket := by
  have hfree := (hs.release_available hr).2
  obtain ⟨l, r, -, -, -, rfl⟩ := release_eq hr
  refine ⟨?_, h.2⟩
  rw [hfree]
  exact Nat.succ_pos _

theorem Serves.busy (h : s.Serves ticket) : ¬ s.Idle := by
  rintro ⟨-, -, hqueue⟩
  have hhead := h.2
  rw [hqueue] at hhead
  cases hhead

end Slot

/-- A ticket that is served stays so until it leaves the queue. -/
theorem Entry.serves {d d' : Dict Key Slot} {f : Fact} (he : Entry d f d')
    (hsound : ∀ key slot, d.get? key = some slot → slot.Sound) {key : Key} {slot : Slot}
    {ticket : Nat} (hslot : d.get? key = some slot) (hserves : slot.Serves ticket)
    (hstays : f.leaves key ticket = false) :
    ∃ slot', d'.get? key = some slot' ∧ slot'.Serves ticket := by
  have hinsert {k : Key} {found after : Slot} (hfound : d.get? k = some found)
      (hafter : k = key → found.Serves ticket → after.Serves ticket) :
      ∃ slot', (d.insert k after).get? key = some slot' ∧ slot'.Serves ticket := by
    by_cases hk : k = key
    · subst hk
      cases hslot.symm.trans hfound
      exact ⟨after, Dict.get?_insert_self _ _ _, hafter rfl hserves⟩
    · exact ⟨slot, by rw [Dict.get?_insert_of_ne _ _ hk, hslot], hserves⟩
  cases he with
  | silent => exact ⟨slot, hslot, hserves⟩
  | @opened _ t id free =>
    have hne : (t.name, id) ≠ key := fun heq => by rw [heq, hslot] at free; cases free
    exact ⟨slot, by rw [Dict.get?_insert_of_ne _ _ hne, hslot], hserves⟩
  | queued found => exact hinsert found fun _ h => h.enqueue
  | @granted _ k _ n _ _ found serves =>
    refine hinsert found fun hk h => ?_
    -- the head of the queue leaves it
    have hhead := serves.2.symm.trans h.2
    cases hhead
    exact absurd hstays (by simp [Fact.leaves, hk])
  | @gaveUp _ k _ n _ _ found =>
    refine hinsert found fun hk h => h.leave fun hticket => ?_
    exact absurd hstays (by simp [Fact.leaves, hk, hticket])
  | returned found released => exact hinsert found fun _ h => h.release (hsound _ _ found) released
  | evicted =>
    refine ⟨slot, ?_, hserves⟩
    rw [Dict.get?_filter, hslot, Option.filter_some, if_pos (by simpa using hserves.busy)]

theorem Entries.serves {d d' : Dict Key Slot} {fs : List Fact} (he : Entries d fs d')
    (hsound : ∀ key slot, d.get? key = some slot → slot.Sound) {key : Key} {slot : Slot}
    {ticket : Nat} (hslot : d.get? key = some slot) (hserves : slot.Serves ticket)
    (hstays : ∀ f ∈ fs, f.leaves key ticket = false) :
    ∃ slot', d'.get? key = some slot' ∧ slot'.Serves ticket := by
  induction he generalizing slot with
  | nil => exact ⟨slot, hslot, hserves⟩
  | cons first _ ih =>
    obtain ⟨slot₁, hslot₁, hserves₁⟩ :=
      first.serves hsound hslot hserves (hstays _ List.mem_cons_self)
    exact ih (first.sound hsound) hslot₁ hserves₁ fun f hf => hstays f (List.mem_cons_of_mem _ hf)

section

variable {past past' : List Fact} {s s' : Service} {x y : CallId} {t : Turn}

/-- Nobody else takes the turn of a call that is served. -/
theorem Step.bound (h : Step past s y t) (ho : Orderly past s) (hy : y ≠ x) (hb : s.Bound x) :
    t.service.Bound x := by
  obtain ⟨key, ticket, slot, hwaits, hslot, hserves⟩ := hb
  have hstays : ∀ f ∈ t.facts, f.leaves key ticket = false := by
    intro f hf
    by_contra hleaves
    rw [Bool.not_eq_false] at hleaves
    obtain ⟨before, after, ht⟩ := List.append_of_mem hf
    obtain ⟨-, -, hwaits'⟩ := h.of_leaves ht hleaves
    exact hy (ho.ledger.eq_of_mem_line ((ho.lined _ _ _).2 hwaits') ((ho.lined _ _ _).2 hwaits))
  obtain ⟨slot', hslot', hserves'⟩ := h.entries.serves ho.ledger.sound hslot hserves hstays
  exact ⟨key, ticket, slot', (h.waits?_of_ne hy).trans hwaits, hslot', hserves'⟩

theorem Leads.bound {who : CallId → Prop} (h : Leads who past s past' s') (ho : Orderly past s)
    (hwho : ¬ who x) (hb : s.Bound x) : s'.Bound x := by
  induction h with
  | refl => exact hb
  | step before allowed step ih =>
    exact step.bound (ho.leads before) (fun heq => hwho (heq ▸ allowed)) ih
  | pass _ _ ih => exact ih
  | doze _ dozes ih =>
    obtain ⟨key, ticket, slot, hwaits, hslot, hserves⟩ := ih
    obtain ⟨awake, hslot'⟩ := dozes.exists_awake hslot
    exact ⟨key, ticket, _, hwaits, hslot', hserves⟩

/-- A call that is served takes a permit with its next move. -/
theorem Service.Bound.granted_of_move (hb : s.Bound x)
    (ho : Orderly past s) : ∃ t key ticket g party budget,
    s.move x = some t ∧ ⟨x, .granted key ticket g party budget⟩ ∈ t.facts := by
  obtain ⟨key, ticket, slot, hwaits, hslot, hserves⟩ := hb
  obtain ⟨c, id, budget, deadline, working, stage, rfl⟩ := Service.waits?_eq_some.1 hwaits
  refine ⟨s.serve x c id ticket budget slot, _, _, _, _, _, ?_, List.mem_cons_self⟩
  simp only [Service.move, working, stage]
  exact Service.resume_of_serves hslot hserves (ho.awake_of_serves hslot hserves)

/-- Whatever happens next, a call that is served stays so or takes a permit. -/
theorem Orderly.bound_act (ho : Orderly past s) {a : Action} (ha : ∀ y ∈ a.number?, Unused past s y)
    (hb : s.Bound x) : (s.act a).service.Bound x ∨
      ∃ key ticket g party budget, ⟨x, .granted key ticket g party budget⟩ ∈ (s.act a).facts := by
  cases a with
  | pass d => exact .inl hb
  | submit y request =>
    have hy : y ≠ x := by
      rintro rfl
      obtain ⟨key, ticket, slot, hwaits, -⟩ := hb
      obtain ⟨c, _, _, _, working, -⟩ := Service.waits?_eq_some.1 hwaits
      rw [(ha y rfl).idle] at working
      cases working
    exact .inl ((Step.submit ho.registry (ha y rfl) request).bound ho hy hb)
  | move y =>
    by_cases hy : y = x
    · subst hy
      obtain ⟨t, key, ticket, g, party, budget, ht, hf⟩ := hb.granted_of_move ho
      rw [Service.act_move ht]
      exact .inr ⟨key, ticket, g, party, budget, hf⟩
    · cases ht : s.move y with
      | none =>
        rw [Service.act, ht]
        exact .inl hb
      | some t =>
        rw [Service.act_move ht]
        exact .inl ((Leads.move ho.permits ht).bound ho (fun heq => hy heq.symm) hb)

end

/-- A call that is served at some moment is granted a permit, or still served in the end. -/
theorem History.bound_or_granted {h : History} {before after : List Action} {x : CallId}
    (ha : h.actions = before ++ after) (hb : (h.start.run before).service.Bound x) :
    h.service.Bound x ∨ ∃ key ticket g party budget,
      ⟨x, .granted key ticket g party budget⟩ ∈ h.facts := by
  induction after generalizing before with
  | nil =>
    rw [List.append_nil] at ha
    rw [service, ha]
    exact .inl hb
  | cons a after ih =>
    have hnext : h.actions = (before ++ [a]) ++ after := by
      rw [ha, List.append_assoc, List.singleton_append]
    rcases (h.upTo ha).orderly.bound_act (number_unused ha) hb with hstill |
      ⟨key, ticket, g, party, budget, hf⟩
    · apply ih hnext
      rw [Service.service_run_snoc]
      exact hstill
    · exact .inr ⟨key, ticket, g, party, budget, mem_facts_of_act ha hf⟩

/-- The ticket that the call has drawn, after one more fact. -/
def drawAfter (x : CallId) (key : Key) (o : Option Nat) (f : Fact) : Option Nat :=
  match f.deed with
  | .queued k ticket _ _ => if f.call = x ∧ k = key then some ticket else o
  | .evicted keys _ => if key ∈ keys then none else o
  | _ => o

/-- The ticket that the call drew from the slot of the resource, if that slot still stands. -/
def drawnBy (x : CallId) (past : List Fact) (key : Key) : Option Nat :=
  past.foldl (drawAfter x key) none

theorem drawnBy_append (x : CallId) (past fs : List Fact) (key : Key) :
    drawnBy x (past ++ fs) key = fs.foldl (drawAfter x key) (drawnBy x past key) :=
  List.foldl_append

theorem drawAfter_silent {f : Fact} (h : f.deed.Silent) (x : CallId) (key : Key) (o : Option Nat) :
    drawAfter x key o f = o := by
  obtain ⟨call, deed⟩ := f
  cases deed <;> first | rfl | exact h.elim

/-- Where the slot is gone, so is what the call drew from it; as long as it stands, that ticket is
older than the next one and nobody else's. -/
structure Draws (x : CallId) (slot? : Option Slot) (line : List (CallId × Nat))
    (o : Option Nat) : Prop where
  absent : slot? = none → o = none
  stands : ∀ slot, slot? = some slot → ∀ t, o = some t → t < slot.nextTicket ∧ ∀ y,
    (y, t) ∈ line → y = x

namespace Draws

variable {d : Dict Key Slot} {x y : CallId} {key k : Key} {slot found : Slot} {slot? : Option Slot}
  {line line' : List (CallId × Nat)} {o : Option Nat}

theorem nothing (x : CallId) (slot? : Option Slot) (line : List (CallId × Nat)) :
    Draws x slot? line none :=
  ⟨fun _ => rfl, fun _ _ t ht => by cases ht⟩

/-- A slot goes on with the same next ticket, while nobody comes into the line. -/
theorem insert (h : Draws x (d.get? key) line o) (hfound : d.get? k = some found)
    (hnext : slot.nextTicket = found.nextTicket) (hline : ∀ e ∈ line', e ∈ line) :
    Draws x ((d.insert k slot).get? key) line' o := by
  rw [Dict.get?_insert]
  split
  · rename_i hk
    subst hk
    refine ⟨fun hnone => (by cases hnone), fun slot' hslot t ht => ?_⟩
    cases hslot
    obtain ⟨hlt, hmine⟩ := h.stands found hfound t ht
    exact ⟨by rw [hnext]; exact hlt, fun z hz => hmine z (hline _ hz)⟩
  · refine ⟨h.absent, fun slot' hslot t ht => ?_⟩
    obtain ⟨hlt, hmine⟩ := h.stands slot' hslot t ht
    exact ⟨hlt, fun z hz => hmine z (hline _ hz)⟩

theorem opened (h : Draws x (d.get? key) line o) (free : d.get? k = none) (slot : Slot) :
    Draws x ((d.insert k slot).get? key) line o := by
  rw [Dict.get?_insert]
  split
  · rename_i hk
    subst hk
    rw [h.absent free]
    exact .nothing _ _ _
  · exact h

/-- The call itself draws a ticket, the newest one. -/
theorem queued (hold : ∀ z n, (z, n) ∈ line → n < slot.nextTicket) :
    Draws x (some slot.enqueue.2) (line ++ [(x, slot.nextTicket)]) (some slot.nextTicket) := by
  refine ⟨fun hnone => (by cases hnone), fun slot' hslot t ht => ?_⟩
  cases hslot
  cases ht
  refine ⟨Nat.lt_succ_self _, fun z hz => ?_⟩
  rcases List.mem_append.1 hz with hz | hz
  · exact absurd (hold z _ hz) (Nat.lt_irrefl _)
  · cases List.mem_singleton.1 hz
    rfl

theorem queued_other (h : Draws x (some slot) line o) (y : CallId) :
    Draws x (some slot.enqueue.2) (line ++ [(y, slot.nextTicket)]) o := by
  refine ⟨fun hnone => (by cases hnone), fun slot' hslot t ht => ?_⟩
  cases hslot
  obtain ⟨hlt, hmine⟩ := h.stands slot rfl t ht
  refine ⟨Nat.lt_succ_of_lt hlt, fun z hz => ?_⟩
  rcases List.mem_append.1 hz with hz | hz
  · exact hmine z hz
  · cases List.mem_singleton.1 hz
    exact absurd hlt (Nat.lt_irrefl _)

/-- A slot that is not idle stays when idle slots are dropped. -/
theorem evicted (h : Draws x (d.get? key) line o)
    (hbusy : key ∉ (d.filter fun _ slot => decide slot.Idle).keys) :
    Draws x ((d.filter fun _ slot => !decide slot.Idle).get? key) line o := by
  rw [Dict.get?_filter]
  refine ⟨fun hnone => h.absent ?_, fun slot hslot => h.stands slot
    (Option.filter_eq_some_iff.1 hslot).1⟩
  cases hslot : d.get? key with
  | none => rfl
  | some slot =>
    have hstays : ¬ slot.Idle := fun hidle => hbusy (mem_keys_filter_idle.2 ⟨slot, hslot, hidle⟩)
    rw [hslot, Option.filter_some, if_pos (by simpa using hstays)] at hnone
    cases hnone

end Draws

namespace Ledger

variable {past : List Fact} {d : Dict Key Slot} {x : CallId} {key : Key}

theorem lt_nextTicket_of_mem_line (h : Ledger past d) {slot : Slot} (hslot : d.get? key = some slot)
    {y : CallId} {n : Nat} (hmem : (y, n) ∈ lineAt key past) : n < slot.nextTicket :=
  (h.sound key slot hslot).ticket_lt n ((h.mem_queue_iff hslot).2 ⟨y, hmem⟩)

theorem draws (h : Ledger past d) (x : CallId) (key : Key) :
    Draws x (d.get? key) (lineAt key past) (drawnBy x past key) := by
  induction h with
  | nil => exact .nothing _ _ _
  | @snoc past d d' f hpast he ih =>
    rw [drawnBy_append, lineAt_append]
    simp only [List.foldl_cons, List.foldl_nil]
    have hfilter (k : Key) (n : Nat) : ∀ e ∈ (if k = key then (lineAt key past).filter (·.2 ≠ n)
        else lineAt key past), e ∈ lineAt key past := by
      intro e hmem
      split at hmem
      · exact (List.mem_filter.1 hmem).1
      · exact hmem
    cases he with
    | silent changesNothing =>
      rw [drawAfter_silent changesNothing, lineAfter_kept changesNothing.keepsLine]
      exact ih
    | opened free => exact ih.opened free _
    | granted found => exact ih.insert found rfl (hfilter _ _)
    | gaveUp found => exact ih.insert found rfl (hfilter _ _)
    | returned found released =>
      obtain ⟨l, r, -, -, -, rfl⟩ := Slot.release_eq released
      exact ih.insert found rfl fun e hmem => hmem
    | @queued y k found ahead waits hfound =>
      by_cases hk : k = key
      · subst hk
        have hline : lineAfter k (lineAt k past) ⟨y, .queued k found.nextTicket ahead waits⟩ =
            lineAt k past ++ [(y, found.nextTicket)] := if_pos rfl
        rw [hline, Dict.get?_insert_self]
        by_cases hy : y = x
        · subst hy
          rw [show drawAfter y k (drawnBy y past k) ⟨y, .queued k found.nextTicket ahead waits⟩ =
            some found.nextTicket from if_pos ⟨rfl, rfl⟩]
          exact .queued fun z n hmem => hpast.lt_nextTicket_of_mem_line hfound hmem
        · rw [show drawAfter x k (drawnBy x past k) ⟨y, .queued k found.nextTicket ahead waits⟩ =
            drawnBy x past k from if_neg fun h => hy h.1]
          rw [hfound] at ih
          exact ih.queued_other y
      · have hline : lineAfter key (lineAt key past) ⟨y, .queued k found.nextTicket ahead waits⟩ =
            lineAt key past := if_neg hk
        have hdrawn : drawAfter x key (drawnBy x past key) ⟨y,
          .queued k found.nextTicket ahead waits⟩ =
            drawnBy x past key := if_neg fun h => hk h.2
        rw [hline, hdrawn, Dict.get?_insert_of_ne _ _ hk]
        exact ih
    | @evicted y remaining =>
      have hline : lineAfter key (lineAt key past)
          ⟨y, .evicted (d.filter fun _ slot => decide slot.Idle).keys remaining⟩ =
            lineAt key past := rfl
      rw [hline]
      by_cases hidle : key ∈ (d.filter fun _ slot => decide slot.Idle).keys
      · rw [show drawAfter x key (drawnBy x past key)
            ⟨y, .evicted (d.filter fun _ slot => decide slot.Idle).keys remaining⟩ =
              none from if_pos hidle]
        exact .nothing _ _ _
      · rw [show drawAfter x key (drawnBy x past key)
            ⟨y, .evicted (d.filter fun _ slot => decide slot.Idle).keys remaining⟩ =
              drawnBy x past key from
          if_neg hidle]
        exact ih.evicted hidle
  | dozed _ hdoze ih =>
    obtain ⟨found, -⟩ := hdoze
    exact ih.insert found rfl fun e hmem => hmem

/-- A slot that somebody waits for is not dropped. -/
theorem stands_of_mem_line (h : Ledger past d) {d' : Dict Key Slot} {y : CallId} {keys : List Key}
    {remaining t : Nat} (he : Entry d ⟨y, .evicted keys remaining⟩ d')
    (hmem : (x, t) ∈ lineAt key past) :
    key ∉ keys := by
  intro hkey
  have hqueue : queueAt d key = [] := by
    cases he with
    | silent changesNothing => exact changesNothing.elim
    | evicted =>
      obtain ⟨slot, hslot, hidle⟩ := mem_keys_filter_idle.1 hkey
      rw [queueAt_eq hslot, hidle.2.2]
  have hticket : t ∈ queueAt d key := h.mem_queueAt_iff.2 ⟨x, hmem⟩
  rw [hqueue] at hticket
  exact List.not_mem_nil hticket

/-- A call waits with the ticket that it drew. -/
theorem drawnBy_of_mem_line (h : Ledger past d) (hn : ((arrivals key past).map Prod.fst).Nodup)
    {t : Nat}
    (hmem : (x, t) ∈ lineAt key past) : drawnBy x past key = some t := by
  induction h with
  | nil => exact absurd hmem List.not_mem_nil
  | @snoc past d d' f hpast he ih =>
    rw [arrivals_append, List.map_append, List.nodup_append] at hn
    rw [lineAt_append, List.foldl_cons, List.foldl_nil] at hmem
    rw [drawnBy_append, List.foldl_cons, List.foldl_nil]
    obtain ⟨hbefore, -, hnew⟩ := hn
    have hold (hmem : (x, t) ∈ lineAt key past) : drawnBy x past key = some t := ih hbefore hmem
    obtain ⟨y, deed⟩ := f
    cases deed with
    | queued k ticket ahead waits =>
      by_cases hk : k = key
      · subst hk
        have hline : lineAfter k (lineAt k past) ⟨y, .queued k ticket ahead waits⟩ =
            lineAt k past ++ [(y, ticket)] := if_pos rfl
        rw [hline] at hmem
        rcases List.mem_append.1 hmem with hmem | hmem
        · -- nobody arrives at a resource twice
          have hy : y ≠ x := by
            intro heq
            have harrived := (lineAt_sublist_arrivals k past).subset hmem
            refine hnew x (List.mem_map_of_mem harrived) x ?_ rfl
            simp [arrivals, Fact.arrival?, heq]
          have hkept : drawAfter x k (drawnBy x past k) ⟨y, .queued k ticket ahead waits⟩ =
              drawnBy x past k := if_neg fun h => hy h.1
          rw [hkept]
          exact hold hmem
        · cases List.mem_singleton.1 hmem
          exact if_pos ⟨rfl, rfl⟩
      · have hline : lineAfter key (lineAt key past) ⟨y, .queued k ticket ahead waits⟩ =
          lineAt key past := if_neg hk
        have hkept : drawAfter x key (drawnBy x past key) ⟨y, .queued k ticket ahead waits⟩ =
            drawnBy x past key := if_neg fun h => hk h.2
        rw [hline] at hmem
        rw [hkept]
        exact hold hmem
    | granted k ticket g party budget | gaveUp k ticket party budget =>
      refine hold ?_
      simp only [lineAfter] at hmem
      split at hmem
      · exact (List.mem_filter.1 hmem).1
      · exact hmem
    | evicted keys remaining =>
      have hkept : drawAfter x key (drawnBy x past key) ⟨y, .evicted keys remaining⟩ =
          drawnBy x past key :=
        if_neg (hpast.stands_of_mem_line he hmem)
      rw [hkept]
      exact hold hmem
    | registered | opened | returned | notReturned | rolledBack | announced
    | answered => exact hold hmem
  | dozed _ _ ih => exact ih hn hmem

end Ledger

end FairLocks
