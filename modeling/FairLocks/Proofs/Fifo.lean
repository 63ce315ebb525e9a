import FairLocks.Proofs.Group

/-!
# First come, first served

Nobody in a queue is overtaken: who came later is granted a permit only when all who came before
have been granted one or have given up. Who gives up leaves the others in their order, wakes them,
and does so only when its deadline has passed and it cannot be served.
-/
namespace FairLocks

set_option autoImplicit false

namespace Service

variable {s : Service} {x : CallId} {key : Key} {ticket : Nat} {party : Party} {budget : Option Nat}

/-- The queue of a slot that somebody waits for, with its ticket in it once. -/
theorem exists_queue_of_waits {past : List Fact} (ho : Orderly past s) {slot : Slot}
    (found : s.slots.get? key = some slot) (hwaits : s.waits? x = some (key, ticket)) :
    ∃ l r, slot.queue = l ++ ticket :: r ∧
      slot.leave ticket = { slot with queue := l ++ r, awake := l ++ r } := by
  have hmem : ticket ∈ slot.queue := by
    rw [← queueAt_eq found, ho.ledger.queueAt_eq_line]
    exact List.mem_map_of_mem ((ho.lined _ _ _).2 hwaits)
  obtain ⟨l, r, hqueue⟩ := List.append_of_mem hmem
  have hnodup := (ho.ledger.sound _ _ found).nodup_queue
  rw [hqueue, List.nodup_middle, List.nodup_cons, List.mem_append, not_or] at hnodup
  have hl : ∀ n ∈ l, n ≠ ticket := fun n hn heq => hnodup.1.1 (heq ▸ hn)
  have hr : ∀ n ∈ r, n ≠ ticket := fun n hn heq => hnodup.1.2 (heq ▸ hn)
  refine ⟨l, r, hqueue, ?_⟩
  have hleft : slot.queue.filter (fun n => decide (n ≠ ticket)) = l ++ r := by
    rw [hqueue, List.filter_append, List.filter_cons_of_neg (by simp),
      List.filter_eq_self.2 (by simpa using hl), List.filter_eq_self.2 (by simpa using hr)]
  simp only [Slot.leave, Slot.wakeIf, if_true, hleft]

/-- Who gives up waits, has come to its deadline and cannot be served. It takes only its own ticket
out of the queue, and wakes the others. -/
theorem of_gaveUp {past : List Fact} {a : Action} (ho : Orderly past s)
    (hf : ⟨x, .gaveUp key ticket party budget⟩ ∈ (s.act a).facts) :
    ∃ c id deadline slot l r, s.callers.get? x = some c ∧ c.keyOf id = key ∧ c.party = party ∧
      c.stage = .waiting id ticket budget (some deadline) ∧ deadline ≤ s.clock ∧
      s.slots.get? key = some slot ∧ slot.queue = l ++ ticket :: r ∧ ¬ slot.Serves ticket ∧
      (s.act a).service.slots = s.slots.insert key
        { slot with queue := l ++ r, awake := l ++ r } := by
  obtain ⟨y, effect⟩ := effect_act hf
  cases effect with
  | @gaveUp c id _ deadline _ slot working stage found waits late left =>
    have hwaits : s.waits? x = some (c.keyOf id, ticket) := by
      rw [waits?, working]
      simp [Caller.waits?, stage]
    obtain ⟨l, r, hqueue, hleave⟩ := exists_queue_of_waits ho found hwaits
    rw [hleave] at left
    exact ⟨c, id, deadline, slot, l, r, working, rfl, rfl, stage, late, found, hqueue, waits, left⟩

/-- Who waits after an action waited before, or drew its ticket in the action, with the budget it
had then. -/
theorem waiting_of_act {a : Action} {c : Caller} {id : ResourceId} {deadline : Option Nat}
    (hc : (s.act a).service.callers.get? x = some c)
    (stage : c.stage = .waiting id ticket budget deadline) :
    s.callers.get? x = some c ∨
      (∃ ahead, ⟨x, .queued (c.keyOf id) ticket ahead true⟩ ∈ (s.act a).facts) ∧
        budget = c.goal.budget c.began s.clock ∧
          deadline = budget.bind (Instant.after? s.clock) := by
  cases a with
  | pass d => exact .inl hc
  | submit y request =>
    rcases callers_submit s y request with hsame | ⟨c', hstage, hnew⟩
    · rw [act, hsame] at hc
      exact .inl hc
    · rw [act, hnew, Dict.get?_insert] at hc
      split at hc
      · cases hc
        rw [hstage] at stage
        cases stage
      · exact .inl hc
  | move y =>
    cases ht : s.move y with
    | none =>
      rw [act, ht] at hc
      exact .inl hc
    | some t =>
      rw [act_move ht] at hc ⊢
      rcases (moved ht).callers with hsame | hgone | ⟨c', hnew, hwaits⟩
      · rw [hsame] at hc
        exact .inl hc
      · rw [hgone, Dict.get?_erase] at hc
        split at hc
        · cases hc
        · exact .inl hc
      · rw [hnew, Dict.get?_insert] at hc
        split at hc
        · rename_i hyx
          subst hyx
          cases hc
          exact .inr (hwaits _ _ _ _ stage)
        · exact .inl hc

/-- Who waits drew its ticket in an earlier action, and its budget and its deadline were set
then. -/
theorem exists_arrival {as : List Action} {c : Caller} {id : ResourceId} {deadline : Option Nat}
    (hnone : s.callers.get? x = none) (hc : (s.run as).service.callers.get? x = some c)
    (stage : c.stage = .waiting id ticket budget deadline) :
    ∃ earlier arrival later ahead, as = earlier ++ arrival :: later ∧
      ⟨x, .queued (c.keyOf id) ticket ahead true⟩ ∈ ((s.run earlier).service.act arrival).facts ∧
      budget = c.goal.budget c.began (s.run earlier).service.clock ∧
      deadline = budget.bind (Instant.after? (s.run earlier).service.clock) := by
  induction as using List.reverseRecOn with
  | nil =>
    rw [service_run_nil, hnone] at hc
    cases hc
  | append_singleton as a ih =>
    rw [service_run_append, service_run_cons, service_run_nil] at hc
    rcases waiting_of_act hc stage with hc | ⟨⟨ahead, hf⟩, hset⟩
    · obtain ⟨earlier, arrival, later, ahead, rfl, hf, hset⟩ := ih hc
      exact ⟨earlier, arrival, later ++ [a], ahead, by simp, hf, hset⟩
    · exact ⟨as, a, [], ahead, rfl, hf, hset⟩

end Service

/-- A wait that starts at `since` ends at `deadline`, in a call that made the request at `began`. A
single attempt waits for its timeout, and so does each member of a group call with a budget for
each. A group call with one budget for all waits for no member longer than until its timeout has
passed since the request. -/
inductive Request.Due (spending : GroupTimeout) (began since : Nat) : Request → Nat → Prop
  | attempt {typeName : String} {id : ResourceId} {party : Party} {timeout : Nat}
      (shown : since + timeout < Instant.horizon) :
      Due spending began since (.tryLock typeName id party timeout) (since + timeout)
  | perMember {request : Request} {timeout : Nat} (many : request.manyTimeout? = some timeout)
      (mode : spending = .perMember) (shown : since + timeout < Instant.horizon) :
      Due spending began since request (since + timeout)
  | sharedBudget {request : Request} {timeout : Nat} (many : request.manyTimeout? = some timeout)
      (mode : spending = .sharedBudget) (shown : max since (began + timeout) < Instant.horizon) :
      Due spending began since request (max since (began + timeout))

namespace Instant

variable {t d instant : Nat}

theorem after?_eq_some : after? t d = some instant ↔ t + d < horizon ∧ t + d = instant := by
  unfold after?
  by_cases shown : t + d < horizon <;> simp [shown]

end Instant

namespace Request

variable {request : Request} {spending : GroupTimeout} {began since timeout deadline : Nat}

/-- The budget of a member ends when the budget of the group call does, or at once if that has
passed. -/
theorem due_of_many (many : request.manyTimeout? = some timeout) (later : began ≤ since)
    (h : ((request.aim spending).budget began since).bind (Instant.after? since) = some deadline) :
    request.Due spending began since deadline := by
  obtain ⟨detailed, haim⟩ := aim_of_manyTimeout many spending
  rw [haim] at h
  cases spending with
  | perMember =>
    obtain ⟨shown, rfl⟩ := Instant.after?_eq_some.1 h
    exact .perMember many rfl shown
  | sharedBudget =>
    have hmax (left : Nat) (hleft : left = began + timeout - since) :
        since + left = max since (began + timeout) := by omega
    cases hend : Instant.after? began timeout with
    | some last =>
      obtain ⟨-, rfl⟩ := Instant.after?_eq_some.1 hend
      simp only [Goal.budget, hend, Option.bind_some] at h
      obtain ⟨shown, rfl⟩ := Instant.after?_eq_some.1 h
      rw [hmax _ rfl] at shown ⊢
      exact .sharedBudget many rfl shown
    | none =>
      -- the clock shows no end of the group call, and so no later end of the wait
      simp only [Goal.budget, hend, Option.bind_some] at h
      obtain ⟨shown, -⟩ := Instant.after?_eq_some.1 h
      have hidden : Instant.after? began timeout = some (began + timeout) :=
        Instant.after?_eq_some.2 ⟨by omega, rfl⟩
      cases hend.symm.trans hidden

/-- A wait that has a deadline is that of a timed request, and the deadline follows from the
request. -/
theorem due_of_budget (later : began ≤ since)
    (h : ((request.aim spending).budget began since).bind (Instant.after? since) = some deadline) :
    request.Due spending began since deadline := by
  cases request with
  | tryLock =>
    obtain ⟨shown, rfl⟩ := Instant.after?_eq_some.1 h
    exact .attempt shown
  | tryLockMany | tryLockManyDetailed => exact due_of_many rfl later h
  | lock | lockMany | unlock | unlockMany | createType | findType | typeNames | groupTimeout
  | slotState | isLocked | slotCount | evictIdle | listen | removeListener => cases h

end Request

namespace History

variable {h : History} {key : Key}

/-- Who does not leave stays in line, and nobody comes in front. -/
theorem stays_in_line {past m rest : List Fact} {x : CallId × Nat} {l r : List (CallId × Nat)}
    (hfacts : h.facts = past ++ m ++ rest) (hline : lineAt key past = l ++ x :: r)
    (hstays : ∀ f ∈ m, f.call = x.1 → f.leaves key x.2 = false) :
    ∃ l' r', lineAt key (past ++ m) = l' ++ x :: r' ∧ l'.Sublist l := by
  induction m using List.reverseRecOn generalizing rest with
  | nil => exact ⟨l, r, by rw [List.append_nil, hline], List.Sublist.refl l⟩
  | append_singleton m f ih =>
    have hcut : h.facts = past ++ m ++ f :: rest := by simp [hfacts]
    obtain ⟨l₁, r₁, h₁, hsub₁⟩ := ih hcut fun g hg => hstays g (List.mem_append_left _ hg)
    have hf : f.leaves key x.2 = false := by
      by_contra hleaves
      rw [Bool.not_eq_false] at hleaves
      -- only the call itself has this ticket
      obtain ⟨p, s, call, t, before, after, ho, hstep, ht, hp⟩ := exists_step hcut
      obtain ⟨rfl, hcall, hwaits⟩ := hstep.of_leaves ht hleaves
      rw [List.append_nil] at hp
      subst hp
      have hmem := (ho.lined key call x.2).2 hwaits
      have hx : (x.1, x.2) ∈ lineAt key (past ++ m) := by
        rw [h₁]
        exact List.mem_append_right _ List.mem_cons_self
      have heq := ho.ledger.eq_of_mem_line hmem hx
      have hstay := hstays f (List.mem_append_right _ List.mem_cons_self) (hcall.trans heq)
      rw [hstay] at hleaves
      cases hleaves
    obtain ⟨l₂, r₂, h₂, hsub₂⟩ := lineAfter_keeps hf l₁ r₁
    refine ⟨l₂, r₂, ?_, hsub₂.trans hsub₁⟩
    rw [← List.append_assoc, lineAt_append, h₁, List.foldl_cons, List.foldl_nil, h₂]

/-- Who draws a ticket stands in no line. -/
theorem not_mem_line_of_queued {past rest : List Fact} {call : CallId} {ticket ahead : Nat}
    {waits : Bool}
    (hfacts : h.facts = past ++ ⟨call, .queued key ticket ahead waits⟩ :: rest) (n : Nat) :
    (call, n) ∉ lineAt key past := by
  obtain ⟨p, s, x, t, before, after, ho, hstep, ht, hp⟩ := exists_step hfacts
  obtain ⟨rfl, rfl, hnone⟩ := hstep.of_queued ht
  rw [List.append_nil] at hp
  subst hp
  rw [ho.lined, hnone]
  simp

/-- Who is granted a permit stands at the head of the line. -/
theorem head_of_granted {past rest : List Fact} {call : CallId} {ticket : Nat} {g : Holding}
    {party : Party} {budget : Option Nat}
    (hfacts : h.facts = past ++ ⟨call, .granted key ticket g party budget⟩ :: rest) :
    (lineAt key past).head? = some (call, ticket) := by
  obtain ⟨p, s, x, t, before, after, ho, hstep, ht, hp⟩ := exists_step hfacts
  obtain ⟨slot, hslot, hserves⟩ := hstep.of_granted ht
  obtain ⟨rfl, hcall, hwaits⟩ := hstep.of_leaves ht (decide_eq_true ⟨rfl, rfl⟩)
  rw [List.append_nil] at hp
  subst hp hcall
  have hmem := (ho.lined key _ ticket).2 hwaits
  have htickets := ho.ledger.queueAt_eq_line key
  rw [queueAt_eq hslot, Slot.queue_eq_cons hserves] at htickets
  cases hline : lineAt key past with
  | nil =>
    rw [hline] at htickets
    cases htickets
  | cons y line =>
    rw [hline] at htickets
    have hy : (y.1, ticket) ∈ lineAt key past := by
      rw [hline, (List.cons.inj htickets).1]
      exact List.mem_cons_self
    rw [List.head?_cons, Option.some.injEq]
    exact Prod.ext (ho.ledger.eq_of_mem_line hy hmem) (List.cons.inj htickets).1.symm

/-- Whoever queued before a call has left the queue when that call is granted a permit. -/
theorem exists_left_of_granted {p q r rest : List Fact} {A B G : Fact} {a b : CallId}
    {ta tb aheadA aheadB ticket : Nat} {waitsA waitsB : Bool} {g : Holding} {party : Party}
    {budget : Option Nat} (hfacts : h.facts = p ++ A :: q ++ B :: r ++ G :: rest)
    (hA : A = ⟨a, .queued key ta aheadA waitsA⟩) (hB : B = ⟨b, .queued key tb aheadB waitsB⟩)
    (hG : G = ⟨b, .granted key ticket g party budget⟩) :
    ∃ f ∈ q ++ r, f.call = a ∧ f.leaves key ta = true := by
  by_contra hnone
  have hstays : ∀ f ∈ q ++ r, f.call = a → f.leaves key ta = false := by
    intro f hf hcall
    by_contra hleaves
    rw [Bool.not_eq_false] at hleaves
    exact hnone ⟨f, hf, hcall, hleaves⟩
  have hcutA : h.facts = (p ++ [A]) ++ q ++ B :: (r ++ G :: rest) := by simp [hfacts]
  have hcutB : h.facts = (p ++ [A] ++ q ++ [B]) ++ r ++ G :: rest := by simp [hfacts]
  -- from its arrival on the first call stays in line, in front of all who come later
  have hlineA : lineAt key (p ++ [A]) = lineAt key p ++ (a, ta) :: [] := by
    rw [lineAt_cons (by simp), hA]
    simp [lineAfter]
  obtain ⟨l₁, r₁, h₁, -⟩ := stays_in_line hcutA hlineA
    fun f hf => hstays f (List.mem_append_left _ hf)
  have hnotB := not_mem_line_of_queued (hB ▸ hcutA)
  have hlineB : lineAt key (p ++ [A] ++ q ++ [B]) = l₁ ++ (a, ta) :: (r₁ ++ [(b, tb)]) := by
    rw [lineAt_cons (by simp), hB, h₁]
    simp [lineAfter]
  obtain ⟨l₂, r₂, h₂, hsub⟩ := stays_in_line hcutB hlineB
    fun f hf => hstays f (List.mem_append_right _ hf)
  -- so it still is when the second call, which was not in line before, is at the head
  have hhead := head_of_granted (hG ▸ hcutB)
  rw [h₁] at hnotB
  rw [h₂] at hhead
  cases l₂ with
  | nil =>
    cases hhead
    exact hnotB ta (List.mem_append_right _ List.mem_cons_self)
  | cons y l₂ =>
    cases hhead
    exact hnotB ticket (List.mem_append_left _ (hsub.subset List.mem_cons_self))

/-- Whoever waits with a deadline made a timed request that names the resource, and has drawn its
ticket since. The deadline is that of the request, for a wait that starts when the ticket is
drawn. -/
theorem exists_due {x : CallId} {c : Caller} {id : ResourceId} {ticket deadline : Nat}
    {budget : Option Nat} (working : h.service.callers.get? x = some c)
    (stage : c.stage = .waiting id ticket budget (some deadline)) :
    ∃ first request rest ids earlier arrival later ahead,
      h.actions = first ++ .submit x request :: rest ∧
      request.seeks? = some (c.type.name, ids, c.party) ∧ id ∈ ids ∧
      .submit x request :: rest = earlier ++ arrival :: later ∧
      let made := (h.start.run first).service
      let since := (made.run earlier).service
      ⟨x, .queued (c.keyOf id) ticket ahead true⟩ ∈ (since.act arrival).facts ∧
      budget.bind (Instant.after? since.clock) = some deadline ∧
      request.Due made.groupTimeout made.clock since.clock deadline := by
  have hused : ¬ Unused h.facts h.service x := fun hu => by cases hu.idle.symm.trans working
  obtain ⟨first, request, rest, ha⟩ := exists_submit hused
  cases hseeks : request.seeks? with
  | none =>
    obtain ⟨reply, hreply⟩ := Service.exists_answer hseeks (h.start.run first).service x
    cases working.symm.trans (gone_of_answered (mem_facts_of_act ha hreply)).idle
  | some sought =>
    obtain ⟨typeName, ids, party⟩ := sought
    obtain ⟨rfl, rfl, hgoal, hbegan, hway⟩ := keeps_request ha hseeks working
    have hid : id ∈ ids := by
      rw [← mem_distinct, ← hway, Caller.itinerary, Caller.here, stage]
      exact List.mem_append_left _ (List.mem_append_right _ List.mem_cons_self)
    have hidle : (h.start.run first).service.callers.get? x = none := (unused ha).idle
    have hworking := working
    rw [History.service, ha, Service.service_run_append] at hworking
    obtain ⟨earlier, arrival, later, ahead, hsplit, hqueued, hbudget, hdeadline⟩ :=
      Service.exists_arrival hidle hworking stage
    refine ⟨first, request, rest, ids, earlier, arrival, later, ahead, ha, hseeks, hid,
      hsplit, hqueued, hdeadline.symm, Request.due_of_budget (Service.clock_le_run _ _) ?_⟩
    rw [← hgoal, ← hbegan, ← hbudget, ← hdeadline]

/-- Whoever queued before a call has been granted a permit or has given up when that call is granted
one. Who gives up cannot be served, and the others keep their order and are woken. It made a timed
request, and the instant at which its wait was to end by that request has passed. -/
theorem first_come_first_served (h : History) :
    (∀ p q r rest key a b ta tb aheadA aheadB ticket waitsA waitsB g party budget,
      h.facts = p ++ ⟨a, .queued key ta aheadA waitsA⟩ :: q ++
        ⟨b, .queued key tb aheadB waitsB⟩ :: r ++ ⟨b, .granted key ticket g party budget⟩ :: rest →
      ∃ f ∈ q ++ r, f.call = a ∧ f.leaves key ta = true) ∧
    ∀ before a after, h.actions = before ++ a :: after →
      let s := (h.start.run before).service
      ∀ call key ticket party budget,
        ⟨call, .gaveUp key ticket party budget⟩ ∈ (s.act a).facts →
        (∃ slot l r, s.slots.get? key = some slot ∧ slot.queue = l ++ ticket :: r ∧
          ¬ slot.Serves ticket ∧
          (s.act a).service.slots = s.slots.insert key
            { slot with queue := l ++ r, awake := l ++ r }) ∧
        ∃ first request rest ids earlier arrival later ahead deadline,
          before = first ++ .submit call request :: rest ∧
          request.seeks? = some (key.1, ids, party) ∧ key.2 ∈ ids ∧
          .submit call request :: rest = earlier ++ arrival :: later ∧
          let made := (h.start.run first).service
          let since := (made.run earlier).service
          ⟨call, .queued key ticket ahead true⟩ ∈ (since.act arrival).facts ∧
          budget.bind (Instant.after? since.clock) = some deadline ∧
          request.Due made.groupTimeout made.clock since.clock deadline ∧ deadline ≤ s.clock := by
  constructor
  · intro p q r rest key a b ta tb aheadA aheadB ticket waitsA waitsB g party budget hfacts
    exact exists_left_of_granted hfacts rfl rfl rfl
  · intro before a after ha s call key ticket party budget hf
    have ho := (h.upTo ha).orderly
    obtain ⟨c, id, deadline, slot, l, r, working, rfl, rfl, stage, hlate, found, hqueue,
      hwaits, hslots⟩ := Service.of_gaveUp ho hf
    refine ⟨⟨slot, l, r, found, hqueue, hwaits, hslots⟩, ?_⟩
    obtain ⟨first, request, rest, ids, earlier, arrival, later, ahead, hmade, hseeks, hid,
      hsplit, hqueued, hdeadline, hdue⟩ := (h.upTo ha).exists_due working stage
    exact ⟨first, request, rest, ids, earlier, arrival, later, ahead, deadline, hmade, hseeks,
      hid, hsplit, hqueued, hdeadline, hdue, hlate⟩

end History

/-- The first of two callers that wait gives up, and the second is granted the permit. -/
def patience : History where
  start := .withType ⟨"doc", 1, .exclusivePerOwner⟩
  actions := [.submit 1 (.lock "doc" 1 (.owner 9)), .move 1,
    .submit 2 (.tryLock "doc" 1 (.owner 7) 5), .move 2,
    .submit 3 (.lock "doc" 1 (.owner 8)), .move 3,
    .pass 5, .move 2, .submit 4 (.unlock "doc" 1 (.owner 9)), .move 3]
  isNew := Service.new_doc
  numbered := by decide

/-- The second call gives up at the instant 5, the end of the wait that it started at 0 with a
timeout of 5. -/
theorem first_come_first_served_patience :
    (∃ f ∈ (patience.facts.drop 5).take 4, f.call = 2 ∧ f.leaves ("doc", 1) 1 = true) ∧
    (∃ slot l r, (patience.start.run (patience.actions.take 7)).service.slots.get? ("doc", 1) =
      some slot ∧
      slot.queue = l ++ 1 :: r ∧ ¬ slot.Serves 1 ∧
      (patience.start.run (patience.actions.take 8)).service.slots =
        (patience.start.run (patience.actions.take 7)).service.slots.insert ("doc", 1)
          { slot with queue := l ++ r, awake := l ++ r }) ∧
    ∃ first request rest earlier deadline,
      patience.actions.take 7 = first ++ .submit 2 request :: rest ∧
      let made := (patience.start.run first).service
      request.Due made.groupTimeout made.clock (made.run earlier).service.clock deadline ∧
        deadline ≤ 5 := by
  obtain ⟨horder, hgiveUp⟩ := History.first_come_first_served patience
  obtain ⟨hslot, hdue⟩ := hgiveUp (patience.actions.take 7) (.move 2) (patience.actions.drop 8) rfl
    2 ("doc", 1) 1
    (.owner 7) (some 5) (List.mem_of_getElem? (i := 0) rfl)
  refine ⟨?_, hslot, ?_⟩
  · exact horder (patience.facts.take 3) [] ((patience.facts.drop 5).take 4) []
      ("doc", 1) 2 3 1 2 0 1 2
      true true ⟨1, OwnerSet.ofList [8], 3⟩ (.owner 8) none rfl
  · obtain ⟨first, request, rest, ids, earlier, arrival, later, ahead, deadline, hmade, -, -, -, -,
      -, hend⟩ := hdue
    exact ⟨first, request, rest, earlier, deadline, hmade, hend⟩

end FairLocks
