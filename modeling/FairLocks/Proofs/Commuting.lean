import FairLocks.Proofs.Announcements
import FairLocks.Proofs.Cascade
import FairLocks.Proofs.Locality
import FairLocks.Proofs.Sessions
import FairLocks.Proofs.Tickets

/-!
# Independent calls commute

A call that is answered without waiting is gone from the callers, so what it leaves behind is in the
slots of the resources that it named. A call that names none of them finds everything as it was
before: it does the same, is answered the same, and tells the same. Which of two such calls comes
first shows in nothing but the order of what they did.
-/
namespace FairLocks

set_option autoImplicit false

namespace Dict

variable {κ α : Type} [DecidableEq κ]

/-- Maps in which every key finds the same have the same number of entries. -/
theorem size_eq_of_get?_eq {d d' : Dict κ α} (h : ∀ k, d.get? k = d'.get? k) :
    d.size = d'.size := by
  have hperm : d.keys.Perm d'.keys := by
    refine (List.perm_ext_iff_of_nodup d.nodup d'.nodup).2 fun k => ?_
    rw [← keys, ← keys, mem_keys_iff, mem_keys_iff, h k]
  have hlength := hperm.length_eq
  simpa [keys, size] using hlength

end Dict

/-- The call has been answered once if it is no longer at work, and not at all if it is. -/
def Turn.Answers (t : Turn) (call : CallId) : Prop :=
  (t.service.callers.get? call = none ∧ ∃ reply, t.facts.filterMap Fact.reply? = [(call, reply)]) ∨
    (∃ c, t.service.callers.get? call = some c) ∧ t.facts.filterMap Fact.reply? = []

/-- The call, made now, is answered while all others stand still. -/
def Service.Completes (s : Service) (call : CallId) (request : Request) : Prop :=
  (s.start call request).service.callers.get? call = none

/-- All that happens in a session. -/
def Service.inSession (s : Service) (l : List (CallId × Command)) : Turn :=
  ⟨s.afterSession l, (s.session l).flatMap Turn.facts⟩

/-- Everything is the same but for the order in which the slots were made. -/
structure Service.SameTable (s s' : Service) : Prop where
  frame : ∃ slots, s' = { s with slots }
  slots : ∀ key, s'.slots.get? key = s.slots.get? key
  states : ∀ key, s'.slotState key = s.slotState key
  count : s'.slots.size = s.slots.size

/-- Two calls have the same results whichever comes first, tell the listeners the same, and leave
the same behind. -/
structure Turn.Reordered (a b : CallId) (ab ba : Turn) : Prop where
  results : ∃ x y, ab.facts.filterMap Fact.reply? = [(a, x), (b, y)] ∧
    ba.facts.filterMap Fact.reply? = [(b, y), (a, x)]
  table : ab.service.SameTable ba.service
  facts : ab.facts.Perm ba.facts
  events : ∀ listener, (heard listener ab.facts).Perm (heard listener ba.facts)

section

variable {s : Service} {call : CallId} {t : Turn}

theorem replies_serve (s : Service) (call : CallId) (c : Caller) (id : ResourceId) (ticket : Nat)
    (budget : Option Nat) (slot : Slot) :
    (s.serve call c id ticket budget slot).facts.filterMap Fact.reply? = [] := by
  rw [Service.serve, List.filterMap_cons_none rfl,
    replies_of_tells (Service.tells_announce s call _ _)]

theorem Turn.Answers.finish (s : Service) (call : CallId)
    (reply : Reply) : (s.finish call reply).Answers call :=
  .inl ⟨Dict.get?_erase_self _ _, reply, rfl⟩

theorem Turn.Answers.answer (idle : s.callers.get? call = none) (reply : Reply) :
    (s.answer call reply).Answers call :=
  .inl ⟨idle, reply, rfl⟩

/-- A move answers its call just when it ends it. -/
theorem Moved.answers (h : Moved s call t) : t.Answers call := by
  cases h with
  | succeeds => exact .finish _ _ _
  | @enters c id rest =>
    have hmade : (s.slotFor call c.type id).2.filterMap Fact.reply? = [] := by
      unfold Service.slotFor
      split <;> rfl
    simp only [Service.enter]
    split
    · refine .inr ⟨⟨_, Dict.get?_insert_self _ _ _⟩, ?_⟩
      rw [List.filterMap_append, hmade, List.filterMap_cons_none rfl, replies_serve]
      rfl
    · refine .inr ⟨⟨_, Dict.get?_insert_self _ _ _⟩, ?_⟩
      rw [List.filterMap_append, hmade]
      rfl
  | takes => exact .inr ⟨⟨_, Dict.get?_insert_self _ _ _⟩, replies_serve _ _ _ _ _ _ _⟩
  | dozes working => exact .inr ⟨⟨_, working⟩, rfl⟩
  | givesUp =>
    simp only [Service.giveUp]
    split
    · exact .inr ⟨⟨_, Dict.get?_insert_self _ _ _⟩, rfl⟩
    · exact .inl ⟨Dict.get?_erase_self _ _, _, rfl⟩
  | undoes =>
    simp only [Service.undo]
    split
    · rename_i t ht
      obtain ⟨_, _, _, told, -, -, tells, rfl⟩ := Service.giveBack_ok ht
      refine .inr ⟨⟨_, Dict.get?_insert_self _ _ _⟩, ?_⟩
      rw [List.filterMap_cons_none rfl, replies_of_tells tells]
    · exact .inr ⟨⟨_, Dict.get?_insert_self _ _ _⟩, rfl⟩
  | @undone c failed =>
    unfold Service.undone
    split
    · exact .finish _ _ _
    · refine .inl ⟨Dict.get?_erase_self _ _, .ok (c.goal.failure failed (c.taken.map Prod.fst)), ?_⟩
      have htold := replies_of_tells (Service.tells_announce s call .rolledBack (c.eventOf failed))
      change (s.announce call .rolledBack (c.eventOf failed) ++ [_]).filterMap Fact.reply? = _
      rw [List.filterMap_append, htold]
      rfl

/-- What comes after a turn answers the call if the turn did not. -/
theorem Turn.Answers.andThen {f : Service → Turn} (h : t.Answers call)
    (gone : t.service.callers.get? call = none → f t.service = t.service.rest)
    (more : (∃ c, t.service.callers.get? call = some c) → (f t.service).Answers call) :
    (t.andThen f).Answers call := by
  rcases h with ⟨hgone, reply, hreply⟩ | ⟨working, hnone⟩
  · refine .inl ⟨?_, reply, ?_⟩
    · rw [Turn.service_andThen, gone hgone]
      exact hgone
    · rw [Turn.facts_andThen, gone hgone, Service.rest, List.append_nil, hreply]
  · have hmore := more working
    simp only [Turn.Answers, Turn.service_andThen, Turn.facts_andThen, List.filterMap_append, hnone,
      List.nil_append]
    exact hmore

/-- A call that is driven is answered if it gets to its end. -/
theorem answers_driveWithin (n : Nat) (working : ∃ c, s.callers.get? call = some c) :
    (Service.driveWithin call n s).Answers call := by
  induction n generalizing s with
  | zero => exact .inr ⟨working, rfl⟩
  | succ n ih =>
    unfold Service.driveWithin
    split
    · exact .inr ⟨working, rfl⟩
    · rename_i t ht
      exact (moved ht).answers.andThen
        (fun gone => Service.driveWithin_of_still (Service.move_of_idle gone) n) ih

theorem answers_submit (idle : s.callers.get? call = none) (request : Request) :
    (s.submit call request).Answers call := by
  cases hseeks : request.seeks? with
  | none =>
    refine .inl ⟨?_, Service.replies_submit hseeks s call⟩
    rw [Service.callers_of_visit hseeks]
    exact idle
  | some sought =>
    obtain ⟨typeName, ids, party⟩ := sought
    rw [Service.submit_of_seeks hseeks]
    unfold Service.engage
    split
    · exact .answer idle _
    · exact .inr ⟨⟨_, Dict.get?_insert_self _ _ _⟩, rfl⟩

/-- A call that completes is answered, once. -/
theorem Service.Completes.reply {request : Request} (h : s.Completes call request)
    (idle : s.callers.get? call = none) :
    ∃ reply, (s.start call request).facts.filterMap Fact.reply? = [(call, reply)] := by
  have hanswers : (s.start call request).Answers call :=
    (answers_submit idle request).andThen (fun gone => Service.drive_of_still
      (Service.move_of_idle gone))
      (answers_driveWithin _)
  rcases hanswers with ⟨-, hreply⟩ | ⟨⟨c, working⟩, -⟩
  · exact hreply
  · cases h.symm.trans working

end

namespace Service

variable {s : Service} {a b : CallId} {ra rb : Request} {ka kb : List Key}

/-- A call that has completed leaves behind nothing but slots. -/
theorem Completes.frame (ends : s.Completes a ra) (names : ra.keys? = some ka)
    (hr : s.registry.Sound)
    (idle : s.callers.get? a = none) : ∃ slots, (s.start a ra).service = { s with slots } := by
  have hconfined := confined_start names hr idle
  have hcallers := hconfined.callers_eq idle ends
  obtain ⟨slots, callers, hframe⟩ := hconfined.frame
  rw [hframe] at hcallers ⊢
  exact ⟨slots, by rw [← hcallers]⟩

theorem Completes.agree (ends : s.Completes a ra) (names : ra.keys? = some ka)
    (hr : s.registry.Sound) (idle : s.callers.get? a = none) (apart : ∀ key ∈ kb, key ∉ ka) :
      s.Agree kb (s.start a ra).service := by
  have hconfined := confined_start names hr idle
  obtain ⟨slots, hframe⟩ := ends.frame names hr idle
  rw [hframe] at hconfined ⊢
  exact ⟨slots, rfl, fun key hkey => hconfined.slots key (apart key hkey)⟩

section

variable (ends : s.Completes a ra) (namesA : ra.keys? = some ka) (namesB : rb.keys? = some kb)
  (hr : s.registry.Sound) (idleA : s.callers.get? a = none) (idleB : s.callers.get? b = none)
  (apart : ∀ key ∈ kb, key ∉ ka)

include ends namesA namesB hr idleA idleB apart

/-- Of two calls that name different resources the second does what it would have done first. -/
theorem Completes.start_after : (s.start b rb).Agree kb ((s.start a ra).service.start b rb) :=
  (ends.agree namesA hr idleA apart).start namesB hr idleB

/-- Two calls that name different resources leave each slot as the one that names it would leave
it. -/
theorem Completes.slots_after (endsB : s.Completes b rb) :
    ∃ slots, ((s.start a ra).service.start b rb).service = { s with slots } ∧
      (∀ key ∈ kb, slots.get? key = (s.start b rb).service.slots.get? key) ∧
      ∀ key, key ∉ kb → slots.get? key = (s.start a ra).service.slots.get? key := by
  have hafter := ends.start_after namesA namesB hr idleA idleB apart
  obtain ⟨slots, hboth, hslots⟩ := hafter.service
  obtain ⟨slotsA, hA⟩ := ends.frame namesA hr idleA
  obtain ⟨slotsB, hB⟩ := endsB.frame namesB hr idleB
  have hconfined :
      (s.start a ra).service.Confined kb b ((s.start a ra).service.start b rb).service :=
    confined_start namesB (by rw [hA]; exact hr) (by rw [hA]; exact idleB)
  refine ⟨slots, by rw [hboth, hB], hslots, fun key hkey => ?_⟩
  rw [← hconfined.slots key hkey, hboth]

end

/-- Two calls that name different resources leave the same behind in either order. -/
theorem Completes.sameTable (endsA : s.Completes a ra) (endsB : s.Completes b rb)
    (namesA : ra.keys? = some ka) (namesB : rb.keys? = some kb) (hr : s.registry.Sound)
    (idleA : s.callers.get? a = none) (idleB : s.callers.get? b = none)
    (apart : ∀ key ∈ ka, key ∉ kb) :
    SameTable ((s.start a ra).service.start b rb).service
      ((s.start b rb).service.start a ra).service := by
  obtain ⟨slotsAB, hAB, hnamedB, hotherB⟩ := endsA.slots_after namesA namesB hr idleA idleB
    (fun key hb ha => apart key ha hb) endsB
  obtain ⟨slotsBA, hBA, hnamedA, hotherA⟩ :=
    endsB.slots_after namesB namesA hr idleB idleA apart endsA
  have hslots (key : Key) : slotsBA.get? key = slotsAB.get? key := by
    by_cases ha : key ∈ ka
    · rw [hnamedA key ha, hotherB key (apart key ha)]
    · by_cases hb : key ∈ kb
      · rw [hotherA key ha, hnamedB key hb]
      · rw [hotherA key ha, hotherB key hb, (confined_start namesA hr idleA).slots key ha,
          (confined_start namesB hr idleB).slots key hb]
  rw [hAB, hBA]
  refine ⟨⟨slotsBA, rfl⟩, hslots, fun key => ?_, Dict.size_eq_of_get?_eq hslots⟩
  unfold slotState
  rw [hslots]

theorem waits?_of_unparked {key : Key} (unparked : s.parkedOn key = []) (x : CallId)
    (ticket : Nat) :
    s.waits? x ≠ some (key, ticket) := by
  intro hwaits
  obtain ⟨c, -, -, -, working, -⟩ := waits?_eq_some.1 hwaits
  have hparked : x ∈ s.parkedOn key := by
    refine List.mem_filter.2 ⟨(Dict.mem_keys_iff _ _).2 ⟨c, working⟩, ?_⟩
    rw [hwaits, Option.map_some, decide_eq_true_eq]
  rw [unparked] at hparked
  exact List.not_mem_nil hparked

/-- A call that is not at work is not set to work by the move of another. -/
theorem idle_of_move {call x : CallId} {t : Turn} (ht : s.move x = some t)
    (idle : s.callers.get? call = none) :
    t.service.callers.get? call = none := by
  have hne : x ≠ call := by
    rintro rfl
    rw [move_of_idle idle] at ht
    cases ht
  cases working : s.callers.get? x with
  | none =>
    rw [move_of_idle working] at ht
    cases ht
  | some c =>
    have hnames : s.Names (c.ids.map c.keyOf) x := by
      intro c' hc' id hid
      cases working.symm.trans hc'
      exact List.mem_map_of_mem hid
    have hothers := ((moved ht).confined hnames).1.others
    rw [← Dict.get?_erase_of_ne _ hne, hothers, Dict.get?_erase_of_ne _ hne, idle]

theorem idle_settleWithin {call : CallId} (n : Nat) (idle : s.callers.get? call = none) :
    (settleWithin n s).service.callers.get? call = none := by
  induction n generalizing s with
  | zero => exact idle
  | succ n ih =>
    unfold settleWithin
    split
    · exact idle
    · rename_i t ht
      obtain ⟨x, hx⟩ := exists_move_of_firstMove ht
      exact ih (idle_of_move hx idle)

/-- What a command does beyond a call that is over is that the others move on. -/
theorem Completes.perform (ends : s.Completes a ra) :
    ∀ command ∈ [Command.call ra, .await ra], s.perform a command =
      (s.start a ra).andThen settle := by
  intro command hcommand
  rcases List.mem_pair.1 hcommand with rfl | rfl
  · rfl
  · have hgone : (s.start a ra).service.settle.service.callers.get? a = none :=
      idle_settleWithin _ ends
    simp only [Service.perform, Turn.andThen, await_of_idle hgone, rest, List.append_nil]

/-- If nobody has a move after a call that is over, a command is over with it. -/
theorem Completes.perform_of_settled (ends : s.Completes a ra)
    (settled : (s.start a ra).service.Settled) :
    ∀ command ∈ [Command.call ra, .await ra], s.perform a command = s.start a ra := by
  intro command hcommand
  rw [ends.perform command hcommand]
  simp only [Turn.andThen, settle_of_settled settled, rest, List.append_nil]

/-- Where nobody has a move and nobody is parked on what a call names, a command is over with its
call. -/
theorem Completes.perform_eq (ends : s.Completes a ra) (names : ra.keys? = some ka)
    (hr : s.registry.Sound) (idle : s.callers.get? a = none) (settled : s.Settled)
    (unparked : ∀ key ∈ ka, s.parkedOn key = []) :
    (s.start a ra).service.Settled ∧ ∀ command ∈ [Command.call ra, .await ra], s.perform a command =
      s.start a ra := by
  have settled' : (s.start a ra).service.Settled := by
    have hconfined := confined_start names hr idle
    obtain ⟨slots, hframe⟩ := ends.frame names hr idle
    rw [hframe] at hconfined ⊢
    refine settled.congr rfl rfl fun x key ticket hwaits => hconfined.slots key fun hkey => ?_
    exact waits?_of_unparked (unparked key hkey) x ticket hwaits
  exact ⟨settled', ends.perform_of_settled settled'⟩

/-- Two such commands are all that happens in a session. -/
theorem inSession_pair (endsA : s.Completes a ra) (endsB : s.Completes b rb)
    (namesA : ra.keys? = some ka)
    (namesB : rb.keys? = some kb) (hr : s.registry.Sound) (idleA : s.callers.get? a = none)
    (idleB : s.callers.get? b = none) (apart : ∀ key ∈ kb, key ∉ ka) (settled : s.Settled)
    (unparkedA : ∀ key ∈ ka, s.parkedOn key = []) (unparkedB : ∀ key ∈ kb, s.parkedOn key = [])
    {ca cb : Command} (hca : ca ∈ [.call ra, .await ra]) (hcb : cb ∈ [.call rb, .await rb]) :
    s.inSession [(a, ca), (b, cb)] = s.startAll [(a, ra), (b, rb)] := by
  obtain ⟨settled', hperformA⟩ := endsA.perform_eq namesA hr idleA settled unparkedA
  have hafter := endsA.start_after namesA namesB hr idleA idleB apart
  obtain ⟨slots, hframe⟩ := endsA.frame namesA hr idleA
  have endsB' : (s.start a ra).service.Completes b rb := by
    rw [Completes, hafter.service.callers_eq]
    exact endsB
  have hperformB : (s.start a ra).service.perform b cb = (s.start a ra).service.start b rb :=
    (endsB'.perform_eq namesB (by rw [hframe]; exact hr) (by rw [hframe]; exact idleB) settled'
      (by rw [hframe]; exact unparkedB)).2 cb hcb
  simp only [inSession, afterSession, session, startAll, hperformA ca hca, hperformB,
    Turn.andThen, rest, List.flatMap_cons, List.flatMap_nil]

end Service

/-- Two calls that lock, unlock or inspect different resources on which nobody is parked, and that
both complete without waiting, have the same results in either order and leave the same slots; what
they do and what they tell is the same but for the order. Neither changes a slot that it does not
name. Where nobody has a move, the commands of a session are over with the calls, so a session may
make them in either order. -/
theorem independent_calls_commute (h : History) {a b : CallId} {ra rb : Request} {ka kb : List Key}
    (namesA : ra.keys? = some ka) (namesB : rb.keys? = some kb) (apart : ∀ key ∈ ka, key ∉ kb)
    (idleA : h.service.callers.get? a = none) (idleB : h.service.callers.get? b = none)
    (unparkedA : ∀ key ∈ ka, h.service.parkedOn key = [])
    (unparkedB : ∀ key ∈ kb, h.service.parkedOn key = [])
    (endsA : h.service.Completes a ra) (endsB : h.service.Completes b rb) :
    Turn.Reordered a b (h.service.startAll [(a, ra), (b, rb)])
      (h.service.startAll [(b, rb), (a, ra)]) ∧
    (∀ key, key ∉ ka → (h.service.start a ra).service.slots.get? key = h.service.slots.get? key) ∧
    (∀ key, key ∉ kb → (h.service.start b rb).service.slots.get? key = h.service.slots.get? key) ∧
    (h.service.Settled → ∀ ca ∈ [Command.call ra, .await ra], ∀ cb ∈ [Command.call rb, .await rb],
      Turn.Reordered a b (h.service.inSession [(a, ca), (b, cb)])
        (h.service.inSession [(b, cb), (a, ca)])) := by
  have hr := h.orderly.registry
  have apart' : ∀ key ∈ kb, key ∉ ka := fun key hb ha => apart key ha hb
  have hreordered : Turn.Reordered a b (h.service.startAll [(a, ra), (b, rb)])
      (h.service.startAll [(b, rb), (a, ra)]) := by
    obtain ⟨x, hx⟩ := endsA.reply idleA
    obtain ⟨y, hy⟩ := endsB.reply idleB
    have hfactsB := (endsA.start_after namesA namesB hr idleA idleB apart').facts
    have hfactsA := (endsB.start_after namesB namesA hr idleB idleA apart).facts
    have hab : (h.service.startAll [(a, ra), (b, rb)]).facts =
        (h.service.start a ra).facts ++ (h.service.start b rb).facts := by
      simp only [Service.startAll, Turn.andThen, Service.rest, List.append_nil, hfactsB]
    have hba : (h.service.startAll [(b, rb), (a, ra)]).facts =
        (h.service.start b rb).facts ++ (h.service.start a ra).facts := by
      simp only [Service.startAll, Turn.andThen, Service.rest, List.append_nil, hfactsA]
    have hperm : (h.service.startAll [(a, ra), (b, rb)]).facts.Perm
        (h.service.startAll [(b, rb), (a, ra)]).facts := by
      rw [hab, hba]
      exact List.perm_append_comm
    refine ⟨⟨x, y, ?_, ?_⟩, ?_, hperm, fun l => hperm.filterMap _⟩
    · rw [hab, List.filterMap_append, hx, hy]
      rfl
    · rw [hba, List.filterMap_append, hx, hy]
      rfl
    · exact endsA.sameTable endsB namesA namesB hr idleA idleB apart
  refine ⟨hreordered, (Service.confined_start namesA hr idleA).slots,
    (Service.confined_start namesB hr idleB).slots, fun settled ca hca cb hcb => ?_⟩
  rw [Service.inSession_pair endsA endsB namesA namesB hr idleA idleB apart' settled unparkedA
    unparkedB hca hcb, Service.inSession_pair endsB endsA namesB namesA hr idleB idleA apart settled
    unparkedB unparkedA hcb hca]
  exact hreordered

/-- One document is held by owner 7 and one by owner 8, who also holds a third for which owner 5
waits; a group holds a page that has the number of the second document. Somebody listens for permits
that are returned. -/
def sideBySide : History where
  start := .withType ⟨"doc", 1, .exclusivePerOwner⟩
  actions := [.submit 1 (.listen "ResourceUnlocked"),
    .submit 2 (.createType ⟨"page", 1, .sharedGroup⟩), .submit 3 (.lockMany "doc" [1] (.owner 7)),
    .move 3, .move 3,
    .submit 4 (.lockMany "doc" [2, 9] (.owner 8)), .move 4, .move 4, .move 4,
    .submit 5 (.lock "doc" 9 (.owner 5)), .move 5,
    .submit 6 (.lock "page" 2 (.group [6])), .move 6, .move 6]
  isNew := Service.new_doc
  numbered := by decide

/-- An unlock of both documents stops midway, an attempt to lock both pages is rolled back; each
comes to the same before and after the other. -/
theorem independent_calls_commute_sideBySide :
    ∃ s ab ba, s = sideBySide.service ∧ s.parkedOn ("doc", 9) = [5] ∧ s.slots.size = 4 ∧
      ab = s.inSession [(7, .await (.unlockMany "doc" [1, 2] (.owner 7))),
        (8, .await (.tryLockMany "page" [1, 2] (.group [4, 3]) 0))] ∧
      ba = s.inSession [(8, .await (.tryLockMany "page" [1, 2] (.group [4, 3]) 0)),
        (7, .await (.unlockMany "doc" [1, 2] (.owner 7)))] ∧
      Turn.Reordered 7 8 ab ba ∧ ab.service.slots.size = 5 ∧
      ab.facts.filterMap Fact.reply? = [(7, .error (.notOwner ("doc", 2) [7])),
        (8, .ok (.flag false))] ∧
      heard 1 ab.facts =
        [(7, .unlocked, ⟨"doc", 1, [7]⟩), (8, .unlocked, ⟨"page", 1, [4, 3]⟩)] ∧
      heard 1 ba.facts =
        [(8, .unlocked, ⟨"page", 1, [4, 3]⟩), (7, .unlocked, ⟨"doc", 1, [7]⟩)] := by
  have settled : sideBySide.service.Settled := Service.firstMove_eq_none_iff.1 rfl
  obtain ⟨-, -, -, hsession⟩ := @independent_calls_commute sideBySide 7 8
    (.unlockMany "doc" [1, 2] (.owner 7)) (.tryLockMany "page" [1, 2] (.group [4, 3]) 0) _ _ rfl rfl
    (by decide) rfl rfl (by decide) (by decide) rfl rfl
  exact ⟨_, _, _, rfl, rfl, rfl, rfl, rfl, hsession settled _ (by simp) _ (by simp), rfl, rfl,
    rfl, rfl⟩

end FairLocks
