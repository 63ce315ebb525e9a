import FairLocks.Proofs.Sessions
import FairLocks.Proofs.Undisturbed

/-!
# Time passes while everybody waits

Moves take no time: in a session time passes only where nobody has a move, and it stops at the next
instant at which a wait may end, so that whoever waited until then moves before it goes on. A run is
timely if time passes in it in this way, whatever the order in which the callers move. Every command
of a session that begins where everybody waits is a timely run, and ends where everybody waits;
hence every session is a timely history.
-/
namespace FairLocks

set_option autoImplicit false

namespace Service

variable {s : Service} {call : CallId} {c : Caller}

/-- Time passes only where nobody has a move, and not beyond the next instant at which a wait may
end. -/
def Timely (s : Service) : Action → Prop
  | .submit _ _ => True
  | .move _ => True
  | .pass d => s.Settled ∧ ∀ next, s.nextDeadline? = some next → s.clock + d ≤ next

instance (s : Service) : Decidable s.Settled :=
  inferInstanceAs (Decidable (∀ call ∈ s.callers.keys, s.move call = none))

instance (s : Service) (a : Action) : Decidable (s.Timely a) :=
  match a with
  | .submit _ _ => inferInstanceAs (Decidable True)
  | .move _ => inferInstanceAs (Decidable True)
  | .pass d =>
    inferInstanceAs (Decidable (s.Settled ∧ ∀ next ∈ s.nextDeadline?, s.clock + d ≤ next))

instance decidableEach (Q : Service → Action → Prop) [∀ s a, Decidable (Q s a)] :
    ∀ (s : Service) (as : List Action), Decidable (s.Each Q as)
  | _, [] => inferInstanceAs (Decidable True)
  | s, a :: as => @instDecidableAnd _ _ _ (decidableEach Q (s.act a).service as)

/-- No wait ends before the next instant at which one may end. -/
theorem exists_nextDeadline_le {d : Nat} (working : s.callers.get? call = some c)
    (hd : c.deadline? = some d) :
    ∃ next, s.nextDeadline? = some next ∧ next ≤ d := by
  have hmem : d ∈ s.callers.entries.filterMap fun e => e.2.deadline? :=
    List.mem_filterMap.2 ⟨(call, c), Dict.mem_entries_of_get? working, hd⟩
  unfold nextDeadline?
  cases hmin : (s.callers.entries.filterMap fun e => e.2.deadline?).min? with
  | none =>
    rw [List.min?_eq_none_iff] at hmin
    rw [hmin] at hmem
    cases hmem
  | some next => exact ⟨next, rfl, (List.min?_eq_some_iff.1 hmin).2 d hmem⟩

theorem exists_deadline_of_next {next : Nat} (h : s.nextDeadline? = some next) :
    ∃ call c, s.callers.get? call = some c ∧ c.deadline? = some next := by
  obtain ⟨e, he, hd⟩ := List.mem_filterMap.1 (List.min?_eq_some_iff.1 h).1
  exact ⟨e.1, e.2, Dict.get?_of_mem he, hd⟩

theorem work_settleWithin_le (n : Nat) (s : Service) :
    (settleWithin n s).service.work ≤ s.work := by
  induction n generalizing s with
  | zero => exact Nat.le_refl _
  | succ n ih =>
    unfold settleWithin
    split
    · exact Nat.le_refl _
    · rename_i t ht
      obtain ⟨call, hcall⟩ := exists_move_of_firstMove ht
      exact (ih t.service).trans (Nat.le_of_lt (work_lt_of_move hcall))

/-- Where somebody has a move, less is left to do after all have moved. -/
theorem work_settle_lt (h : ¬ s.Settled) : s.settle.service.work < s.work := by
  unfold settle
  cases hwork : s.work with
  | zero => exact absurd (settled_settleWithin (Nat.le_of_eq hwork)) h
  | succ n =>
    unfold settleWithin
    split
    · rename_i hnone
      exact absurd (firstMove_eq_none_iff.1 hnone) h
    · rename_i t ht
      obtain ⟨call, hcall⟩ := exists_move_of_firstMove ht
      rw [← hwork]
      exact Nat.lt_of_le_of_lt (work_settleWithin_le n t.service) (work_lt_of_move hcall)

end Service

namespace Orderly

variable {past : List Fact} {s : Service}

/-- Who is at work and has no move waits, and there is the slot that it waits for. -/
theorem waits_of_still (ho : Orderly past s) {call : CallId} {c : Caller}
    (still : s.move call = none)
    (working : s.callers.get? call = some c) : ∃ id ticket budget deadline slot,
      c.stage = .waiting id ticket budget deadline ∧ s.slots.get? (c.keyOf id) = some slot := by
  obtain ⟨id, ticket, budget, deadline, stage⟩ := Service.waiting_of_still still working
  obtain ⟨slot, found, -⟩ := ho.exists_slot_of_waits (Service.waits?_eq_some.2
    ⟨c, id, budget, deadline, working, stage, rfl⟩)
  exact ⟨id, ticket, budget, deadline, slot, stage, found⟩

/-- Who has no move has a deadline that is still to come, if it has one. -/
theorem clock_lt_deadline (ho : Orderly past s) {call : CallId} {c : Caller}
    (still : s.move call = none)
    (working : s.callers.get? call = some c) {d : Nat} (hd : c.deadline? = some d) :
      s.clock < d := by
  obtain ⟨id, ticket, budget, deadline, slot, stage, found⟩ := ho.waits_of_still still working
  exact Service.clock_lt_deadline still working stage found hd

/-- Where nobody has a move, the next deadline is still to come. -/
theorem clock_lt_next (ho : Orderly past s) (settled : s.Settled) {next : Nat}
    (h : s.nextDeadline? = some next) : s.clock < next := by
  obtain ⟨call, c, working, hd⟩ := Service.exists_deadline_of_next h
  exact ho.clock_lt_deadline (Service.move_of_settled settled call) working hd

/-- Where nobody has a move, nobody has one later on, before the next deadline. -/
theorem settled_atInstant (ho : Orderly past s) (settled : s.Settled) {instant : Nat}
    (early : ∀ next, s.nextDeadline? = some next → instant < next) :
      (s.atInstant instant).Settled := by
  intro call hcall
  obtain ⟨c, working⟩ : ∃ c, s.callers.get? call = some c := (Dict.mem_keys_iff _ _).1 hcall
  have still : s.move call = none := settled call hcall
  obtain ⟨id, ticket, budget, deadline, slot, stage, found⟩ := ho.waits_of_still still working
  obtain ⟨waits, hcoming⟩ := (Service.still_iff_of_waiting working stage found).1 still
  refine (Service.still_iff_of_waiting (s := s.atInstant instant) working stage found).2
    ⟨waits, fun d hd => ?_⟩
  obtain ⟨next, hnext, hle⟩ :=
    Service.exists_nextDeadline_le working (by rw [Caller.deadline?, stage]; exact hd)
  exact Nat.max_lt.2 ⟨hcoming d hd, Nat.lt_of_lt_of_le (early next hnext) hle⟩

theorem atInstant (ho : Orderly past s) (instant : Nat) : Orderly past (s.atInstant instant) := by
  have hstart : Leads (fun _ => True) past s past s := .refl
  have hpass := ho.leads (hstart.pass (instant - s.clock))
  have hclock : s.clock + (instant - s.clock) = max s.clock instant := by omega
  rwa [hclock] at hpass

/-- At the next deadline somebody has a move. -/
theorem not_settled_at_next (ho : Orderly past s) {next : Nat} (h : s.nextDeadline? = some next) :
    ¬ (s.atInstant next).Settled := by
  intro settled
  have hlt := (ho.atInstant next).clock_lt_next settled h
  exact absurd hlt (Nat.not_lt.2 (Nat.le_max_right _ _))

end Orderly

/-- The request that the action makes, with the number of its call. -/
def Action.request? : Action → Option (CallId × Request)
  | submit call request => some (call, request)
  | move _ => none
  | pass _ => none

theorem map_request? (as : List Action) :
    (as.filterMap Action.request?).map Prod.fst = as.filterMap Action.number? := by
  rw [List.map_filterMap]
  congr 1
  funext a
  cases a <;> rfl

theorem Command.map_requests (call : CallId) (command : Command) :
    (command.requests call).map Prod.fst = command.numbers call := by
  cases command <;> rfl

/-- The turn is that of a timely run in which these requests are made. -/
def TimelyRun (s : Service) (made : List (CallId × Request)) (t : Turn) : Prop :=
  ∃ as : List Action, as.filterMap Action.request? = made ∧ t = s.run as ∧ s.Each Service.Timely as

namespace TimelyRun

variable {past : List Fact} {s : Service} {made more : List (CallId × Request)} {t : Turn}
    {f : Service → Turn}

theorem rest (s : Service) : TimelyRun s [] s.rest := ⟨[], rfl, rfl, trivial⟩

theorem act {a : Action} (h : s.Timely a) : TimelyRun s a.request?.toList (s.act a) :=
  ⟨[a], by cases a <;> rfl, (s.run_singleton a).symm, h, trivial⟩

theorem andThen (ht : TimelyRun s made t) (hf : TimelyRun t.service more (f t.service)) :
    TimelyRun s (made ++ more) (t.andThen f) := by
  obtain ⟨as, rfl, rfl, htimely⟩ := ht
  obtain ⟨bs, rfl, hbs, hmore⟩ := hf
  refine ⟨as ++ bs, List.filterMap_append, ?_, Service.each_append.2 ⟨htimely, hmore⟩⟩
  rw [Service.run_append, Turn.andThen, Turn.andThen, hbs]

theorem move {call : CallId} (h : s.move call = some t) : TimelyRun s [] t := by
  have hact : TimelyRun s [] (s.act (.move call)) := act (a := .move call) trivial
  rwa [Service.act_move h] at hact

/-- A timely run whose calls are new ends in good order, and other calls that are new stay so. -/
theorem orderly (h : TimelyRun s made t) (ho : Orderly past s) (hn : (made.map Prod.fst).Nodup)
    (hu : ∀ x ∈ made.map Prod.fst, Unused past s x) : Orderly (past ++ t.facts) t.service ∧
      ∀ x, Unused past s x → x ∉ made.map Prod.fst → Unused (past ++ t.facts) t.service x := by
  obtain ⟨as, rfl, rfl, -⟩ := h
  rw [map_request?] at hn hu ⊢
  obtain ⟨hleads, hunused⟩ := ho.leads_run hn hu
  exact ⟨ho.leads hleads, hunused⟩

/-- A timely run in which no request is made ends in good order. -/
theorem orderly_unasked (h : TimelyRun s [] t) (ho : Orderly past s) :
    Orderly (past ++ t.facts) t.service :=
  (h.orderly ho List.nodup_nil fun _ hx => absurd hx List.not_mem_nil).1

theorem settleWithin (n : Nat) (s : Service) : TimelyRun s [] (Service.settleWithin n s) := by
  induction n generalizing s with
  | zero => exact rest s
  | succ n ih =>
    unfold Service.settleWithin
    split
    · exact rest s
    · rename_i t ht
      obtain ⟨call, hcall⟩ := Service.exists_move_of_firstMove ht
      exact (move hcall).andThen (ih t.service)

theorem settle (s : Service) : TimelyRun s [] s.settle := settleWithin s.work s

theorem driveWithin (call : CallId) (n : Nat) (s : Service) :
    TimelyRun s [] (Service.driveWithin call n s) := by
  induction n generalizing s with
  | zero => exact rest s
  | succ n ih =>
    unfold Service.driveWithin
    split
    · exact rest s
    · rename_i t ht
      exact (move ht).andThen (ih t.service)

theorem start (s : Service) (call : CallId) (request : Request) :
    TimelyRun s [(call, request)] (s.start call request) := by
  have hsubmit : TimelyRun s [(call, request)] (s.submit call request) :=
    act (a := .submit call request) trivial
  exact hsubmit.andThen (f := fun s => s.drive call) (driveWithin call _ _)

theorem startAll (s : Service) (requests : List (CallId × Request)) :
    TimelyRun s requests (s.startAll requests) := by
  induction requests generalizing s with
  | nil => exact rest s
  | cons r requests ih => exact (start s r.1 r.2).andThen (ih _)

section

variable (ho : Orderly past s) (settled : s.Settled)

include ho settled

/-- Time passes up to an instant that no deadline comes before. -/
theorem atInstant {instant : Nat} (early : ∀ next, s.nextDeadline? = some next → instant ≤ next) :
    TimelyRun s [] (s.atInstant instant).rest := by
  rw [Service.rest_atInstant]
  refine act (a := .pass (instant - s.clock)) ⟨settled, fun next hnext => ?_⟩
  have hlt := ho.clock_lt_next settled hnext
  have hle := early next hnext
  omega

/-- Time passes up to the next deadline, and all move there. -/
theorem settleAt {next : Nat} (hnext : s.nextDeadline? = some next) :
    TimelyRun s [] (s.atInstant next).settle := by
  refine (atInstant ho settled fun d hd => ?_).andThen (f := Service.settle) (settle _)
  cases hnext.symm.trans hd
  exact Nat.le_refl _

/-- While time passes up to an instant before the next deadline, all go on waiting. -/
theorem before {instant : Nat} (early : ∀ next, s.nextDeadline? = some next → instant < next) :
    TimelyRun s [] (s.atInstant instant).rest ∧ (s.atInstant instant).rest.service.Settled :=
  ⟨atInstant ho settled fun next hnext => Nat.le_of_lt (early next hnext),
    ho.settled_atInstant settled early⟩

/-- Where time passes up to an instant, all wait afterwards. The work that is left bounds the number
of deadlines on the way. -/
theorem advanceWithin {instant n : Nat} (hn : s.work ≤ n) :
    TimelyRun s [] (Service.advanceWithin instant n s) ∧
      (Service.advanceWithin instant n s).service.Settled := by
  induction n generalizing past s with
  | zero =>
    -- nobody is at work, so nobody waits
    refine before ho settled fun next hnext => ?_
    obtain ⟨call, c, working, -⟩ := Service.exists_deadline_of_next hnext
    have hpos := Service.work_pos_of_working working
    omega
  | succ n ih =>
    unfold Service.advanceWithin
    cases hnext : s.nextDeadline? with
    | none => exact before ho settled fun next h => by cases hnext.symm.trans h
    | some next =>
      by_cases hle : next ≤ instant
      · simp only [hle, if_true]
        have hsettle := settleAt ho settled hnext
        have hless : (s.atInstant next).settle.service.work < s.work :=
          Service.work_settle_lt (ho.not_settled_at_next hnext)
        obtain ⟨hrun, hsettled⟩ := ih (hsettle.orderly_unasked ho) (Service.settled_settle _)
          (by omega)
        exact ⟨hsettle.andThen hrun, hsettled⟩
      · simp only [hle, if_false]
        refine before ho settled fun d hd => ?_
        cases hnext.symm.trans hd
        omega

theorem awaitWithin (call : CallId) (n : Nat) :
    TimelyRun s [] (Service.awaitWithin call n s) ∧
      (Service.awaitWithin call n s).service.Settled := by
  induction n generalizing past s with
  | zero => exact ⟨rest s, settled⟩
  | succ n ih =>
    unfold Service.awaitWithin
    split
    · split
      · exact ⟨rest s, settled⟩
      · rename_i next hnext
        have hsettle := settleAt ho settled hnext
        obtain ⟨hrun, hsettled⟩ := ih (hsettle.orderly_unasked ho) (Service.settled_settle _)
        exact ⟨hsettle.andThen hrun, hsettled⟩
    · exact ⟨rest s, settled⟩

theorem await (call : CallId) : TimelyRun s [] (s.await call) ∧ (s.await call).service.Settled :=
  awaitWithin ho settled call s.work

/-- A command is a timely run, after which all wait. -/
theorem perform {call : CallId} {command : Command} (hn : (command.numbers call).Nodup)
    (hu : ∀ x ∈ command.numbers call, Unused past s x) :
    TimelyRun s (command.requests call) (s.perform call command) ∧
      (s.perform call command).service.Settled := by
  cases command with
  | call request => exact ⟨(start s call request).andThen (settle _), Service.settled_settle _⟩
  | await request =>
    have hstart : TimelyRun s [(call, request)] ((s.start call request).andThen Service.settle) :=
      (start s call request).andThen (settle _)
    obtain ⟨hawait, hsettled⟩ := await (hstart.orderly ho hn hu).1 (Service.settled_settle _) call
    refine ⟨hstart.andThen (f := fun s => s.await call) hawait, ?_⟩
    rw [Service.perform, Turn.service_andThen]
    exact hsettled
  | burst requests =>
    have hall := (startAll s requests).andThen (settle _)
    rw [List.append_nil] at hall
    exact ⟨hall, Service.settled_settle _⟩
  | sleep duration => exact advanceWithin ho settled (Nat.le_refl _)
  | join other => exact await ho settled other

/-- A session is a timely run, after which all wait. -/
theorem session {l : List (CallId × Command)} (hn : (l.flatMap fun c => c.2.numbers c.1).Nodup)
    (hu : ∀ x ∈ l.flatMap fun c => c.2.numbers c.1, Unused past s x) :
    ∃ t, TimelyRun s (l.flatMap fun c => c.2.requests c.1) t ∧
      t.facts = (s.session l).flatMap Turn.facts ∧
      t.service = s.afterSession l ∧ t.service.Settled := by
  induction l generalizing past s with
  | nil => exact ⟨s.rest, rest s, rfl, rfl, settled⟩
  | cons c l ih =>
    rw [List.flatMap_cons] at hn hu
    obtain ⟨hfirst, hmore, hdisjoint⟩ := List.nodup_append.1 hn
    obtain ⟨hrun, hsettled⟩ := perform ho settled hfirst fun x hx =>
      hu x (List.mem_append_left _ hx)
    have hmade := hrun.orderly ho
    rw [c.2.map_requests] at hmade
    obtain ⟨horderly, hunused⟩ := hmade hfirst fun x hx => hu x (List.mem_append_left _ hx)
    obtain ⟨t, ht, hfacts, hservice, hend⟩ := ih horderly hsettled hmore fun x hx =>
      hunused x (hu x (List.mem_append_right _ hx)) fun hx' => hdisjoint x hx' x hx rfl
    refine ⟨(s.perform c.1 c.2).andThen fun _ => t, hrun.andThen ht, ?_, hservice, hend⟩
    rw [Turn.facts_andThen, hfacts]
    rfl

end

end TimelyRun

/-- Time passes only where nobody has a move, and not beyond the end of a wait. -/
def History.Timely (h : History) : Prop := h.start.Each Service.Timely h.actions

instance (h : History) : Decidable h.Timely :=
  inferInstanceAs (Decidable (h.start.Each Service.Timely h.actions))

/-- A history that is cut short is timely if the whole is. -/
theorem History.Timely.upTo {h : History} (timely : h.Timely) {before after : List Action}
    (ha : h.actions = before ++ after) : (h.upTo ha).Timely := by
  rw [Timely, ha] at timely
  exact (Service.each_append.1 timely).1

/-- A session in a new service, each of its calls with a number of its own, is a timely history. -/
theorem exists_timely_history {s : Service} (isNew : s.New) {l : List (CallId × Command)}
    (numbered : (l.flatMap fun c => c.2.numbers c.1).Nodup) :
    ∃ h : History, h.start = s ∧ h.actions.filterMap Action.request? =
      (l.flatMap fun c => c.2.requests c.1) ∧
      h.service = s.afterSession l ∧ h.facts = (s.session l).flatMap Turn.facts ∧ h.Timely ∧
      h.service.Settled := by
  obtain ⟨ho, hunused⟩ := isNew.orderly
  have settled : s.Settled := by
    intro call _
    exact Service.move_of_idle (hunused call).idle
  obtain ⟨t, ⟨as, hmade, rfl, htimely⟩, hfacts, hservice, hend⟩ :=
    TimelyRun.session ho settled numbered fun x _ => hunused x
  have hnumbers : as.filterMap Action.number? = l.flatMap fun c => c.2.numbers c.1 := by
    rw [← map_request?, hmade, List.map_flatMap]
    simp only [Command.map_requests]
  exact ⟨⟨s, as, isNew, hnumbers ▸ numbered⟩, rfl, hmade, hservice, hfacts, htimely, hend⟩

end FairLocks
