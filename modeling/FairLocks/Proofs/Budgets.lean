import FairLocks.Proofs.Fifo
import FairLocks.Proofs.Timely

/-!
# How long a timed call for several resources waits

A call that shares one budget turns its deadline into what is left of it when it comes to a
resource, and that into a deadline again. A call that has a budget for each member starts anew each
time. When it comes to a resource is up to the others, who unlock what it waits for. While time
passes only where everybody waits, there is an instant by which the call is done with its first `n`
resources: it came to each by the instant set for those before, and waits for it no longer than its
budget.
-/
namespace FairLocks

set_option autoImplicit false

theorem Instant.le_of_after? {t d instant : Nat} (h : after? t d = some instant) : t ≤ instant := by
  obtain ⟨-, rfl⟩ := after?_eq_some.1 h
  exact Nat.le_add_right _ _

namespace GroupTimeout

variable {spending : GroupTimeout} {began now timeout n k : Nat} {detailed : Bool}

/-- The instant by which a call that began at `began` is done with its first `n` resources. -/
def limit (began timeout n : Nat) : GroupTimeout → Nat
  | perMember => began + n * timeout
  | sharedBudget => began + timeout

theorem limit_mono (h : n ≤ k) :
    spending.limit began timeout n ≤ spending.limit began timeout k := by
  cases spending with
  | perMember => exact Nat.add_le_add_left (Nat.mul_le_mul_right timeout h) began
  | sharedBudget => exact Nat.le_refl _

theorem began_le_limit : began ≤ spending.limit began timeout n := by
  cases spending <;> exact Nat.le_add_right _ _

end GroupTimeout

namespace Goal

variable {spending : GroupTimeout} {began now timeout n k : Nat} {detailed : Bool}

/-- The deadline of a wait that starts `now`, in a call that began at `began`. -/
def deadline? (goal : Goal) (began now : Nat) : Option Nat :=
  (goal.budget began now).bind (Instant.after? now)

/-- What is left of a shared budget, counted from now on, ends where the budget ends. -/
theorem deadline?_sharedBudget (shown : began + timeout < Instant.horizon)
    (intime : now ≤ began + timeout) :
    (allOrNone timeout .sharedBudget detailed).deadline? began now = some (began + timeout) := by
  have hleft : now + (began + timeout - now) = began + timeout := by omega
  simp only [deadline?, budget, Instant.after?, Option.bind_some, hleft, shown, if_true]

/-- A budget that ends beyond what the clock can show never ends. -/
theorem deadline?_eq_none (hidden : Instant.horizon ≤ began + timeout) (later : began ≤ now) :
    (allOrNone timeout spending detailed).deadline? began now = none := by
  have hend : Instant.after? began timeout = none := if_neg (Nat.not_lt.2 hidden)
  have hwait : Instant.after? now timeout = none := if_neg (by omega)
  cases spending with
  | perMember => exact hwait
  | sharedBudget =>
    simp only [deadline?, budget, hend]
    exact hwait

/-- A wait that starts in time ends in time. -/
theorem deadline?_le_limit (detailed : Bool) (hn : n < k)
    (shown : spending.limit began timeout k < Instant.horizon)
    (intime : now ≤ spending.limit began timeout n) :
    ∃ deadline, (allOrNone timeout spending detailed).deadline? began now = some deadline ∧
      deadline ≤ spending.limit began timeout (n + 1) := by
  cases spending with
  | perMember =>
    have hnext : now + timeout ≤ began + (n + 1) * timeout := by
      rw [Nat.succ_mul, ← Nat.add_assoc]
      exact Nat.add_le_add_right intime timeout
    have hlast : began + (n + 1) * timeout ≤ began + k * timeout :=
      Nat.add_le_add_left (Nat.mul_le_mul_right timeout hn) began
    refine ⟨now + timeout, if_pos ?_, hnext⟩
    exact Nat.lt_of_le_of_lt (hnext.trans hlast) shown
  | sharedBudget => exact ⟨began + timeout, deadline?_sharedBudget shown intime, Nat.le_refl _⟩

end Goal

namespace Caller

variable {c : Caller} {now : Nat}

/-- It is not later than when the caller is to be done with `n` of its resources, if the clock can
show when it is to be done with all. -/
def Within (c : Caller) (n now : Nat) : Prop :=
  ∀ timeout spending detailed, c.goal = .allOrNone timeout spending detailed →
    spending.limit c.began timeout c.itinerary.length < Instant.horizon →
    now ≤ spending.limit c.began timeout n

/-- The caller has come to its next resource in time, and has not waited beyond its deadline. -/
inductive OnTime (c : Caller) (now : Nat) : Prop
  | next (stage : c.stage = .next) (later : c.began ≤ now) (within : c.Within c.taken.length now)
  | waiting {id : ResourceId} {ticket since : Nat} {budget deadline : Option Nat}
      (stage : c.stage = .waiting id ticket budget deadline) (later : c.began ≤ since)
      (until_now : since ≤ now)
      (within : c.Within c.taken.length since) (hbudget : budget = c.goal.budget c.began since)
      (hdeadline : deadline = budget.bind (Instant.after? since))
      (early : ∀ d, deadline = some d → now ≤ d)
  | undoing {failed : ResourceId} {left : List (ResourceId × Nat)} {error : Option LockError}
      (stage : c.stage = .undoing failed left error) (within : c.Within (c.taken.length + 1) now)

theorem Within.mono {n k : Nat} (h : c.Within n now) (hn : n ≤ k) : c.Within k now :=
  fun timeout spending detailed hgoal shown =>
    (h timeout spending detailed hgoal shown).trans (GroupTimeout.limit_mono hn)

theorem taken_lt (h : c.stage ≠ .next) : c.taken.length < c.itinerary.length := by
  cases hstage : c.stage with
  | next => exact absurd hstage h
  | waiting | undoing => simp [itinerary, here, hstage]

theorem taken_le (c : Caller) : c.taken.length ≤ c.itinerary.length := by
  simp [itinerary]

namespace OnTime

section

variable {id : ResourceId} {ticket timeout : Nat} {budget deadline : Option Nat}
    {spending : GroupTimeout}
  {detailed : Bool}

/-- Where a wait started, with what budget and which deadline. -/
theorem since (h : c.OnTime now) (stage : c.stage = .waiting id ticket budget deadline) :
    ∃ since, c.began ≤ since ∧ since ≤ now ∧ c.Within c.taken.length since ∧
      budget = c.goal.budget c.began since ∧
      deadline = c.goal.deadline? c.began since ∧ ∀ d, deadline = some d → now ≤ d := by
  cases h with
  | next stage' | undoing stage' => cases stage.symm.trans stage'
  | waiting stage' later until_now within hbudget hdeadline early =>
    cases stage.symm.trans stage'
    subst hbudget
    exact ⟨_, later, until_now, within, rfl, hdeadline, early⟩

/-- The deadline of a wait comes when the call is to be done with the resource, or before. -/
theorem exists_deadline (h : c.OnTime now) (stage : c.stage = .waiting id ticket budget deadline)
    (hgoal : c.goal = .allOrNone timeout spending detailed)
    (shown : spending.limit c.began timeout c.itinerary.length < Instant.horizon) :
    ∃ d, deadline = some d ∧ now ≤ d ∧ d ≤ spending.limit c.began timeout (c.taken.length + 1) := by
  obtain ⟨since, -, -, within, -, hdeadline, early⟩ := h.since stage
  have hless : c.taken.length < c.itinerary.length :=
    taken_lt (by rw [stage]; exact Stage.noConfusion)
  obtain ⟨d, hd, hle⟩ := Goal.deadline?_le_limit detailed hless shown
    (within timeout spending detailed hgoal shown)
  rw [hgoal, hd] at hdeadline
  exact ⟨d, hdeadline, early d hdeadline, hle⟩

theorem deadline_of_shared (h : c.OnTime now) (stage : c.stage = .waiting id ticket budget deadline)
    (hgoal : c.goal = .allOrNone timeout .sharedBudget detailed)
    (shown : c.began + timeout < Instant.horizon) :
    deadline = some (c.began + timeout) := by
  obtain ⟨since, -, -, within, -, hdeadline, -⟩ := h.since stage
  rw [hdeadline, hgoal]
  exact Goal.deadline?_sharedBudget shown (within timeout .sharedBudget detailed hgoal shown)

theorem deadline_of_hidden (h : c.OnTime now) (stage : c.stage = .waiting id ticket budget deadline)
    (hgoal : c.goal = .allOrNone timeout spending detailed)
    (hidden : Instant.horizon ≤ c.began + timeout) :
    deadline = none := by
  obtain ⟨since, later, -, -, -, hdeadline, -⟩ := h.since stage
  rw [hdeadline, hgoal]
  exact Goal.deadline?_eq_none hidden later

end

/-- A call at work is not late with the resource that it has come to. -/
theorem within_next (h : c.OnTime now) : c.Within (c.taken.length + 1) now := by
  intro timeout spending detailed hgoal shown
  cases hstage : c.stage with
  | waiting =>
    obtain ⟨d, -, hnow, hle⟩ := h.exists_deadline hstage hgoal shown
    exact hnow.trans hle
  | next | undoing =>
    cases h with
    | next _ _ within => exact (within.mono (Nat.le_succ _)) timeout spending detailed hgoal shown
    | undoing _ within => exact within timeout spending detailed hgoal shown
    | waiting stage => cases hstage.symm.trans stage

/-- A call at work is not late. -/
theorem within_all (h : c.OnTime now) : c.Within c.itinerary.length now := by
  by_cases hstage : c.stage = .next
  · cases h with
    | next _ _ within => exact within.mono c.taken_le
    | waiting stage | undoing stage => cases hstage.symm.trans stage
  · exact h.within_next.mono (taken_lt hstage)

/-- Time passes up to the deadline of a wait. -/
theorem pass (h : c.OnTime now) {d : Nat} (waits : ∃ id ticket budget deadline,
    c.stage = .waiting id ticket budget deadline) (early : ∀ t, c.deadline? = some t →
      now + d ≤ t) :
    c.OnTime (now + d) := by
  obtain ⟨_, _, _, _, hstage⟩ := waits
  cases h with
  | next stage | undoing stage => cases hstage.symm.trans stage
  | waiting stage later until_now within hbudget hdeadline _ =>
    refine .waiting stage later (by omega) within hbudget hdeadline fun t ht => early t ?_
    rw [Caller.deadline?, stage]
    exact ht

end OnTime

end Caller

/-- A move leaves its caller on time. -/
theorem Moved.onTime {s : Service} {call : CallId} {t : Turn} (h : Moved s call t)
    (on : ∀ c, s.callers.get? call = some c → c.OnTime s.clock) {c' : Caller}
    (working' : t.service.callers.get? call = some c') : c'.OnTime s.clock := by
  cases h with
  | succeeds => cases (Dict.get?_erase_self _ _).symm.trans working'
  | @enters c id rest working stage next =>
    obtain ⟨later, within⟩ : c.began ≤ s.clock ∧ c.Within c.taken.length s.clock := by
      cases on c working with
      | next _ later within => exact ⟨later, within⟩
      | waiting stage' | undoing stage' => cases stage.symm.trans stage'
    simp only [Service.enter] at working'
    split at working'
    · cases (Dict.get?_insert_self _ _ _).symm.trans working'
      have hserved := within.mono (Nat.le_succ _)
      exact .next rfl later
        (by simpa [Caller.Within, Caller.itinerary, Caller.here, stage, next] using hserved)
    · cases (Dict.get?_insert_self _ _ _).symm.trans working'
      refine .waiting rfl later (Nat.le_refl _) ?_ rfl rfl fun d hd => ?_
      · simpa [Caller.Within, Caller.itinerary, Caller.here, stage, next] using within
      · obtain ⟨budget, -, hd⟩ := Option.bind_eq_some_iff.1 hd
        exact Instant.le_of_after? hd
  | @takes c id _ _ _ _ working stage =>
    have hserved := (on c working).within_next
    cases (Dict.get?_insert_self _ _ _).symm.trans working'
    refine .next
      rfl ?_ (by simpa [Caller.Within, Caller.itinerary, Caller.here, stage] using hserved)
    cases on c working with
    | waiting _ later until_now => exact later.trans until_now
    | next _ later => exact later
    | undoing stage' => cases stage.symm.trans stage'
  | @givesUp c id _ _ _ _ working stage =>
    have hlate := (on c working).within_next
    simp only [Service.giveUp] at working'
    split at working'
    · cases (Dict.get?_insert_self _ _ _).symm.trans working'
      exact .undoing rfl
        (by simpa [Caller.Within, Caller.itinerary, Caller.here, stage] using hlate)
    · cases (Dict.get?_erase_self _ _).symm.trans working'
  | dozes => exact on c' working'
  | @undoes c failed member left error working stage =>
    have hlate := (on c working).within_next
    have hundoing (error : Option LockError) :
        { c with stage := .undoing failed left error }.OnTime s.clock :=
      .undoing rfl (by simpa [Caller.Within, Caller.itinerary, Caller.here, stage] using hlate)
    simp only [Service.undo] at working'
    split at working' <;>
      · cases (Dict.get?_insert_self _ _ _).symm.trans working'
        exact hundoing _
  | undone =>
    unfold Service.undone at working'
    split at working' <;> cases (Dict.get?_erase_self _ _).symm.trans working'

namespace Service

variable {s : Service}

/-- No caller is late. -/
def OnTime (s : Service) : Prop := ∀ call c, s.callers.get? call = some c → c.OnTime s.clock

/-- Whoever begins does so now. -/
theorem begins_submit {call x : CallId} {request : Request} {c : Caller}
    (working : (s.submit call request).service.callers.get? x = some c) :
    s.callers.get? x = some c ∨ c.stage = .next ∧ c.began = s.clock := by
  cases hseeks : request.seeks? with
  | none =>
    rw [callers_of_visit hseeks] at working
    exact .inl working
  | some sought =>
    rw [submit_of_seeks hseeks, engage] at working
    split at working
    · exact .inl working
    · rw [Dict.get?_insert] at working
      split at working
      · cases working
        exact .inr ⟨rfl, rfl⟩
      · exact .inl working

/-- An action leaves all callers on time, if time passes only where everybody waits. -/
theorem OnTime.act (on : s.OnTime) {a : Action} (timely : s.Timely a) :
    (s.act a).service.OnTime := by
  intro x c working
  cases a with
  | submit call request =>
    have hclock := s.clock_submit call request
    rw [Service.act] at working ⊢
    rw [hclock]
    rcases begins_submit working with hbefore | ⟨hstage, hbegan⟩
    · exact on x c hbefore
    · refine .next hstage (Nat.le_of_eq hbegan) fun _ _ _ _ _ => ?_
      rw [← hbegan]
      exact GroupTimeout.began_le_limit
  | move call =>
    cases ht : s.move call with
    | none =>
      rw [Service.act, ht] at working ⊢
      exact on x c working
    | some t =>
      rw [act_move ht] at working ⊢
      obtain ⟨_, _, hframe⟩ := (moved ht).frame
      have hclock : t.service.clock = s.clock := by rw [hframe]
      rw [hclock]
      by_cases hx : call = x
      · subst hx
        exact (moved ht).onTime (on call) working
      · refine on x c ?_
        rcases (moved ht).callers with hsame | hgone | ⟨c', hnew, -⟩
        · rwa [hsame] at working
        · rwa [hgone, Dict.get?_erase_of_ne _ hx] at working
        · rwa [hnew, Dict.get?_insert_of_ne _ _ hx] at working
  | pass d =>
    obtain ⟨settled, hnext⟩ := timely
    have still := move_of_settled settled x
    refine (on x c working).pass (waiting_of_still still working) fun t ht => ?_
    obtain ⟨next, hn, hle⟩ := exists_nextDeadline_le working ht
    exact (hnext next hn).trans hle

theorem OnTime.run (on : s.OnTime) {as : List Action}
    (timely : s.Each Timely as) : (s.run as).service.OnTime := by
  induction as generalizing s with
  | nil => exact on
  | cons a as ih => exact ih (on.act timely.1) timely.2

end Service

/-- In a timely history no caller is late. -/
theorem History.Timely.onTime {h : History} (timely : h.Timely) : h.service.OnTime := by
  have hnew : h.start.OnTime := by
    intro x c working
    cases working.symm.trans (h.isNew.orderly.2 x).idle
  exact hnew.run timely

/-- Whoever comes to a resource of which a permit is free, and for which nobody waits, takes it,
whatever is left of its budget. -/
theorem Orderly.takes_free {past : List Fact} {s : Service} (ho : Orderly past s) {call : CallId}
    {c : Caller} {id : ResourceId} {rest : List ResourceId} (working : s.callers.get? call = some c)
    (stage : c.stage = .next) (next : c.rest = id :: rest) (free : ¬ s.Blocked (c.keyOf id)) :
    ∃ t ticket serial, s.move call = some t ∧
      t.service.callers.get? call =
        some { c with rest, taken := c.taken ++ [(id, serial)], stage := .next } ∧
      ⟨call, .granted (c.keyOf id) ticket ⟨serial, c.party.owners, call⟩ c.party
        (c.goal.budget c.began s.clock)⟩ ∈
        t.facts := by
  have permits : 0 < c.type.capacity := ho.permits call c working
  have hmove : s.move call = some (s.enter call { c with rest } id) := by
    simp only [Service.move, working, stage, next]
  have hserves : (s.slotOf c id).enqueue.2.Serves (s.slotOf c id).enqueue.1 :=
    (Slot.serves_enqueue_iff (Service.slotOf_sound ho.ledger.sound permits)).2
      (Service.slotOf_open permits free)
  have hfound : (s.slotFor call c.type id).1 = s.slotOf c id := s.slotFor_fst call c id
  refine ⟨_, (s.slotOf c id).enqueue.1, (s.slotOf c id).enqueue.2.nextSerial, hmove, ?_, ?_⟩
  · simp only [Service.enter, hfound, hserves, if_true]
    exact Dict.get?_insert_self _ _ _
  · simp only [Service.enter, hfound, hserves, if_true]
    exact List.mem_append_right _ (List.mem_cons_of_mem _ List.mem_cons_self)

/-- The instant has not passed, and it is still to come if everybody waits. -/
def Service.NotPast (s : Service) (instant : Nat) : Prop :=
  s.clock ≤ instant ∧ (s.Settled → s.clock < instant)

namespace History.Timely

variable {h : History} {call : CallId} {c : Caller} {timeout : Nat} {spending : GroupTimeout}
    {detailed : Bool}

/-- While somebody waits, the end of the wait has not passed. -/
theorem notPast_deadline (timely : h.Timely) (working : h.service.callers.get? call = some c)
    {d : Nat}
    (hd : c.deadline? = some d) : h.service.NotPast d := by
  refine ⟨?_, fun settled => h.orderly.clock_lt_deadline (Service.move_of_settled settled call)
    working hd⟩
  cases hstage : c.stage with
  | next | undoing =>
    rw [Caller.deadline?, hstage] at hd
    cases hd
  | waiting =>
    rw [Caller.deadline?, hstage] at hd
    obtain ⟨_, -, -, -, -, -, early⟩ := (timely.onTime call c working).since hstage
    exact early d hd

/-- While a call is at work, the instant by which it is to be done has not passed. -/
theorem notPast_limit (timely : h.Timely) (working : h.service.callers.get? call = some c)
    (hgoal : c.goal = .allOrNone timeout spending detailed)
    (shown : spending.limit c.began timeout c.itinerary.length < Instant.horizon) :
    h.service.NotPast (spending.limit c.began timeout c.itinerary.length) := by
  have on := timely.onTime call c working
  refine ⟨on.within_all timeout spending detailed hgoal shown, fun settled => ?_⟩
  have still := Service.move_of_settled settled call
  obtain ⟨id, ticket, budget, deadline, stage⟩ := Service.waiting_of_still still working
  obtain ⟨d, hd, -, hle⟩ := on.exists_deadline stage hgoal shown
  have hless := h.orderly.clock_lt_deadline still working
    (by rw [Caller.deadline?, stage]; exact hd)
  have hlast : c.taken.length + 1 ≤ c.itinerary.length :=
    Caller.taken_lt (by rw [stage]; exact Stage.noConfusion)
  exact Nat.lt_of_lt_of_le hless (hle.trans (GroupTimeout.limit_mono hlast))

/-- A call with a budget for each member waits for one no longer than the timeout, from when it
queues. -/
theorem member_wait (timely : h.Timely) {before after : List Action} {request : Request}
    (ha : h.actions = before ++ .submit call request :: after)
    (working : h.service.callers.get? call = some c)
    (hgoal : c.goal = .allOrNone timeout .perMember detailed) {id : ResourceId} {ticket : Nat}
    {budget deadline : Option Nat} (stage : c.stage = .waiting id ticket budget deadline) :
    ∃ earlier arrival later ahead, .submit call request :: after = earlier ++ arrival :: later ∧
      let s := (h.start.run before).service
      let since := (s.run earlier).service
      s.clock ≤ since.clock ∧ since.clock ≤ h.service.clock ∧
      ⟨call, .queued (c.keyOf id) ticket ahead true⟩ ∈ (since.act arrival).facts ∧
      (since.clock + timeout < Instant.horizon →
        deadline = some (since.clock + timeout) ∧ h.service.NotPast (since.clock + timeout)) := by
  have hidle : (h.start.run before).service.callers.get? call = none := (History.unused ha).idle
  have hservice :
      h.service = ((h.start.run before).service.run (.submit call request :: after)).service := by
    rw [History.service, ha, Service.service_run_append]
  have hworking := working
  rw [hservice] at hworking
  obtain ⟨earlier, arrival, later, ahead, hsplit, hqueued, hbudget, hdeadline⟩ :=
    Service.exists_arrival hidle hworking stage
  rw [hgoal] at hbudget
  refine ⟨earlier, arrival, later, ahead, hsplit, Service.clock_le_run _ _, ?_, hqueued,
    fun shown => ?_⟩
  · rw [hservice, hsplit, Service.service_run_append]
    exact Service.clock_le_run _ _
  · rw [hbudget] at hdeadline
    have hlast :
        deadline = some (((h.start.run before).service.run earlier).service.clock + timeout) :=
      hdeadline.trans (if_pos shown)
    exact ⟨hlast, timely.notPast_deadline working (by rw [Caller.deadline?, stage, hlast])⟩

end History.Timely

/-- Every session is a timely history, at each of its moments. In a timely history a call that
shares one budget waits for each resource until the instant at which the budget ends, and is at work
no longer; a call with a budget for each member waits for each no longer than the timeout, counted
from when it queues, and is at work no longer than that for each of its resources; and a call whose
timeout ends beyond what the clock can show waits without a deadline. In any history, timely or not,
whoever comes to a resource of which a permit is free, and for which nobody waits, takes it,
whatever is left of its budget. -/
theorem timeout_budgets :
    (∀ (s : Service) (l : List (CallId × Command)), s.New →
      (l.flatMap fun c => c.2.numbers c.1).Nodup →
      ∃ h : History, h.start = s ∧ h.actions.filterMap Action.request? =
        (l.flatMap fun c => c.2.requests c.1) ∧
        h.service = s.afterSession l ∧ h.facts = (s.session l).flatMap Turn.facts ∧
          h.service.Settled ∧ h.Timely ∧
        ∀ before after (ha : h.actions = before ++ after), (h.upTo ha).Timely) ∧
    (∀ (h : History) before after call request typeName ids party timeout c, h.Timely →
      h.actions = before ++ .submit call request :: after →
        request.seeks? = some (typeName, ids, party) →
      request.manyTimeout? = some timeout → h.service.callers.get? call = some c →
      let s := (h.start.run before).service
      (s.groupTimeout = .sharedBudget → s.clock + timeout < Instant.horizon →
        h.service.NotPast (s.clock + timeout) ∧
        ∀ id ticket budget deadline, c.stage = .waiting id ticket budget deadline →
          deadline = some (s.clock + timeout)) ∧
      (s.groupTimeout = .perMember →
        (s.clock + (distinct ids).length * timeout < Instant.horizon →
          h.service.NotPast (s.clock + (distinct ids).length * timeout)) ∧
        ∀ id ticket budget deadline, c.stage = .waiting id ticket budget deadline →
          ∃ earlier arrival later ahead,
            .submit call request :: after = earlier ++ arrival :: later ∧
            let since := (s.run earlier).service
            s.clock ≤ since.clock ∧ since.clock ≤ h.service.clock ∧
            ⟨call, .queued (c.keyOf id) ticket ahead true⟩ ∈ (since.act arrival).facts ∧
            (since.clock + timeout < Instant.horizon →
              deadline = some (since.clock + timeout) ∧
              h.service.NotPast (since.clock + timeout))) ∧
      (Instant.horizon ≤ s.clock + timeout →
        ∀ id ticket budget deadline, c.stage = .waiting id ticket budget deadline →
        deadline = none)) ∧
    ∀ (h : History) call c id rest, h.service.callers.get? call = some c → c.stage = .next →
      c.rest = id :: rest →
      ¬ h.service.Blocked (c.keyOf id) →
      ∃ t ticket serial, h.service.move call = some t ∧
        t.service.callers.get? call =
          some { c with rest, taken := c.taken ++ [(id, serial)], stage := .next } ∧
        ⟨call, .granted (c.keyOf id) ticket ⟨serial, c.party.owners, call⟩ c.party
          (c.goal.budget c.began h.service.clock)⟩ ∈ t.facts := by
  refine ⟨fun s l isNew numbered => ?_, ?_, fun h call c id rest working stage next free =>
    h.orderly.takes_free working stage next free⟩
  · obtain ⟨h, hstart, hmade, hservice, hfacts, timely, settled⟩ :=
      exists_timely_history isNew numbered
    exact ⟨h, hstart, hmade, hservice, hfacts, settled, timely, fun _ _ ha => timely.upTo ha⟩
  · intro h before after call request typeName ids party timeout c timely ha hseeks
      htimeout working s
    obtain ⟨-, -, hgoal, hbegan, hway⟩ := History.keeps_request ha hseeks working
    obtain ⟨detailed, haim⟩ := Request.aim_of_manyTimeout htimeout s.groupTimeout
    rw [haim] at hgoal
    have on : c.OnTime h.service.clock := timely.onTime call c working
    refine ⟨fun shared shown => ?_, fun perMember => ⟨fun shown => ?_,
      fun id ticket budget deadline stage => ?_⟩, fun hidden id ticket budget deadline stage => ?_⟩
    · rw [shared] at hgoal
      rw [← hbegan] at shown ⊢
      exact ⟨timely.notPast_limit working hgoal shown, fun id ticket budget deadline stage =>
        on.deadline_of_shared stage hgoal shown⟩
    · rw [perMember] at hgoal
      rw [← hbegan, ← hway] at shown ⊢
      exact timely.notPast_limit working hgoal shown
    · rw [perMember] at hgoal
      exact timely.member_wait ha working hgoal stage
    · rw [← hbegan] at hidden
      exact on.deadline_of_hidden stage hgoal hidden

/-- Of three documents that a call wants within the timeout, another call holds the first and the
third. At the instant 5 it unlocks the first, and the call takes that one and the second, and comes
to the third. -/
def lastMinute (spending : GroupTimeout) (timeout : Nat) : History where
  start := (Service.withType ⟨"doc", 1, .exclusivePerOwner⟩).withGroupTimeout spending
  actions := [.submit 1 (.lockMany "doc" [1, 3] (.owner 9)), .move 1, .move 1, .move 1,
    .submit 2 (.tryLockMany "doc" [1, 2, 3, 1] (.owner 7) timeout), .move 2, .pass 5,
    .submit 3 (.unlock "doc" 1 (.owner 9)), .move 2, .move 2, .move 2]
  isNew := ⟨0, ⟨spending, [⟨"doc", 1, .exclusivePerOwner⟩]⟩, rfl⟩
  numbered := show [1, 2, 3].Nodup by decide

/-- With a budget of 5 for all, nothing of it is left when the call comes to the second document; it
takes it nevertheless, and waits for the third until 5. With a budget of 5 for each, it waits for
the third until 10. -/
theorem timeout_budgets_lastMinute :
    (∃ h : History, h.service = (Service.withType ⟨"doc", 1, .exclusivePerOwner⟩).afterSession
        [(1, .call (.lock "doc" 1 (.owner 9))), (2, .call (.tryLockMany "doc" [1, 2] (.owner 7) 5)),
          (3, .sleep 4)] ∧
      h.Timely ∧ h.service.callers.keys = [2]) ∧
    (∃ c, (lastMinute .sharedBudget 5).service.callers.get? 2 = some c ∧ c.deadline? = some 5 ∧
      (lastMinute .sharedBudget 5).service.NotPast 5) ∧
    (∃ c, (lastMinute .perMember 5).service.callers.get? 2 = some c ∧ c.deadline? = some 10 ∧
      (lastMinute .perMember 5).service.NotPast 10 ∧ (lastMinute .perMember 5).service.NotPast 15) ∧
    (∃ c, (lastMinute .sharedBudget Instant.horizon).service.callers.get? 2 = some c ∧
      c.deadline? = none) ∧
    ∃ t ticket serial, ((lastMinute .sharedBudget 5).upTo
        (List.take_append_drop 9 (lastMinute .sharedBudget 5).actions).symm).service.move 2 =
          some t ∧
      ⟨2, .granted ("doc", 2) ticket ⟨serial, OwnerSet.ofList [7], 2⟩ (.owner 7) (some 0)⟩ ∈
        t.facts := by
  obtain ⟨hsession, hwaits, htakes⟩ := timeout_budgets
  have hrequest (spending : GroupTimeout) (timeout : Nat) (c : Caller)
    (timely : (lastMinute spending timeout).Timely)
      (working : (lastMinute spending timeout).service.callers.get? 2 = some c) :=
    hwaits (lastMinute spending timeout) ((lastMinute spending timeout).actions.take 4)
      ((lastMinute spending timeout).actions.drop 5) 2
      (.tryLockMany "doc" [1, 2, 3, 1] (.owner 7) timeout) "doc"
      [1, 2, 3, 1] (.owner 7) timeout c timely rfl rfl rfl working
  refine ⟨?_, ?_, ?_, ?_, ?_⟩
  · obtain ⟨h, -, -, hservice, -, -, timely, -⟩ :=
      hsession (Service.withType ⟨"doc", 1, .exclusivePerOwner⟩)
      [(1, .call (.lock "doc" 1 (.owner 9))), (2, .call (.tryLockMany "doc" [1, 2] (.owner 7) 5)),
        (3, .sleep 4)]
      Service.new_doc (by decide)
    exact ⟨h, hservice, timely, by rw [hservice]; rfl⟩
  · obtain ⟨c, working, stage⟩ : ∃ c, (lastMinute .sharedBudget 5).service.callers.get? 2 = some c ∧
        c.stage = .waiting 3 1 (some 0) (some 5) := ⟨_, rfl, rfl⟩
    obtain ⟨hnow, -⟩ := (hrequest .sharedBudget 5 c (by decide) working).1 rfl (by decide)
    exact ⟨c, working, by rw [Caller.deadline?, stage], hnow⟩
  · obtain ⟨c, working, stage⟩ : ∃ c, (lastMinute .perMember 5).service.callers.get? 2 = some c ∧
        c.stage = .waiting 3 1 (some 5) (some 10) := ⟨_, rfl, rfl⟩
    obtain ⟨hall, hmember⟩ := (hrequest .perMember 5 c (by decide) working).2.1 rfl
    obtain ⟨earlier, -, -, -, -, -, hnow, -, hend⟩ := hmember 3 1 (some 5) (some 10) stage
    have hclock : (lastMinute .perMember 5).service.clock = 5 := rfl
    have hshown : 10 < Instant.horizon := by decide
    obtain ⟨hdeadline, hnotPast⟩ := hend (by omega)
    rw [← Option.some.inj hdeadline] at hnotPast
    exact ⟨c, working, by rw [Caller.deadline?, stage], hnotPast, hall (by decide)⟩
  · obtain ⟨c, id, ticket, budget, deadline, working, stage⟩ : ∃ c id ticket budget deadline,
        (lastMinute .sharedBudget Instant.horizon).service.callers.get? 2 = some c ∧
          c.stage = .waiting id ticket budget deadline := ⟨_, _, _, _, _, rfl, rfl⟩
    obtain ⟨-, -, hhidden⟩ := hrequest .sharedBudget Instant.horizon c (by decide) working
    have hnone := hhidden (Nat.le_add_left _ _) id ticket budget deadline stage
    exact ⟨c, working, by rw [Caller.deadline?, stage]; exact hnone⟩
  · obtain ⟨t, ticket, serial, hmove, -, hgranted⟩ := htakes ((lastMinute .sharedBudget 5).upTo
      (List.take_append_drop 9 (lastMinute .sharedBudget 5).actions).symm) 2 _ 2 [3] rfl rfl
      rfl (by decide)
    exact ⟨t, ticket, serial, hmove, hgranted⟩

end FairLocks
