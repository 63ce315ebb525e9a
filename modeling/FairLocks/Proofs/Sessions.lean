import FairLocks.Proofs.History
import FairLocks.Service.Progress
import FairLocks.Session

/-!
# Sessions are runs

`settle`, `drive`, `advance` and `await` fix an order in which the callers move and time passes.
Each is a run, and so is each command of a session; hence the turns of a session together are those
of one run.

The order is chosen by what can be seen of a service: which calls are at work, which of them have a
move, and when the next wait may end. Of services that look the same in this, and go on to do so
after every action, a session is one and the same run.
-/
namespace FairLocks

set_option autoImplicit false

/-- The numbers under which the command makes its calls. -/
def Command.numbers (call : CallId) : Command → List CallId
  | .call _ => [call]
  | .await _ => [call]
  | .burst requests => requests.map Prod.fst
  | .sleep _ => []
  | .join _ => []

/-- The requests of the command, each with the number of its call. -/
def Command.requests (call : CallId) : Command → List (CallId × Request)
  | .call request => [(call, request)]
  | .await request => [(call, request)]
  | .burst requests => requests
  | .sleep _ => []
  | .join _ => []

namespace Service

/-- The condition holds of each action of a run, at the service to which it comes. -/
def Each (Q : Service → Action → Prop) (s : Service) : List Action → Prop
  | [] => True
  | a :: as => Q s a ∧ (s.act a).service.Each Q as

/-- The condition holds of each request of a burst. -/
def EachStart (Q : Service → Action → Prop) (s : Service) : List (CallId × Request) → Prop
  | [] => True
  | (call, request) :: l =>
    Q s (.submit call request) ∧ (s.start call request).service.EachStart Q l

/-- The condition holds of each request of a session, at the service to which it comes. -/
def EachRequest (Q : Service → Action → Prop) (s : Service) : List (CallId × Command) → Prop
  | [] => True
  | (call, command) :: l =>
    s.EachStart Q (command.requests call) ∧ (s.perform call command).service.EachRequest Q l

/-- A request after which its call has no move is over with that. -/
theorem start_of_still {s : Service} {call : CallId} {request : Request}
    (still : (s.submit call request).service.move call = none) :
    s.start call request = s.submit call request := by
  simp only [start, Turn.andThen, drive_of_still still, rest, List.append_nil]

/-- Time passes until an instant that may be over already. -/
theorem rest_atInstant (s : Service) (instant : Nat) :
    (s.atInstant instant).rest = s.act (.pass (instant - s.clock)) := by
  have hclock : s.clock + (instant - s.clock) = max s.clock instant := by omega
  rw [act, hclock]
  rfl

/-- One run after the other. -/
def turns (s : Service) : List (List Action) → List Turn
  | [] => []
  | as :: ass => s.run as :: (s.run as).service.turns ass

/-- The service in which a session ends. -/
def afterSession (s : Service) : List (CallId × Command) → Service
  | [] => s
  | (call, command) :: l => (s.perform call command).service.afterSession l

theorem each_append {Q : Service → Action → Prop} {s : Service} {as bs : List Action} :
    s.Each Q (as ++ bs) ↔ s.Each Q as ∧ (s.run as).service.Each Q bs := by
  induction as generalizing s with
  | nil => exact iff_of_eq (true_and _).symm
  | cons a as ih =>
    rw [List.cons_append, Each, Each, ih, and_assoc]
    rfl

end Service

/-- Services that look the same when it comes to choosing the next action, after calls with the
numbers in the list; they go on to do so as long as the actions satisfy a condition, which is one on
requests only. -/
structure Lockstep (P : List CallId → Service → Service → Prop)
    (Q : Service → Action → Prop) : Prop where
  keys : ∀ used s s', P used s s' → s.callers.keys = s'.callers.keys
  work : ∀ used s s', P used s s' → s.work = s'.work
  clock : ∀ used s s', P used s s' → s.clock = s'.clock
  deadline : ∀ used s s', P used s s' → s.nextDeadline? = s'.nextDeadline?
  moves : ∀ used s s', P used s s' → ∀ call, (s.move call).isSome = (s'.move call).isSome
  act : ∀ used s s', P used s s' → ∀ a, (used ++ a.number?.toList).Nodup → Q s a →
    P (used ++ a.number?.toList) (s.act a).service (s'.act a).service
  unasked : ∀ s a, a.number? = none → Q s a

/-- What is done to the service is a run that makes the calls with these numbers, and done to
services that look the same it is the same run. -/
def SameRun (P : List CallId → Service → Service → Prop) (Q : Service → Action → Prop) (s : Service)
    (made : List CallId) (f : Service → Turn) : Prop :=
  ∃ as : List Action, as.filterMap Action.number? = made ∧ f s = s.run as ∧ s.Each Q as ∧
    ∀ used s', P used s s' → (used ++ made).Nodup →
      f s' = s'.run as ∧ P (used ++ made) (s.run as).service (s'.run as).service

theorem findSome?_eq_bind {α β : Type} (f : α → Option β) (l : List α) :
    l.findSome? f = (l.find? fun a => (f a).isSome).bind f := by
  induction l with
  | nil => rfl
  | cons a l ih =>
    rw [List.findSome?_cons, List.find?_cons]
    cases h : f a with
    | none => exact ih
    | some b => exact h.symm

namespace SameRun

variable {P : List CallId → Service → Service → Prop} {Q : Service → Action → Prop} {s : Service}
  {made more : List CallId} {f g : Service → Turn}

theorem rest : SameRun P Q s [] Service.rest :=
  ⟨[], rfl, rfl, trivial, fun used s' h _ => ⟨rfl, by rwa [List.append_nil]⟩⟩

theorem andThen (hf : SameRun P Q s made f) (hg : SameRun P Q (f s).service more g) :
    SameRun P Q s (made ++ more) fun s => (f s).andThen g := by
  obtain ⟨as, rfl, hs, hall, hsame⟩ := hf
  obtain ⟨bs, rfl, ht, hmore, hsame'⟩ := hg
  rw [hs] at ht hmore hsame'
  refine ⟨as ++ bs, List.filterMap_append, ?_, Service.each_append.2 ⟨hall, hmore⟩,
    fun used s' h hused => ?_⟩
  · change (f s).andThen g = _
    rw [hs, Service.run_append, Turn.andThen, Turn.andThen, ht]
  · rw [← List.append_assoc] at hused
    obtain ⟨hs', h'⟩ := hsame used s' h (List.nodup_append.1 hused).1
    obtain ⟨ht', h''⟩ := hsame' _ _ h' hused
    constructor
    · change (f s').andThen g = _
      rw [hs', Service.run_append, Turn.andThen, Turn.andThen, ht']
    · rw [Service.service_run_append, Service.service_run_append, ← List.append_assoc]
      exact h''

/-- Only what is done to services that look the same matters. -/
theorem congr (hf : SameRun P Q s made f) (hs : g s = f s)
    (hs' : ∀ used s', P used s s' → g s' = f s') :
    SameRun P Q s made g := by
  obtain ⟨as, hmade, hrun, hall, hsame⟩ := hf
  refine ⟨as, hmade, hs.trans hrun, hall, fun used s' h hused => ?_⟩
  rw [hs' used s' h]
  exact hsame used s' h hused

end SameRun

namespace Lockstep

variable {P : List CallId → Service → Service → Prop} {Q : Service → Action → Prop}
    (hP : Lockstep P Q)

include hP

theorem sameRun_act {s : Service} {a : Action} (hq : Q s a) :
    SameRun P Q s a.number?.toList fun s => s.act a := by
  refine ⟨[a], by cases a <;> rfl, (s.run_singleton a).symm, ⟨hq, trivial⟩,
    fun used s' h hused => ⟨(s'.run_singleton a).symm, ?_⟩⟩
  rw [Service.run_singleton, Service.run_singleton]
  exact hP.act used s s' h a hused hq

theorem sameRun_move (s : Service) (call : CallId) : SameRun P Q s [] fun s => s.act (.move call) :=
  hP.sameRun_act (hP.unasked s (.move call) rfl)

theorem sameRun_atInstant (s : Service) (instant : Nat) :
    SameRun P Q s [] fun s => (s.atInstant instant).rest := by
  refine (hP.sameRun_act (hP.unasked s (.pass (instant - s.clock)) rfl)).congr
    (s.rest_atInstant instant)
    fun used s' h => ?_
  rw [Service.rest_atInstant, hP.clock used s s' h]

theorem sameRun_settleWithin (n : Nat) (s : Service) :
    SameRun P Q s [] (Service.settleWithin n) := by
  induction n generalizing s with
  | zero => exact .rest
  | succ n ih =>
    -- who moves first is seen alike
    let mover (s : Service) : Option CallId := s.callers.keys.find? fun call => (s.move call).isSome
    have hmover {used : List CallId} {s' : Service} (h : P used s s') : mover s' = mover s := by
      simp only [mover, hP.keys used s s' h, hP.moves used s s' h]
    have hfirst (s : Service) : s.firstMove = (mover s).bind s.move := findSome?_eq_bind _ _
    cases hcall : mover s with
    | none =>
      have hrest {s : Service} (hcall : mover s = none) : s.settleWithin (n + 1) = s.rest := by
        rw [Service.settleWithin, hfirst, hcall]
        rfl
      exact SameRun.rest.congr (hrest hcall) fun used s' h => hrest ((hmover h).trans hcall)
    | some call =>
      have hstep {s : Service} (hcall : mover s = some call) :
          Service.settleWithin (n + 1) s = (s.act (.move call)).andThen
            (Service.settleWithin n) := by
        have hsome := List.find?_some (p := fun call => (s.move call).isSome) hcall
        obtain ⟨t, ht⟩ := Option.isSome_iff_exists.1 hsome
        rw [Service.settleWithin, hfirst, hcall, Option.bind_some, ht, Service.act, ht]
        rfl
      exact ((hP.sameRun_move s call).andThen (ih _)).congr (hstep hcall)
        fun used s' h => hstep ((hmover h).trans hcall)

theorem sameRun_settle (s : Service) : SameRun P Q s [] Service.settle :=
  (hP.sameRun_settleWithin s.work s).congr rfl fun used s' h => by
    rw [Service.settle, hP.work used s s' h]

theorem sameRun_driveWithin (call : CallId) (n : Nat) (s : Service) :
    SameRun P Q s [] (Service.driveWithin call n) := by
  induction n generalizing s with
  | zero => exact .rest
  | succ n ih =>
    cases ht : s.move call with
    | none =>
      have hrest {s : Service} (ht : s.move call = none) : s.driveWithin call (n + 1) = s.rest := by
        rw [Service.driveWithin, ht]
      refine SameRun.rest.congr (hrest ht) fun used s' h => hrest ?_
      rw [← Option.isNone_iff_eq_none, ← Option.not_isSome, ← hP.moves used s s' h, ht]
      rfl
    | some t =>
      have hstep {s : Service} (hsome : (s.move call).isSome = true) :
          s.driveWithin call (n + 1) = (s.act (.move call)).andThen
            (Service.driveWithin call n) := by
        obtain ⟨t, ht⟩ := Option.isSome_iff_exists.1 hsome
        rw [Service.driveWithin, ht, Service.act, ht]
        rfl
      have hsome : (s.move call).isSome = true := by rw [ht]; rfl
      exact ((hP.sameRun_move s call).andThen (ih _)).congr (hstep hsome)
        fun used s' h => hstep ((hP.moves used s s' h call).symm.trans hsome)

theorem sameRun_drive (call : CallId) (s : Service) : SameRun P Q s [] fun s => s.drive call :=
  (hP.sameRun_driveWithin call s.work s).congr rfl fun used s' h => by
    rw [Service.drive, hP.work used s s' h]

/-- The callers settle at an instant. -/
theorem sameRun_settleAt (s : Service) (instant : Nat) :
    SameRun P Q s [] fun s => (s.atInstant instant).settle :=
  (hP.sameRun_atInstant s instant).andThen (g := Service.settle) (hP.sameRun_settle _)

theorem sameRun_advanceWithin (instant n : Nat) (s : Service) :
    SameRun P Q s [] (Service.advanceWithin instant n) := by
  induction n generalizing s with
  | zero => exact hP.sameRun_atInstant s instant
  | succ n ih =>
    have hdeadline {d : Option Nat} (hd : s.nextDeadline? = d) {used : List CallId} {s' : Service}
        (h : P used s s') : s'.nextDeadline? = d := (hP.deadline used s s' h).symm.trans hd
    cases hd : s.nextDeadline? with
    | none =>
      have hlast {s : Service} (hd : s.nextDeadline? = none) :
          s.advanceWithin instant (n + 1) = (s.atInstant instant).rest := by
        rw [Service.advanceWithin, hd]
      exact (hP.sameRun_atInstant s instant).congr (hlast hd) fun used s' h =>
        hlast (hdeadline hd h)
    | some d =>
      by_cases hlate : d ≤ instant
      · have hstep {s : Service} (hd : s.nextDeadline? = some d) : s.advanceWithin instant (n + 1) =
            (s.atInstant d).settle.andThen (Service.advanceWithin instant n) := by
          rw [Service.advanceWithin, hd]
          exact if_pos hlate
        exact ((hP.sameRun_settleAt s d).andThen (ih _)).congr (hstep hd)
          fun used s' h => hstep (hdeadline hd h)
      · have hlast {s : Service} (hd : s.nextDeadline? = some d) :
            s.advanceWithin instant (n + 1) = (s.atInstant instant).rest := by
          rw [Service.advanceWithin, hd]
          exact if_neg hlate
        exact (hP.sameRun_atInstant s instant).congr (hlast hd) fun used s' h =>
          hlast (hdeadline hd h)

theorem sameRun_awaitWithin (call : CallId) (n : Nat) (s : Service) :
    SameRun P Q s [] (Service.awaitWithin call n) := by
  induction n generalizing s with
  | zero => exact .rest
  | succ n ih =>
    have hwait (s : Service) : s.awaitWithin call (n + 1) =
        ((if call ∈ s.callers.keys then s.nextDeadline? else none).map fun d =>
          (s.atInstant d).settle.andThen (Service.awaitWithin call n)).getD s.rest := by
      rw [Service.awaitWithin]
      split
      · cases s.nextDeadline? <;> rfl
      · rfl
    have hseen {used : List CallId} {s' : Service} (h : P used s s') :
        (if call ∈ s'.callers.keys then s'.nextDeadline? else none) =
          if call ∈ s.callers.keys then s.nextDeadline? else none := by
      rw [hP.keys used s s' h, hP.deadline used s s' h]
    cases hd : if call ∈ s.callers.keys then s.nextDeadline? else none with
    | none =>
      refine SameRun.rest.congr (by rw [hwait, hd]; rfl) fun used s' h => ?_
      rw [hwait, hseen h, hd]
      rfl
    | some d =>
      refine ((hP.sameRun_settleAt s d).andThen (ih _)).congr (by rw [hwait, hd]; rfl)
        fun used s' h => ?_
      rw [hwait, hseen h, hd]
      rfl

theorem sameRun_await (call : CallId) (s : Service) : SameRun P Q s [] fun s => s.await call :=
  (hP.sameRun_awaitWithin call s.work s).congr rfl fun used s' h => by
    rw [Service.await, hP.work used s s' h]

theorem sameRun_start {s : Service} {call : CallId} {request : Request}
    (hq : Q s (.submit call request)) :
    SameRun P Q s [call] fun s => s.start call request :=
  (hP.sameRun_act hq).andThen (hP.sameRun_drive call _)

theorem sameRun_startAll {s : Service} {requests : List (CallId × Request)}
    (hall : s.EachStart Q requests) :
    SameRun P Q s (requests.map Prod.fst) fun s => s.startAll requests := by
  induction requests generalizing s with
  | nil => exact .rest
  | cons r requests ih => exact (hP.sameRun_start hall.1).andThen (ih hall.2)

theorem sameRun_perform {s : Service} {call : CallId} {command : Command}
    (hall : s.EachStart Q (command.requests call)) :
    SameRun P Q s (command.numbers call) fun s => s.perform call command := by
  cases command with
  | call request => exact (hP.sameRun_start hall.1).andThen (hP.sameRun_settle _)
  | await request =>
    have hsettled := (hP.sameRun_start hall.1).andThen (hP.sameRun_settle _)
    have hrun := hsettled.andThen (hP.sameRun_await call _)
    rw [List.append_nil, List.append_nil] at hrun
    exact hrun.congr rfl fun _ _ _ => rfl
  | burst requests =>
    have hrun := (hP.sameRun_startAll hall).andThen (hP.sameRun_settle _)
    rwa [List.append_nil] at hrun
  | sleep duration =>
    refine (hP.sameRun_advanceWithin (s.clock + duration) s.work s).congr rfl fun used s' h => ?_
    rw [Service.perform, Service.advance, hP.work used s s' h, hP.clock used s s' h]
  | join other => exact hP.sameRun_await other s

/-- The turns of a session are those of runs, one for each command, and of services that look the
same those of the same runs. -/
theorem turns_session {l : List (CallId × Command)} {s : Service} (hall : s.EachRequest Q l) :
    ∃ ass : List (List Action), ass.flatten.filterMap Action.number? =
      l.flatMap (fun c => c.2.numbers c.1) ∧
      s.session l = s.turns ass ∧ s.afterSession l = (s.run ass.flatten).service ∧
        s.Each Q ass.flatten ∧
      ∀ used s', P used s s' → (used ++ l.flatMap fun c => c.2.numbers c.1).Nodup →
        s'.session l = s'.turns ass := by
  induction l generalizing s with
  | nil => exact ⟨[], rfl, rfl, rfl, trivial, fun _ _ _ _ => rfl⟩
  | cons c l ih =>
    obtain ⟨as, hmade, hrun, heach, hsame⟩ := hP.sameRun_perform hall.1
    have hrest : (s.perform c.1 c.2).service.EachRequest Q l := hall.2
    change s.perform c.1 c.2 = s.run as at hrun
    rw [hrun] at hrest
    obtain ⟨ass, hmore, hturns, hafter, heachMore, hgoesOn⟩ := ih hrest
    refine ⟨as :: ass, ?_, ?_, ?_, ?_, fun used s' h hused => ?_⟩
    · rw [List.flatten_cons, List.filterMap_append, hmade, hmore, List.flatMap_cons]
    · change s.perform c.1 c.2 :: (s.perform c.1 c.2).service.session l = _
      rw [hrun, hturns]
      rfl
    · change (s.perform c.1 c.2).service.afterSession l = _
      rw [hrun, hafter, List.flatten_cons, Service.service_run_append]
    · rw [List.flatten_cons, Service.each_append]
      exact ⟨heach, heachMore⟩
    · rw [List.flatMap_cons, ← List.append_assoc] at hused
      obtain ⟨hrun', h'⟩ := hsame used s' h (List.nodup_append.1 hused).1
      change s'.perform c.1 c.2 = s'.run as at hrun'
      change s'.perform c.1 c.2 :: (s'.perform c.1 c.2).service.session l = _
      rw [hrun', hgoesOn _ _ h' hused]
      rfl

end Lockstep

end FairLocks
