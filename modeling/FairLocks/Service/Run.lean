import FairLocks.Service.Submit

/-!
# Runs of a service

An `Action` is one thing that can happen next to a service: a request comes in, a call makes a move,
or time passes. A run is any sequence of actions, so it covers every interleaving of the callers.
`settle` is the run in which the callers move until none can; `advance` lets time pass from deadline
to deadline and settles at each.
-/
namespace FairLocks

inductive Action where
  | submit (call : CallId) (request : Request)
  /-- The call makes its next move, if it has one. -/
  | move (call : CallId)
  | pass (duration : Nat)

namespace Service

def act (s : Service) : Action → Turn
  | .submit call request => s.submit call request
  | .move call => (s.move call).getD s.rest
  | .pass d => ⟨{ s with clock := s.clock + d }, []⟩

def run (s : Service) : List Action → Turn
  | [] => s.rest
  | a :: as => (s.act a).andThen fun s => s.run as

/-- No caller has a move. -/
def Settled (s : Service) : Prop := ∀ call ∈ s.callers.keys, s.move call = none

/-- The first move that some caller has, in the order in which the calls began. -/
def firstMove (s : Service) : Option Turn := s.callers.keys.findSome? s.move

/-- Lets callers move, `n` moves at most. -/
def settleWithin : Nat → Service → Turn
  | 0, s => s.rest
  | n + 1, s =>
    match s.firstMove with
    | none => s.rest
    | some t => t.andThen (settleWithin n)

/-- Lets the callers move until none can. Each move leaves less to do, so the work that is left
bounds their number. -/
def settle (s : Service) : Turn := settleWithin s.work s

/-- Lets one call move, `n` moves at most. -/
def driveWithin (call : CallId) : Nat → Service → Turn
  | 0, s => s.rest
  | n + 1, s =>
    match s.move call with
    | none => s.rest
    | some t => t.andThen (driveWithin call n)

/-- Lets one call move until it cannot, while the others stand still. -/
def drive (s : Service) (call : CallId) : Turn := driveWithin call s.work s

/-- The next instant at which a wait may end. -/
def nextDeadline? (s : Service) : Option Nat :=
  (s.callers.entries.filterMap fun e => e.2.deadline?).min?

/-- The clock shows `t`, or what it shows already if that is later. -/
def atInstant (s : Service) (t : Nat) : Service := { s with clock := max s.clock t }

/-- Lets time pass until `t`, settling at each of at most `n` deadlines on the way. -/
def advanceWithin (t : Nat) : Nat → Service → Turn
  | 0, s => (s.atInstant t).rest
  | n + 1, s =>
    match s.nextDeadline? with
    | none => (s.atInstant t).rest
    | some d =>
      if d ≤ t then (s.atInstant d).settle.andThen (advanceWithin t n)
      else (s.atInstant t).rest

/-- Lets time pass. Whoever waits at a deadline moves there, so the work that is left bounds the
number of deadlines on the way. -/
def advance (s : Service) (duration : Nat) : Turn := advanceWithin (s.clock + duration) s.work s

/-- Lets time pass until the call is answered, over at most `n` deadlines. -/
def awaitWithin (call : CallId) : Nat → Service → Turn
  | 0, s => s.rest
  | n + 1, s =>
    if call ∈ s.callers.keys then
      match s.nextDeadline? with
      | none => s.rest
      | some d => (s.atInstant d).settle.andThen (awaitWithin call n)
    else s.rest

/-- Lets time pass until the call is answered, or until nobody waits with a deadline. -/
def await (s : Service) (call : CallId) : Turn := awaitWithin call s.work s

end Service

end FairLocks
