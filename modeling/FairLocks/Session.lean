import FairLocks.Service.Run

/-!
# Sessions

A session is a sequence of commands, each with a number of its own. After each command the callers
move until none can, so between commands every caller waits.
-/
namespace FairLocks

inductive Command where
  /-- The call stays at work in the background if it has to wait. -/
  | call (request : Request)
  /-- The session goes on when the call has been answered. -/
  | await (request : Request)
  /-- Several calls, with no move of another caller in between. -/
  | burst (requests : List (CallId × Request))
  | sleep (duration : Nat)
  /-- Time passes until the numbered call is answered. -/
  | join (call : CallId)

namespace Service

/-- Submits a request and lets its call move until it cannot. -/
def start (s : Service) (call : CallId) (request : Request) : Turn :=
  (s.submit call request).andThen fun s => s.drive call

def startAll (s : Service) : List (CallId × Request) → Turn
  | [] => s.rest
  | (call, request) :: l => (s.start call request).andThen fun s => s.startAll l

def perform (s : Service) (call : CallId) : Command → Turn
  | .call request => (s.start call request).andThen settle
  | .await request => ((s.start call request).andThen settle).andThen fun s => s.await call
  | .burst requests => (s.startAll requests).andThen settle
  | .sleep duration => s.advance duration
  | .join call => s.await call

/-- The turns of a session, one for each command. -/
def session (s : Service) : List (CallId × Command) → List Turn
  | [] => []
  | (call, command) :: l =>
    let t := s.perform call command
    t :: t.service.session l

end Service

end FairLocks
