import Workflow.Service.Ui

/-! Waiting until a scripted user interface has received a number of requests.

A request is first kept and then signalled to whoever waits. A waiter takes a ticket before it looks
at the number of requests, so a signal after its look finds it holding the ticket. -/
namespace Workflow

/-- A scripted user interface with the number of signals it has given. -/
structure SignallingUi where
  ui : ScriptedUi
  signals : Nat

namespace SignallingUi

def count (s : SignallingUi) : Nat := s.ui.requests.size

def push (s : SignallingUi) (request : String) : SignallingUi :=
  { s with ui := s.ui.record request }

/-- Signals to everyone who holds a ticket. -/
def signal (s : SignallingUi) : SignallingUi := { s with signals := s.signals + 1 }

/-- The answer to a request that was kept before. -/
def reply (s : SignallingUi) : SignallingUi × Except Fault String :=
  let (ui, reply) := s.ui.next
  ({ s with ui }, reply)

end SignallingUi

/-- Where a waiter stands. A ticket is the number of signals at the time it was taken. -/
inductive UiWaiter where
  | idle
  /-- It holds a ticket and has not looked yet. -/
  | holding (ticket : Nat)
  /-- It has looked in vain and waits for a signal after its ticket. -/
  | parked (ticket : Nat)
  | returned
deriving DecidableEq

namespace UiWaiter

/-- The next step of a waiter for `count` requests; a parked waiter has none before the signal. -/
def step? (s : SignallingUi) (count : Nat) : UiWaiter → Option UiWaiter
  | .idle => some (.holding s.signals)
  | .holding ticket => some (if count ≤ s.count then .returned else .parked ticket)
  | .parked ticket => if ticket < s.signals then some .idle else none
  | .returned => none

/-- A parked waiter has been signalled. -/
def isSignalled (s : SignallingUi) : UiWaiter → Bool
  | .parked ticket => ticket < s.signals
  | _ => false

/-- Steps until the waiter parks or returns. -/
def poll (s : SignallingUi) (count : Nat) (w : UiWaiter) : UiWaiter :=
  let step (w : UiWaiter) : UiWaiter := (w.step? s count).getD w
  match w with
  | .idle => step (step w)
  | .holding _ => step w
  | .parked ticket => if ticket < s.signals then step (step (step w)) else w
  | .returned => w

end UiWaiter

end Workflow
