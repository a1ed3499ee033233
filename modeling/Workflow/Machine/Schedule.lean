import Workflow.Machine.Task

/-! A pool of tasks on a paused virtual clock.

Which of the tasks that can step does so next is free. Steps take no time: the clock stands
still while a task can step, moves only when none can, and then jumps to the next time for
which a task sleeps. A clock that runs on beside the steps, so that a timer fires while another
task still works, is not modelled. -/
namespace Workflow

structure Machine (r : Runner) where
  world : World r
  tasks : Array Task

/-- What happens next. -/
inductive Move where
  | step (task : Nat)
  | tick
deriving DecidableEq

namespace Machine
variable {r : Runner}

/-- A task takes its next step. -/
def step? (m : Machine r) (i : Nat) : Option (Machine r) :=
  match m.tasks[i]? with
  | none => none
  | some t =>
    (t.step? m.world i).map fun e =>
      ⟨e.world, e.launched.foldl Array.push (m.tasks.set! i e.task)⟩

/-- The time for which a task sleeps. -/
def dueOf (t : Task) : Option Nat :=
  match t.phase with
  | .sleeping due _ _ => due
  | _ => none

/-- The earliest time to come for which a task sleeps. -/
def nextDue (m : Machine r) : Option Nat :=
  m.tasks.foldl (fun best t =>
    match dueOf t with
    | none => best
    | some due =>
      if due ≤ m.world.now then best
      else some (best.elim due (min due))) none

/-- No task can take a step. -/
def isQuiet (m : Machine r) : Bool :=
  (List.range m.tasks.size).all fun i => (m.step? i).isNone

/-- The clock moves on. -/
def tick? (m : Machine r) : Option (Machine r) :=
  m.nextDue.map fun due => { m with world := { m.world with now := due } }

/-- One move, if it is allowed. -/
def move? (m : Machine r) : Move → Option (Machine r)
  | .step i => m.step? i
  | .tick => if m.isQuiet then m.tick? else none

/-- Adds a task that runs a program on a container. -/
def launch (m : Machine r) (program : Program) (container : Nat) : Machine r × Nat :=
  let span := Span.run r.config.name
  (⟨m.world.emit span .runStarted,
    m.tasks.push ⟨.run, span, container, [], .running (.new program)⟩⟩, m.tasks.size)

/-- How a task has ended. -/
def ending? (m : Machine r) (i : Nat) : Option (Verdict Dyn) :=
  match m.tasks[i]? with
  | some t =>
    match t.phase with
    | .ended v => some v
    | _ => none
  | none => none

/-- The tasks that have not ended and were launched by programs. -/
def unfinished (m : Machine r) : Nat :=
  m.tasks.foldl (fun n t =>
    match t.role with
    | .run | .host => n
    | _ => if t.hasEnded then n else n + 1) 0

/-- The first of some tasks that can take a step, and the machine after it. -/
def firstStep? (m : Machine r) : List Nat → Option (Nat × Machine r)
  | [] => none
  | i :: is =>
    match m.step? i with
    | some m' => some (i, m')
    | none => m.firstStep? is

/-- A task begins by looking at handles. -/
def looksFirst (m : Machine r) (i : Nat) : Bool :=
  match m.tasks[i]? with
  | some t =>
    match t.phase with
    | .running cursor =>
      match cursor.advance with
      | .execute op _ => Program.operationLooks op
      | .finished _ => false
    | _ => false
  | none => false

/-- A machine together with the tasks that have not ended, the one that stepped
last, and those that it launched. -/
structure Agenda (r : Runner) where
  machine : Machine r
  live : List Nat
  last : Nat
  launched : List Nat

/-- The tasks of the machine that have not ended. -/
def agenda (m : Machine r) (last : Nat) : Agenda r :=
  ⟨m, (List.range m.tasks.size).filter fun i => (m.ending? i).isNone, last, []⟩

namespace Agenda

/-- The agenda after task `i` has stepped to the machine `m`. -/
def stepped (a : Agenda r) (i : Nat) (m : Machine r) : Agenda r :=
  let fresh := List.range' a.machine.tasks.size (m.tasks.size - a.machine.tasks.size)
  let live := if (m.ending? i).isSome then a.live.filter (· ≠ i) else a.live
  ⟨m, live ++ fresh, i, fresh⟩

/-- A program sees the handles it looks at first as they are when it is launched. -/
def look? (a : Agenda r) : Option (Agenda r) := do
  let i ← a.launched.find? a.machine.looksFirst
  let m ← a.machine.step? i
  let next := a.stepped i m
  some { next with last := a.last, launched := a.launched ++ next.launched }

/-- The move that the executor makes: first looks go before everything else, then
the task that stepped last goes on as long as it can, then the earliest launched
one that can, and else the clock. -/
def next? (a : Agenda r) : Option (Agenda r) :=
  match a.look? with
  | some a => some a
  | none =>
    match a.machine.firstStep? (a.last :: a.live) with
    | some (i, m) => some (a.stepped i m)
    | none => a.machine.tick?.map fun m => { a with machine := m }

end Agenda

/-- Makes moves until nothing can happen or the condition holds, at most `fuel` of them. -/
def Agenda.run (stop : Machine r → Bool) : (fuel : Nat) → Agenda r → Agenda r
  | 0, a => a
  | fuel + 1, a =>
    if stop a.machine then a
    else
      match a.next? with
      | some a' => run stop fuel a'
      | none => a

/-- Makes moves until nothing can happen or the condition holds, at most `fuel` of them. -/
def runUntil (m : Machine r) (stop : Machine r → Bool) (fuel : Nat) : Machine r :=
  (Agenda.run stop fuel (m.agenda (m.tasks.size - 1))).machine

end Machine

end Workflow
