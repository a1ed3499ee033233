import Workflow.Proofs.Machine.Commit
import Workflow.Proofs.Machine.Deadlock
import Workflow.Proofs.Machine.Racer
import Workflow.Proofs.Machine.Rest
import Workflow.Proofs.Machine.Solo

/-! Nothing that is launched is ever cancelled.

Where a task is, its own steps alone have led it, whatever has become of the task that launched it
and of the race that it belongs to. So when nothing can proceed any more, everything that was
launched has gone all its way, or waits for what never comes. -/
namespace Workflow

variable {r : Runner}

/-- The programs that an operation launches as tasks of their own. -/
def Operation.launches {P : Type} : Operation P → List P
  | .fork p => [p]
  | .race ps => ps
  | _ => []

/-- What goes on outside of all programs and may never come to an end. -/
def Alarm.IsOutside : Alarm → Prop
  | .external _ | .call _ | .background _ => True
  | .delay | .host .. => False

namespace Task
variable {t : Task} {w : World r} {self : Nat} {e : Effect r} {pending : List Continuation}

end Task

namespace Machine
variable {m m' : Machine r} {a : Happening} {as : List Happening} {i j : Nat} {t u : Task}

/-- The task waits for something that has not come: for a handle that says nothing, for something
outside that never returns, or for a race with a branch that waits so. -/
inductive Waits (m : Machine r) : Nat → Prop
  | handle {j : Nat} {t : Task} {h : Handle} {pending : List Continuation}
    (ht : m.tasks[j]? = some t) (hp : t.phase = .awaiting h pending) (hs : m.status h = .pending) :
    Waits m j
  | outside {j : Nat} {t : Task} {alarm : Alarm} {pending : List Continuation}
    (ht : m.tasks[j]? = some t) (hp : t.phase = .sleeping none alarm pending)
    (ha : alarm.IsOutside) : Waits m j
  | branch {j k : Nat} {t u : Task} {race : Nat} {pending : List Continuation}
    (ht : m.tasks[j]? = some t) (hp : t.phase = .racing race pending) (hu : m.tasks[k]? = some u)
    (hb : u.isBranch race = true) (hw : Waits m k) : Waits m j

/-- A host that never writes its only handle. -/
def silent : Setup := Bench.new.setup .empty [⟨"h", none, none⟩]

end Machine

end Workflow
