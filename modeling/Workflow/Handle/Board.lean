import Workflow.Handle.Cell

/-! Handles used by a host: write sides, read sides, and waiters that are polled. -/
namespace Workflow

/-- Someone who waits for a cell. -/
structure Waiter where
  handle : Handle
  /-- It found the cell pending and asked to be woken. -/
  parked : Bool
  woken : Bool
  finished : Bool

structure Board where
  cells : Array Cell
  /-- The write sides: the handle of each, and whether it is still there. -/
  slots : Array (Handle × Bool)
  /-- The read sides. -/
  controls : Array Handle
  waiters : Array Waiter

namespace Board

def empty : Board := ⟨#[], #[], #[], #[]⟩

def cell (b : Board) (h : Handle) : Cell := b.cells[h.index]?.getD .pending

/-- A fresh cell with one write side and one read side, which have the numbers returned. -/
def new (b : Board) : Board × Nat × Nat :=
  let h : Handle := ⟨b.cells.size⟩
  ({ b with
      cells := b.cells.push .pending
      slots := b.slots.push (h, true)
      controls := b.controls.push h },
    b.slots.size, b.controls.size)

def control? (b : Board) (i : Nat) : Option Handle := b.controls[i]?

/-- One more read side of the same cell. -/
def clone (b : Board) (h : Handle) : Board × Nat :=
  ({ b with controls := b.controls.push h }, b.controls.size)

/-- Whoever is parked at the cell is woken. -/
def wake (h : Handle) (w : Waiter) : Waiter :=
  if w.handle = h ∧ w.parked then { w with woken := true } else w

/-- Uses up a write side: the cell is written, or abandoned if there is no result. Nothing happens
if the write side is gone already. -/
def settle (b : Board) (slot : Nat) (result : Option (Except Fault Json)) : Option Board :=
  match b.slots[slot]? with
  | some (h, true) =>
    some { b with
      slots := b.slots.set! slot (h, false)
      cells := b.cells.modify h.index (result.elim Cell.abandon Cell.fill)
      waiters := b.waiters.map (wake h) }
  | _ => none

/-- A waiter that has not looked at the cell yet. -/
def wait (b : Board) (h : Handle) : Board × Nat :=
  ({ b with waiters := b.waiters.push ⟨h, false, false, false⟩ }, b.waiters.size)

/-- What polling a waiter shows. -/
inductive Poll where
  /-- It had its result before. -/
  | finished
  | looked (woken : Bool) (ready : Option (Except Fault Json))

def poll (b : Board) (i : Nat) : Option (Board × Poll) :=
  match b.waiters[i]? with
  | none => none
  | some w =>
    if w.finished then some (b, .finished)
    else
      let ready := (b.cell w.handle).outcome? w.handle
      let w' := ⟨w.handle, ready.isNone, false, ready.isSome⟩
      some ({ b with waiters := b.waiters.set! i w' }, .looked w.woken ready)

end Board

end Workflow
