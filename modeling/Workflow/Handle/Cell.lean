import Workflow.Program.Kind

/-! The result cell behind a handle: a place for one result, and a write side
that is used up by the first write. -/
namespace Workflow

structure Cell where
  value : Option (Except Fault Json)
  /-- The write side is still there. -/
  held : Bool

namespace Cell

/-- Nothing was written, and the write side is there. -/
def pending : Cell := ⟨none, true⟩

/-- Puts a result into the cell, whatever was there. -/
def write (result : Except Fault Json) (c : Cell) : Cell := { c with value := some result }

/-- Drops the write side. Waiters that have no result by then get none any more. -/
def abandon (c : Cell) : Cell := { c with held := false }

/-- Uses up the write side for a result: it is dropped right after the write. -/
def fill (result : Except Fault Json) (c : Cell) : Cell := (c.write result).abandon

/-- The result without waiting. -/
def glance (c : Cell) : Option (Except Fault Json) := c.value

def isFilled (c : Cell) : Bool := c.value.isSome

/-- What waiting for the cell behind a handle gives; nothing as long as a result may still come. A
result that is there counts also when the write side is gone. -/
def outcome? (h : Handle) (c : Cell) : Option (Except Fault Json) :=
  match c.value with
  | some r => some r
  | none => if c.held then none else some (.error (.forkAbandoned h.id.text))

/-- The handle as debug texts have it. -/
def debug (h : Handle) (c : Cell) : String :=
  "Control \x7b id: " ++ h.id.text ++ ", filled: " ++ (if c.isFilled then "true" else "false") ++
    " \x7d"

end Cell

end Workflow
