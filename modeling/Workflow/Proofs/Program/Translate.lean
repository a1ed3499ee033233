import Mathlib.Logic.Equiv.Defs
import Workflow.Proofs.Program.Scope

/-! Programs in another language of values and operations.

A translation renames the values that travel between operations and continuations, and puts
operations in the place of others. It goes through a whole program, so the translated
program walks as the program does. -/
namespace Workflow

structure Translation where
  value : Equiv.Perm Dyn
  operation : Operation Program → Operation Program

namespace Translation
variable (τ : Translation)

mutual

def program : Program → Program
  | .done v => .done (τ.value v)
  | .throw e => .throw e
  | .step op => .step (τ.operation (inside op))
  | .bind p k => .bind (program p) fun v => program (k (τ.value.symm v))

/-- The operation with its programs translated. -/
def inside : Operation Program → Operation Program
  | .fork p => .fork (program p)
  | .race ps => .race (programs ps)
  | .recover p => .recover (program p)
  | op => op

def programs : List Program → List Program
  | [] => []
  | p :: ps => program p :: programs ps

end

theorem programs_eq_map (ps : List Program) : τ.programs ps = ps.map τ.program := by
  induction ps with
  | nil => rfl
  | cons p ps ih => rw [programs, ih, List.map_cons]

def continuation (k : Continuation) : Continuation := fun v => τ.program (k (τ.value.symm v))

def stack (pending : List Continuation) : List Continuation := pending.map τ.continuation

def result (result : Except Fault Dyn) : Except Fault Dyn := result.map τ.value

def advance : Advance → Advance
  | .finished result => .finished (τ.result result)
  | .execute op pending => .execute (τ.operation (τ.inside op)) (τ.stack pending)

def cursor (c : Cursor) : Cursor := ⟨τ.program c.current, τ.stack c.pending⟩

theorem continuation_apply (k : Continuation) (v : Dyn) :
    τ.continuation k (τ.value v) = τ.program (k v) := by
  rw [continuation, Equiv.symm_apply_apply]

theorem cursor_new (p : Program) : τ.cursor (.new p) = .new (τ.program p) := rfl

theorem cursor_resume (pending : List Continuation) (result : Except Fault Dyn) :
    τ.cursor (.resume pending result) = .resume (τ.stack pending) (τ.result result) := by
  cases result with
  | ok v => simp only [Cursor.resume, cursor, program, result, Except.map]
  | error e => simp only [Cursor.resume, cursor, program, stack, List.map_nil, result, Except.map]

/-- A translated cursor comes to rest where the cursor does. -/
theorem advance_cursor (c : Cursor) : (τ.cursor c).advance = τ.advance c.advance := by
  obtain ⟨p, pending⟩ := c
  induction p, pending using Cursor.induction with
  | finished v => simp [cursor, program, stack, advance, result, Except.map]
  | resumed v k pending ih =>
    rw [Cursor.advance_done_cons, ← ih, cursor, cursor, program, stack, List.map_cons,
      Cursor.advance_done_cons, continuation_apply]
    rfl
  | failed e pending => simp [cursor, program, advance, result, Except.map]
  | operation op pending _ => simp [cursor, program, advance]
  | attached p k pending ih =>
    rw [Cursor.advance_bind, ← ih, cursor, program, Cursor.advance_bind]
    rfl

end Translation

end Workflow
