import Workflow.Program.Basic

/-! A cursor walks a program with an explicit stack of pending continuations. -/
namespace Workflow

/-- Where a walk through a program comes to rest. -/
inductive Rest where
  | value (value : Dyn)
  | fault (fault : Fault)
  /-- An operation has to be executed; its result goes to the first of the continuations. -/
  | execute (operation : Operation Program) (pending : List Continuation)

/-- Walks a program; `pending` waits behind it. Continuations of the program itself are applied as
soon as their value is known. -/
def Program.walk : Program → (pending : List Continuation) → Rest
  | .done v, _ => .value v
  | .throw e, _ => .fault e
  | .step op, pending => .execute op pending
  | .bind p k, pending =>
    match p.walk (k :: pending) with
    | .value v => (k v).walk pending
    | .fault e => .fault e
    | .execute op rest => .execute op rest

/-- What a cursor needs next. -/
inductive Advance where
  | finished (result : Except Fault Dyn)
  | execute (operation : Operation Program) (pending : List Continuation)

structure Cursor where
  current : Program
  pending : List Continuation

namespace Cursor

def new (p : Program) : Cursor := ⟨p, []⟩

/-- Walks until an operation has to be executed or nothing is pending any more. A failure drops
everything that is pending. -/
def advanceFrom (p : Program) : (pending : List Continuation) → Advance
  | [] =>
    match p.walk [] with
    | .value v => .finished (.ok v)
    | .fault e => .finished (.error e)
    | .execute op rest => .execute op rest
  | k :: pending =>
    match p.walk (k :: pending) with
    | .value v => advanceFrom (k v) pending
    | .fault e => .finished (.error e)
    | .execute op rest => .execute op rest

def advance (c : Cursor) : Advance := advanceFrom c.current c.pending

/-- The cursor after the operation it asked for has ended. -/
def resume (pending : List Continuation) : Except Fault Dyn → Cursor
  | .ok v => ⟨.done v, pending⟩
  | .error e => ⟨.throw e, []⟩

end Cursor

end Workflow
