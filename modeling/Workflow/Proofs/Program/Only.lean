import Workflow.Proofs.Program.Scope

/-! Programs over a part of the operations.

Which operations a program dispatches depends on the results it gets. `Only` says of a
program that all of them are allowed ones, whatever the results are, also those inside
boundaries and in programs that it launches. -/
namespace Workflow

/-- The program dispatches allowed operations and no others. -/
inductive Program.Only (allowed : Operation Program → Prop) : Program → Prop
  | done {v : Dyn} : Only allowed (.done v)
  | throw {e : Fault} : Only allowed (.throw e)
  | step {op : Operation Program} (ho : allowed op) (hp : ∀ p ∈ op.programs, Only allowed p) :
    Only allowed (.step op)
  | bind {p : Program} {k : Continuation} (hp : Only allowed p) (hk : ∀ v, Only allowed (k v)) :
    Only allowed (.bind p k)

def StackOnly (allowed : Operation Program → Prop) (pending : List Continuation) : Prop :=
  ∀ k ∈ pending, ∀ v, (k v).Only allowed

variable {allowed : Operation Program → Prop} {p : Program} {k : Continuation}
  {pending : List Continuation}

theorem stackOnly_nil : StackOnly allowed [] := by
  intro k hk
  cases hk

theorem stackOnly_cons :
    StackOnly allowed (k :: pending) ↔
      (∀ v, (k v).Only allowed) ∧ StackOnly allowed pending :=
  List.forall_mem_cons

namespace Cursor

def Only (allowed : Operation Program → Prop) (c : Cursor) : Prop :=
  c.current.Only allowed ∧ StackOnly allowed c.pending

theorem only_new (h : p.Only allowed) : (Cursor.new p).Only allowed := ⟨h, stackOnly_nil⟩

theorem only_resume (h : StackOnly allowed pending) (result : Except Fault Dyn) :
    (Cursor.resume pending result).Only allowed := by
  cases result with
  | ok v => exact ⟨.done, h⟩
  | error e => exact ⟨.throw, stackOnly_nil⟩

/-- The operation at which a cursor comes to rest is allowed, and so
is all that is pending behind it. -/
theorem Only.advance {c : Cursor} (h : c.Only allowed) {op : Operation Program}
    (hc : c.advance = .execute op pending) :
    allowed op ∧ (∀ p ∈ op.programs, p.Only allowed) ∧ StackOnly allowed pending := by
  obtain ⟨current, stack⟩ := c
  induction current, stack using Cursor.induction with
  | finished v => cases hc
  | resumed v k stack ih =>
    obtain ⟨hk, hstack⟩ := stackOnly_cons.mp h.2
    exact ih ⟨hk v, hstack⟩ hc
  | failed e stack => simp at hc
  | operation op stack _ =>
    obtain ⟨hop, hstack⟩ := h
    cases hop with
    | step ho hp =>
      obtain ⟨rfl, rfl⟩ : op = _ ∧ stack = _ := by simpa using hc
      exact ⟨ho, hp, hstack⟩
  | attached p k stack ih =>
    obtain ⟨hbind, hstack⟩ := h
    cases hbind with
    | bind hp hk =>
      rw [advance_bind] at hc
      exact ih ⟨hp, stackOnly_cons.mpr ⟨hk, hstack⟩⟩ hc

end Cursor

/-- A flow dispatches only allowed operations if each part does. -/
theorem Flow.only_andThen {a b : Kind} {f : Flow a} {next : a.Carrier → Flow b}
    (hf : f.program.Only allowed) (hn : ∀ v, (next v).program.Only allowed) :
    (f.andThen next).program.Only allowed := by
  have hk : ∀ d, (Flow.continuation next d).Only allowed := continuation_cases hn fun _ => .throw
  obtain ⟨p⟩ := f
  cases hf with
  | @done v => exact hk v
  | throw => exact .throw
  | step ho hp => exact .bind (.step ho hp) hk
  | bind hp hq => exact .bind (.bind hp hq) hk

end Workflow
