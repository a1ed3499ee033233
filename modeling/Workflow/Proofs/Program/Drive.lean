import Workflow.Proofs.Program.Cursor

/-! Driving a cursor against the recursive meaning of a program.

A handler stands for whatever executes operations. Driving pulls one operation after the other from
a cursor and resumes the cursor with the handler's answer; evaluating follows the tree. -/
namespace Workflow

universe u

variable {σ : Type u}

/-- Answers an operation and changes a state on the way. -/
abbrev Handler (σ : Type u) := Operation Program → σ → Except Fault Dyn × σ

/-- An operation with the answer it was given. -/
structure Performed where
  operation : Operation Program
  answer : Except Fault Dyn

/-- What running a program shows: the operations in their order,
the result, and the state it leaves. -/
structure Evaluation (σ : Type u) where
  performed : List Performed
  result : Except Fault Dyn
  state : σ

namespace Evaluation

/-- Goes on after a success, with its value and from the state it left. -/
def andThen (x : Evaluation σ) (next : Dyn → σ → Evaluation σ) : Evaluation σ :=
  match x.result with
  | .ok v => { next v x.state with performed := x.performed ++ (next v x.state).performed }
  | .error _ => x

/-- One more operation in front. -/
def after (x : Evaluation σ) (first : Performed) : Evaluation σ :=
  { x with performed := first :: x.performed }

theorem andThen_assoc (x : Evaluation σ) (f g : Dyn → σ → Evaluation σ) :
    (x.andThen f).andThen g = x.andThen fun v s => (f v s).andThen g := by
  obtain ⟨performed, result, state⟩ := x
  cases result with
  | error e => rfl
  | ok v => cases h : (f v state).result <;> simp [andThen, h]

theorem andThen_of_error {x : Evaluation σ} {e : Fault} (h : x.result = .error e)
    (next : Dyn → σ → Evaluation σ) : x.andThen next = x := by
  simp [andThen, h]

end Evaluation

/-- The recursive meaning of a program. -/
def Program.eval (handle : Handler σ) : Program → σ → Evaluation σ
  | .done v, s => ⟨[], .ok v, s⟩
  | .throw e, s => ⟨[], .error e, s⟩
  | .step op, s => ⟨[⟨op, (handle op s).1⟩], (handle op s).1, (handle op s).2⟩
  | .bind p k, s => (p.eval handle s).andThen fun v s => (k v).eval handle s

/-- The loop that drives a cursor: it ends when the cursor has finished, and otherwise executes the
operation that the cursor asks for and resumes it with the answer. -/
inductive Drive (handle : Handler σ) : Cursor → σ → Evaluation σ → Prop
  | finished {c : Cursor} {s : σ} {result : Except Fault Dyn} (h : c.advance = .finished result) :
    Drive handle c s ⟨[], result, s⟩
  | execute {c : Cursor} {s : σ} {op : Operation Program} {pending : List Continuation}
    {x : Evaluation σ} (h : c.advance = .execute op pending)
    (rest : Drive handle (Cursor.resume pending (handle op s).1) (handle op s).2 x) :
    Drive handle c s (x.after ⟨op, (handle op s).1⟩)

/-- The handler, asked for these operations one after the other, gives these answers and
leads from one state to the other. -/
inductive Performs (handle : Handler σ) : σ → List Performed → σ → Prop
  | nil {s : σ} : Performs handle s [] s
  | cons {op : Operation Program} {s t : σ} {xs : List Performed}
    (rest : Performs handle (handle op s).2 xs t) :
    Performs handle s (⟨op, (handle op s).1⟩ :: xs) t

variable {handle : Handler σ} {s t u : σ} {p : Program} {c : Cursor} {pending : List Continuation}
  {x y : Evaluation σ}

theorem Performs.append {xs ys : List Performed} (h : Performs handle s xs t)
    (h' : Performs handle t ys u) : Performs handle s (xs ++ ys) u := by
  induction h with
  | nil => exact h'
  | cons _ ih => exact .cons (ih h')

namespace Program

/-- A program together with what is pending behind it. -/
def evalWith (handle : Handler σ) (p : Program) : List Continuation → σ → Evaluation σ
  | [], s => p.eval handle s
  | k :: pending, s => (p.eval handle s).andThen fun v s => (k v).evalWith handle pending s

@[simp] theorem evalWith_done_cons (handle : Handler σ) (v : Dyn) (k : Continuation) (s : σ) :
    (Program.done v).evalWith handle (k :: pending) s = (k v).evalWith handle pending s := by
  simp [evalWith, eval, Evaluation.andThen]

@[simp] theorem evalWith_bind (handle : Handler σ) (p : Program) (k : Continuation) (s : σ) :
    (Program.bind p k).evalWith handle pending s = p.evalWith handle (k :: pending) s := by
  cases pending with
  | nil => rfl
  | cons k' pending => simp [evalWith, eval, Evaluation.andThen_assoc]

/-- What is pending behind a failure does not matter. -/
theorem evalWith_of_error {e : Fault} (h : (p.eval handle s).result = .error e)
    (pending : List Continuation) : p.evalWith handle pending s = p.eval handle s := by
  cases pending with
  | nil => rfl
  | cons k pending => exact Evaluation.andThen_of_error h _

/-- An operation in front of what is pending: its answer decides with which cursor it goes on. -/
theorem evalWith_step (handle : Handler σ) (op : Operation Program) (s : σ) :
    (Program.step op).evalWith handle pending s =
      ((Cursor.resume pending (handle op s).1).current.evalWith handle
        (Cursor.resume pending (handle op s).1).pending (handle op s).2).after
          ⟨op, (handle op s).1⟩ := by
  cases h : (handle op s).1 with
  | error e =>
    rw [evalWith_of_error (e := e) (by simp [eval, h])]
    simp [eval, h, Cursor.resume, evalWith, Evaluation.after]
  | ok v => cases pending <;> simp [evalWith, eval, h, Cursor.resume, Evaluation.after,
      Evaluation.andThen]

/-- The operations of an evaluation are those that lead to its state. -/
theorem eval_performs (handle : Handler σ) (p : Program) (s : σ) :
    Performs handle s (p.eval handle s).performed (p.eval handle s).state := by
  induction p using Program.spine generalizing s with
  | done v => exact .nil
  | throw e => exact .nil
  | step op => exact .cons .nil
  | bind p k ihp ihk =>
    cases h : (p.eval handle s).result with
    | error e => simpa [eval, Evaluation.andThen, h] using ihp s
    | ok v => simpa [eval, Evaluation.andThen, h] using (ihp s).append (ihk v _)

theorem answers_of_ok {v : Dyn} (h : (p.eval handle s).result = .ok v) :
    ∀ x ∈ (p.eval handle s).performed, ∃ v, x.answer = .ok v := by
  induction p using Program.spine generalizing s v with
  | done _ => simp [eval]
  | throw _ => simp [eval]
  | step op =>
    intro x hx
    obtain rfl : x = _ := by simpa [eval] using hx
    exact ⟨v, h⟩
  | bind p k ihp ihk =>
    cases hp : (p.eval handle s).result with
    | error e => simp [eval, Evaluation.andThen, hp] at h
    | ok a =>
      simp only [eval, Evaluation.andThen, hp] at h ⊢
      intro x hx
      rcases List.mem_append.mp hx with hx | hx
      · exact ihp hp x hx
      · exact ihk a h x hx

/-- A failing operation is the last one, and its failure is the result. -/
theorem failed_last {before after : List Performed} {op : Operation Program} {e : Fault}
    (h : (p.eval handle s).performed = before ++ ⟨op, .error e⟩ :: after) :
    after = [] ∧ (p.eval handle s).result = .error e := by
  induction p using Program.spine generalizing s before with
  | done _ => simp [eval] at h
  | throw _ => simp [eval] at h
  | step op' =>
    cases before with
    | nil =>
      simp only [eval, List.nil_append, List.cons.injEq, Performed.mk.injEq] at h ⊢
      exact ⟨h.2.symm, h.1.2⟩
    | cons _ before => simp [eval] at h
  | bind p k ihp ihk =>
    cases hp : (p.eval handle s).result with
    | error e' =>
      simp only [eval, Evaluation.andThen, hp] at h ⊢
      exact hp ▸ ihp h
    | ok a =>
      simp only [eval, Evaluation.andThen, hp] at h ⊢
      rcases List.append_eq_append_iff.mp h with ⟨rest, rfl, hk⟩ | ⟨rest, hb, hk⟩
      · exact ihk a hk
      · -- the failing operation would stand among those of the first part, which succeeded
        cases rest with
        | nil => exact ihk a (by simpa using hk.symm : _ = [] ++ _)
        | cons z rest =>
          obtain ⟨rfl, -⟩ : _ = z ∧ _ := by simpa using hk
          obtain ⟨v, hv⟩ := answers_of_ok hp ⟨op, .error e⟩ (by simp [hb])
          cases hv

end Program

/-- The loop sees nothing of a cursor but what it needs next. -/
theorem Drive.of_advance {c' : Cursor} (h : Drive handle c s x) (hc : c'.advance = c.advance) :
    Drive handle c' s x := by
  cases h with
  | finished h => exact .finished (hc.trans h)
  | execute h rest => exact .execute (hc.trans h) rest

/-- The loop ends, with what the program and the continuations pending behind it evaluate to. -/
theorem drive_evalWith (handle : Handler σ) (p : Program) (pending : List Continuation) (s : σ) :
    Drive handle ⟨p, pending⟩ s (p.evalWith handle pending s) := by
  induction p, pending using Cursor.induction generalizing s with
  | finished v => exact .finished (Cursor.advance_done_nil v)
  | resumed v k pending ih =>
    rw [Program.evalWith_done_cons]
    exact (ih s).of_advance (Cursor.advance_done_cons v k pending)
  | failed e pending =>
    rw [Program.evalWith_of_error (e := e) rfl]
    exact .finished (Cursor.advance_throw e pending)
  | operation op pending ih =>
    rw [Program.evalWith_step]
    apply Drive.execute (Cursor.advance_step op pending)
    cases (handle op s).1 with
    | error e => exact .finished (Cursor.advance_throw e [])
    | ok v => exact ih v _
  | attached p k pending ih =>
    rw [Program.evalWith_bind]
    exact (ih s).of_advance (Cursor.advance_bind p k pending)

theorem Drive.unique (hx : Drive handle c s x) (hy : Drive handle c s y) : x = y := by
  induction hx generalizing y with
  | finished h =>
    cases hy with
    | finished h' =>
      cases h.symm.trans h'
      rfl
    | execute h' _ => cases h.symm.trans h'
  | execute h _ ih =>
    cases hy with
    | finished h' => cases h.symm.trans h'
    | execute h' rest =>
      cases h.symm.trans h'
      rw [ih rest]

theorem drive_iff_evalWith :
    Drive handle ⟨p, pending⟩ s x ↔ x = p.evalWith handle pending s := by
  constructor
  · intro h
    exact h.unique (drive_evalWith handle p pending s)
  · rintro rfl
    exact drive_evalWith handle p pending s

end Workflow
