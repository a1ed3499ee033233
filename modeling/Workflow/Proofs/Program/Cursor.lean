import Mathlib.Logic.Relation
import Workflow.Program.Cursor
import Workflow.Program.Flow

/-! The loop equations of a cursor, and induction along the loop. -/
namespace Workflow

/-- Induction on a program as a tree of binds, operations being leaves. -/
theorem Program.spine {motive : Program → Prop} (done : ∀ v, motive (.done v))
    (throw : ∀ e, motive (.throw e)) (step : ∀ op, motive (.step op))
    (bind : ∀ p k, motive p → (∀ v, motive (k v)) → motive (.bind p k)) : ∀ p, motive p
  | .done v => done v
  | .throw e => throw e
  | .step op => step op
  | .bind p k => bind p k (spine done throw step bind p) fun v => spine done throw step bind (k v)

/-- What goes on with a result of kind `a`. -/
def Flow.continuation {a b : Kind} (next : a.Carrier → Flow b) : Continuation := fun d =>
  match d.take a with
  | .ok v => (next v).program
  | .error e => .throw e

@[simp] theorem Flow.continuation_mk {a b : Kind} (next : a.Carrier → Flow b) (v : a.Carrier) :
    Flow.continuation next ⟨a, v⟩ = (next v).program := by
  simp [continuation]

/-- What goes on with a result goes on with its value, or fails on a result of another kind. -/
theorem Flow.continuation_cases {a b : Kind} {P : Program → Prop} {next : a.Carrier → Flow b}
    (hn : ∀ v, P (next v).program) (throw : ∀ e, P (.throw e)) (d : Dyn) :
    P (continuation next d) := by
  unfold continuation
  cases d.take a with
  | ok v => exact hn v
  | error e => exact throw e

namespace Cursor

@[simp] theorem advance_done_nil (v : Dyn) : advance ⟨.done v, []⟩ = .finished (.ok v) := rfl

@[simp] theorem advance_done_cons (v : Dyn) (k : Continuation) (pending : List Continuation) :
    advance ⟨.done v, k :: pending⟩ = advance ⟨k v, pending⟩ := rfl

@[simp] theorem advance_throw (e : Fault) (pending : List Continuation) :
    advance ⟨.throw e, pending⟩ = .finished (.error e) := by
  cases pending <;> rfl

@[simp] theorem advance_step (op : Operation Program) (pending : List Continuation) :
    advance ⟨.step op, pending⟩ = .execute op pending := by
  cases pending <;> rfl

/-- A continuation that the program itself brings along waits in front of those already pending. -/
@[simp] theorem advance_bind (p : Program) (k : Continuation) (pending : List Continuation) :
    advance ⟨.bind p k, pending⟩ = advance ⟨p, k :: pending⟩ := by
  cases pending with
  | nil => cases h : p.walk [k] <;> simp [advance, advanceFrom, Program.walk, h]
  | cons k' pending =>
    cases h : p.walk (k :: k' :: pending) <;> simp [advance, advanceFrom, Program.walk, h]

/-- What goes on with the result of a program waits in front of what is already pending. -/
@[simp] theorem advance_andThen {a b : Kind} (f : Flow a) (next : a.Carrier → Flow b)
    (pending : List Continuation) :
    advance ⟨(f.andThen next).program, pending⟩ =
      advance ⟨f.program, Flow.continuation next :: pending⟩ := by
  obtain ⟨p⟩ := f
  cases p with
  | done v => rfl
  | throw e => simp [Flow.andThen, Program.andThen]
  | step op => exact advance_bind ..
  | bind p k => exact advance_bind ..

/-- One iteration of the loop. -/
inductive Iterates : Cursor → Cursor → Prop
  /-- The value of a program goes on to what is pending first. -/
  | resumed (v : Dyn) (k : Continuation) (pending : List Continuation) :
    Iterates ⟨.done v, k :: pending⟩ ⟨k v, pending⟩
  | attached (p : Program) (k : Continuation) (pending : List Continuation) :
    Iterates ⟨.bind p k, pending⟩ ⟨p, k :: pending⟩

/-- The loop, started at the first cursor, passes through the second. -/
def Passes : Cursor → Cursor → Prop := Relation.ReflTransGen Iterates

/-- An iteration does not change where the loop comes to rest. -/
theorem Iterates.advance_eq {c c' : Cursor} (h : Iterates c c') : c.advance = c'.advance := by
  cases h with
  | resumed v k pending => exact advance_done_cons v k pending
  | attached p k pending => exact advance_bind p k pending

/-- Induction along the loop of a cursor. A program is a well-founded tree together with all trees
that its continuations return, so a property passes from each iteration's cursor back to the one
before, and to an operation from all its resumptions. -/
theorem induction {motive : Program → List Continuation → Prop}
    (finished : ∀ v, motive (.done v) [])
    (resumed : ∀ v k pending, motive (k v) pending → motive (.done v) (k :: pending))
    (failed : ∀ e pending, motive (.throw e) pending)
    (operation : ∀ op pending, (∀ v, motive (.done v) pending) → motive (.step op) pending)
    (attached : ∀ p k pending, motive p (k :: pending) → motive (.bind p k) pending)
    (p : Program) (pending : List Continuation) : motive p pending := by
  -- first for a stack that is known to be good, by the program's structure
  have enough : ∀ p pending, (∀ v, motive (.done v) pending) → motive p pending := by
    intro p
    induction p using Program.spine with
    | done v => intro pending h; exact h v
    | throw e => intro pending _; exact failed e pending
    | step op => intro pending h; exact operation op pending h
    | bind p k ihp ihk =>
      intro pending h
      apply attached
      apply ihp
      intro v
      exact resumed v k pending (ihk v pending h)
  -- then every stack is good, from the bottom up
  have anyStack : ∀ pending v, motive (.done v) pending := by
    intro pending
    induction pending with
    | nil => exact finished
    | cons k pending ih => exact fun v => resumed v k pending (enough (k v) pending ih)
  exact enough p pending (anyStack pending)

end Cursor

end Workflow
