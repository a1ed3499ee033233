import Workflow.Proofs.Program.Only

/-! Programs over the keys of one store.

The same program can work on the persistent store and on the ephemeral one. Putting it on a store
changes none of its continuations, so it walks in the same way. -/
namespace Workflow

/-- The operation reads, writes or deletes a key, or puts a boundary around a program. -/
def Operation.IsKeyed {P : Type} : Operation P → Prop
  | .read .. | .write .. | .delete .. | .recover _ => True
  | _ => False

namespace Program

mutual

/-- The program with all its keys in this store. -/
def onStore (store : Store) : Program → Program
  | .done v => .done v
  | .throw e => .throw e
  | .step op => .step (operationOn store op)
  | .bind p k => .bind (p.onStore store) fun v => (k v).onStore store

def operationOn (store : Store) : Operation Program → Operation Program
  | .read _ key => .read store key
  | .write _ key value => .write store key value
  | .delete _ key => .delete store key
  | .fork p => .fork (p.onStore store)
  | .race ps => .race (allOn store ps)
  | .recover p => .recover (p.onStore store)
  | op => op

def allOn (store : Store) : List Program → List Program
  | [] => []
  | p :: ps => p.onStore store :: allOn store ps

end

end Program

/-- What goes on with a result, with all its keys in this store. -/
def Continuation.onStore (store : Store) (k : Continuation) : Continuation :=
  fun v => (k v).onStore store

/-- A stack of continuations, with all their keys in this store. -/
def stackOn (store : Store) (pending : List Continuation) : List Continuation :=
  pending.map (Continuation.onStore store)

def Advance.onStore (store : Store) : Advance → Advance
  | .finished result => .finished result
  | .execute op pending => .execute (Program.operationOn store op) (stackOn store pending)

namespace Cursor

def onStore (store : Store) (c : Cursor) : Cursor :=
  ⟨c.current.onStore store, stackOn store c.pending⟩

theorem onStore_resume (store : Store) (pending : List Continuation) (result : Except Fault Dyn) :
    (resume pending result).onStore store = resume (stackOn store pending) result := by
  cases result <;> simp [resume, onStore, stackOn, Program.onStore]

/-- A cursor comes to rest at the same place, whichever store its keys are in. -/
theorem advance_onStore (store : Store) (c : Cursor) :
    (c.onStore store).advance = c.advance.onStore store := by
  obtain ⟨p, pending⟩ := c
  induction p, pending using Cursor.induction with
  | finished v => simp [onStore, stackOn, Program.onStore, Advance.onStore]
  | resumed v k pending ih =>
    rw [advance_done_cons, ← ih]
    simp [onStore, stackOn, Program.onStore, Continuation.onStore]
  | failed e pending => simp [onStore, Program.onStore, Advance.onStore]
  | operation op pending _ => simp [onStore, Program.onStore, Advance.onStore]
  | attached p k pending ih =>
    rw [advance_bind, ← ih, onStore, Program.onStore, advance_bind]
    rfl

end Cursor

/-- One access to a key. -/
inductive Access where
  | read (key : String)
  | write (key value : String)
  | delete (key : String)

namespace Access

def operation {P : Type} (store : Store) : Access → Operation P
  | .read key => .read store key
  | .write key value => .write store key value
  | .delete key => .delete store key

/-- The entries after an access. -/
def apply (entries : Table String) : Access → Table String
  | .read _ => entries
  | .write key value => entries.insert key value
  | .delete key => entries.erase key

/-- What an access hands to its program. A value that is read is seen through `view`. -/
def result (view : Option String → Option String) (entries : Table String) : Access → Dyn
  | .read key => ⟨.option .text, view (entries.find? key)⟩
  | .write .. | .delete _ => .unit

end Access

namespace Operation

def access? {P : Type} : Operation P → Option Access
  | .read _ key => some (.read key)
  | .write _ key value => some (.write key value)
  | .delete _ key => some (.delete key)
  | _ => none

/-- The value that an operation writes. -/
def written? {P : Type} : Operation P → Option String
  | .write _ _ value => some value
  | _ => none

variable {op : Operation Program}

theorem operationOn_of_access? {a : Access} (h : op.access? = some a) (store : Store) :
    Program.operationOn store op = a.operation store := by
  cases op with
  | read | write | delete =>
    cases h
    rfl
  | _ => cases h

/-- An operation over keys is one access, or puts a boundary around a program. -/
theorem IsKeyed.cases (h : op.IsKeyed) :
    (∃ a, op.access? = some a) ∨ ∃ p, op = .recover p := by
  cases op with
  | read | write | delete => exact .inl ⟨_, rfl⟩
  | recover p => exact .inr ⟨p, rfl⟩
  | _ => exact h.elim

end Operation

namespace Access

/-- Accesses one after the other, whatever they find; ends with all that was read. -/
def straight : List Access → (found : List (Option String)) → Flow (.list (.option .text))
  | [], found => Flow.pure found
  | .read key :: rest, found =>
    (Flow.read .persistent key).andThen fun (value : Option String) =>
      straight rest (found ++ [value])
  | .write key value :: rest, found =>
    (Flow.write .persistent key value).andThen fun _ => straight rest found
  | .delete key :: rest, found => (Flow.delete .persistent key).andThen fun _ => straight rest found

/-- All that is read by accesses one after the other. -/
def reads (view : Option String → Option String) :
    List Access → Table String → List (Option String)
  | [], _ => []
  | .read key :: rest, entries => view (entries.find? key) :: reads view rest entries
  | .write key value :: rest, entries => reads view rest (entries.insert key value)
  | .delete key :: rest, entries => reads view rest (entries.erase key)

/-- The entries after accesses one after the other. -/
def applyAll (accesses : List Access) (entries : Table String) : Table String :=
  accesses.foldl Access.apply entries

theorem access?_operation (a : Access) (store : Store) :
    (a.operation store : Operation Program).access? = some a := by
  cases a <;> rfl

theorem reads_eq_map (view : Option String → Option String) (accesses : List Access)
    (entries : Table String) :
    reads view accesses entries = (reads id accesses entries).map view := by
  induction accesses generalizing entries with
  | nil => rfl
  | cons a rest ih => cases a <;> simp [reads, ih]

end Access

end Workflow
