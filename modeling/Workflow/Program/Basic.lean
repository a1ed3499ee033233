import Workflow.Program.Kind

/-! Programs: operations glued together by continuations.

A program is a well-founded tree. A continuation answers every result with a program, and however
the results come, there is a last one. Only what the host supplies can panic; a continuation that
panics is one that goes on with an action of the host that does. -/
namespace Workflow

/-- How long something takes, in whole milliseconds. -/
inductive Wait where
  | ms (duration : Nat)
  | forever
deriving DecidableEq

/-- How something ends that may panic. -/
inductive Verdict (α : Type) where
  | value (value : α)
  | fault (fault : Fault)
  | panic (message : String)
deriving DecidableEq

def Verdict.ofExcept {α : Type} : Except Fault α → Verdict α
  | .ok a => .value a
  | .error e => .fault e

/-- How an action of the host ends. -/
inductive ActionEnd where
  | value (value : Json)
  /-- A message under the contexts that were added to it, the innermost first. -/
  | failure (message : String) (contexts : List String)
  | panic (message : String)
deriving DecidableEq

/-- An asynchronous action of the host: it takes its time and then ends. -/
structure External where
  wait : Wait
  ending : ActionEnd

/-- One step of a program, over the type of its sub-programs. -/
inductive Operation (P : Type) where
  | callApi (request : ApiRequest)
  | runUi (interaction : Json)
  /-- An interaction that nobody waits for. -/
  | forkUi (interaction : Json)
  | read (store : Store) (key : String)
  | write (store : Store) (key value : String)
  | delete (store : Store) (key : String)
  | readForeignAll
  | writeForeign (key : String) (value : Json)
  /-- Launches a program that ends with a JSON value. -/
  | fork (program : P)
  | runExternal (action : External)
  | await (handle : Handle)
  /-- Looks at a handle without waiting; it leaves no trace. -/
  | peek (handle : Handle)
  | delay (duration : Nat)
  /-- Launches programs that end with a JSON value and goes on with the first success. -/
  | race (programs : List P)
  /-- Runs a program that ends with an outcome and absorbs its failures. -/
  | recover (program : P)
  | checkPermissions (permissions : List Permission)
  | requestPermissions (permissions : List Permission)
  | log (tag message : String)

namespace Operation
variable {P : Type}

def name : Operation P → String
  | .callApi _ => "call_api"
  | .runUi _ => "run_ui"
  | .forkUi _ => "fork_ui"
  | .read .. => "read"
  | .write .. => "write"
  | .delete .. => "delete"
  | .readForeignAll => "read_foreign_all"
  | .writeForeign .. => "write_foreign"
  | .fork _ => "fork"
  | .runExternal _ => "run_external_async"
  | .await _ => "await"
  | .peek _ => "peek"
  | .delay _ => "delay"
  | .race _ => "race"
  | .recover _ => "recover"
  | .checkPermissions _ => "check_permissions"
  | .requestPermissions _ => "request_permissions"
  | .log .. => "log"

/-- The kind of result that an operation hands to its continuation. -/
def result : Operation P → Kind
  | .callApi _ => .response
  | .runUi _ => .json
  | .forkUi _ => .unit
  | .read .. => .option .text
  | .write .. => .unit
  | .delete .. => .unit
  | .readForeignAll => .foreign
  | .writeForeign .. => .unit
  | .fork _ => .handle
  | .runExternal _ => .json
  | .await _ => .json
  | .peek _ => .option (.attempt .json)
  | .delay _ => .unit
  | .race _ => .json
  | .recover _ => .attempt .json
  | .checkPermissions _ => .status
  | .requestPermissions _ => .list .answer
  | .log .. => .unit

end Operation

inductive Program where
  | done (value : Dyn)
  | throw (fault : Fault)
  | step (operation : Operation Program)
  | bind (program : Program) (next : Dyn → Program)

/-- What goes on with a result. -/
abbrev Continuation := Dyn → Program

namespace Program

/-- Goes on after a program: at once if it has already ended, otherwise when it will have. -/
def andThen (p : Program) (next : Continuation) : Program :=
  match p with
  | .done v => next v
  | .throw e => .throw e
  | .step op => .bind (.step op) next
  | .bind q k => .bind (.bind q k) next

/-- The program has ended before it runs. -/
def isTerminal : Program → Bool
  | .done _ | .throw _ => true
  | .step _ | .bind .. => false

/-- What a program begins with. -/
def debug : Program → String
  | .done _ => "Flow::Done(..)"
  | .throw e => "Flow::Throw(" ++ e.debug ++ ")"
  | .step op => "Flow::Step(" ++ op.name ++ ")"
  | .bind p _ => p.debug

mutual

/-- The program begins with a look at a handle, or starts a program that does. -/
def looksFirst : Program → Bool
  | .done _ | .throw _ => false
  | .step op => operationLooks op
  | .bind p _ => p.looksFirst

def operationLooks : Operation Program → Bool
  | .peek _ => true
  | .fork p | .recover p => p.looksFirst
  | .race ps => anyLooks ps
  | _ => false

def anyLooks : List Program → Bool
  | [] => false
  | p :: ps => p.looksFirst || anyLooks ps

end

/-- The program with what its first looks at handles show filled in. -/
def resolve (glance : Handle → Option (Except Fault Json)) : Program → Program
  | .step (.peek h) => .done ⟨.option (.attempt .json), glance h⟩
  | .bind p k =>
    match p.resolve glance with
    | .done v => (k v).resolve glance
    | .throw e => .throw e
    | q => .bind q k
  | p => p

end Program

end Workflow
