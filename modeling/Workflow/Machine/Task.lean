import Workflow.Machine.World
import Workflow.Program.Cursor

/-! Tasks and the steps they take.

A step is taken as a whole, from one operation of the program to the next. It changes the task that
takes it and what all tasks share, and may launch new tasks. It reaches no other task. -/
namespace Workflow

/-- What a task was launched for. -/
inductive Role where
  | run
  | fork (handle : Handle)
  | branch (race index : Nat)
  | background
  | host

/-- What a sleeping task does when its time has come. -/
inductive Alarm where
  | delay
  | external (ending : ActionEnd)
  | call (call : Call)
  /-- The answer to an interaction that no program waits for. -/
  | background (request : String)
  /-- Writes a handle of the host, or drops its write side. -/
  | host (handle : Handle) (result : Option (Except Fault Json))

inductive Phase where
  | running (cursor : Cursor)
  /-- Asleep until a time, or for ever. -/
  | sleeping (due : Option Nat) (alarm : Alarm) (pending : List Continuation)
  | awaiting (handle : Handle) (pending : List Continuation)
  | racing (race : Nat) (pending : List Continuation)
  /-- About to start an interaction that no program waits for. -/
  | opening (request : String)
  | ended (ending : Verdict Dyn)

structure Task where
  role : Role
  span : Span
  /-- The container that the task works on. -/
  container : Nat
  /-- What is pending outside the recovery boundaries around the current program, the innermost
  boundary first. -/
  boundaries : List (List Continuation)
  phase : Phase

/-- A task has taken a step. -/
structure Effect (r : Runner) where
  world : World r
  task : Task
  launched : List Task

namespace Task
variable {r : Runner}

def hasEnded (t : Task) : Bool :=
  match t.phase with
  | .ended _ => true
  | _ => false

/-- Goes on with the result of an operation. -/
def proceed (t : Task) (w : World r) (pending : List Continuation) (result : Except Fault Dyn) :
    Effect r :=
  ⟨w, { t with phase := .running (Cursor.resume pending result) }, []⟩

def enter (t : Task) (w : World r) (phase : Phase) : Effect r := ⟨w, { t with phase }, []⟩

/-- A panic ends the task and passes every boundary. A forked program leaves its cell unwritten for
ever; a branch reports it to its race. -/
def crash (t : Task) (w : World r) (self : Nat) (message : String) : Effect r :=
  let w :=
    match t.role with
    | .fork h => w.modifyCell h .abandon
    | .branch race index =>
      w.arrive race ⟨index, .panic ("task " ++ toString self ++ " panicked with message " ++
        Text.quoted message)⟩
    | _ => w
  t.enter w (.ended (.panic message))

/-- The task's own program has ended. -/
def conclude (t : Task) (w : World r) (result : Except Fault Dyn) : Effect r :=
  let w :=
    match t.role with
    | .run =>
      match result with
      | .ok _ => w.emit t.span .runCompleted
      | .error e => w.emit t.span (.runFailed e)
    | .fork h =>
      match result >>= Dyn.take .json with
      | .ok v => w.modifyCell h (.fill (.ok v))
      | .error e => (w.emit t.span (.forkFailed e)).modifyCell h (.fill (.error e))
    | .branch race index => w.arrive race ⟨index, .ofExcept (result >>= Dyn.take .json)⟩
    | .background | .host => w
  t.enter w (.ended (.ofExcept result))

/-- The program inside the innermost boundary has ended: a value goes on outside as success, a
failure is absorbed, and an outcome that asks for it fails the program outside. -/
def leaveBoundary (t : Task) (w : World r) (pending : List Continuation)
    (outer : List (List Continuation)) (result : Except Fault Dyn) : Effect r :=
  let t := { t with boundaries := outer }
  match result >>= Dyn.take .outcome with
  | .ok (.succeed v) => t.proceed w pending (.ok ⟨.attempt .json, .ok v⟩)
  | .ok (.fail message) => t.proceed w pending (.error (.explicit message))
  | .error e => t.proceed (w.emit t.span (.absorbed e)) pending (.ok ⟨.attempt .json, .error e⟩)

def finish (t : Task) (w : World r) (result : Except Fault Dyn) : Effect r :=
  match t.boundaries with
  | [] => t.conclude w result
  | pending :: outer => t.leaveBoundary w pending outer result

/-- Goes on with how a call ended. -/
def receive (t : Task) (w : World r) (self : Nat) (pending : List Continuation) :
    Verdict Reply → Effect r
  | .value reply => t.proceed w pending (reply.result r.config.absentSentinel)
  | .fault e => t.proceed w pending (.error e)
  | .panic message => t.crash w self message

/-- Delegates an operation. -/
def delegate (t : Task) (w : World r) (self : Nat) (pending : List Continuation) (call : Call) :
    Effect r :=
  match w.accept t.span call with
  | (w, .now verdict) => t.receive w self pending verdict
  | (w, .later wait) => t.enter w (.sleeping (w.due wait) (.call call) pending)

/-- A task that works on the same container as the one that launches it. -/
def child (t : Task) (role : Role) (span : Span) (program : Program) : Task :=
  ⟨role, span, t.container, [], .running (.new program)⟩

/-- An interaction in the background, outside of all spans. -/
def background (t : Task) (request : String) : Task :=
  ⟨.background, [], t.container, [], .opening request⟩

/-- The branches of a race, numbered from `index` on. -/
def branches (t : Task) (race : Nat) : (index : Nat) → List Program → List Task
  | _, [] => []
  | index, p :: ps =>
    t.child (.branch race index) (t.span.branch index) p :: t.branches race (index + 1) ps

/-- Executes an operation; its result goes to `pending`. -/
def execute (t : Task) (w : World r) (self : Nat) (pending : List Continuation)
    (op : Operation Program) : Effect r :=
  match op with
  | .callApi request => t.delegate w self pending (.api request)
  | .runUi interaction => t.delegate w self pending (.ui (encodeInteraction interaction))
  | .forkUi interaction =>
    { t.proceed w pending (.ok .unit) with
      launched := [t.background (encodeInteraction interaction)] }
  | .read .persistent key => t.delegate w self pending (.storage (.get key))
  | .read .ephemeral key =>
    t.proceed w pending (.ok ⟨.option .text, (w.container t.container).getNamed key⟩)
  | .write .persistent key value => t.delegate w self pending (.storage (.set key value))
  | .write .ephemeral key value =>
    let w := (w.emit t.span (.updatingNamed key)).modifyContainer t.container
      (·.updateNamed key value)
    t.proceed w pending (.ok .unit)
  | .delete .persistent key => t.delegate w self pending (.storage (.delete key))
  | .delete .ephemeral key =>
    let w := (w.emit t.span (.deletingNamed key)).modifyContainer t.container (·.deleteNamed key)
    t.proceed w pending (.ok .unit)
  | .readForeignAll => t.proceed w pending (.ok ⟨.foreign, (w.container t.container).foreign⟩)
  | .writeForeign key value =>
    let w := (w.emit t.span (.updatingForeign key)).modifyContainer t.container
      (·.writeForeign key value)
    t.proceed w pending (.ok .unit)
  | .fork program =>
    let (w, handle) := w.newCell
    { t.proceed w pending (.ok ⟨.handle, handle⟩) with
      launched := [t.child (.fork handle) t.span.fork program] }
  | .runExternal action =>
    t.enter w (.sleeping (w.due action.wait) (.external action.ending) pending)
  | .await handle => t.enter (w.emit t.span (.awaiting handle.id.text)) (.awaiting handle pending)
  | .peek handle =>
    t.proceed w pending (.ok ⟨.option (.attempt .json), (w.cell handle).glance⟩)
  | .delay duration => t.enter w (.sleeping (w.due (.ms duration)) .delay pending)
  | .race [] => t.proceed w pending (.error .emptyRace)
  | .race programs =>
    let (w, race) := w.newRace programs.length
    { t.enter w (.racing race pending) with launched := t.branches race 0 programs }
  | .recover program =>
    ⟨w, { t with boundaries := pending :: t.boundaries, phase := .running (.new program) }, []⟩
  | .checkPermissions permissions => t.delegate w self pending (.permissions (.check permissions))
  | .requestPermissions permissions =>
    t.delegate w self pending (.permissions (.request permissions))
  | .log tag message => t.proceed (w.emit t.span (.log tag message)) pending (.ok .unit)

/-- Says which operation is executed and executes it. A look at a
handle is no operation of its own. -/
def dispatch (t : Task) (w : World r) (self : Nat) (pending : List Continuation)
    (op : Operation Program) : Effect r :=
  match op with
  | .peek _ => t.execute w self pending op
  | _ => t.execute (w.emit t.span (.dispatching op.name)) self pending op

/-- The answer to an interaction in the background changes nothing but the trace. -/
def closeBackground (t : Task) (w : World r) (self : Nat) : Verdict Reply → Effect r
  | .value (.ui response) =>
    match decodeResponse response with
    | .ok _ => t.enter w (.ended (.value .unit))
    | .error e => t.enter (w.emit t.span (.backgroundUndecodable e)) (.ended (.value .unit))
  | .value _ => t.enter w (.ended (.value .unit))
  | .fault e => t.enter (w.emit t.span (.backgroundFailed e)) (.ended (.value .unit))
  | .panic message => t.crash w self message

/-- Starts an interaction in the background. -/
def openBackground (t : Task) (w : World r) (self : Nat) (request : String) : Effect r :=
  match w.accept t.span (.ui request) with
  | (w, .now verdict) => t.closeBackground w self verdict
  | (w, .later wait) => t.enter w (.sleeping (w.due wait) (.background request) [])

/-- The time of a sleeping task has come. -/
def wake (t : Task) (w : World r) (self : Nat) (pending : List Continuation) : Alarm → Effect r
  | .delay => t.proceed w pending (.ok .unit)
  | .external (.value v) => t.proceed w pending (.ok (.json v))
  | .external (.failure message contexts) =>
    t.proceed w pending (.error (.ofChain message contexts))
  | .external (.panic message) => t.crash w self message
  | .call call =>
    let (w, verdict) := w.answer t.span call
    t.receive w self pending verdict
  | .background request =>
    let (w, verdict) := w.answer t.span (.ui request)
    t.closeBackground w self verdict
  | .host handle (some result) =>
    t.enter (w.modifyCell handle (.fill result)) (.ended (.value .unit))
  | .host handle none => t.enter (w.modifyCell handle .abandon) (.ended (.value .unit))

/-- A race looks at the next arrival. The first success wins; a
failure is kept until the next one. -/
def judge (t : Task) (w : World r) (race : Nat) (pending : List Continuation) (x : Race)
    (a : Arrival) (rest : List Arrival) : Effect r :=
  let seen := x.seen + 1
  let look (fault : Fault) : World r :=
    { w with races := w.races.modify race fun _ => ⟨x.total, seen, fault, rest⟩ }
  match a.ending with
  | .value v =>
    t.proceed ((look x.lastFault).emit t.span (.raceWon a.branch (x.total - seen))) pending
      (.ok (.json v))
  | .fault e => t.enter ((look e).emit t.span (.branchFailed a.branch e)) (.racing race pending)
  | .panic message => t.enter (look (.taskFailed message)) (.racing race pending)

/-- The next step of a task, if it can take one now. -/
def step? (t : Task) (w : World r) (self : Nat) : Option (Effect r) :=
  match t.phase with
  | .running cursor =>
    match cursor.advance with
    | .finished result => some (t.finish w result)
    | .execute op pending => some (t.dispatch w self pending op)
  | .sleeping none _ _ => none
  | .sleeping (some due) alarm pending =>
    if due ≤ w.now then some (t.wake w self pending alarm) else none
  | .awaiting handle pending =>
    ((w.cell handle).outcome? handle).map fun result =>
      t.proceed w pending (result.map .json)
  | .racing race pending =>
    match w.races[race]? with
    | some x =>
      match x.arrivals with
      | a :: rest => some (t.judge w race pending x a rest)
      | [] =>
        -- no branch is left that could still arrive
        if x.seen < x.total then none else some (t.proceed w pending (.error x.lastFault))
    | none => none
  | .opening request => some (t.openBackground w self request)
  | .ended _ => none

end Task

end Workflow
