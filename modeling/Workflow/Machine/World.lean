import Workflow.Container
import Workflow.Handle.Cell
import Workflow.Service.Basic
import Workflow.Wire.Config

/-! What the tasks of a machine share: the clock, the containers, the result cells of forked
programs, the races, the collaborators, and the record of what happened. -/
namespace Workflow

/-- Runs programs by the help of collaborators. -/
structure Runner where
  collaborators : Collaborators
  config : RunnerConfig

/-- The end of a branch as its race sees it. -/
structure Arrival where
  branch : Nat
  ending : Verdict Json

structure Race where
  /-- How many branches were launched. -/
  total : Nat
  /-- How many arrivals the race has looked at. -/
  seen : Nat
  /-- The failure that it looked at last. -/
  lastFault : Fault
  /-- The arrivals that it has not looked at, the earliest first. -/
  arrivals : List Arrival

/-- What is asked of a collaborator. -/
inductive Call where
  | ui (request : String)
  | api (request : ApiRequest)
  | permissions (call : PermissionCall)
  | storage (call : StorageCall)
deriving DecidableEq

/-- What a collaborator answers. -/
inductive Reply where
  | ui (response : String)
  | api (response : ApiResponse)
  | status (status : PermissionStatus)
  | answers (answers : List PermissionResponse)
  | entry (value : Option String)
  | done

namespace Reply

def ofPermission : (call : PermissionCall) → call.Reply → Reply
  | .check _, s => .status s
  | .request _, xs => .answers xs

def ofStorage : (call : StorageCall) → call.Reply → Reply
  | .get _, value => .entry value
  | .set .., _ => .done
  | .delete _, _ => .done

end Reply

/-- Reads a response of the user interface. -/
def decodeResponse (response : String) : Except Fault Json :=
  (Json.parseText response).mapError (Fault.decode response)

/-- The text of an interaction for the user interface. -/
def encodeInteraction (interaction : Json) : String := interaction.compact

/-- A stored value that equals the sentinel stands for none. -/
def present (sentinel : String) (value : Option String) : Option String :=
  value.filter (· != sentinel)

/-- The result that a reply hands to the program. -/
def Reply.result (sentinel : String) : Reply → Except Fault Dyn
  | .ui response => (decodeResponse response).map Dyn.json
  | .api response => .ok ⟨.response, response⟩
  | .status s => .ok ⟨.status, s⟩
  | .answers xs => .ok ⟨.list .answer, xs⟩
  | .entry value => .ok ⟨.option .text, present sentinel value⟩
  | .done => .ok .unit

def Verdict.map {α β : Type} (f : α → β) : Verdict α → Verdict β
  | .value a => .value (f a)
  | .fault e => .fault e
  | .panic m => .panic m

def Reception.map {α β : Type} (f : α → β) : Reception α → Reception β
  | .now v => .now (v.map f)
  | .later wait => .later wait

structure World (r : Runner) where
  /-- The time in milliseconds. -/
  now : Nat
  containers : Array Container
  cells : Array Cell
  races : Array Race
  ui : r.collaborators.ui.State
  api : r.collaborators.api.State
  permissions : r.collaborators.permissions.State
  storage : r.collaborators.storage.State
  /-- The calls to collaborators with their times, the latest first. -/
  calls : List (Nat × Call)
  /-- What the tasks have told, the latest first. -/
  trace : List TraceLine

namespace World
variable {r : Runner}

def emit (w : World r) (span : Span) (event : Event) : World r :=
  { w with trace := ⟨w.now, span, event⟩ :: w.trace }

def emitAll (w : World r) (span : Span) (events : List Event) : World r :=
  events.foldl (fun w e => w.emit span e) w

def container (w : World r) (i : Nat) : Container := w.containers[i]?.getD .empty

def modifyContainer (w : World r) (i : Nat) (f : Container → Container) : World r :=
  { w with containers := w.containers.modify i f }

def cell (w : World r) (h : Handle) : Cell := w.cells[h.index]?.getD .pending

def modifyCell (w : World r) (h : Handle) (f : Cell → Cell) : World r :=
  { w with cells := w.cells.modify h.index f }

/-- A fresh cell and its handle. -/
def newCell (w : World r) : World r × Handle :=
  ({ w with cells := w.cells.push .pending }, ⟨w.cells.size⟩)

/-- A fresh race and its number. -/
def newRace (w : World r) (total : Nat) : World r × Nat :=
  ({ w with races := w.races.push ⟨total, 0, .emptyRace, []⟩ }, w.races.size)

def newContainer (w : World r) (c : Container) : World r × Nat :=
  ({ w with containers := w.containers.push c }, w.containers.size)

/-- A branch reports its end to its race. -/
def arrive (w : World r) (race : Nat) (a : Arrival) : World r :=
  { w with races := w.races.modify race fun x => { x with arrivals := x.arrivals ++ [a] } }

/-- The time at which a wait that begins now is over. -/
def due (w : World r) : Wait → Option Nat
  | .ms n => some (w.now + n)
  | .forever => none

/-- Hands a call to its collaborator. -/
def accept (w : World r) (span : Span) (call : Call) : World r × Reception Reply :=
  let w := { w with calls := (w.now, call) :: w.calls }
  match call with
  | .ui request =>
    let a := r.collaborators.ui.accept w.ui request
    ({ w with ui := a.state }.emitAll span a.events, a.reception.map .ui)
  | .api request =>
    let a := r.collaborators.api.accept w.api request
    ({ w with api := a.state }.emitAll span a.events, a.reception.map .api)
  | .permissions call =>
    let a := r.collaborators.permissions.accept w.permissions call
    ({ w with permissions := a.state }.emitAll span a.events,
      a.reception.map (.ofPermission call))
  | .storage call =>
    let a := r.collaborators.storage.accept w.storage call
    ({ w with storage := a.state }.emitAll span a.events, a.reception.map (.ofStorage call))

/-- Fetches the answer to a call that was accepted earlier. -/
def answer (w : World r) (span : Span) (call : Call) : World r × Verdict Reply :=
  match call with
  | .ui request =>
    let a := r.collaborators.ui.answer w.ui request
    ({ w with ui := a.state }.emitAll span a.events, a.verdict.map .ui)
  | .api request =>
    let a := r.collaborators.api.answer w.api request
    ({ w with api := a.state }.emitAll span a.events, a.verdict.map .api)
  | .permissions call =>
    let a := r.collaborators.permissions.answer w.permissions call
    ({ w with permissions := a.state }.emitAll span a.events, a.verdict.map (.ofPermission call))
  | .storage call =>
    let a := r.collaborators.storage.answer w.storage call
    ({ w with storage := a.state }.emitAll span a.events, a.verdict.map (.ofStorage call))

end World

end Workflow
