import Workflow.Machine.Schedule
import Workflow.Script.Basic
import Workflow.Service.Memory

/-! Scripts run one after the other on one machine, until everything
that they launched has ended too. -/
namespace Workflow

/-- A service together with the state it begins with. -/
structure Hosted (Request : Type) (Reply : Request → Type) where
  service : Service Request Reply
  state : service.State

/-- A handle of the host: when its cell is written or its write side dropped, if ever. -/
structure HostHandle where
  name : String
  due : Option Nat
  result : Option (Except Fault Json)

/-- Everything that is there before the first run. -/
structure Setup where
  config : RunnerConfig
  ui : Hosted String fun _ => String
  api : Hosted ApiRequest fun _ => ApiResponse
  permissions : Hosted PermissionCall PermissionCall.Reply
  storage : Hosted StorageCall StorageCall.Reply
  /-- What the storage holds, as far as it can be looked into. -/
  entries : storage.service.State → Option (Table String)
  /-- What making the collaborators has told. -/
  events : List Event
  container : Container
  handles : List HostHandle

namespace Setup

def runner (s : Setup) : Runner :=
  ⟨⟨s.ui.service, s.api.service, s.permissions.service, s.storage.service⟩, s.config⟩

/-- The world before the first run. The host's container is the first. -/
def world (s : Setup) : World s.runner where
  now := 0
  containers := #[s.container]
  cells := (Array.replicate s.handles.length .pending)
  races := #[]
  ui := s.ui.state
  api := s.api.state
  permissions := s.permissions.state
  storage := s.storage.state
  calls := []
  trace := (s.events.map fun e => ⟨0, [], e⟩).reverse

/-- The task that writes a handle of the host. -/
def writer (h : HostHandle) (index : Nat) : Option Task :=
  h.due.map fun due => ⟨.host, [], 0, [], .sleeping (some due) (.host ⟨index⟩ h.result) []⟩

def machine (s : Setup) : Machine s.runner :=
  ⟨s.world, (s.handles.zipIdx.filterMap fun (h, i) => writer h i).toArray⟩

/-- The names that every script of the session sees. -/
def scope (s : Setup) : Scope := s.handles.zipIdx.map fun (h, i) => (h.name, .handle ⟨i⟩)

end Setup

/-- One script of a session. -/
structure Job where
  script : Block
  /-- Run it on a container of its own. -/
  fresh : Bool

structure RunReport where
  /-- The program before it ran. -/
  built : String
  terminal : Bool
  /-- How the run ended; `none` if it can never end. -/
  ending : Option (Verdict Json)
  elapsed : Nat
  /-- The host's container when the run ended. -/
  container : Container

structure SessionReport where
  runs : List RunReport
  /-- How many launched tasks can never end. -/
  stuck : Nat
  settled : Container
  handles : List (String × Option (Except Fault Json))
  entries : Option (Table String)
  calls : List (Nat × Call)
  trace : List TraceLine

namespace Session
variable {r : Runner}

/-- The value a run ended with, as JSON. -/
def endingJson : Verdict Dyn → Verdict Json
  | .value d =>
    match d.take Binding.kind with
    | .ok v => .value (Binding.unpack v).toJson
    | .error e => .fault e
  | .fault e => .fault e
  | .panic m => .panic m

/-- Runs one script until it ends or nothing can happen any more. -/
def perform (m : Machine r) (scope : Scope) (job : Job) (fuel : Nat) : Machine r × RunReport :=
  let flow := job.script.flow scope (.json .null)
  let shown := flow.program.resolve fun h => (m.world.cell h).glance
  let (m, container) :=
    if job.fresh then
      let (w, i) := m.world.newContainer .empty
      (⟨w, m.tasks⟩, i)
    else (m, 0)
  let start := m.world.now
  let (m, task) := m.launch flow.program container
  let m := m.runUntil (fun m => (m.ending? task).isSome) fuel
  (m, {
    built := shown.debug
    terminal := shown.isTerminal
    ending := (m.ending? task).map endingJson
    elapsed := m.world.now - start
    container := m.world.container 0 })

/-- Runs scripts one after the other; one that can never end is the last. -/
def performAll (m : Machine r) (scope : Scope) (fuel : Nat) :
    List Job → Machine r × List RunReport
  | [] => (m, [])
  | job :: jobs =>
    let (m, report) := perform m scope job fuel
    if report.ending.isNone then (m, [report])
    else
      let (m, reports) := performAll m scope fuel jobs
      (m, report :: reports)

/-- More than the moves of all scripts together. -/
def fuel (s : Setup) (jobs : List Job) : Nat :=
  jobs.foldl (fun n job => n + job.script.weight + 16) (8 * s.handles.length + 16)

def run (s : Setup) (jobs : List Job) : SessionReport :=
  let fuel := fuel s jobs
  let (m, runs) := performAll s.machine s.scope fuel jobs
  let m := m.runUntil (fun _ => false) fuel
  {
    runs
    stuck := m.unfinished
    settled := m.world.container 0
    handles := s.handles.zipIdx.map fun (h, i) => (h.name, (m.world.cell ⟨i⟩).glance)
    entries := s.entries m.world.storage
    calls := m.world.calls.reverse
    trace := m.world.trace.reverse }

end Session

end Workflow
