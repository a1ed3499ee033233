import Workflow.Service.Basic

/-! A user interface that plays back a script. -/
namespace Workflow

structure ScriptedUi where
  /-- The answers still to be given. -/
  script : List (Except Fault String)
  /-- The answer once the script is exhausted. -/
  fallback : Option String
  /-- How long every answer takes, if it takes time at all. -/
  latency : Option Nat
  /-- The requests received so far. -/
  requests : Array String

namespace ScriptedUi

def new (responses : List String) : ScriptedUi := ⟨responses.map .ok, none, none, #[]⟩

/-- Answers every request with the same text. -/
def always (response : String) : ScriptedUi := { new [] with fallback := some response }

def withFallback (ui : ScriptedUi) (response : String) : ScriptedUi :=
  { ui with fallback := some response }

/-- Adds a failure to the end of the script. -/
def thenFail (ui : ScriptedUi) (message : String) : ScriptedUi :=
  { ui with script := ui.script ++ [.error (.collaborator .ui message)] }

def withLatency (ui : ScriptedUi) (latency : Nat) : ScriptedUi :=
  { ui with latency := some latency }

def record (ui : ScriptedUi) (request : String) : ScriptedUi :=
  { ui with requests := ui.requests.push request }

/-- The next answer, which leaves the script. -/
def next (ui : ScriptedUi) : ScriptedUi × Except Fault String :=
  match ui.script with
  | reply :: rest => ({ ui with script := rest }, reply)
  | [] => (ui, ui.fallback.elim (.error (.collaborator .ui "ui script exhausted")) .ok)

def accept (ui : ScriptedUi) (request : String) : Accepted ScriptedUi String :=
  let ui := ui.record request
  match ui.latency with
  | some latency => ⟨ui, [.uiRequest request], .later (.ms latency)⟩
  | none =>
    let (ui, reply) := ui.next
    ⟨ui, [.uiRequest request], .now (.ofExcept reply)⟩

def service : UiService where
  State := ScriptedUi
  accept := accept
  answer ui _ :=
    let (ui, reply) := ui.next
    ⟨ui, [], .ofExcept reply⟩

end ScriptedUi

end Workflow
