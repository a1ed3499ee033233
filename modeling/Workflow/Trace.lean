import Workflow.Fault
import Workflow.Json.Basic
import Workflow.Wire.Api

/-! What a run tells about itself while it goes on. Values that programs store never appear here. -/
namespace Workflow

inductive Level where
  | trace
  | debug
  | info
  | warn
deriving DecidableEq

def Level.name : Level → String
  | .trace => "TRACE"
  | .debug => "DEBUG"
  | .info => "INFO"
  | .warn => "WARN"

structure Event where
  level : Level
  target : String
  message : String
  fields : List (String × Json)

/-- The names of the spans around an event, the outermost first. -/
abbrev Span := List String

structure TraceLine where
  time : Nat
  span : Span
  event : Event

namespace Span

def run (runner : String) : Span := ["flow_run[" ++ runner ++ "]"]

def fork (parent : Span) : Span := parent ++ ["fork"]

def branch (parent : Span) (index : Nat) : Span :=
  parent ++ ["race_branch[" ++ toString index ++ "]"]

end Span

namespace Event

def core (level : Level) (message : String) (fields : List (String × Json)) : Event :=
  ⟨level, "flow_core", message, fields⟩

def failed (level : Level) (message : String) (fault : Fault) : Event :=
  core level message [("error", .str fault.message)]

def runStarted : Event := core .debug "Flow run started" []

def runCompleted : Event := core .info "Flow run completed" []

def runFailed (fault : Fault) : Event := failed .warn "Flow run failed" fault

def dispatching (operation : String) : Event :=
  core .trace "Dispatching operation" [("operation", .str operation)]

def updatingNamed (key : String) : Event := core .trace "Updating named state" [("key", .str key)]

def deletingNamed (key : String) : Event := core .trace "Deleting named state" [("key", .str key)]

def updatingForeign (key : String) : Event :=
  core .trace "Updating foreign state" [("key", .str key)]

def awaiting (id : String) : Event :=
  core .debug "Awaiting forked program" [("control_id", .str id)]

def forkFailed (fault : Fault) : Event := failed .debug "Forked program failed" fault

def raceWon (branch stillRunning : Nat) : Event :=
  core .debug "Race won" [("branch", .nat branch), ("still_running", .nat stillRunning)]

def branchFailed (branch : Nat) (fault : Fault) : Event :=
  core .debug "Race branch failed" [("branch", .nat branch), ("error", .str fault.message)]

def absorbed (fault : Fault) : Event := failed .debug "Failure absorbed at recovery boundary" fault

def backgroundFailed (fault : Fault) : Event :=
  failed .debug "Background UI interaction failed" fault

def backgroundUndecodable (fault : Fault) : Event :=
  failed .debug "Background UI interaction returned an undecodable response" fault

def log (tag message : String) : Event := ⟨.info, "flow", message, [("tag", .str tag)]⟩

def isLog (e : Event) : Bool := e.target = "flow"

def storeCreated : Event :=
  ⟨.debug, "flow_state_inmemory", "Creating new InMemoryPersistentStore", []⟩

def storeSet (key : String) : Event :=
  ⟨.debug, "flow_state_inmemory", "Set persistent value for key=" ++ key, []⟩

def storeDeleted (key : String) : Event :=
  ⟨.debug, "flow_state_inmemory", "Deleted persistent value for key=" ++ key, []⟩

def uiRequest (request : String) : Event :=
  ⟨.debug, "flow_test_utils", "Scripted UI received request", [("request", .str request)]⟩

def apiRequest (request : ApiRequest) : Event :=
  ⟨.debug, "flow_test_utils", "Recording API request",
    [("method", .str request.method.debug), ("url", .str request.url)]⟩

end Event

end Workflow
