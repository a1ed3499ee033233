import Workflow.Program.Basic
import Workflow.Trace

/-! Collaborators that operations are delegated to.

A service has a state of its own. It takes a request and answers it at once, or says how long the
answer takes; then the answer is fetched later, from the state the service has by that time. -/
namespace Workflow

/-- An answer, or the time until it can be fetched. -/
inductive Reception (α : Type) where
  | now (verdict : Verdict α)
  | later (wait : Wait)

structure Accepted (σ α : Type) where
  state : σ
  events : List Event
  reception : Reception α

structure Answered (σ α : Type) where
  state : σ
  events : List Event
  verdict : Verdict α

structure Service (Request : Type) (Reply : Request → Type) where
  State : Type
  accept : State → (request : Request) → Accepted State (Reply request)
  answer : State → (request : Request) → Answered State (Reply request)

namespace Service
variable {Request : Type} {Reply : Request → Type}

/-- Answers at once, by the request alone. -/
def stateless (f : (request : Request) → Except Fault (Reply request)) :
    Service Request Reply where
  State := Unit
  accept _ request := ⟨(), [], .now (.ofExcept (f request))⟩
  answer _ request := ⟨(), [], .ofExcept (f request)⟩

def failing (fault : Fault) : Service Request Reply := stateless fun _ => .error fault

/-- Stands in for a collaborator that the host has not supplied. -/
def unconfigured (who : Collaborator) : Service Request Reply :=
  failing (.collaborator who ("no " ++ who.name ++ " collaborator configured"))

end Service

inductive PermissionCall where
  | check (permissions : List Permission)
  | request (permissions : List Permission)
deriving DecidableEq

abbrev PermissionCall.Reply : PermissionCall → Type
  | .check _ => PermissionStatus
  | .request _ => List PermissionResponse

inductive StorageCall where
  | get (key : String)
  | set (key value : String)
  | delete (key : String)
deriving DecidableEq

abbrev StorageCall.Reply : StorageCall → Type
  | .get _ => Option String
  | .set .. => Unit
  | .delete _ => Unit

abbrev UiService := Service String fun _ => String
abbrev ApiService := Service ApiRequest fun _ => ApiResponse
abbrev PermissionService := Service PermissionCall PermissionCall.Reply
abbrev StorageService := Service StorageCall StorageCall.Reply

structure Collaborators where
  ui : UiService
  api : ApiService
  permissions : PermissionService
  storage : StorageService

end Workflow
