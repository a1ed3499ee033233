import Workflow.Text

/-! Why a program, or an operation of it, failed. -/
namespace Workflow

/-- Whom an operation was delegated to. -/
inductive Collaborator where
  | ui
  | api
  | permissions
  | storage
  | external
deriving DecidableEq

namespace Collaborator

def name : Collaborator → String
  | .ui => "ui"
  | .api => "api"
  | .permissions => "permissions"
  | .storage => "storage"
  | .external => "external"

/-- The name as debug texts have it. -/
def debug : Collaborator → String
  | .ui => "Ui"
  | .api => "Api"
  | .permissions => "Permissions"
  | .storage => "Storage"
  | .external => "External"

def all : List Collaborator := [.ui, .api, .permissions, .storage, .external]

def ofName? (name : String) : Option Collaborator := all.find? fun c => c.name = name

end Collaborator

inductive Fault where
  /-- A response could not be decoded. -/
  | decode (payload reason : String)
  | collaborator (who : Collaborator) (message : String)
  /-- The outcome of a guarded program asked for failure. -/
  | explicit (message : String)
  | serialization (message : String)
  /-- A forked program ended without a result. -/
  | forkAbandoned (id : String)
  /-- A task ended by a panic. -/
  | taskFailed (message : String)
  | emptyRace
  | configuration (message : String)
  /-- A continuation was handed a result of another kind. -/
  | typeMismatch (expected : String)
deriving DecidableEq

namespace Fault

def message : Fault → String
  | .decode payload reason => "Decode error: " ++ reason ++ " (payload: " ++ payload ++ ")"
  | .collaborator who message => "Collaborator failure (" ++ who.name ++ "): " ++ message
  | .explicit message => message
  | .serialization message => "Serialization error: " ++ message
  | .forkAbandoned id => "Forked task abandoned: " ++ id
  | .taskFailed message => "Task failed: " ++ message
  | .emptyRace => "Race has no branches"
  | .configuration message => "Configuration error: " ++ message
  | .typeMismatch expected => "Operation result type mismatch: expected " ++ expected

/-- The name of the cause. -/
def kind : Fault → String
  | .decode .. => "Decode"
  | .collaborator .. => "Collaborator"
  | .explicit _ => "Explicit"
  | .serialization _ => "Serialization"
  | .forkAbandoned _ => "ForkAbandoned"
  | .taskFailed _ => "TaskFailed"
  | .emptyRace => "EmptyRace"
  | .configuration _ => "Configuration"
  | .typeMismatch _ => "TypeMismatch"

/-- The cause with all its data, texts quoted. -/
def debug (fault : Fault) : String :=
  match fault with
  | .decode payload reason =>
    "Decode \x7b payload: " ++ Text.quoted payload ++ ", reason: " ++ Text.quoted reason ++ " \x7d"
  | .collaborator who message =>
    "Collaborator \x7b collaborator: " ++ who.debug ++ ", message: " ++
      Text.quoted message ++ " \x7d"
  | .emptyRace => "EmptyRace"
  | .explicit text | .serialization text | .forkAbandoned text | .taskFailed text
  | .configuration text | .typeMismatch text => fault.kind ++ "(" ++ Text.quoted text ++ ")"

def isExplicit : Fault → Bool
  | .explicit _ => true
  | _ => false

/-- A failed external action: its message under the contexts that were added to it, the innermost
first. -/
def ofChain (message : String) (contexts : List String) : Fault :=
  .collaborator .external (": ".intercalate (contexts.reverse ++ [message]))

end Fault

end Workflow
