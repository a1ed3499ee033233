import Workflow.Fault
import Workflow.Ident
import Workflow.Wire.Api
import Workflow.Wire.Outcome
import Workflow.Wire.Permission

/-! The kinds of results that travel between operations and continuations.

A result travels with its kind. Whoever takes it names the kind it expects, and
taking a result of another kind fails.

The kinds are a closed list: what operations hand on, what programs decode from responses, and what
is put together from these. -/
namespace Workflow

/-- The read side of a forked program's result cell. -/
structure Handle where
  index : Nat
deriving DecidableEq

/-- The id by which a handle is known outside. -/
def Handle.id (h : Handle) : Ident := ⟨h.index⟩

inductive Kind where
  | unit
  | flag
  | text
  | json
  | foreign
  | handle
  | response
  | errorResponse
  | status
  | answer
  | outcome
  /-- What is decoded from JSON of a shape, told apart from the
  JSON itself and from other shapes. -/
  | decoded (shape : Json.Shape)
  | option (kind : Kind)
  | list (kind : Kind)
  | pair (first second : Kind)
  | either (left right : Kind)
  /-- A result, or the failure that was there instead. -/
  | attempt (kind : Kind)
deriving DecidableEq

/-- The data of a kind. -/
def Kind.Carrier : Kind → Type
  | .unit => Unit
  | .flag => Bool
  | .text => String
  | .json => Json
  | .foreign => Table Json
  | .handle => Handle
  | .response => ApiResponse
  | .errorResponse => ErrorResponse
  | .status => PermissionStatus
  | .answer => PermissionResponse
  | .outcome => Outcome
  | .decoded _ => Json
  | .option k => Option k.Carrier
  | .list k => List k.Carrier
  | .pair a b => a.Carrier × b.Carrier
  | .either a b => a.Carrier ⊕ b.Carrier
  | .attempt k => Except Fault k.Carrier

def Kind.name : Kind → String
  | .unit => "unit"
  | .flag => "flag"
  | .text => "text"
  | .json => "json"
  | .foreign => "foreign state"
  | .handle => "handle"
  | .response => "response"
  | .errorResponse => "error response"
  | .status => "permission status"
  | .answer => "permission answer"
  | .outcome => "outcome"
  | .decoded shape => "decoded " ++ shape.title
  | .option k => "option of " ++ k.name
  | .list k => "list of " ++ k.name
  | .pair a b => "pair of " ++ a.name ++ " and " ++ b.name
  | .either a b => "either " ++ a.name ++ " or " ++ b.name
  | .attempt k => "attempt at " ++ k.name

/-- A result with its kind. -/
structure Dyn where
  kind : Kind
  value : kind.Carrier

namespace Dyn

def unit : Dyn := ⟨.unit, ()⟩

def json (v : Json) : Dyn := ⟨.json, v⟩

/-- The data of a result of the expected kind. -/
def take (kind : Kind) (d : Dyn) : Except Fault kind.Carrier :=
  if h : d.kind = kind then .ok (h ▸ d.value) else .error (.typeMismatch kind.name)

@[simp] theorem take_mk (kind : Kind) (v : kind.Carrier) : take kind ⟨kind, v⟩ = .ok v := by
  simp [take]

end Dyn

end Workflow
