import Workflow.Service.Basic

/-! A permission provider with a grant set that may grow by requests. -/
namespace Workflow

structure StaticPermissions where
  granted : List Permission
  grantOnRequest : Bool
  /-- The permissions requested so far. -/
  requested : List Permission

namespace StaticPermissions

def granting (granted : List Permission) : StaticPermissions := ⟨granted, false, []⟩

def isGranted (p : StaticPermissions) (permission : Permission) : Bool :=
  p.granted.contains permission

def check (p : StaticPermissions) (permissions : List Permission) : PermissionStatus :=
  .ofBool (permissions.all p.isGranted)

/-- Decides about one requested permission. -/
def decide (p : StaticPermissions) (permission : Permission) :
    StaticPermissions × PermissionResponse :=
  let p :=
    if p.grantOnRequest && !p.isGranted permission then
      { p with granted := p.granted ++ [permission] }
    else p
  (p, ⟨permission, .ofBool (p.isGranted permission)⟩)

/-- Decides about requested permissions one after the other. -/
def decideAll (p : StaticPermissions) :
    List Permission → StaticPermissions × List PermissionResponse
  | [] => (p, [])
  | permission :: rest =>
    let (p, response) := p.decide permission
    let (p, responses) := p.decideAll rest
    (p, response :: responses)

def request (p : StaticPermissions) (permissions : List Permission) :
    StaticPermissions × List PermissionResponse :=
  { p with requested := p.requested ++ permissions }.decideAll permissions

/-- The state after a call, and the reply. -/
def call (p : StaticPermissions) : (call : PermissionCall) → StaticPermissions × call.Reply
  | .check permissions => (p, p.check permissions)
  | .request permissions => p.request permissions

def service : PermissionService where
  State := StaticPermissions
  accept p call :=
    let (p, reply) := p.call call
    ⟨p, [], .now (.value reply)⟩
  answer p call :=
    let (p, reply) := p.call call
    ⟨p, [], .value reply⟩

end StaticPermissions

/-- Grants whatever is asked for. -/
def grantAll : PermissionService := .stateless fun
  | .check _ => .ok .granted
  | .request permissions => .ok (permissions.map fun p => ⟨p, .granted⟩)

end Workflow
