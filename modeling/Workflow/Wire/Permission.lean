import Workflow.Wire.Basic

/-! Permissions of the platform, and what the host decides about them. -/
namespace Workflow
open Json

inductive Permission where
  | readPhoneState
  | sendSms
  | readStorage
  | writeStorage
  | camera
  | location
  | contacts
deriving DecidableEq

def Permission.names : Names Permission where
  all := [.readPhoneState, .sendSms, .readStorage, .writeStorage, .camera, .location, .contacts]
  name
    | .readPhoneState => "READ_PHONE_STATE"
    | .sendSms => "SEND_SMS"
    | .readStorage => "READ_STORAGE"
    | .writeStorage => "WRITE_STORAGE"
    | .camera => "CAMERA"
    | .location => "LOCATION"
    | .contacts => "CONTACTS"

instance : Wire Permission := Permission.names.wire

inductive PermissionStatus where
  | granted
  | declined
deriving DecidableEq

def PermissionStatus.names : Names PermissionStatus where
  all := [.granted, .declined]
  name
    | .granted => "granted"
    | .declined => "declined"

instance : Wire PermissionStatus := PermissionStatus.names.wire

def PermissionStatus.ofBool (granted : Bool) : PermissionStatus :=
  if granted then .granted else .declined

/-- The host's answer for one requested permission. -/
structure PermissionResponse where
  permission : Permission
  status : PermissionStatus
deriving DecidableEq

instance : Wire PermissionResponse where
  shape := .record "PermissionResponse" [
    ⟨"permission", Permission.names.form, .required⟩,
    ⟨"status", PermissionStatus.names.form, .required⟩]
  toJson r := object [
    ("permission", Wire.toJson r.permission),
    ("status", Wire.toJson r.status)]
  ofFull? v := do
    let permission ← (← v.get? "permission").text? >>= Permission.names.ofName?
    let status ← (← v.get? "status").text? >>= PermissionStatus.names.ofName?
    some ⟨permission, status⟩

end Workflow
