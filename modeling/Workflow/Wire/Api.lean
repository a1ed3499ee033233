import Workflow.Wire.Basic

/-! Requests to the API collaborator and its responses. -/
namespace Workflow
open Json

inductive HttpMethod where
  | get
  | post
  | put
  | delete
  | patch
deriving DecidableEq

namespace HttpMethod

def names : Names HttpMethod where
  all := [.get, .post, .put, .delete, .patch]
  name
    | .get => "GET"
    | .post => "POST"
    | .put => "PUT"
    | .delete => "DELETE"
    | .patch => "PATCH"

/-- The name as debug texts have it. -/
def debug : HttpMethod → String
  | .get => "Get"
  | .post => "Post"
  | .put => "Put"
  | .delete => "Delete"
  | .patch => "Patch"

instance : Wire HttpMethod := names.wire

end HttpMethod

structure ApiRequest where
  method : HttpMethod
  url : String
  headers : Table String
  payload : String
deriving DecidableEq

namespace ApiRequest

/-- A request without headers and payload. -/
def new (method : HttpMethod) (url : String) : ApiRequest := ⟨method, url, .empty, ""⟩

/-- Carries a JSON value as payload and says so in the headers. -/
def withJson (r : ApiRequest) (body : Json) : ApiRequest :=
  { r with
    payload := body.compact
    headers := r.headers.insert "Content-Type" "application/json" }

/-- The given headers win over those of the request. -/
def withHeaders (r : ApiRequest) (headers : Table String) : ApiRequest :=
  { r with headers := r.headers.merge headers }

instance : Wire ApiRequest where
  shape := .record "ApiRequest" [
    ⟨"method", HttpMethod.names.form, .required⟩,
    ⟨"url", .leaf .text, .required⟩,
    ⟨"headers", .texts, .value (.obj [])⟩,
    ⟨"payload", .leaf .text, .value (.str "")⟩]
  toJson r := object [
    ("method", Wire.toJson r.method),
    ("url", .str r.url),
    ("headers", ofTexts r.headers),
    ("payload", .str r.payload)]
  ofFull? v := do
    let method ← (← v.get? "method").text? >>= HttpMethod.names.ofName?
    let url ← (← v.get? "url").text?
    let headers ← (← v.get? "headers").texts?
    let payload ← (← v.get? "payload").text?
    some ⟨method, url, headers, payload⟩

end ApiRequest

structure ApiResponse where
  code : UInt16
  status : String
  body : String
  headers : Table String
deriving DecidableEq

/-- A status code. -/
def statusCode : Leaf := .integer "u16" 0 65535

/-- What a program sees of a response that reports no success. -/
structure ErrorResponse where
  code : UInt16
  status : String
  body : String
deriving DecidableEq

namespace ApiResponse

def isSuccess (r : ApiResponse) : Bool := 200 ≤ r.code && r.code < 300

def toError (r : ApiResponse) : ErrorResponse := ⟨r.code, r.status, r.body⟩

instance : Wire ApiResponse where
  shape := .record "ApiResponse" [
    ⟨"code", .leaf statusCode, .required⟩,
    ⟨"status", .leaf .text, .value (.str "")⟩,
    ⟨"body", .leaf .text, .value (.str "")⟩,
    ⟨"headers", .texts, .value (.obj [])⟩]
  toJson r := object [
    ("code", nat r.code.toNat),
    ("status", .str r.status),
    ("body", .str r.body),
    ("headers", ofTexts r.headers)]
  ofFull? v := do
    let code ← (← v.get? "code").nat?
    let status ← (← v.get? "status").text?
    let body ← (← v.get? "body").text?
    let headers ← (← v.get? "headers").texts?
    some ⟨code.toUInt16, status, body, headers⟩

end ApiResponse

instance : Wire ErrorResponse where
  shape := .record "ErrorResponse" [
    ⟨"code", .leaf statusCode, .required⟩,
    ⟨"status", .leaf .text, .required⟩,
    ⟨"body", .leaf .text, .required⟩]
  toJson r := object [
    ("code", nat r.code.toNat),
    ("status", .str r.status),
    ("body", .str r.body)]
  ofFull? v := do
    let code ← (← v.get? "code").nat?
    let status ← (← v.get? "status").text?
    let body ← (← v.get? "body").text?
    some ⟨code.toUInt16, status, body⟩

end Workflow
