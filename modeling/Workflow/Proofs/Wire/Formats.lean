import Workflow.Proofs.Json.Printing
import Workflow.Proofs.Wire.Spellings
import Workflow.Wire.Api
import Workflow.Wire.Config
import Workflow.Wire.Outcome
import Workflow.Wire.Permission

/-! The wire formats of the data that hosts and programs exchange. -/
namespace Workflow

open Json

namespace Json

theorem decode_text (s : String) : (Form.leaf .text).decode (.str s) = .ok (.str s) := rfl

theorem decode_ofTexts (t : Table String) : Form.texts.decode (ofTexts t) = .ok (ofTexts t) := by
  rw [ofTexts, Form.decode, map_eq_ok_iff]
  refine ⟨_, decodeTexts_eq_ok_iff.mpr ⟨rfl, ?_⟩, rfl⟩
  intro m hm
  obtain ⟨e, -, rfl⟩ := List.mem_map.mp hm
  exact ⟨e.2, rfl⟩

theorem texts?_ofTexts (t : Table String) : (ofTexts t).texts? = some t := by
  have hentries (es : List (String × String)) : (es.map fun e => (e.1, Json.str e.2)).mapM
      (fun m => m.2.text?.map fun text => (m.1, text)) = some es := by
    induction es with
    | nil => rfl
    | cons e es ih =>
      rw [List.map_cons, List.mapM_cons, ih]
      rfl
  have hsorted : Table.ofList t.entries = t := Table.ext t.sorted.ofList_eq
  simp [texts?, ofTexts, members?, hentries, hsorted]

theorem decode_statusCode (code : UInt16) :
    (Form.leaf statusCode).decode (nat code.toNat) = .ok (nat code.toNat) := by
  have hlt := code.toNat_lt
  simp only [Form.decode, statusCode, nat, Leaf.decode]
  rw [if_pos (by omega)]

theorem nat?_nat (n : Nat) : (nat n).nat? = some n := by
  simp [nat, nat?]

end Json

/-- A constant is decoded from its name. -/
theorem Names.decode_form {α : Type} {n : Names α} {a : α} (h : n.ofName? (n.name a) = some a) :
    n.form.decode (.str (n.name a)) = .ok (.str (n.name a)) :=
  if_pos (List.mem_map_of_mem (List.mem_of_find?_eq_some h))

theorem HttpMethod.ofName?_name (m : HttpMethod) : names.ofName? (names.name m) = some m := by
  cases m <;> decide

theorem Permission.ofName?_name (p : Permission) : names.ofName? (names.name p) = some p := by
  cases p <;> decide

theorem PermissionStatus.ofName?_name (s : PermissionStatus) :
    names.ofName? (names.name s) = some s := by
  cases s <;> decide

namespace ApiRequest

/-- The request with the defaults for what is dropped. -/
def reset (dropped : List String) (r : ApiRequest) : ApiRequest :=
  { r with
    headers := if "headers" ∈ dropped then .empty else r.headers
    payload := if "payload" ∈ dropped then "" else r.payload }

theorem get?_toJson (r : ApiRequest) (k : String) : (Wire.toJson r).get? k =
    Assoc.find? k [("method", .str (HttpMethod.names.name r.method)), ("url", .str r.url),
      ("headers", ofTexts r.headers), ("payload", .str r.payload)] :=
  get?_object (by simp [Assoc.Distinct]) k

theorem record :
    Wire.Record ApiRequest (Wire.shape ApiRequest).fields ["headers", "payload"] reset where
  shape_eq := ⟨_, rfl⟩
  nodup := by simp [Wire.shape, Shape.fields]
  toJson_eq r := by
    simp only [Wire.shape, Shape.fields, Wire.field, get?_toJson, List.map_cons]
    rfl
  full r := by
    simp [Wire.ofFull?, get?_toJson, text?, texts?_ofTexts, HttpMethod.ofName?_name]
  fits r := by
    simp [Wire.shape, Shape.fields, Wire.field, get?_toJson, decode_text, decode_ofTexts,
      Names.decode_form (HttpMethod.ofName?_name r.method)]
  bounded := by simp [Wire.shape, Shape.fields, Names.form]
  keeps r dropped := by
    simp +contextual [Wire.shape, Shape.fields, Wire.field, get?_toJson, reset]
  defaults r dropped := by
    simp +contextual [Wire.shape, Shape.fields, Wire.field, get?_toJson, reset,
      ofTexts, Table.empty]

end ApiRequest

namespace ApiResponse

/-- The response with the defaults for what is dropped. -/
def reset (dropped : List String) (r : ApiResponse) : ApiResponse :=
  { r with
    status := if "status" ∈ dropped then "" else r.status
    body := if "body" ∈ dropped then "" else r.body
    headers := if "headers" ∈ dropped then .empty else r.headers }

theorem get?_toJson (r : ApiResponse) (k : String) : (Wire.toJson r).get? k =
    Assoc.find? k [("code", nat r.code.toNat), ("status", .str r.status), ("body", .str r.body),
      ("headers", ofTexts r.headers)] :=
  get?_object (by simp [Assoc.Distinct]) k

theorem record :
    Wire.Record ApiResponse (Wire.shape ApiResponse).fields ["status", "body", "headers"]
      reset where
  shape_eq := ⟨_, rfl⟩
  nodup := by simp [Wire.shape, Shape.fields]
  toJson_eq r := by
    simp only [Wire.shape, Shape.fields, Wire.field, get?_toJson, List.map_cons]
    rfl
  full r := by
    simp [Wire.ofFull?, get?_toJson, text?, nat?_nat, texts?_ofTexts]
  fits r := by
    simp [Wire.shape, Shape.fields, Wire.field, get?_toJson, decode_text, decode_statusCode,
      decode_ofTexts]
  bounded := by simp [Wire.shape, Shape.fields]
  keeps r dropped := by
    simp +contextual [Wire.shape, Shape.fields, Wire.field, get?_toJson, reset]
  defaults r dropped := by
    simp +contextual [Wire.shape, Shape.fields, Wire.field, get?_toJson, reset,
      ofTexts, Table.empty]

end ApiResponse

namespace ErrorResponse

theorem get?_toJson (r : ErrorResponse) (k : String) : (Wire.toJson r).get? k =
    Assoc.find? k [("code", nat r.code.toNat), ("status", .str r.status), ("body", .str r.body)] :=
  get?_object (by simp [Assoc.Distinct]) k

theorem record : Wire.Record ErrorResponse (Wire.shape ErrorResponse).fields [] (fun _ r => r) where
  shape_eq := ⟨_, rfl⟩
  nodup := by simp [Wire.shape, Shape.fields]
  toJson_eq r := by
    simp only [Wire.shape, Shape.fields, Wire.field, get?_toJson, List.map_cons]
    rfl
  full r := by
    simp [Wire.ofFull?, get?_toJson, text?, nat?_nat]
  fits r := by
    simp [Wire.shape, Shape.fields, Wire.field, get?_toJson, decode_text, decode_statusCode]
  bounded := by simp [Wire.shape, Shape.fields]
  keeps _ _ _ _ _ := rfl
  defaults _ _ _ _ _ ho := absurd ho List.not_mem_nil

end ErrorResponse

namespace PermissionResponse

theorem get?_toJson (r : PermissionResponse) (k : String) : (Wire.toJson r).get? k =
    Assoc.find? k [("permission", .str (Permission.names.name r.permission)),
      ("status", .str (PermissionStatus.names.name r.status))] :=
  get?_object (by simp [Assoc.Distinct]) k

theorem record :
    Wire.Record PermissionResponse (Wire.shape PermissionResponse).fields [] (fun _ r => r) where
  shape_eq := ⟨_, rfl⟩
  nodup := by simp [Wire.shape, Shape.fields]
  toJson_eq r := by
    simp only [Wire.shape, Shape.fields, Wire.field, get?_toJson, List.map_cons]
    rfl
  full r := by
    simp [Wire.ofFull?, get?_toJson, text?, Permission.ofName?_name, PermissionStatus.ofName?_name]
  fits r := by
    simp [Wire.shape, Shape.fields, Wire.field, get?_toJson,
      Names.decode_form (Permission.ofName?_name r.permission),
      Names.decode_form (PermissionStatus.ofName?_name r.status)]
  bounded := by simp [Wire.shape, Shape.fields, Names.form]
  keeps _ _ _ _ _ := rfl
  defaults _ _ _ _ _ ho := absurd ho List.not_mem_nil

end PermissionResponse

namespace RunnerConfig

/-- The configuration with the defaults for what is dropped. -/
def reset (dropped : List String) (c : RunnerConfig) : RunnerConfig where
  name := if "name" ∈ dropped then default.name else c.name
  logLevel := if "log_level" ∈ dropped then default.logLevel else c.logLevel
  absentSentinel := if "absent_sentinel" ∈ dropped then default.absentSentinel
    else c.absentSentinel

theorem get?_toJson (c : RunnerConfig) (k : String) : (Wire.toJson c).get? k =
    Assoc.find? k [("name", .str c.name), ("log_level", .str c.logLevel),
      ("absent_sentinel", .str c.absentSentinel)] :=
  get?_object (by simp [Assoc.Distinct]) k

theorem record : Wire.Record RunnerConfig (Wire.shape RunnerConfig).fields
    ["name", "log_level", "absent_sentinel"] reset where
  shape_eq := ⟨_, rfl⟩
  nodup := by simp [Wire.shape, Shape.fields]
  toJson_eq c := by
    simp only [Wire.shape, Shape.fields, Wire.field, get?_toJson, List.map_cons]
    rfl
  full c := by
    simp [Wire.ofFull?, get?_toJson, text?]
  fits c := by
    simp [Wire.shape, Shape.fields, Wire.field, get?_toJson, decode_text]
  bounded := by simp [Wire.shape, Shape.fields]
  keeps c dropped := by
    simp +contextual [Wire.shape, Shape.fields, Wire.field, get?_toJson, reset]
  defaults c dropped := by
    simp +contextual [Wire.shape, Shape.fields, Wire.field, get?_toJson, reset]

end RunnerConfig

namespace Outcome

def tag : Outcome → String
  | .fail _ => "fail"
  | .succeed _ => "succeed"

def content : Outcome → Json
  | .fail message => .str message
  | .succeed value => value

theorem toJson_eq (o : Outcome) :
    Wire.toJson o = object [("outcome", .str o.tag), ("value", o.content)] := by
  cases o <;> rfl

theorem get?_toJson (o : Outcome) (k : String) :
    (Wire.toJson o).get? k = Assoc.find? k [("outcome", .str o.tag), ("value", o.content)] :=
  toJson_eq o ▸ get?_object (by simp [Assoc.Distinct]) k

theorem members_eq (o : Outcome) :
    Wire.members o = [("outcome", .str o.tag), ("value", o.content)] := by
  simp [Wire.members, Wire.shape, Shape.keys, Wire.field, get?_toJson]

theorem full (o : Outcome) : Wire.ofFull? (Wire.toJson o) = some o := by
  cases o <;> simp [Wire.ofFull?, get?_toJson, text?, tag, content]

theorem decode_of_full {v : Json} {o : Outcome}
    (h : (Wire.shape Outcome).decode v =
      .ok (object [("outcome", .str o.tag), ("value", o.content)])) :
    Wire.decode v = .ok o := by
  rw [Wire.decode, h, ← toJson_eq, ok_bind, Wire.ofFull, full]

theorem decode_object {o : Outcome} {ms : List (String × Json)} (h : Wire.Holds o [] ms)
    (hms : Assoc.Distinct ms) : Wire.decode (.obj ms) = .ok o := by
  apply decode_of_full
  have hfind {k : String} (hk : k ∈ ["outcome", "value"]) :
      Assoc.find? k ms = some (Wire.field o k) := by
    rw [h.find? hms hk, if_neg List.not_mem_nil]
  have htag := hfind (k := "outcome") (by decide)
  have hcontent := hfind (k := "value") (by decide)
  rw [Wire.field, get?_toJson] at htag hcontent
  refine decode_tagged_object_iff.mpr ⟨_, _, _, _, htag, hcontent, ?_, ?_, rfl⟩
  · cases o <;> rfl
  · cases o <;> rfl

theorem decode_list (o : Outcome) : Wire.decode (.arr ((Wire.members o).map Prod.snd)) = .ok o := by
  apply decode_of_full
  rw [members_eq]
  refine decode_tagged_list_iff.mpr ⟨_, _, _, _, rfl, ?_, ?_, rfl⟩
  · cases o <;> rfl
  · cases o <;> rfl

theorem regular : Wire.Regular Outcome [] (fun _ o => o) where
  sound := by simp [Wire.shape, Shape.Sound]
  asks k := by simp [Wire.shape, Shape.Asks, Shape.keys]
  nodup := by simp [Wire.shape, Shape.keys]
  toJson_eq o := by rw [members_eq, toJson_eq]
  shallow _ _ _ ho := absurd ho List.not_mem_nil
  decode_object {o dropped ms} hdropped h hms := by
    obtain rfl : dropped = [] :=
      List.eq_nil_iff_forall_not_mem.mpr fun k hk => List.not_mem_nil (hdropped k hk)
    exact decode_object h hms
  decode_list := decode_list
  reset_nil _ := rfl

end Outcome

/-- Requests, responses, permissions, outcomes and configurations are read from all of their
spellings. What may be left out of them has the defaults for its value. -/
theorem formats_spellings :
    Wire.Spellings ApiRequest ["headers", "payload"] ApiRequest.reset ∧
    Wire.Spellings ApiResponse ["status", "body", "headers"] ApiResponse.reset ∧
    Wire.Spellings ErrorResponse [] (fun _ r => r) ∧
    Wire.Spellings PermissionResponse [] (fun _ r => r) ∧
    Wire.Spellings Outcome [] (fun _ o => o) ∧
    Wire.Spellings RunnerConfig ["name", "log_level", "absent_sentinel"] RunnerConfig.reset :=
  ⟨ApiRequest.record.regular.spellings, ApiResponse.record.regular.spellings,
    ErrorResponse.record.regular.spellings, PermissionResponse.record.regular.spellings,
    Outcome.regular.spellings, RunnerConfig.record.regular.spellings⟩

/-- A request with all that requests may have. -/
def signIn : ApiRequest := ⟨.post, "/session", .ofList [("accept", "*/*")], "pin=1"⟩

/-- The request with its members in another order, one that is
none of its own, and without headers. -/
def scrambledSignIn : List (String × Json) :=
  [("payload", .str "pin=1"), ("by", .arr [.obj [("b", .null), ("a", .bool true)]]),
    ("url", .str "/session"), ("method", .str "POST")]

/-- The scrambled request is read from its text and decoded from its value, each time without
headers; the list of the fields is the whole request. -/
theorem formats_spellings_signIn :
    Wire.parse (Json.obj scrambledSignIn).compact = .ok { signIn with headers := .empty } ∧
    Wire.decode (.obj scrambledSignIn) = .ok { signIn with headers := .empty } ∧
    Wire.decode (.arr [.str "POST", .str "/session", .obj [("accept", .str "*/*")], .str "pin=1"]) =
      .ok signIn := by
  obtain ⟨hrequest, -⟩ := formats_spellings
  have hdropped : ∀ k ∈ ["headers"], k ∈ ["headers", "payload"] := by decide
  have hreset : ApiRequest.reset ["headers"] signIn = { signIn with headers := .empty } := rfl
  have hspells : Spells (Json.obj scrambledSignIn).compact.toList (.obj scrambledSignIn) := by
    apply Json.spells_compact
    simp [scrambledSignIn, Json.Integral, Json.All, Json.AllItems, Json.AllMembers]
  have hdistinct : (Json.obj scrambledSignIn).Distinct := by
    simp [scrambledSignIn, Json.Distinct, Json.All, Json.AllItems, Json.AllMembers, Assoc.Distinct]
  -- a text is read with the members of inner objects in their order
  have htext : Wire.Holds signIn ["headers"] (canonicalMembers scrambledSignIn) :=
    ⟨[("by", .arr [.obj [("a", .bool true), ("b", .null)]])], by decide +kernel,
      by decide +kernel⟩
  have hvalue : Wire.Holds signIn ["headers"] scrambledSignIn :=
    ⟨[("by", .arr [.obj [("b", .null), ("a", .bool true)]])], by decide +kernel,
      by decide +kernel⟩
  refine ⟨?_, ?_, hrequest.list signIn⟩
  · apply (hrequest.objectText hdropped htext hdistinct hspells).mpr
    exact ⟨by decide +kernel, hreset.symm⟩
  · rw [hrequest.object hdropped hvalue (all_obj.mp hdistinct).1, hreset]

end Workflow
