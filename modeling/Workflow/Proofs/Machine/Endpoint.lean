import Workflow.Proofs.Json.Shape.Agreement
import Workflow.Proofs.Machine.Echo

/-! Typed responses of the user interface and of the API.

The one is read as a value and then decoded, the other is decoded from its text.
Both ways end with the same data. -/
namespace Workflow

open Json (Shape)

/-- The text is one value, and no object in it has a key twice. -/
def Json.Unrepeated (s : String) : Prop := ∃ u, Json.Spells s.toList u ∧ u.Distinct

/-- A text that is read as a value is decoded as that value is. -/
theorem Json.Shape.parse_iff_decode {shape : Shape} {s : String} {v x : Json} (hshape : shape.Sound)
    (hs : Json.parse s = .ok v) (hkeys : Json.Unrepeated s) :
    shape.parse s = .ok x ↔ shape.decode v = .ok x := by
  obtain ⟨u, hu, hdistinct⟩ := hkeys
  obtain ⟨r, hread, -⟩ := id hu
  obtain ⟨r', hv, -⟩ := Json.whole_eq_ok_iff.mp hs
  obtain ⟨rfl, -, hdepth⟩ := hread.of_value hv
  rw [Json.depth_canonical hdistinct] at hdepth
  rw [parse_eq_ok_iff hshape hu hdistinct, and_iff_right (within_of_depth_le shape hdepth)]

namespace Dyn
variable {shape : Shape} {x y : Json}

/-- A typed interaction ends with the data of the response. -/
def decoded (shape : Shape) (x : Json) : Dyn := ⟨.decoded shape, x⟩

/-- A typed request ends with the data of the response. -/
def received (shape : Shape) (x : Json) : Dyn :=
  ⟨.either .errorResponse (.decoded shape), .inr x⟩

/-- A typed request ends with a response that reports no success. -/
def refused (shape : Shape) (e : ErrorResponse) : Dyn :=
  ⟨.either .errorResponse (.decoded shape), .inl e⟩

theorem decoded_inj (h : decoded shape x = decoded shape y) : x = y := by
  cases h
  rfl

theorem received_inj (h : received shape x = received shape y) : x = y := by
  cases h
  rfl

end Dyn

/-- Which data a program hands on that decodes it first. -/
theorem Verdict.ofExcept_eq_value_iff {result : Except String Json} {fault : String → Fault}
    {wrap : Json → Dyn} (hwrap : ∀ {x y}, wrap x = wrap y → x = y) {x : Json} :
    Verdict.ofExcept ((result.mapError fault).map wrap) = .value (wrap x) ↔ result = .ok x := by
  cases result with
  | error reason =>
    constructor
    · intro h
      cases h
    · intro h
      cases h
  | ok y =>
    change Verdict.value (wrap y) = .value (wrap x) ↔ _
    rw [Verdict.value.injEq, Except.ok.injEq]
    exact ⟨hwrap, congrArg wrap⟩

namespace Machine
variable {r : Runner} {m : Machine r} {shape : Shape} {interaction v x : Json} {s : String}
  {request : ApiRequest}
  {response : ApiResponse}

/-- A program that makes one call and then ends. -/
theorem yields_andThen {a b : Kind} {op : Operation Program} {next : a.Carrier → Flow b}
    {x : a.Carrier} {result : Except Fault Dyn} (call : Call)
    {reply : call.provider.Reply call.request} (hop : op.call? = some call)
    (ha : (m.world.scene.hosted call.provider).Answers call.request reply)
    (hx : (call.reply reply).result r.config.absentSentinel = .ok ⟨a, x⟩)
    (hnext : (Cursor.new (next x).program).advance = .finished result) :
    m.Yields (Flow.andThen ⟨.step op⟩ next).program (.ofExcept result) := by
  refine yields_of_call call rfl hop ha ?_
  rw [hx]
  simpa [Cursor.resume, Cursor.new] using hnext

/-- A typed interaction ends as its response is decoded. -/
theorem yields_runUiAs (shape : Shape)
    (ha : (m.world.scene.hosted .ui).Answers (encodeInteraction interaction) s)
    (hs : Json.parse s = .ok v) :
    m.Yields (Flow.runUiAs shape (.ok interaction)).program
      (.ofExcept (((shape.decodeText v).mapError (Fault.decode v.compact)).map
        (Dyn.decoded shape))) := by
  have hresponse : decodeResponse s = .ok v := decodeResponse_eq_ok_iff.mpr hs
  have hresult : (Reply.ui s).result r.config.absentSentinel = .ok (Dyn.json v) := by
    rw [Reply.result, hresponse]
    rfl
  refine yields_andThen (.ui (encodeInteraction interaction)) rfl ha hresult ?_
  cases shape.decodeText v <;> rfl

theorem yields_runUiAs_iff
    (ha : (m.world.scene.hosted .ui).Answers (encodeInteraction interaction) s)
    (hs : Json.parse s = .ok v) :
    m.Yields (Flow.runUiAs shape (.ok interaction)).program (.value (.decoded shape x)) ↔
      shape.decode v = .ok x := by
  rw [(yields_runUiAs shape ha hs).iff, eq_comm, Verdict.ofExcept_eq_value_iff Dyn.decoded_inj,
    Shape.decodeText, mapError_eq_ok_iff]

theorem yields_runUiAs_fault
    (ha : (m.world.scene.hosted .ui).Answers (encodeInteraction interaction) s)
    (hs : Json.parse s = .ok v) (hdecode : ∀ x, shape.decode v ≠ .ok x) :
    ∃ reason, m.Yields (Flow.runUiAs shape (.ok interaction)).program
      (.fault (.decode v.compact reason)) := by
  have hyields := yields_runUiAs shape ha hs
  unfold Shape.decodeText at hyields
  cases h : shape.decode v with
  | ok x => exact absurd h (hdecode x)
  | error e =>
    rw [h] at hyields
    exact ⟨_, hyields⟩

/-- A successful response of the API is decoded from its body. -/
theorem yields_callEndpoint (shape : Shape)
    (ha : (m.world.scene.hosted .api).Answers request response)
    (hcode : response.isSuccess = true) :
    m.Yields (Flow.callEndpoint shape request).program
      (.ofExcept (((shape.parseText response.body).mapError (Fault.decode response.body)).map
        (Dyn.received shape))) := by
  refine yields_andThen (.api request) rfl ha rfl ?_
  rw [if_pos hcode]
  cases shape.parseText response.body <;> rfl

theorem yields_callEndpoint_iff (ha : (m.world.scene.hosted .api).Answers request response)
    (hcode : response.isSuccess = true) :
    m.Yields (Flow.callEndpoint shape request).program (.value (.received shape x)) ↔
      shape.parse response.body = .ok x := by
  rw [(yields_callEndpoint shape ha hcode).iff, eq_comm,
    Verdict.ofExcept_eq_value_iff Dyn.received_inj, Shape.parseText, mapError_eq_ok_iff]

theorem yields_callEndpoint_fault (ha : (m.world.scene.hosted .api).Answers request response)
    (hcode : response.isSuccess = true) (hparse : ∀ x, shape.parse response.body ≠ .ok x) :
    ∃ reason, m.Yields (Flow.callEndpoint shape request).program
      (.fault (.decode response.body reason)) := by
  have hyields := yields_callEndpoint shape ha hcode
  unfold Shape.parseText at hyields
  cases h : shape.parse response.body with
  | ok x => exact absurd h (hparse x)
  | error e =>
    rw [h] at hyields
    exact ⟨_, hyields⟩

/-- A response that reports no success is handed on as it is. -/
theorem yields_callEndpoint_error (ha : (m.world.scene.hosted .api).Answers request response)
    (hcode : response.isSuccess = false) :
    m.Yields (Flow.callEndpoint shape request).program
      (.value (.refused shape response.toError)) := by
  change m.Yields _ (.ofExcept (.ok (.refused shape response.toError)))
  refine yields_andThen (.api request) rfl ha rfl ?_
  rw [if_neg (by simp [hcode])]
  rfl

end Machine

def profileShape : Shape := .record "Profile" [⟨"name", .leaf .text, .required⟩]

def pinShape : Shape := .record "Pin" [
  ⟨"pin", .leaf .text, .required⟩,
  ⟨"attempts", .leaf (.integer "u8" 0 255), .value (.nat 0)⟩,
  ⟨"note", .optional .text, .nullable⟩]

/-- The types whose data programs ask for. -/
def responseShapes : List Shape := [
  Wire.shape Store, Wire.shape Permission, Wire.shape PermissionStatus,
  Wire.shape PermissionResponse, Wire.shape HttpMethod, Wire.shape ApiRequest,
  Wire.shape ApiResponse, Wire.shape ErrorResponse, Wire.shape Outcome, Wire.shape RunnerConfig,
  profileShape, pinShape,
  .plain .any, .plain (.leaf .ident), .plain (.leaf .text), .plain (.leaf .flag),
  .plain (.leaf (.integer "u8" 0 255)),
  .plain (.leaf (.integer "i64" (-0x8000000000000000) 0x7FFFFFFFFFFFFFFF)),
  .plain (.list (.integer "u32" 0 0xFFFFFFFF)), .plain (.optional .text)]

theorem responseShapes_sound : ∀ shape ∈ responseShapes, shape.Sound := by
  simp [responseShapes, profileShape, pinShape, Wire.shape, Shape.Sound]

/-- A typed interaction and a typed request that get the same text end with the same data, or both
report a mismatch: the one with the value that was read, the other with the text. A response that
reports no success is handed on, whatever its body is. -/
theorem runUiAs_callEndpoint_agree {shape : Shape} (hshape : shape ∈ responseShapes) {r' : Runner}
    {m' : Machine r'} {response : ApiResponse} {request : ApiRequest}
    (hendpoint : (m'.world.scene.hosted .api).Answers request response) :
    (200 ≤ response.code → response.code < 300 →
      ∀ v, Json.parse response.body = .ok v → Json.Unrepeated response.body →
      ∀ (r : Runner) (m : Machine r) (interaction : Json),
        (m.world.scene.hosted .ui).Answers (encodeInteraction interaction) response.body →
        (∀ x,
          (m.Yields (Flow.runUiAs shape (.ok interaction)).program (.value (.decoded shape x)) ↔
            m'.Yields (Flow.callEndpoint shape request).program (.value (.received shape x))) ∧
          (m.Yields (Flow.runUiAs shape (.ok interaction)).program (.value (.decoded shape x)) ↔
            shape.decode v = .ok x)) ∧
        ((∀ x, shape.decode v ≠ .ok x) → ∃ reason reason',
          m.Yields (Flow.runUiAs shape (.ok interaction)).program
            (.fault (.decode v.compact reason)) ∧
          m'.Yields (Flow.callEndpoint shape request).program
            (.fault (.decode response.body reason')))) ∧
    (¬ (200 ≤ response.code ∧ response.code < 300) →
      m'.Yields (Flow.callEndpoint shape request).program
        (.value (.refused shape ⟨response.code, response.status, response.body⟩))) := by
  have hsound : shape.Sound := responseShapes_sound shape hshape
  refine ⟨?_, fun hcode => ?_⟩
  · intro hle hlt v hs hkeys r m interaction hui
    have hsuccess : response.isSuccess = true := by simp [ApiResponse.isSuccess, hle, hlt]
    have hagree : ∀ x, shape.parse response.body = .ok x ↔ shape.decode v = .ok x :=
      fun _ => Shape.parse_iff_decode hsound hs hkeys
    refine ⟨fun x => ⟨?_, Machine.yields_runUiAs_iff hui hs⟩, fun hdecode => ?_⟩
    · rw [Machine.yields_runUiAs_iff hui hs,
        Machine.yields_callEndpoint_iff hendpoint hsuccess, hagree]
    · obtain ⟨reason, hu⟩ := Machine.yields_runUiAs_fault hui hs hdecode
      obtain ⟨reason', he⟩ := Machine.yields_callEndpoint_fault hendpoint hsuccess
        (fun x hx => hdecode x ((hagree x).mp hx))
      exact ⟨reason, reason', hu, he⟩
  · exact Machine.yields_callEndpoint_error hendpoint
      (by simpa [ApiResponse.isSuccess] using hcode)

/-- A pin with its keys in no order, an unknown member, and a field left out. -/
def scrambledPin : Json :=
  .obj [("pin", .str "7\"\n"), ("id", .arr [.obj [("b", .null), ("a", .bool true)]]),
    ("attempts", .num (.int 3))]

theorem spells_scrambledPin : Json.Spells scrambledPin.compact.toList scrambledPin := by
  apply Json.spells_compact
  simp [scrambledPin, Json.Integral, Json.All, Json.AllItems, Json.AllMembers, Number.isWord]

theorem parse_scrambledPin : Json.parse scrambledPin.compact = .ok scrambledPin.canonical :=
  Json.parse_eq_ok_iff.mpr ⟨_, spells_scrambledPin, by decide, rfl⟩

theorem unrepeated_scrambledPin : Json.Unrepeated scrambledPin.compact := by
  refine ⟨scrambledPin, spells_scrambledPin, ?_⟩
  simp [scrambledPin, Json.Distinct, Json.All, Json.AllItems, Json.AllMembers, Assoc.Distinct]

def pinCreated : ApiResponse := ⟨201, "Created", scrambledPin.compact, .empty⟩

def pinMissing : ApiResponse := ⟨404, "Not Found", "]", .empty⟩

/-- A machine whose API gives this response, and whose user
interface answers with the body of it. -/
def answering (response : ApiResponse) : Machine ⟨⟨.stateless fun _ => .ok response.body,
    .stateless fun _ => .ok response, .unconfigured .permissions, .unconfigured .storage⟩,
      .default⟩ :=
  ⟨⟨0, #[], #[], #[], (), (), (), (), [], []⟩, #[]⟩

/-- The pin is decoded as a pin both ways, and as a profile neither way. -/
theorem runUiAs_callEndpoint_agree_pin :
    ((answering pinCreated).Yields (Flow.runUiAs pinShape (.ok .null)).program
        (.value
          (.decoded pinShape
            (.obj [("attempts", .num (.int 3)), ("note", .null), ("pin", .str "7\"\n")]))) ∧
      (answering pinCreated).Yields (Flow.callEndpoint pinShape (.new .get "/pin")).program
        (.value
          (.received pinShape
            (.obj [("attempts", .num (.int 3)), ("note", .null), ("pin", .str "7\"\n")])))) ∧
    (∃ reason reason',
      (answering pinCreated).Yields (Flow.runUiAs profileShape (.ok .null)).program
        (.fault (.decode scrambledPin.canonical.compact reason)) ∧
      (answering pinCreated).Yields (Flow.callEndpoint profileShape (.new .get "/pin")).program
        (.fault (.decode scrambledPin.compact reason'))) ∧
    (answering pinMissing).Yields (Flow.callEndpoint pinShape (.new .get "/pin")).program
      (.value (.refused pinShape ⟨404, "Not Found", "]"⟩)) := by
  have hapi (response : ApiResponse) :
      ((answering response).world.scene.hosted .api).Answers (.new .get "/pin") response :=
    Hosted.answers_stateless rfl
  have hui :
      ((answering pinCreated).world.scene.hosted .ui).Answers
          (encodeInteraction .null) pinCreated.body :=
    Hosted.answers_stateless rfl
  have hpin : pinShape ∈ responseShapes := by simp [responseShapes]
  have hprofile : profileShape ∈ responseShapes := by simp [responseShapes]
  obtain ⟨hagree, -⟩ :=
    (runUiAs_callEndpoint_agree hpin (hapi pinCreated)).1 (by decide) (by decide) _
      parse_scrambledPin unrepeated_scrambledPin _ _ _ hui
  obtain ⟨-, hfail⟩ :=
    (runUiAs_callEndpoint_agree hprofile (hapi pinCreated)).1 (by decide) (by decide) _
      parse_scrambledPin unrepeated_scrambledPin _ _ _ hui
  have hyields :=
    (hagree (.obj [("attempts", .num (.int 3)), ("note", .null), ("pin", .str "7\"\n")])).2.mpr
      (by decide +kernel)
  refine ⟨⟨hyields, (hagree _).1.mp hyields⟩, hfail ?_, ?_⟩
  · have hdecode : profileShape.decode scrambledPin.canonical = .error (.missingField "name") := by
      decide +kernel
    rw [hdecode]
    nofun
  · exact (runUiAs_callEndpoint_agree hpin (hapi pinMissing)).2 (by decide)

end Workflow
