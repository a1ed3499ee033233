import Workflow.Service.Permissions

/-! Static permissions over whole histories.

What a permission provider answers depends on all the calls before. `Entitled` says, from
the calls alone, which permissions are granted by then; the grant set of the provider is
carried along the calls as these. -/
namespace Workflow

@[simp] theorem PermissionStatus.ofBool_eq_granted {b : Bool} :
    ofBool b = .granted ↔ b = true := by
  cases b <;> simp [ofBool]

/-- The reply to a call says that the permission is granted: a check says so of all the permissions
that it was asked for, a request of each by itself. -/
def PermissionCall.Grants : (call : PermissionCall) → call.Reply → Permission → Prop
  | .check ps, status, x => status = .granted ∧ x ∈ ps
  | .request _, responses, x => (⟨x, .granted⟩ : PermissionResponse) ∈ responses

namespace StaticPermissions
variable {p : StaticPermissions} {ps : List Permission} {calls later : List PermissionCall}
  {call : PermissionCall} {x y : Permission}

/-- The provider after some calls. -/
def after (p : StaticPermissions) (calls : List PermissionCall) : StaticPermissions :=
  calls.foldl (fun p call => (p.call call).1) p

/-- The permission was granted to begin with, or it has been requested
and what is requested is granted. -/
def Entitled (p : StaticPermissions) (calls : List PermissionCall) (x : Permission) : Prop :=
  x ∈ p.granted ∨ p.grantOnRequest = true ∧ ∃ ps, .request ps ∈ calls ∧ x ∈ ps

/-- A reply to one of the calls has said that the permission is granted. -/
def Told (p : StaticPermissions) (calls : List PermissionCall) (x : Permission) : Prop :=
  ∃ before call later, calls = before ++ call :: later ∧
    call.Grants ((p.after before).call call).2 x

theorem isGranted_iff : p.isGranted x = true ↔ x ∈ p.granted := List.contains_iff_mem

theorem check_eq_granted : p.check ps = .granted ↔ ∀ x ∈ ps, x ∈ p.granted := by
  simp [check, isGranted_iff]

theorem decide_grantOnRequest : (p.decide x).1.grantOnRequest = p.grantOnRequest := by
  simp only [decide]
  split <;> rfl

theorem mem_decide :
    y ∈ (p.decide x).1.granted ↔ y ∈ p.granted ∨ p.grantOnRequest = true ∧ y = x := by
  simp only [decide]
  split
  next h => grind [isGranted_iff]
  next h => grind [isGranted_iff]

theorem decideAll_grantOnRequest : (p.decideAll ps).1.grantOnRequest = p.grantOnRequest := by
  induction ps generalizing p with
  | nil => rfl
  | cons x ps ih => exact ih.trans decide_grantOnRequest

/-- Deciding about permissions grants them if what is requested
is granted, and does nothing else. -/
theorem mem_decideAll :
    y ∈ (p.decideAll ps).1.granted ↔
      y ∈ p.granted ∨ p.grantOnRequest = true ∧ y ∈ ps := by
  induction ps generalizing p with
  | nil => simp [decideAll]
  | cons x ps ih =>
    have hrest : (p.decideAll (x :: ps)).1 = ((p.decide x).1.decideAll ps).1 := rfl
    rw [hrest, ih, mem_decide, decide_grantOnRequest, List.mem_cons]
    grind

/-- The responses come in the order of the permissions. Each of them is given before the later
permissions are decided about, and still says what is the case when all are. -/
theorem decideAll_responses :
    (p.decideAll ps).2 = ps.map fun x => ⟨x, .ofBool ((p.decideAll ps).1.isGranted x)⟩ := by
  induction ps generalizing p with
  | nil => rfl
  | cons x ps ih =>
    have hfirst : (p.decide x).1.isGranted x = ((p.decide x).1.decideAll ps).1.isGranted x := by
      rw [Bool.eq_iff_iff, isGranted_iff, isGranted_iff, mem_decideAll, mem_decide,
        decide_grantOnRequest]
      grind
    have hresponse : (p.decide x).2 = ⟨x, .ofBool ((p.decide x).1.isGranted x)⟩ := rfl
    have hrest : p.decideAll (x :: ps) =
        (((p.decide x).1.decideAll ps).1, (p.decide x).2 :: ((p.decide x).1.decideAll ps).2) := rfl
    rw [hrest, List.map_cons, hresponse, hfirst, ih]

theorem call_grantOnRequest : (p.call call).1.grantOnRequest = p.grantOnRequest := by
  cases call with
  | check ps => rfl
  | request ps => exact decideAll_grantOnRequest

/-- One call more at the beginning. -/
theorem entitled_call : (p.call call).1.Entitled calls x ↔ p.Entitled (call :: calls) x := by
  unfold Entitled
  rw [call_grantOnRequest]
  cases call with
  | check ps => simp [StaticPermissions.call]
  | request ps =>
    have hmem : x ∈ (p.call (.request ps)).1.granted ↔
        x ∈ p.granted ∨ p.grantOnRequest = true ∧ x ∈ ps :=
      mem_decideAll
    rw [hmem]
    simp only [List.mem_cons, PermissionCall.request.injEq]
    grind

theorem after_append : p.after (calls ++ later) = (p.after calls).after later := List.foldl_append

theorem after_concat : p.after (calls ++ [call]) = ((p.after calls).call call).1 := after_append

/-- The grant set after some calls is known from the calls. -/
theorem mem_after : x ∈ (p.after calls).granted ↔ p.Entitled calls x := by
  induction calls generalizing p with
  | nil => simp [after, Entitled]
  | cons call calls ih => exact ih.trans entitled_call

theorem Entitled.append (h : p.Entitled calls x) (later : List PermissionCall) :
    p.Entitled (calls ++ later) x := by
  obtain h | ⟨hgrant, ps, hmem, hx⟩ := h
  · exact .inl h
  · exact .inr ⟨hgrant, ps, List.mem_append_left later hmem, hx⟩

theorem call_request_responses : (p.call (.request ps)).2 =
    ps.map fun x => ⟨x, .ofBool ((p.call (.request ps)).1.isGranted x)⟩ :=
  decideAll_responses

/-- A check is answered by the history. -/
theorem check_after :
    ((p.after calls).call (.check ps)).2 = .granted ↔ ∀ x ∈ ps, p.Entitled calls x := by
  simp only [← mem_after]
  exact check_eq_granted

/-- A response is given by the history in which the request stands already. -/
theorem request_after {response : PermissionResponse}
    (h : response ∈ ((p.after calls).call (.request ps)).2) :
    response.status = .granted ↔ p.Entitled (calls ++ [.request ps]) response.permission := by
  rw [call_request_responses] at h
  obtain ⟨x, -, rfl⟩ := List.mem_map.mp h
  rw [PermissionStatus.ofBool_eq_granted, isGranted_iff, ← after_concat, mem_after]

/-- What a reply says is granted is granted after the call. -/
theorem mem_of_grants (h : call.Grants (p.call call).2 x) : x ∈ (p.call call).1.granted := by
  cases call with
  | check ps => exact check_eq_granted.mp h.1 x h.2
  | request ps =>
    have hmem : (⟨x, .granted⟩ : PermissionResponse) ∈ (p.call (.request ps)).2 := h
    rw [call_request_responses] at hmem
    obtain ⟨y, -, heq⟩ := List.mem_map.mp hmem
    obtain ⟨rfl, hstatus⟩ := PermissionResponse.mk.inj heq
    exact isGranted_iff.mp (PermissionStatus.ofBool_eq_granted.mp hstatus)

theorem Told.entitled (h : p.Told calls x) : p.Entitled calls x := by
  obtain ⟨before, call, later, rfl, hgrants⟩ := h
  have hmem := mem_of_grants hgrants
  rw [← after_concat, mem_after] at hmem
  rw [List.append_cons]
  exact hmem.append later

end StaticPermissions

end Workflow
