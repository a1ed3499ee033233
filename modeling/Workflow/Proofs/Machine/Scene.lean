import Workflow.Proofs.Machine.Turn

/-! What a step does to the containers and the collaborators.

A `Scene` is the part of a world that operations act on. Every step of a task does at most one
`Deed` to it, which the task's phase decides: it updates the task's container, or it hands over one
call to a collaborator or fetches its answer. -/
namespace Workflow

variable {r : Runner}

/-- The containers and the collaborators, whatever the time is. -/
structure Scene (r : Runner) where
  containers : Array Container
  ui : r.collaborators.ui.State
  api : r.collaborators.api.State
  permissions : r.collaborators.permissions.State
  storage : r.collaborators.storage.State
  /-- The calls to collaborators, the latest first. -/
  calls : List Call

/-- A change of a container that an operation asks for. -/
inductive Update where
  | write (key value : String)
  | delete (key : String)
  | writeForeign (key : String) (value : Json)

def Update.apply (u : Update) (c : Container) : Container :=
  match u with
  | .write key value => c.updateNamed key value
  | .delete key => c.deleteNamed key
  | .writeForeign key value => c.writeForeign key value

/-- What a step does to a scene. -/
inductive Deed where
  | update (update : Update)
  /-- A call is handed to its collaborator. -/
  | accept (call : Call)
  /-- The answer to a call is fetched. -/
  | answer (call : Call)

namespace Operation
variable {P : Type}

/-- The call to a collaborator that an operation waits for. -/
def call? : Operation P → Option Call
  | .callApi request => some (.api request)
  | .runUi interaction => some (.ui (encodeInteraction interaction))
  | .read .persistent key => some (.storage (.get key))
  | .write .persistent key value => some (.storage (.set key value))
  | .delete .persistent key => some (.storage (.delete key))
  | .checkPermissions permissions => some (.permissions (.check permissions))
  | .requestPermissions permissions => some (.permissions (.request permissions))
  | _ => none

def update? : Operation P → Option Update
  | .write .ephemeral key value => some (.write key value)
  | .delete .ephemeral key => some (.delete key)
  | .writeForeign key value => some (.writeForeign key value)
  | _ => none

/-- What an operation does to the scene when it is dispatched. -/
def deed? (op : Operation P) : Option Deed := (op.update?.map .update).or (op.call?.map .accept)

theorem deed?_of_call? {op : Operation P} {call : Call} (h : op.call? = some call) :
    op.deed? = some (.accept call) := by
  cases op with
  | read store key | delete store key | write store key value =>
    cases store with
    | persistent =>
      cases h
      rfl
    | ephemeral => cases h
  | _ => cases h <;> rfl

end Operation

namespace World

def scene (w : World r) : Scene r :=
  ⟨w.containers, w.ui, w.api, w.permissions, w.storage, w.calls.map Prod.snd⟩

variable (w : World r)

@[simp] theorem scene_emit (span : Span) (event : Event) : (w.emit span event).scene = w.scene :=
  rfl

@[simp] theorem scene_emitAll (span : Span) (events : List Event) :
    (w.emitAll span events).scene = w.scene := by
  induction events generalizing w with
  | nil => rfl
  | cons event events ih => exact ih (w.emit span event)

end World

namespace Scene
variable (s : Scene r)

/-- A world with this scene and these cells, in which nothing else is. -/
def world (cells : Array Cell) : World r where
  now := 0
  containers := s.containers
  cells := cells
  races := #[]
  ui := s.ui
  api := s.api
  permissions := s.permissions
  storage := s.storage
  calls := s.calls.map (0, ·)
  trace := []

theorem untimed_calls (calls : List Call) : (calls.map ((0 : Nat), ·)).map Prod.snd = calls := by
  rw [List.map_map]
  exact List.map_id calls

@[simp] theorem scene_world (cells : Array Cell) : (s.world cells).scene = s := by
  simp only [World.scene, world, untimed_calls]

def container (i : Nat) : Container := s.containers[i]?.getD .empty

def update (i : Nat) (u : Update) : Scene r :=
  { s with containers := s.containers.modify i u.apply }

/-- Hands a call to its collaborator. -/
def accept (call : Call) : Scene r × Reception Reply :=
  (((s.world #[]).accept [] call).1.scene, ((s.world #[]).accept [] call).2)

/-- Fetches the answer to a call that was accepted earlier. -/
def answer (call : Call) : Scene r × Verdict Reply :=
  (((s.world #[]).answer [] call).1.scene, ((s.world #[]).answer [] call).2)

@[simp] theorem accept_ui (request : String) : (s.accept (.ui request)).1 =
    { s with
      ui := (r.collaborators.ui.accept s.ui request).state
      calls := .ui request :: s.calls } := by
  simp only [accept, World.accept, World.scene_emitAll]
  simp only [World.scene, world, List.map_cons, untimed_calls]

@[simp] theorem accept_api (request : ApiRequest) : (s.accept (.api request)).1 =
    { s with
      api := (r.collaborators.api.accept s.api request).state
      calls := .api request :: s.calls } := by
  simp only [accept, World.accept, World.scene_emitAll]
  simp only [World.scene, world, List.map_cons, untimed_calls]

@[simp] theorem accept_permissions (call : PermissionCall) : (s.accept (.permissions call)).1 =
    { s with
      permissions := (r.collaborators.permissions.accept s.permissions call).state
      calls := .permissions call :: s.calls } := by
  simp only [accept, World.accept, World.scene_emitAll]
  simp only [World.scene, world, List.map_cons, untimed_calls]

@[simp] theorem accept_storage (call : StorageCall) : (s.accept (.storage call)).1 =
    { s with
      storage := (r.collaborators.storage.accept s.storage call).state
      calls := .storage call :: s.calls } := by
  simp only [accept, World.accept, World.scene_emitAll]
  simp only [World.scene, world, List.map_cons, untimed_calls]

@[simp] theorem answer_ui (request : String) : (s.answer (.ui request)).1 =
    { s with ui := (r.collaborators.ui.answer s.ui request).state } := by
  simp only [answer, World.answer, World.scene_emitAll]
  simp only [World.scene, world, untimed_calls]

@[simp] theorem answer_api (request : ApiRequest) : (s.answer (.api request)).1 =
    { s with api := (r.collaborators.api.answer s.api request).state } := by
  simp only [answer, World.answer, World.scene_emitAll]
  simp only [World.scene, world, untimed_calls]

@[simp] theorem answer_permissions (call : PermissionCall) : (s.answer (.permissions call)).1 =
    { s with permissions := (r.collaborators.permissions.answer s.permissions call).state } := by
  simp only [answer, World.answer, World.scene_emitAll]
  simp only [World.scene, world, untimed_calls]

@[simp] theorem answer_storage (call : StorageCall) : (s.answer (.storage call)).1 =
    { s with storage := (r.collaborators.storage.answer s.storage call).state } := by
  simp only [answer, World.answer, World.scene_emitAll]
  simp only [World.scene, world, untimed_calls]

end Scene

namespace World
variable (w : World r) (span : Span) (call : Call)

/-- What a collaborator does depends on the scene alone. -/
theorem scene_accept : (w.accept span call).1.scene = (w.scene.accept call).1 := by
  cases call <;> simp only [accept, Scene.accept, scene_emitAll] <;>
    simp only [scene, Scene.world, List.map_cons, Scene.untimed_calls]

theorem accept_reception : (w.accept span call).2 = (w.scene.accept call).2 := by
  cases call <;> rfl

theorem scene_answer : (w.answer span call).1.scene = (w.scene.answer call).1 := by
  cases call <;> simp only [answer, Scene.answer, scene_emitAll] <;>
    simp only [scene, Scene.world, Scene.untimed_calls]

theorem answer_verdict : (w.answer span call).2 = (w.scene.answer call).2 := by
  cases call <;> rfl

end World

/-- What the next step of a task in this phase does to the scene. -/
def Phase.deed? : Phase → Option Deed
  | .running c =>
    match c.advance with
    | .execute op _ => op.deed?
    | .finished _ => none
  | .sleeping _ (.call call) _ => some (.answer call)
  | .sleeping _ (.background request) _ => some (.answer (.ui request))
  | .opening request => some (.accept (.ui request))
  | _ => none

/-- The scene after a deed of a task that works on this container. -/
def Scene.after (s : Scene r) (container : Nat) : Option Deed → Scene r
  | none => s
  | some (.update u) => s.update container u
  | some (.accept call) => (s.accept call).1
  | some (.answer call) => (s.answer call).1

namespace Task
variable {t : Task} {w : World r} {self : Nat} {pending : List Continuation}

@[simp] theorem crash_scene (t : Task) (w : World r) (self : Nat) (message : String) :
    (t.crash w self message).world.scene = w.scene := by
  unfold crash
  cases t.role <;> rfl

@[simp] theorem conclude_scene (t : Task) (w : World r) (result : Except Fault Dyn) :
    (t.conclude w result).world.scene = w.scene := by
  unfold conclude
  cases t.role with
  | run => cases result <;> rfl
  | fork h =>
    simp only [enter]
    cases result >>= Dyn.take .json <;> rfl
  | _ => rfl

@[simp] theorem finish_scene (t : Task) (w : World r) (result : Except Fault Dyn) :
    (t.finish w result).world.scene = w.scene := by
  unfold finish
  split
  · exact conclude_scene t w result
  · simp only [leaveBoundary]
    split <;> rfl

@[simp] theorem receive_scene (t : Task) (w : World r) (self : Nat) (pending : List Continuation)
    (verdict : Verdict Reply) : (t.receive w self pending verdict).world.scene = w.scene := by
  cases verdict with
  | value reply => rfl
  | fault e => rfl
  | panic message => exact crash_scene t w self message

@[simp] theorem closeBackground_scene (t : Task) (w : World r) (self : Nat)
    (verdict : Verdict Reply) : (t.closeBackground w self verdict).world.scene = w.scene := by
  unfold closeBackground
  split
  · split <;> rfl
  · rfl
  · rfl
  · exact crash_scene t w self _

theorem delegate_scene (t : Task) (w : World r) (self : Nat) (pending : List Continuation)
    (call : Call) : (t.delegate w self pending call).world.scene = (w.scene.accept call).1 := by
  rw [← w.scene_accept t.span call]
  unfold delegate
  split
  next u verdict h => rw [receive_scene, h]
  next u wait h => rw [h]; rfl

theorem openBackground_scene (t : Task) (w : World r) (self : Nat) (request : String) :
    (t.openBackground w self request).world.scene = (w.scene.accept (.ui request)).1 := by
  rw [← w.scene_accept t.span (.ui request)]
  unfold openBackground
  split
  next u verdict h => rw [closeBackground_scene, h]
  next u wait h => rw [h]; rfl

theorem execute_of_call? {op : Operation Program} {call : Call} (h : op.call? = some call)
    (t : Task) (w : World r) (self : Nat) (pending : List Continuation) :
    t.execute w self pending op = t.delegate w self pending call := by
  cases op with
  | read store key | delete store key | write store key value =>
    cases store with
    | persistent =>
      cases h
      rfl
    | ephemeral => cases h
  | _ => cases h <;> rfl

theorem execute_scene (t : Task) (w : World r) (self : Nat) (pending : List Continuation)
    (op : Operation Program) :
    (t.execute w self pending op).world.scene = w.scene.after t.container op.deed? := by
  cases hc : op.call? with
  | some call =>
    rw [execute_of_call? hc, delegate_scene, Operation.deed?_of_call? hc]
    rfl
  | none =>
    cases op with
    | read store key | delete store key | write store key value =>
      cases store with
      | persistent => cases hc
      | ephemeral => rfl
    | race ps => cases ps <;> rfl
    | callApi | runUi | checkPermissions | requestPermissions => cases hc
    | _ => rfl

theorem wake_scene (t : Task) (w : World r) (self : Nat) (pending : List Continuation)
    (due : Option Nat) (alarm : Alarm) :
    (t.wake w self pending alarm).world.scene =
      w.scene.after t.container (Phase.sleeping due alarm pending).deed? := by
  cases alarm with
  | delay => rfl
  | external ending =>
    cases ending with
    | panic message => exact crash_scene t w self message
    | _ => rfl
  | call call =>
    rw [wake, receive_scene, World.scene_answer]
    rfl
  | background request =>
    rw [wake, closeBackground_scene, World.scene_answer]
    rfl
  | host h result => cases result <;> rfl

theorem judge_scene (t : Task) (w : World r) (race : Nat) (pending : List Continuation) (x : Race)
    (a : Arrival) (rest : List Arrival) :
    (t.judge w race pending x a rest).world.scene = w.scene := by
  simp only [judge]
  split <;> rfl

/-- The phase of a task decides what its next step does to the scene. -/
theorem step?_scene {e : Effect r} (h : t.step? w self = some e) :
    e.world.scene = w.scene.after t.container t.phase.deed? := by
  unfold step? at h
  split at h
  next c hp =>
    simp only [hp, Phase.deed?]
    split at h <;> cases h
    next result hc =>
      rw [hc, finish_scene]
      rfl
    next op pending hc =>
      rw [hc]
      simp only [dispatch]
      split <;> exact execute_scene ..
  next => cases h
  next due alarm pending hp =>
    split at h
    · cases h
      rw [hp, wake_scene]
    · cases h
  next handle pending hp =>
    obtain ⟨result, hc, rfl⟩ := Option.map_eq_some_iff.mp h
    rw [hp]
    rfl
  next race pending hp =>
    rw [hp]
    split at h
    · split at h
      · cases h
        exact judge_scene ..
      · split at h <;> cases h
        rfl
    · cases h
  next request hp =>
    cases h
    rw [hp, openBackground_scene]
    rfl
  next => cases h

end Task

end Workflow
