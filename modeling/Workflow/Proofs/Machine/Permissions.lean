import Workflow.Proofs.Machine.Delegation
import Workflow.Proofs.Service.Permissions

/-! Programs that ask for permissions.

The permission operations that the tasks of a machine dispatch, in the order of their dispatch and
whichever tasks they are of, are the history of a static provider, and each of them goes on with the
answer from that history. -/
namespace Workflow

/-- A runner with static permissions. -/
def Runner.granting (ui : UiService) (api : ApiService) (storage : StorageService)
    (config : RunnerConfig) :
    Runner :=
  ⟨⟨ui, api, StaticPermissions.service, storage⟩, config⟩

/-- The result that the reply to a call hands to the program. -/
def PermissionCall.result : (call : PermissionCall) → call.Reply → Dyn
  | .check _, status => ⟨.status, status⟩
  | .request _, responses => ⟨.list .answer, responses⟩

def Call.permissionCall? : Call → Option PermissionCall
  | .permissions call => some call
  | _ => none

namespace Operation
variable {P : Type}

def permissionCall? : Operation P → Option PermissionCall
  | .checkPermissions permissions => some (.check permissions)
  | .requestPermissions permissions => some (.request permissions)
  | _ => none

theorem call?_permissionCall? (op : Operation P) :
    op.call?.bind Call.permissionCall? = op.permissionCall? := by
  cases op with
  | read store key | write store key value | delete store key => cases store <;> rfl
  | _ => rfl

end Operation

theorem Phase.accepts?_permissionCall? (p : Phase) :
    p.accepts?.bind Call.permissionCall? = p.operation?.bind Operation.permissionCall? := by
  simp only [accepts?_bind, Operation.call?_permissionCall?]
  cases p <;> rfl

section
variable {ui : UiService} {api : ApiService} {storage : StorageService} {config : RunnerConfig}

theorem Runner.granting_decidesAtOnce : (Runner.granting ui api storage config).DecidesAtOnce :=
  fun _ _ => ⟨_, rfl⟩

/-- The provider changes by the calls that are handed to it. -/
theorem Scene.permissions_after (s : Scene (.granting ui api storage config)) (i : Nat) {p : Phase}
    (hp : p.Unpermitting) : ((s.after i p.deed?).permissions : StaticPermissions) =
      (p.accepts?.bind Call.permissionCall?).elim (s.permissions : StaticPermissions)
        fun call => ((s.permissions : StaticPermissions).call call).1 := by
  unfold Phase.accepts?
  cases hd : p.deed? with
  | none => rfl
  | some d =>
    cases d with
    | update u => rfl
    | accept call =>
      cases call <;> simp only [after, accept, World.accept, World.scene_emitAll] <;> rfl
    | answer call =>
      obtain ⟨due, pending, rfl | ⟨request, rfl, -⟩⟩ := Phase.sleeping_of_answer hd
      · -- nobody sleeps for an answer about permissions
        cases call with
        | permissions call => exact absurd rfl (hp due call pending)
        | _ =>
          simp only [after, answer, World.answer, World.scene_emitAll]
          rfl
      · simp only [after, answer, World.answer, World.scene_emitAll]
        rfl

/-- A permission operation goes on with the provider's reply in the same step. -/
theorem Task.dispatch_permissions {t : Task} {w : World (.granting ui api storage config)}
    {self : Nat} {pending : List Continuation} {op : Operation Program} {call : PermissionCall}
    (hop : op.permissionCall? = some call) :
    (t.dispatch w self pending op).task = { t with
      phase := .running (.resume pending
        (.ok (call.result ((w.permissions : StaticPermissions).call call).2))) } := by
  cases op with
  | checkPermissions ps =>
    cases hop
    rfl
  | requestPermissions ps =>
    cases hop
    rfl
  | _ => cases hop

namespace Machine
variable {m m' : Machine (.granting ui api storage config)} {a : Happening} {as : List Happening}

/-- The permission operations that are dispatched in a run. -/
def permissionCalls {r : Runner} (m : Machine r) (as : List Happening) : List PermissionCall :=
  (m.dispatched as).filterMap Operation.permissionCall?

theorem permissions_happen (hm : m.Unpermitting) (ha : m.happen? a = some m') :
    (m'.world.permissions : StaticPermissions) =
      (m.note? (fun t => t.phase.operation?.bind Operation.permissionCall?) a).elim
        (m.world.permissions : StaticPermissions)
        fun call => ((m.world.permissions : StaticPermissions).call call).1 := by
  obtain ⟨i, t, rfl, ht, hscene⟩ | ⟨hn, -⟩ := happen?_scene ha
  · have hafter := m.world.scene.permissions_after t.container (hm i t ht)
    rw [← hscene, Phase.accepts?_permissionCall?] at hafter
    rw [note?, ht]
    exact hafter
  · rw [note?_of_ne hn]
    exact (rests_of_idle ha hn).permissions

/-- The provider is at every moment what the dispatched operations have made of it. -/
theorem permissions_run (hm : m.Unpermitting) (h : Run m as m') :
    (m'.world.permissions : StaticPermissions) =
      (m.world.permissions : StaticPermissions).after (m.permissionCalls as) := by
  have hcalls : (m'.world.permissions : StaticPermissions) =
      (m.journal (fun t => t.phase.operation?.bind Operation.permissionCall?) as).foldl
        (fun p call => (p.call call).1) (m.world.permissions : StaticPermissions) :=
    run_journal (fun m => (m.world.permissions : StaticPermissions)) (P := Unpermitting)
      (fun m a m' hm ha =>
        ⟨unpermitting_happen Runner.granting_decidesAtOnce hm ha,
          permissions_happen hm ha⟩) h hm
  rw [hcalls, permissionCalls, dispatched, journal_filterMap]
  rfl

/-- A task that has come to a permission operation gets the provider's reply by its next step. -/
theorem step?_permissions {i : Nat} {t : Task} {c : Cursor} {op : Operation Program}
    {call : PermissionCall} {pending : List Continuation} (ht : m.tasks[i]? = some t)
    (hp : t.phase = .running c) (hc : c.advance = .execute op pending)
    (hop : op.permissionCall? = some call) :
    ∃ m', m.step? i = some m' ∧ m'.tasks[i]? = some { t with
      phase := .running (.resume pending
        (.ok (call.result ((m.world.permissions : StaticPermissions).call call).2))) } := by
  obtain ⟨m', hstep, hs⟩ := stepped_dispatch ht hp hc
  refine ⟨m', hstep, ?_⟩
  rw [hs.self, Task.dispatch_permissions hop]

end Machine

end

namespace Machine

/-- Whether a permission is granted depends on the history of calls alone, and once granted it stays
so. On a machine this is the history of the permission operations that its tasks have dispatched. -/
theorem permissions_follow_history (p : StaticPermissions) (calls : List PermissionCall) :
    (∀ ps, ((p.after calls).call (.check ps)).1 = p.after calls ∧
      (((p.after calls).call (.check ps)).2 = .granted ↔ ∀ x ∈ ps, p.Entitled calls x)) ∧
    (∀ ps, ((p.after calls).call (.request ps)).2.map (·.permission) = ps ∧
      ∀ response ∈ ((p.after calls).call (.request ps)).2,
        response.status = .granted ↔ p.Entitled (calls ++ [.request ps]) response.permission) ∧
    (∀ later x, (p.after calls).isGranted x = true →
      (p.after (calls ++ later)).isGranted x = true) ∧
    (∀ later ps, (∀ x ∈ ps, p.Told calls x) →
      ((p.after (calls ++ later)).call (.check ps)).2 = .granted) ∧
    ∀ (ui : UiService) (api : ApiService) (storage : StorageService) (config : RunnerConfig)
      (m m' : Machine (.granting ui api storage config)) (as : List Happening), Initial m →
      (m.world.permissions : StaticPermissions) = p → Run m as m' →
      m.permissionCalls as = calls →
      (m'.world.permissions : StaticPermissions) = p.after calls ∧
      ∀ i t c op call pending, m'.tasks[i]? = some t → t.phase = .running c →
        c.advance = .execute op pending → op.permissionCall? = some call →
        ∃ m'', m'.step? i = some m'' ∧ m''.tasks[i]? = some { t with
          phase :=
            .running (.resume pending (.ok (call.result ((p.after calls).call call).2))) } := by
  refine ⟨fun ps => ⟨rfl, StaticPermissions.check_after⟩, ?_, ?_, ?_, ?_⟩
  · intro ps
    refine ⟨?_, fun response => StaticPermissions.request_after⟩
    rw [StaticPermissions.call_request_responses, List.map_map]
    exact List.map_id ps
  · intro later x hx
    rw [StaticPermissions.isGranted_iff, StaticPermissions.mem_after] at hx ⊢
    exact hx.append later
  · intro later ps htold
    refine StaticPermissions.check_after.mpr fun x hx => ?_
    exact (htold x hx).entitled.append later
  · rintro ui api storage config m m' as hm rfl hrun rfl
    have hstate := permissions_run (unpermitting_initial hm) hrun
    refine ⟨hstate, ?_⟩
    intro i t c op call pending ht hp hc hop
    rw [← hstate]
    exact step?_permissions ht hp hc hop

/-- Checks a permission, requests it twice, and checks it again together with another one. -/
def asking : Flow .status :=
  (Flow.checkPermissions [.location]).followedBy
    ((Flow.requestPermissions [.location, .location]).followedBy
      (Flow.checkPermissions [.camera, .location]))

/-- One permission is granted to begin with, and others on request. -/
def camera : Setup :=
  { Bench.new with permissions := ⟨[.camera], true, []⟩ }.setup .empty []

def cameraMachine : Machine (.granting ScriptedUi.service (RecordingApi.service Bench.new.handler)
    MemoryStore.service camera.config) :=
  camera.machine

/-- The permission that was declined at first is granted after the request. -/
theorem permissions_follow_history_asking :
    ∃ m m', Run cameraMachine (.launch asking.program 0 :: [.step 0, .step 0].map .move) m ∧
      m.step? 0 = some m' ∧
      m'.tasks[0]?.map (·.phase) =
        some (.running (.resume [] (.ok ⟨.status, PermissionStatus.granted⟩))) := by
  have hfollow : ∃ m t c,
      cameraMachine.follow? (.launch asking.program 0 :: [.step 0, .step 0].map .move) = some m ∧
      m.tasks[0]? = some t ∧ t.phase = .running c ∧
      c.advance = .execute (.checkPermissions [.camera, .location]) [] :=
    ⟨_, _, _, rfl, rfl, rfl, rfl⟩
  obtain ⟨m, t, c, hm, ht, hp, hc⟩ := hfollow
  have hcalls :
      cameraMachine.permissionCalls (.launch asking.program 0 :: [.step 0, .step 0].map .move) =
      [.check [.location], .request [.location, .location]] := rfl
  obtain ⟨-, -, -, -, hmachine⟩ := permissions_follow_history ⟨[.camera], true, []⟩
    [.check [.location], .request [.location, .location]]
  obtain ⟨-, hnext⟩ :=
    hmachine _ _ _ _ cameraMachine m _ camera.machine_initial rfl (run_of_follow? hm) hcalls
  obtain ⟨m', hstep, htask⟩ := hnext 0 t c _ _ [] ht hp hc rfl
  refine ⟨m, m', run_of_follow? hm, hstep, ?_⟩
  rw [htask]
  rfl

end Machine

end Workflow
