import Mathlib.Data.List.Nodup
import Workflow.Bench
import Workflow.Program.Flow
import Workflow.Proofs.Machine.BackgroundUi
import Workflow.Proofs.Machine.Boundary
import Workflow.Proofs.Machine.Commit
import Workflow.Proofs.Machine.Solo

/-! Every operation reaches its collaborator once.

Collaborators that keep what they are asked show, at every moment of a run, the operations that were
dispatched, in the order of their dispatch and as they were. An interaction in the background is
handed over by a task of its own, which does so once. -/
namespace Workflow

/-- A runner whose collaborators keep what they are asked. The storage may be any. -/
def Runner.recording (handler : ApiRequest → Except Fault ApiResponse) (storage : StorageService)
    (config : RunnerConfig) : Runner :=
  ⟨⟨ScriptedUi.service, RecordingApi.service handler, StaticPermissions.service, storage⟩,
    config⟩

namespace Operation
variable {P : Type}

def apiRequest? : Operation P → Option ApiRequest
  | .callApi request => some request
  | _ => none

/-- The permissions that an operation requests; to check some is not to request them. -/
def permissionRequest? : Operation P → Option (List Permission)
  | .requestPermissions permissions => some permissions
  | _ => none

/-- The text of the interaction that an operation starts in the background. -/
def backgroundRequest? : Operation P → Option String
  | .forkUi interaction => some (encodeInteraction interaction)
  | _ => none

end Operation

namespace Call

def apiRequest? : Call → Option ApiRequest
  | .api request => some request
  | _ => none

def permissionRequest? : Call → Option (List Permission)
  | .permissions (.request ps) => some ps
  | _ => none

def uiRequest? : Call → Option String
  | .ui request => some request
  | _ => none

end Call

namespace Operation
variable {P : Type} (op : Operation P)

theorem call?_apiRequest? : op.call?.bind Call.apiRequest? = op.apiRequest? := by
  cases op with
  | read store key | write store key value | delete store key => cases store <;> rfl
  | _ => rfl

theorem call?_permissionRequest? :
    op.call?.bind Call.permissionRequest? = op.permissionRequest? := by
  cases op with
  | read store key | write store key value | delete store key => cases store <;> rfl
  | _ => rfl

theorem call?_uiRequest? : op.call?.bind Call.uiRequest? = op.interaction? := by
  cases op with
  | read store key | write store key value | delete store key => cases store <;> rfl
  | _ => rfl

end Operation

namespace Phase

/-- The operation that the next step of a task in this phase dispatches. -/
def operation? : Phase → Option (Operation Program)
  | .running c =>
    match c.advance with
    | .execute op _ => some op
    | .finished _ => none
  | _ => none

/-- The text of an interaction in the background that the next step starts. -/
def opening? : Phase → Option String
  | .opening request => some request
  | _ => none

theorem opening?_eq_some_iff {p : Phase} {request : String} :
    p.opening? = some request ↔ p = .opening request := by
  cases p <;> simp [opening?]

/-- The text of the interaction that the next step starts, whether a program waits for it or not. -/
def uiRequest? (p : Phase) : Option String :=
  p.opening?.or (p.operation?.bind Operation.interaction?)

/-- The call that the next step hands to its collaborator. -/
def accepts? (p : Phase) : Option Call :=
  p.deed?.bind fun
    | .accept call => some call
    | _ => none

/-- Calls come from operations that are dispatched and from interactions in the background. -/
theorem accepts?_bind {α : Type} (p : Phase) (f : Call → Option α) :
    p.accepts?.bind f = (p.opening?.bind fun request => f (.ui request)).or
      (p.operation?.bind fun op => op.call?.bind f) := by
  cases p with
  | running c =>
    simp only [accepts?, deed?, operation?, opening?]
    cases c.advance with
    | finished result => rfl
    | execute op pending =>
      cases op with
      | read store key | write store key value | delete store key => cases store <;> rfl
      | _ => rfl
  | sleeping due alarm pending => cases alarm <;> rfl
  | opening request => simp [accepts?, deed?, operation?, opening?]
  | _ => rfl

theorem accepts?_apiRequest? (p : Phase) :
    p.accepts?.bind Call.apiRequest? = p.operation?.bind Operation.apiRequest? := by
  simp only [accepts?_bind, Operation.call?_apiRequest?]
  cases p <;> rfl

theorem accepts?_permissionRequest? (p : Phase) :
    p.accepts?.bind Call.permissionRequest? = p.operation?.bind Operation.permissionRequest? := by
  simp only [accepts?_bind, Operation.call?_permissionRequest?]
  cases p <;> rfl

theorem accepts?_uiRequest? (p : Phase) : p.accepts?.bind Call.uiRequest? = p.uiRequest? := by
  simp only [accepts?_bind, Operation.call?_uiRequest?]
  cases p <;> rfl

end Phase

/-- What collaborators have been asked so far. -/
@[ext]
structure Asked where
  api : List ApiRequest
  permissions : List Permission
  ui : List String

namespace Asked

def add (call : Call) (x : Asked) : Asked where
  api := x.api ++ call.apiRequest?.toList
  permissions := x.permissions ++ call.permissionRequest?.getD []
  ui := x.ui ++ call.uiRequest?.toList

/-- What has been asked is the list of what was asked before and of all that was asked since. -/
theorem foldl_add (calls : List Call) (x : Asked) :
    calls.foldl (fun x call => x.add call) x =
      ⟨x.api ++ calls.filterMap Call.apiRequest?,
        x.permissions ++ (calls.filterMap Call.permissionRequest?).flatten,
        x.ui ++ calls.filterMap Call.uiRequest?⟩ := by
  induction calls generalizing x with
  | nil => simp
  | cons call calls ih =>
    rw [List.foldl_cons, ih]
    cases call with
    | permissions call =>
      cases call <;> simp [add, List.filterMap_cons, Call.apiRequest?, Call.permissionRequest?,
        Call.uiRequest?]
    | _ =>
      simp [add, List.filterMap_cons, Call.apiRequest?, Call.permissionRequest?, Call.uiRequest?]

end Asked

section
variable {handler : ApiRequest → Except Fault ApiResponse} {storage : StorageService}
  {config : RunnerConfig}

/-- What the collaborators have kept. -/
def Scene.asked (s : Scene (.recording handler storage config)) : Asked where
  api := (s.api : RecordingApi).requests.toList
  permissions := (s.permissions : StaticPermissions).requested
  ui := (s.ui : ScriptedUi).requests.toList

theorem StaticPermissions.decideAll_requested (p : StaticPermissions) (ps : List Permission) :
    (p.decideAll ps).1.requested = p.requested := by
  induction ps generalizing p with
  | nil => rfl
  | cons permission ps ih =>
    simp only [decideAll, ih]
    simp only [decide]
    split <;> rfl

theorem ScriptedUi.next_requests (ui : ScriptedUi) : ui.next.1.requests = ui.requests := by
  unfold next
  split <;> rfl

theorem ScriptedUi.accept_requests (ui : ScriptedUi) (request : String) :
    (ui.accept request).state.requests = ui.requests.push request := by
  simp only [accept]
  split
  · rfl
  · exact next_requests _

/-- A collaborator keeps the call that it is handed, and no other keeps it. -/
theorem Scene.asked_accept (s : Scene (.recording handler storage config)) (call : Call) :
    (s.accept call).1.asked = s.asked.add call := by
  cases call with
  | ui request =>
    rw [accept_ui]
    have hkept := ScriptedUi.accept_requests s.ui request
    refine Asked.ext (List.append_nil _).symm (List.append_nil _).symm ?_
    exact (congrArg Array.toList hkept).trans Array.toList_push
  | api request =>
    rw [accept_api]
    exact Asked.ext Array.toList_push (List.append_nil _).symm (List.append_nil _).symm
  | permissions call =>
    rw [accept_permissions]
    refine Asked.ext (List.append_nil _).symm ?_ (List.append_nil _).symm
    cases call with
    | check ps => exact (List.append_nil _).symm
    | request ps => exact StaticPermissions.decideAll_requested _ ps
  | storage call =>
    rw [accept_storage]
    exact Asked.ext (List.append_nil _).symm (List.append_nil _).symm (List.append_nil _).symm

/-- Nothing is kept when an answer is fetched. -/
theorem Scene.asked_answer (s : Scene (.recording handler storage config)) {call : Call}
    (hcall : ∀ c, call ≠ .permissions c) : (s.answer call).1.asked = s.asked := by
  cases call with
  | ui request =>
    rw [answer_ui]
    have hkept := ScriptedUi.next_requests s.ui
    exact Asked.ext rfl rfl (congrArg Array.toList hkept)
  | api request =>
    rw [answer_api]
    rfl
  | permissions call => exact absurd rfl (hcall call)
  | storage call =>
    rw [answer_storage]
    rfl

end

/-- Who fetches an answer has slept for it. -/
theorem Phase.sleeping_of_answer {p : Phase} {call : Call} (h : p.deed? = some (.answer call)) :
    ∃ due pending, p = .sleeping due (.call call) pending ∨
      ∃ request, call = .ui request ∧ p = .sleeping due (.background request) pending := by
  unfold deed? at h
  split at h
  next c =>
    split at h
    next op _ _ =>
      obtain ⟨u, -, hu⟩ | ⟨-, hc⟩ :=
        Option.or_eq_some_iff.mp h |>.imp_left Option.map_eq_some_iff.mp
      · cases hu
      · obtain ⟨_, -, hc⟩ := Option.map_eq_some_iff.mp hc
        cases hc
    next => cases h
  next due call' pending =>
    cases h
    exact ⟨due, pending, .inl rfl⟩
  next due request pending =>
    cases h
    exact ⟨due, pending, .inr ⟨request, rfl, rfl⟩⟩
  next => cases h
  next => cases h

/-- Nobody in this phase waits for an answer about permissions. -/
def Phase.Unpermitting (p : Phase) : Prop :=
  ∀ due call pending, p ≠ .sleeping due (.call (.permissions call)) pending

namespace Task
variable {r : Runner} {t u : Task} {w : World r} {self : Nat} {e : Effect r}

/-- Nobody waits for a collaborator that answers at once. -/
theorem delegate_now {pending pending' : List Continuation} (call : Call) {verdict : Verdict Reply}
    (hnow : (w.accept t.span call).2 = .now verdict) (due : Option Nat) (alarm : Alarm) :
    (t.delegate w self pending call).task.phase ≠ .sleeping due alarm pending' := by
  unfold delegate
  cases hw : w.accept t.span call with
  | mk u reception =>
    rw [hw] at hnow
    cases hnow
    cases verdict <;> exact nofun

/-- Who waits for an answer after a step has just handed the call over. -/
theorem delegate_of_sleeping {due : Option Nat} {call : Call} {pending : List Continuation}
    (h : t.step? w self = some e) (hp : e.task.phase = .sleeping due (.call call) pending) :
    ∃ w' : World r, (t.delegate w' self pending call).task.phase =
      .sleeping due (.call call) pending := by
  cases step?_turn h with
  | @sleeps c op pending' w' due' alarm hr hc hw ha =>
    cases hp
    simp only [step?, hr, hc, Option.some.injEq] at h
    have hphase :
        (t.dispatch w self pending op).task.phase = .sleeping due (.call call) pending := by
      rw [h]
    obtain ⟨_, hcall, ⟨⟩⟩ | ⟨_, ⟨⟩⟩ | ⟨⟨⟩, -⟩ := dispatch_alarm hphase
    have hexecute :
        ∃ w' : World r, t.dispatch w self pending op = t.execute w' self pending op := by
      unfold dispatch
      split <;> exact ⟨_, rfl⟩
    obtain ⟨w', heq⟩ := hexecute
    rw [heq, execute_of_call? hcall] at hphase
    exact ⟨w', hphase⟩
  | loses hr => cases hr.symm.trans hp
  | _ => cases hp

end Task

/-- Permissions are decided at once. -/
def Runner.DecidesAtOnce (r : Runner) : Prop :=
  ∀ state call,
    ∃ verdict, (r.collaborators.permissions.accept state call).reception = .now verdict

/-- Where permissions are decided at once, nobody waits for them. -/
theorem Task.unpermitting_step? {r : Runner} {t : Task} {w : World r} {self : Nat} {e : Effect r}
    (hr : r.DecidesAtOnce) (h : t.step? w self = some e) : e.task.phase.Unpermitting := by
  intro due call pending hp
  obtain ⟨w', hphase⟩ := delegate_of_sleeping h hp
  obtain ⟨verdict, hnow⟩ := hr w'.permissions call
  have haccept :
      (w'.accept t.span (.permissions call)).2 = .now (verdict.map (.ofPermission call)) :=
    congrArg (Reception.map (Reply.ofPermission call)) hnow
  exact delegate_now (.permissions call) haccept due _ hphase

namespace Machine
variable {r : Runner} {m m' : Machine r} {a : Happening}

def Unpermitting (m : Machine r) : Prop :=
  ∀ (i : Nat) (t : Task), m.tasks[i]? = some t → t.phase.Unpermitting

theorem unpermitting_initial (h : Initial m) : m.Unpermitting := by
  intro i t ht due call pending hp
  obtain ⟨-, -, _, ⟨_, _, hw⟩, -⟩ := h.writers i t ht
  cases hp.symm.trans hw

theorem unpermitting_happen (hr : r.DecidesAtOnce) (h : m.Unpermitting)
    (ha : m.happen? a = some m') :
    m'.Unpermitting := by
  intro j u hu
  rcases step_or_idle a with ⟨i, rfl⟩ | hn
  · obtain ⟨t, e, he, hs⟩ := step?_stepped ha
    rcases hs.cases hu with ⟨-, rfl⟩ | ⟨-, hu⟩ | ⟨k, -, hk⟩
    · exact Task.unpermitting_step? hr he
    · exact h j u hu
    · obtain ⟨request, rfl⟩ | ⟨role, span, p, -, rfl⟩ :=
        hs.turn.launched_cases (List.mem_of_getElem? hk)
      · exact nofun
      · exact nofun
  · cases happen?_change ha with
    | step => exact absurd rfl (hn _)
    | idle _ hi =>
      rcases hi.cases hu with hu | ⟨-, hu⟩
      · exact h j u hu
      · obtain ⟨p, container, -, rfl⟩ := hi.programs u hu
        exact nofun

end Machine

section
variable {handler : ApiRequest → Except Fault ApiResponse} {storage : StorageService}
  {config : RunnerConfig}

theorem Scene.asked_after (s : Scene (.recording handler storage config)) (i : Nat) {p : Phase}
    (hp : p.Unpermitting) : (s.after i p.deed?).asked = p.accepts?.elim s.asked s.asked.add := by
  unfold Phase.accepts?
  cases hd : p.deed? with
  | none => rfl
  | some d =>
    cases d with
    | update u => rfl
    | accept call => exact s.asked_accept call
    | answer call =>
      refine s.asked_answer ?_
      rintro c rfl
      obtain ⟨due, pending, rfl | ⟨request, hc, -⟩⟩ := Phase.sleeping_of_answer hd
      · exact hp due c pending rfl
      · cases hc

theorem Runner.recording_decidesAtOnce : (Runner.recording handler storage config).DecidesAtOnce :=
  fun _ _ => ⟨_, rfl⟩

namespace Machine
variable {m m' : Machine (.recording handler storage config)} {a : Happening} {as : List Happening}

/-- The operations that are dispatched in a run. -/
def dispatched {r : Runner} (m : Machine r) (as : List Happening) : List (Operation Program) :=
  m.journal (fun t => t.phase.operation?) as

/-- The texts of the interactions that are started in a run, by programs that
wait for them and in the background. -/
def uiRequests {r : Runner} (m : Machine r) (as : List Happening) : List String :=
  m.journal (fun t => t.phase.uiRequest?) as

theorem journal_filterMap {r : Runner} {α β : Type} (f : Task → Option α)
    (g : α → Option β) (m : Machine r) (as : List Happening) :
    (m.journal f as).filterMap g = m.journal (fun t => (f t).bind g) as := by
  induction as generalizing m with
  | nil => rfl
  | cons a as ih =>
    have hnote : (m.note? f a).toList.filterMap g = (m.note? (fun t => (f t).bind g) a).toList := by
      unfold note?
      split
      next i =>
        cases m.tasks[i]? with
        | none => rfl
        | some t =>
          cases hf : f t with
          | none => simp [hf]
          | some x => cases hg : g x <;> simp [hf, hg]
      next => rfl
    simp only [journal]
    cases m.happen? a with
    | none => rfl
    | some m' => rw [List.filterMap_append, hnote, ih]

/-- A journal that leaves some entries out. -/
theorem journal_sublist {r : Runner} {α : Type} {f g : Task → Option α}
    (hfg : ∀ t x, f t = some x → g t = some x) (m : Machine r) (as : List Happening) :
    (m.journal f as).Sublist (m.journal g as) := by
  induction as generalizing m with
  | nil => exact .slnil
  | cons a as ih =>
    have hnote (x : α) (hx : m.note? f a = some x) : m.note? g a = some x := by
      unfold note? at hx ⊢
      split at hx
      · obtain ⟨t, ht, hf⟩ := Option.bind_eq_some_iff.mp hx
        exact Option.bind_eq_some_iff.mpr ⟨t, ht, hfg t x hf⟩
      · cases hx
    simp only [journal]
    cases m.happen? a with
    | none => exact .slnil
    | some m' =>
      refine .append ?_ (ih m')
      cases hx : m.note? f a with
      | none => exact List.nil_sublist _
      | some x => rw [hnote x hx]

theorem rests_of_idle {r : Runner} {m m' : Machine r} (ha : m.happen? a = some m')
    (hn : ∀ i, a ≠ .move (.step i)) : m.world.Rests m'.world := by
  cases a with
  | move a =>
    cases a with
    | step i => exact absurd rfl (hn i)
    | tick =>
      obtain ⟨-, due, -, rfl⟩ := of_tick ha
      exact ⟨rfl, rfl, rfl, rfl⟩
  | launch | supply =>
    cases ha
    exact ⟨rfl, rfl, rfl, rfl⟩

theorem asked_happen (hm : m.Unpermitting) (ha : m.happen? a = some m') :
    m'.world.scene.asked =
      (m.note? (fun t => t.phase.accepts?) a).elim m.world.scene.asked m.world.scene.asked.add := by
  obtain ⟨i, t, rfl, ht, hscene⟩ | ⟨hn, -⟩ := happen?_scene ha
  · rw [hscene, Scene.asked_after _ _ (hm i t ht)]
    simp only [note?, ht, Option.bind_some]
  · have hrests := rests_of_idle ha hn
    rw [note?_of_ne hn]
    exact Asked.ext (congrArg (fun api : RecordingApi => api.requests.toList) hrests.api)
      (congrArg StaticPermissions.requested hrests.permissions)
      (congrArg (fun ui : ScriptedUi => ui.requests.toList) hrests.ui)

/-- The collaborators keep what the run hands to them. -/
theorem asked_run (hm : m.Unpermitting) (h : Run m as m') : m'.world.scene.asked =
    ⟨m.world.scene.asked.api ++ (m.dispatched as).filterMap Operation.apiRequest?,
      m.world.scene.asked.permissions ++
        ((m.dispatched as).filterMap Operation.permissionRequest?).flatten,
      m.world.scene.asked.ui ++ m.uiRequests as⟩ := by
  have hcalls := run_journal (fun m => m.world.scene.asked) (P := Unpermitting)
    (fun m a m' hm ha =>
      ⟨unpermitting_happen Runner.recording_decidesAtOnce hm ha, asked_happen hm ha⟩) h hm
  rw [hcalls, Asked.foldl_add]
  simp only [dispatched, uiRequests, journal_filterMap, Phase.accepts?_apiRequest?,
    Phase.accepts?_permissionRequest?, Phase.accepts?_uiRequest?]

end Machine

end

namespace Task
variable {r : Runner} {t u : Task} {w : World r} {self : Nat} {e : Effect r}

/-- Who starts no interaction in the background launches programs only. -/
theorem execute_child {op : Operation Program} {pending : List Continuation}
    (hop : op.backgroundRequest? = none) (hu : u ∈ (t.execute w self pending op).launched) :
    ∃ role span p, u = t.child role span p := by
  cases hc : op.call? with
  | some call =>
    rw [execute_of_call? hc, delegate_launched] at hu
    cases hu
  | none =>
    cases op with
    | fork p => exact ⟨_, _, p, List.mem_singleton.mp hu⟩
    | race ps =>
      cases ps with
      | nil => cases hu
      | cons p ps =>
        obtain ⟨k, p, -, rfl⟩ := branches_mem hu
        exact ⟨_, _, p, rfl⟩
    | forkUi => cases hop
    | read store key | delete store key | write store key value =>
      cases store
      · cases hc
      · cases hu
    | callApi | runUi | checkPermissions | requestPermissions => cases hc
    | _ => cases hu

/-- A step launches nothing, or it dispatches an operation. -/
theorem launched_or_dispatch (h : t.step? w self = some e) :
    (t.phase.operation? = none ∧ e.launched = []) ∨
      ∃ op pending, t.phase.operation? = some op ∧ e = t.dispatch w self pending op := by
  cases hp : t.phase with
  | running c =>
    simp only [step?, hp] at h
    cases hc : c.advance with
    | finished result =>
      simp only [hc, Option.some.injEq] at h
      refine .inl ⟨by simp only [Phase.operation?, hc], ?_⟩
      subst h
      unfold finish
      split
      · rfl
      · simp only [leaveBoundary]
        split <;> rfl
    | execute op pending =>
      simp only [hc, Option.some.injEq] at h
      exact .inr ⟨op, pending, by simp only [Phase.operation?, hc], h.symm⟩
  | _ =>
    refine .inl ⟨rfl, ?_⟩
    cases step?_turn h with
    | answered hp' | forks hp' | races hp' => cases hp.symm.trans hp'
    | _ => rfl

/-- A step launches a task for the interaction in the background
that it starts, and for no other one. -/
theorem opening_launched_iff (h : t.step? w self = some e) {k : Nat} {request : String} :
    (∃ u, e.launched[k]? = some u ∧ u.phase = .opening request) ↔
      k = 0 ∧ t.phase.operation?.bind Operation.backgroundRequest? = some request := by
  obtain ⟨hn, hl⟩ | ⟨op, pending, hop, rfl⟩ := launched_or_dispatch h
  · simp [hn, hl]
  · rw [hop, Option.bind_some]
    cases hr : op.backgroundRequest? with
    | none =>
      have hchild : ∀ u ∈ (t.dispatch w self pending op).launched,
          ∃ role span p, u = t.child role span p := by
        unfold dispatch
        split <;> exact fun u => execute_child hr
      constructor
      · rintro ⟨u, hu, hp⟩
        obtain ⟨role, span, p, rfl⟩ := hchild u (List.mem_of_getElem? hu)
        cases hp
      · rintro ⟨-, ⟨⟩⟩
    | some text =>
      have hlaunched : (t.dispatch w self pending op).launched = [t.background text] := by
        cases op with
        | forkUi interaction =>
          cases hr
          rfl
        | _ => cases hr
      rw [hlaunched]
      cases k <;> simp [background]

theorem Turn.not_opening (h : t.Turn w self e) (request : String) :
    e.task.phase ≠ .opening request := by
  intro hp
  cases h with
  | loses hr => cases hr.symm.trans hp
  | _ => cases hp

end Task

namespace Machine
variable {r : Runner} {α : Type} {m m' : Machine r} {a : Happening}
  {as : List Happening} {i k : Nat}
  {t : Task} {e : Effect r} {request : String}

/-- What the happenings of a run add to a record, the earliest first. -/
def record (note : Machine r → Happening → Option α) (m : Machine r) :
    List Happening → List α
  | [] => []
  | a :: as =>
    match m.happen? a with
    | some m' => (note m a).toList ++ m'.record note as
    | none => []

/-- The interaction that a step starts in the background, with the
number of the task launched for it. -/
def launchedUi? (m : Machine r) (a : Happening) : Option (Nat × String) :=
  (m.note? (fun t => t.phase.operation?.bind Operation.backgroundRequest?) a).map (m.tasks.size, ·)

/-- The interaction that a task in the background hands over by its
step, with the number of the task. -/
def deliveredUi? (m : Machine r) : Happening → Option (Nat × String)
  | .move (.step i) => (m.tasks[i]?.bind fun t => t.phase.opening?).map (i, ·)
  | _ => none

theorem launchedUi?_of_ne (hn : ∀ i, a ≠ .move (.step i)) : m.launchedUi? a = none := by
  rw [launchedUi?, note?_of_ne hn, Option.map_none]

theorem deliveredUi?_of_ne (hn : ∀ i, a ≠ .move (.step i)) : m.deliveredUi? a = none := by
  unfold deliveredUi?
  split
  next i => exact absurd rfl (hn i)
  next => rfl

theorem record_map {β : Type} {note : Machine r → Happening → Option α}
    {f : Task → Option β} {g : α → β}
    (hnote : ∀ (m : Machine r) a, (note m a).map g = m.note? f a) (m : Machine r)
    (as : List Happening) :
    (m.record note as).map g = m.journal f as := by
  induction as generalizing m with
  | nil => rfl
  | cons a as ih =>
    simp only [record, journal, ← hnote]
    cases m.happen? a with
    | none => rfl
    | some m' => simp [ih, Option.toList_map]

theorem launchedUi_dispatched (m : Machine r) (as : List Happening) :
    (m.record launchedUi? as).map Prod.snd =
      (m.dispatched as).filterMap Operation.backgroundRequest? := by
  rw [dispatched, journal_filterMap]
  refine record_map ?_ m as
  intro m a
  rw [launchedUi?, Option.map_map]
  exact Option.map_id' ..

/-- An interaction in the background that is handed over is among those that are started. -/
theorem deliveredUi_sublist (m : Machine r) (as : List Happening) :
    ((m.record deliveredUi? as).map Prod.snd).Sublist (m.uiRequests as) := by
  have hnote (m : Machine r) (a : Happening) :
      (m.deliveredUi? a).map Prod.snd = m.note? (fun t => t.phase.opening?) a := by
    rcases step_or_idle a with ⟨i, rfl⟩ | hn
    · rw [deliveredUi?, note?, Option.map_map]
      exact Option.map_id' ..
    · rw [deliveredUi?_of_ne hn, note?_of_ne hn, Option.map_none]
  rw [record_map hnote]
  refine journal_sublist ?_ m as
  intro t request hopening
  simp [Phase.uiRequest?, hopening]

/-- The interactions in the background that have not been handed over. -/
def waitingUi (m : Machine r) : List (Nat × String) :=
  (List.range m.tasks.size).filterMap fun i => m.deliveredUi? (.move (.step i))

theorem deliveredUi?_step : m.deliveredUi? (.move (.step i)) = some (k, request) ↔
    k = i ∧ ∃ t, m.tasks[i]? = some t ∧ t.phase = .opening request := by
  simp only [deliveredUi?, Option.map_eq_some_iff, Option.bind_eq_some_iff,
    Phase.opening?_eq_some_iff, Prod.mk.injEq, exists_eq_right_right]
  rw [and_comm, eq_comm (a := i)]

theorem launchedUi?_step (ht : m.tasks[i]? = some t) :
    m.launchedUi? (.move (.step i)) = some (k, request) ↔ k = m.tasks.size ∧
      t.phase.operation?.bind Operation.backgroundRequest? = some request := by
  simp only [launchedUi?, note?, ht, Option.bind_some, Option.map_eq_some_iff, Prod.mk.injEq,
    exists_eq_right_right]
  rw [and_comm, eq_comm (a := m.tasks.size)]

theorem mem_waitingUi : (k, request) ∈ m.waitingUi ↔
    ∃ t, m.tasks[k]? = some t ∧ t.phase = .opening request := by
  simp only [waitingUi, List.mem_filterMap, List.mem_range, deliveredUi?_step]
  constructor
  · rintro ⟨i, -, rfl, h⟩
    exact h
  · rintro ⟨t, ht, hp⟩
    exact ⟨k, (Array.getElem?_eq_some_iff.mp ht).1, rfl, t, ht, hp⟩

theorem nodup_waitingUi (m : Machine r) : m.waitingUi.Nodup := by
  refine List.Nodup.filterMap ?_ List.nodup_range
  rintro i j ⟨k, request⟩ hi hj
  exact (deliveredUi?_step.mp hi).1.symm.trans (deliveredUi?_step.mp hj).1

/-- After a step its own interaction waits no more, and the one that it started does. -/
theorem waitingUi_stepped (hs : Stepped m i t e m') (he : t.step? m.world i = some e) (k : Nat)
    (request : String) :
    (k, request) ∈ m'.waitingUi ↔ (k ≠ i ∧ (k, request) ∈ m.waitingUi) ∨
      m.launchedUi? (.move (.step i)) = some (k, request) := by
  rw [mem_waitingUi, mem_waitingUi, launchedUi?_step hs.task]
  constructor
  · rintro ⟨u, hu, hp⟩
    obtain ⟨rfl, rfl⟩ | ⟨hne, hu⟩ | ⟨j, rfl, hj⟩ := hs.cases hu
    · exact absurd hp (hs.turn.not_opening request)
    · exact .inl ⟨hne, u, hu, hp⟩
    · obtain ⟨rfl, hstart⟩ := (Task.opening_launched_iff he).mp ⟨u, hj, hp⟩
      exact .inr ⟨rfl, hstart⟩
  · rintro (⟨hne, u, hu, hp⟩ | ⟨rfl, hstart⟩)
    · exact ⟨u, hs.other hne hu, hp⟩
    · obtain ⟨u, hu, hp⟩ := (Task.opening_launched_iff he).mpr ⟨rfl, hstart⟩
      exact ⟨u, hs.added hu, hp⟩

theorem lt_of_mem_waitingUi (h : (k, request) ∈ m.waitingUi) : k < m.tasks.size := by
  obtain ⟨t, ht, -⟩ := mem_waitingUi.mp h
  exact (Array.getElem?_eq_some_iff.mp ht).1

theorem waitingUi_of_launched (ha : m.happen? a = some m')
    (hl : m.launchedUi? a = some (k, request)) :
    (k, request) ∈ m'.waitingUi := by
  rcases step_or_idle a with ⟨i, rfl⟩ | hn
  · obtain ⟨t, e, he, hs⟩ := step?_stepped ha
    exact (waitingUi_stepped hs he k request).mpr (.inr hl)
  · cases (launchedUi?_of_ne hn).symm.trans hl

/-- What is started waits until its task hands it over. -/
theorem waitingUi_happen (ha : m.happen? a = some m') :
    (m.waitingUi ++ (m.launchedUi? a).toList).Perm ((m.deliveredUi? a).toList ++ m'.waitingUi) := by
  rcases step_or_idle a with ⟨i, rfl⟩ | hn
  · obtain ⟨t, e, he, hs⟩ := step?_stepped ha
    have hstepped := waitingUi_stepped hs he
    refine (List.perm_ext_iff_of_nodup ?_ ?_).mpr ?_
    · refine (nodup_waitingUi m).append (Option.toList_nodup _) ?_
      rintro ⟨k, request⟩ hwaits hstart
      obtain ⟨rfl, -⟩ := (launchedUi?_step hs.task).mp (Option.mem_toList.mp hstart)
      exact Nat.lt_irrefl _ (lt_of_mem_waitingUi hwaits)
    · refine (Option.toList_nodup _).append (nodup_waitingUi m') ?_
      rintro ⟨k, request⟩ hdone hwaits
      obtain ⟨rfl, -⟩ := deliveredUi?_step.mp (Option.mem_toList.mp hdone)
      obtain ⟨hne, -⟩ | hstart := (hstepped k request).mp hwaits
      · exact hne rfl
      · exact Nat.ne_of_lt hs.lt ((launchedUi?_step hs.task).mp hstart).1
    · rintro ⟨k, request⟩
      simp only [List.mem_append, Option.mem_toList, hstepped, deliveredUi?_step, ← or_assoc]
      refine or_congr_left ?_
      by_cases hk : k = i
      · subst hk
        simp [mem_waitingUi]
      · simp [hk]
  · rw [launchedUi?_of_ne hn, deliveredUi?_of_ne hn, Option.toList_none, List.append_nil,
      List.nil_append]
    refine (List.perm_ext_iff_of_nodup (nodup_waitingUi m) (nodup_waitingUi m')).mpr ?_
    rintro ⟨k, request⟩
    rw [mem_waitingUi, mem_waitingUi]
    cases happen?_change ha with
    | step => exact absurd rfl (hn _)
    | idle _ hi =>
      constructor
      · rintro ⟨t, ht, hp⟩
        exact ⟨t, hi.keeps ht, hp⟩
      · rintro ⟨u, hu, hp⟩
        obtain hu | ⟨-, hu⟩ := hi.cases hu
        · exact ⟨u, hu, hp⟩
        · obtain ⟨p, container, -, rfl⟩ := hi.programs u hu
          cases hp

theorem waitingUi_run (h : Run m as m') :
    (m.waitingUi ++ m.record launchedUi? as).Perm (m.record deliveredUi? as ++ m'.waitingUi) := by
  induction h with
  | refl => simp [record]
  | @step m m₁ m' a as ha _ ih =>
    simp only [record, ha]
    have hfirst := (waitingUi_happen ha).append_right (m₁.record launchedUi? as)
    have hrest := ih.append_left (m.deliveredUi? a).toList
    simp only [List.append_assoc] at hfirst hrest ⊢
    exact hfirst.trans hrest

/-- A task that is about to start an interaction can do so. -/
theorem waitingUi_of_quiet (hq : m.isQuiet = true) : m.waitingUi = [] := by
  refine List.eq_nil_iff_forall_not_mem.mpr ?_
  rintro ⟨k, request⟩ hmem
  obtain ⟨t, ht, hp⟩ := mem_waitingUi.mp hmem
  have hnone := isQuiet_iff.mp hq k
  simp [step?, ht, Task.step?, hp] at hnone

theorem waitingUi_initial (hm : Initial m) : m.waitingUi = [] := by
  refine List.eq_nil_iff_forall_not_mem.mpr ?_
  rintro ⟨k, request⟩ hmem
  obtain ⟨t, ht, hp⟩ := mem_waitingUi.mp hmem
  obtain ⟨-, -, _, ⟨_, _, hw⟩, -⟩ := hm.writers k t ht
  cases hp.symm.trans hw

/-- Every interaction in the background has a task of its own. -/
theorem launchedUi_sorted (h : Run m as m') :
    ((m.record launchedUi? as).map Prod.fst).Pairwise (· < ·) ∧
      ∀ x ∈ m.record launchedUi? as, m.tasks.size ≤ x.1 := by
  induction h with
  | refl => exact ⟨.nil, nofun⟩
  | @step m m₁ m' a as ha _ ih =>
    obtain ⟨hsorted, hlater⟩ := ih
    simp only [record, ha]
    cases hl : m.launchedUi? a with
    | none => exact ⟨hsorted, fun x hx => (size_le_of_happen? ha).trans (hlater x hx)⟩
    | some x =>
      obtain ⟨text, htext, rfl⟩ := Option.map_eq_some_iff.mp hl
      have hgrows := lt_of_mem_waitingUi (waitingUi_of_launched ha hl)
      simp only [Option.toList_some, List.singleton_append, List.map_cons, List.pairwise_cons,
        List.forall_mem_cons, List.forall_mem_map]
      exact ⟨⟨fun y hy => hgrows.trans_le (hlater y hy), hsorted⟩, Nat.le_refl _,
        fun y hy => hgrows.le.trans (hlater y hy)⟩

end Machine

section
variable {handler : ApiRequest → Except Fault ApiResponse} {storage : StorageService}
  {config : RunnerConfig}

namespace Machine
variable {m mₙ : Machine (.recording handler storage config)} {as : List Happening}

/-- Every operation for a collaborator reaches it once, in the order of dispatch, and nothing else
does. An interaction in the background is handed over by a task of its own, at the latest before
the machine is quiet. -/
theorem delegated_exactly_once (hm : Initial m) (h : Run m as mₙ) :
    (mₙ.world.api : RecordingApi).requests.toList =
      (m.world.api : RecordingApi).requests.toList ++
        (m.dispatched as).filterMap Operation.apiRequest? ∧
    (mₙ.world.permissions : StaticPermissions).requested =
      (m.world.permissions : StaticPermissions).requested ++
        ((m.dispatched as).filterMap Operation.permissionRequest?).flatten ∧
    (mₙ.world.ui : ScriptedUi).requests.toList =
      (m.world.ui : ScriptedUi).requests.toList ++ m.uiRequests as ∧
    (m.record launchedUi? as).map Prod.snd =
      (m.dispatched as).filterMap Operation.backgroundRequest? ∧
    ((m.record launchedUi? as).map Prod.fst).Nodup ∧
    (m.record launchedUi? as).Perm (m.record deliveredUi? as ++ mₙ.waitingUi) ∧
    ((m.record deliveredUi? as).map Prod.snd).Sublist (m.uiRequests as) ∧
    (mₙ.isQuiet = true → mₙ.waitingUi = []) := by
  have hasked := asked_run (unpermitting_initial hm) h
  have hwaiting := waitingUi_run h
  rw [waitingUi_initial hm, List.nil_append] at hwaiting
  exact ⟨congrArg Asked.api hasked, congrArg Asked.permissions hasked, congrArg Asked.ui hasked,
    launchedUi_dispatched m as, (launchedUi_sorted h).1.imp Nat.ne_of_lt, hwaiting,
    deliveredUi_sublist m as, waitingUi_of_quiet⟩

end Machine

end

namespace Machine

/-- Asks every collaborator but the storage, and goes on when the API fails. -/
def delegating : Flow .json :=
  (Flow.forkUi (.str "bg")).followedBy
    ((Flow.checkPermissions [.camera]).followedBy
      ((Flow.requestPermissions [.camera, .location]).followedBy
        ((Flow.recover ((Flow.callApi (.new .get "/down")).followedBy
          (Flow.pure (.succeed .null)))).followedBy (Flow.runUi (.str "fg")))))

/-- The API fails and the interface takes its time. -/
def failingApi : Setup :=
  { Bench.new with
    handler := fun _ => .error (.collaborator .api "down")
    ui := (ScriptedUi.always "null").withLatency 5 }.setup .empty []

def failingApiMachine : Machine (.recording (fun _ => .error (.collaborator .api "down"))
    MemoryStore.service failingApi.config) :=
  failingApi.machine

/-- The interaction in the background is handed over after the one
that was dispatched later, and once. -/
theorem delegated_exactly_once_failing :
    ∃ as m, Run failingApiMachine as m ∧ (m.ending? 0).isSome ∧
      (m.world.api : RecordingApi).requests.toList = [.new .get "/down"] ∧
      (m.world.permissions : StaticPermissions).requested = [.camera, .location] ∧
      (m.world.ui : ScriptedUi).requests.toList = ["\"fg\"", "\"bg\""] := by
  let as : List Happening := .launch delegating.program 0 ::
    [.step 0, .step 0, .step 0, .step 0, .step 0, .step 0, .step 0, .step 1, .tick, .step 0,
      .step 0].map .move
  have hend : (failingApiMachine.follow? as).map (fun m => (m.ending? 0).isSome) = some true := by
    decide +kernel
  obtain ⟨m, hm, hended⟩ := Option.map_eq_some_iff.mp hend
  have hr := run_of_follow? hm
  obtain ⟨hapi, hpermissions, hui, -⟩ := delegated_exactly_once failingApi.machine_initial hr
  refine ⟨as, m, hr, hended, hapi.trans ?_, hpermissions.trans ?_, hui.trans ?_⟩
  · decide +kernel
  · decide +kernel
  · decide +kernel

end Machine

end Workflow
