import Workflow.Proofs.Machine.Delegation

/-! A run depends on no provider but those that it uses.

A provider is one of the four services that operations are delegated to. As long as no operation of
a provider is dispatched, any other service can stand in its place, also one that refuses
everything: then an operation that is dispatched nevertheless fails and has no other effect. -/
namespace Workflow

inductive Provider where
  | ui
  | api
  | permissions
  | storage
deriving DecidableEq

def Provider.collaborator : Provider → Collaborator
  | .ui => .ui
  | .api => .api
  | .permissions => .permissions
  | .storage => .storage

/-- What is asked of a provider. -/
abbrev Provider.Request : Provider → Type
  | .ui => String
  | .api => ApiRequest
  | .permissions => PermissionCall
  | .storage => StorageCall

abbrev Provider.Reply : (who : Provider) → who.Request → Type
  | .ui => fun _ => String
  | .api => fun _ => ApiResponse
  | .permissions => PermissionCall.Reply
  | .storage => StorageCall.Reply

/-- What fails without the provider fails with this. -/
def Provider.missing (who : Provider) : Fault :=
  .collaborator who.collaborator ("no " ++ who.collaborator.name ++ " collaborator configured")

def Call.provider : Call → Provider
  | .ui _ => .ui
  | .api _ => .api
  | .permissions _ => .permissions
  | .storage _ => .storage

def Call.request : (call : Call) → call.provider.Request
  | .ui request => request
  | .api request => request
  | .permissions call => call
  | .storage call => call

/-- The reply to a call, whichever provider gives it. -/
def Call.reply : (call : Call) → call.provider.Reply call.request → Reply
  | .ui _ => .ui
  | .api _ => .api
  | .permissions call => .ofPermission call
  | .storage call => .ofStorage call

namespace Operation
variable {P : Type}

/-- The provider that an operation needs, also for an interaction in the background. -/
def provider? : Operation P → Option Provider
  | .runUi _ | .forkUi _ => some .ui
  | .callApi _ => some .api
  | .checkPermissions _ | .requestPermissions _ => some .permissions
  | .read .persistent _ | .write .persistent .. | .delete .persistent _ => some .storage
  | _ => none

theorem provider?_of_call? {op : Operation P} {call : Call} (h : op.call? = some call) :
    op.provider? = some call.provider := by
  cases op with
  | read store key | delete store key | write store key value =>
    cases store <;> cases h
    rfl
  | _ => cases h <;> rfl

/-- An operation needs a provider for a call of its own, or for an interaction in the background. -/
theorem call?_of_provider? {op : Operation P} {who : Provider} (h : op.provider? = some who)
    (hb : op.backgroundRequest? = none) :
    ∃ call, op.call? = some call ∧ call.provider = who := by
  cases op with
  | forkUi => cases hb
  | read store key | delete store key | write store key value =>
    cases store <;> cases h
    exact ⟨_, rfl, rfl⟩
  | callApi | runUi | checkPermissions | requestPermissions =>
    cases h
    exact ⟨_, rfl, rfl⟩
  | _ => cases h

theorem provider?_of_background {op : Operation P} {request : String}
    (h : op.backgroundRequest? = some request) : op.provider? = some .ui := by
  cases op with
  | forkUi => rfl
  | _ => cases h

end Operation

namespace Hosted
variable {Request : Type} {Reply : Request → Type} (h : Hosted Request Reply) (request : Request)

def reception : Reception (Reply request) := (h.service.accept h.state request).reception

def verdict : Verdict (Reply request) := (h.service.answer h.state request).verdict

/-- The service after a request was handed to it. -/
def accepted : Hosted Request Reply := ⟨h.service, (h.service.accept h.state request).state⟩

/-- The service after an answer was fetched. -/
def answered : Hosted Request Reply := ⟨h.service, (h.service.answer h.state request).state⟩

variable {h} {who : Collaborator}

/-- A service that stands in for one that is missing refuses every request and stays as it is. -/
theorem refuses (hs : h.service = .unconfigured who) :
    h.reception request =
      .now (.fault (.collaborator who ("no " ++ who.name ++ " collaborator configured"))) ∧
    h.accepted request = h := by
  obtain ⟨service, state⟩ := h
  cases hs
  exact ⟨rfl, rfl⟩

end Hosted

def Collaborators.service (c : Collaborators) : (who : Provider) → Service who.Request who.Reply
  | .ui => c.ui
  | .api => c.api
  | .permissions => c.permissions
  | .storage => c.storage

def Collaborators.replace (c : Collaborators) {who : Provider} (s : Service who.Request who.Reply) :
    Collaborators :=
  match who, s with
  | .ui, s => { c with ui := s }
  | .api, s => { c with api := s }
  | .permissions, s => { c with permissions := s }
  | .storage, s => { c with storage := s }

def Runner.replace (r : Runner) {who : Provider} (s : Service who.Request who.Reply) : Runner :=
  ⟨r.collaborators.replace s, r.config⟩

variable {r r' : Runner}

def World.replace (w : World r) {who : Provider} (h : Hosted who.Request who.Reply) :
    World (r.replace h.service) where
  now := w.now
  containers := w.containers
  cells := w.cells
  races := w.races
  ui :=
    match who, h with
    | .ui, h => h.state
    | .api, _ | .permissions, _ | .storage, _ => w.ui
  api :=
    match who, h with
    | .api, h => h.state
    | .ui, _ | .permissions, _ | .storage, _ => w.api
  permissions :=
    match who, h with
    | .permissions, h => h.state
    | .ui, _ | .api, _ | .storage, _ => w.permissions
  storage :=
    match who, h with
    | .storage, h => h.state
    | .ui, _ | .api, _ | .permissions, _ => w.storage
  calls := w.calls
  trace := w.trace

/-- The machine with another service in the place of a provider. -/
def Machine.replace (m : Machine r) {who : Provider} (h : Hosted who.Request who.Reply) :
    Machine (r.replace h.service) :=
  ⟨m.world.replace h, m.tasks⟩

namespace Scene
variable (s : Scene r) (call : Call)

/-- A provider as it is in this scene. -/
def hosted : (who : Provider) → Hosted who.Request who.Reply
  | .ui => ⟨r.collaborators.ui, s.ui⟩
  | .api => ⟨r.collaborators.api, s.api⟩
  | .permissions => ⟨r.collaborators.permissions, s.permissions⟩
  | .storage => ⟨r.collaborators.storage, s.storage⟩

theorem hosted_service (who : Provider) : (s.hosted who).service = r.collaborators.service who := by
  cases who <;> rfl

theorem accept_reception :
    (s.accept call).2 = ((s.hosted call.provider).reception call.request).map call.reply := by
  cases call <;> rfl

theorem answer_verdict :
    (s.answer call).2 = ((s.hosted call.provider).verdict call.request).map call.reply := by
  cases call <;> rfl

theorem hosted_accept_self :
    (s.accept call).1.hosted call.provider = (s.hosted call.provider).accepted call.request := by
  cases call <;> simp only [accept_ui, accept_api, accept_permissions, accept_storage] <;> rfl

theorem hosted_answer_self :
    (s.answer call).1.hosted call.provider = (s.hosted call.provider).answered call.request := by
  cases call <;> simp only [answer_ui, answer_api, answer_permissions, answer_storage] <;> rfl

variable {call} {who : Provider}

/-- A call reaches no provider but its own. -/
theorem hosted_accept_other (h : who ≠ call.provider) :
    (s.accept call).1.hosted who = s.hosted who := by
  cases call <;> simp only [accept_ui, accept_api, accept_permissions, accept_storage] <;>
    cases who <;> first | rfl | exact absurd rfl h

theorem hosted_answer_other (h : who ≠ call.provider) :
    (s.answer call).1.hosted who = s.hosted who := by
  cases call <;> simp only [answer_ui, answer_api, answer_permissions, answer_storage] <;>
    cases who <;> first | rfl | exact absurd rfl h

/-- What a step does to a provider depends on this provider alone. -/
theorem hosted_after {s : Scene r} {u : Scene r'} (h : u.hosted who = s.hosted who) (i : Nat)
    (d : Option Deed) : (u.after i d).hosted who = (s.after i d).hosted who := by
  cases d with
  | none => exact h
  | some d =>
    cases d with
    | update c => cases who <;> exact h
    | accept call =>
      by_cases hc : who = call.provider
      · subst hc
        simp only [after, hosted_accept_self, h]
      · simp only [after, hosted_accept_other _ hc, h]
    | answer call =>
      by_cases hc : who = call.provider
      · subst hc
        simp only [after, hosted_answer_self, h]
      · simp only [after, hosted_answer_other _ hc, h]

end Scene

/-- The provider that a task in this phase has a call at, or is about to hand one to. -/
def Phase.calling? : Phase → Option Provider
  | .sleeping _ (.call call) _ => some call.provider
  | .sleeping _ (.background _) _ => some .ui
  | .opening _ => some .ui
  | _ => none

namespace Task
variable {t u : Task} {w : World r} {w' : World r'} {self : Nat} {e : Effect r} {who : Provider}

/-- The next step of the task has nothing to do with the provider. -/
structure Spares (t : Task) (who : Provider) : Prop where
  calling : t.phase.calling? ≠ some who
  operation : ∀ op, t.phase.operation? = some op → op.provider? ≠ some who

/-- A task that spares a provider hears the same without it. -/
theorem Spares.hears (ht : t.Spares who) (hg : w.ground.Alike .same w'.ground)
    (hs : ∀ other, other ≠ who → w'.scene.hosted other = w.scene.hosted other) :
    t.Hears w w' := by
  have hraces : w'.races = w.races := hg.races.eq
  have hcell (handle : Handle) : w'.cell handle = w.cell handle := hg.cell handle
  have haccept (call : Call) (hc : call.provider ≠ who) :
      (w'.accept t.span call).2 = (w.accept t.span call).2 := by
    rw [World.accept_reception, World.accept_reception, Scene.accept_reception,
      Scene.accept_reception, hs _ hc]
  have hanswer (call : Call) (hc : call.provider ≠ who) :
      (w'.answer t.span call).2 = (w.answer t.span call).2 := by
    rw [World.answer_verdict, World.answer_verdict, Scene.answer_verdict,
      Scene.answer_verdict, hs _ hc]
  refine ⟨?_, ?_, ?_, ?_, ?_, ?_, ?_⟩
  · intro c op pending call hp hc hcall
    apply haccept
    have hprovider := ht.operation op (by simp only [hp, Phase.operation?, hc])
    rw [Operation.provider?_of_call? hcall] at hprovider
    exact fun heq => hprovider (congrArg some heq)
  · intro due call pending hp
    apply hanswer
    have hcalling := ht.calling
    rw [hp] at hcalling
    exact fun heq => hcalling (congrArg some heq)
  · intro request hp
    have hcalling := ht.calling
    rw [hp] at hcalling
    rw [haccept (.ui request) fun heq => hcalling (congrArg some heq)]
    exact .refl _
  · intro due request pending hp
    have hcalling := ht.calling
    rw [hp] at hcalling
    rw [hanswer (.ui request) fun heq => hcalling (congrArg some heq)]
  · intro handle pending hp
    rw [hcell]
  · intro c handle pending hp hc
    rw [hcell]
  · intro race pending hp
    rw [hraces]

/-- Who spares a provider has no call there afterwards, and launches nobody who has. -/
theorem Spares.step? (ht : t.Spares who) (h : t.step? w self = some e) :
    e.task.phase.calling? ≠ some who ∧ ∀ u ∈ e.launched, u.phase.calling? ≠ some who := by
  constructor
  · cases step?_turn h with
    | @sleeps c op pending w' due alarm hp hc =>
      simp only [Task.step?, hp, hc, Option.some.injEq] at h
      have hphase : (t.dispatch w self pending op).task.phase = .sleeping due alarm pending := by
        rw [h]
      obtain ⟨call, hcall, rfl⟩ | ⟨verdict, rfl⟩ | ⟨rfl, -⟩ := dispatch_alarm hphase
      · have hprovider := ht.operation op (by simp only [hp, Phase.operation?, hc])
        rw [Operation.provider?_of_call? hcall] at hprovider
        exact hprovider
      · rintro ⟨⟩
      · rintro ⟨⟩
    | opens hp =>
      have hcalling := ht.calling
      rw [hp] at hcalling
      exact hcalling
    | loses => exact ht.calling
    | _ => rintro ⟨⟩
  · intro u hu
    obtain ⟨k, hk⟩ := List.mem_iff_getElem?.mp hu
    obtain ⟨request, rfl⟩ | ⟨role, span, p, -, rfl⟩ := (step?_turn h).launched_cases hu
    · obtain ⟨-, hstart⟩ := (opening_launched_iff h).mp ⟨_, hk, rfl⟩
      obtain ⟨op, hop, hbackground⟩ := Option.bind_eq_some_iff.mp hstart
      have hprovider := ht.operation op hop
      rw [Operation.provider?_of_background hbackground] at hprovider
      exact hprovider
    · rintro ⟨⟩

end Task

theorem World.Rests.hosted {w w' : World r} (h : w.Rests w') (who : Provider) :
    w'.scene.hosted who = w.scene.hosted who := by
  cases who with
  | ui => exact congrArg (Hosted.mk _) h.ui
  | api => exact congrArg (Hosted.mk _) h.api
  | permissions => exact congrArg (Hosted.mk _) h.permissions
  | storage => exact congrArg (Hosted.mk _) h.storage

namespace Machine
variable {m m₁ mₙ : Machine r} {m' : Machine r'} {a : Happening} {as : List Happening}
  {who : Provider}

/-- The machines are the same but for one provider and the record of what happened. -/
structure EqualBut (who : Provider) (m : Machine r) (m' : Machine r') : Prop where
  ground : m'.world.ground = m.world.ground
  tasks : m'.tasks = m.tasks
  others : ∀ other, other ≠ who → m'.world.scene.hosted other = m.world.scene.hosted other

theorem EqualBut.alike (h : m.EqualBut who m') : m.Alike .same (fun _ t t' => t' = t) m' := by
  refine ⟨?_, ?_⟩
  · rw [h.ground]
    exact .refl _
  · rw [h.tasks]
    apply Pointwise.refl
    intro _ _
    rfl

/-- No task has a call at the provider. -/
def Uncalled (m : Machine r) (who : Provider) : Prop :=
  ∀ (i : Nat) (t : Task), m.tasks[i]? = some t → t.phase.calling? ≠ some who

theorem uncalled_initial (hm : Initial m) (who : Provider) : m.Uncalled who := by
  intro i t ht
  obtain ⟨-, -, _, ⟨_, _, hp⟩, -⟩ := hm.writers i t ht
  rw [hp]
  exact nofun

/-- A happening that spares the provider leaves the machines the same but for it. -/
theorem EqualBut.happen (hr : r'.config = r.config) (h : m.EqualBut who m') (hm : m.Uncalled who)
    (ha : m.happen? a = some m₁)
    (hop : ∀ op, m.note? (fun t => t.phase.operation?) a = some op →
      op.provider? ≠ some who) :
    m₁.Uncalled who ∧ ∃ m₁', m'.happen? a = some m₁' ∧ m₁.EqualBut who m₁' := by
  rcases step_or_idle a with ⟨i, rfl⟩ | hn
  · obtain ⟨t, e, he, hs⟩ := step?_stepped ha
    have ht : t.Spares who := by
      refine ⟨hm i t hs.task, ?_⟩
      intro op hphase
      apply hop
      simp only [note?, hs.task, Option.bind_some, hphase]
    obtain ⟨hcalling, hlaunched⟩ := ht.step? he
    constructor
    · intro j u hu
      obtain ⟨-, rfl⟩ | ⟨-, hu⟩ | ⟨k, -, hk⟩ := hs.cases hu
      · exact hcalling
      · exact hm j u hu
      · exact hlaunched u (List.mem_of_getElem? hk)
    · have hrel : Option.Rel (Effect.Alike .same) (t.step? m.world i) (t.step? m'.world i) :=
        Task.step?_alike hr h.alike.ground (ht.hears h.alike.ground h.others)
      obtain ⟨e', he', heffect⟩ := exists_of_rel_some hrel he
      obtain ⟨m₁', hm₁', hs'⟩ := stepped_of_task (h.tasks ▸ hs.task) he'
      have halike :=
        h.alike.step hs hs' heffect.ground heffect.task heffect.launched fun _ _ _ => rfl
      refine ⟨m₁', hm₁', halike.ground.eq, halike.tasks.eq, ?_⟩
      intro other hother
      rw [hs.world, hs'.world, Task.step?_scene he, Task.step?_scene he']
      exact Scene.hosted_after (h.others other hother) t.container t.phase.deed?
  · constructor
    · intro j u hu
      cases happen?_change ha with
      | step => exact absurd rfl (hn _)
      | idle _ hi =>
        obtain hu | ⟨-, hu⟩ := hi.cases hu
        · exact hm j u hu
        · obtain ⟨p, container, -, rfl⟩ := hi.programs u hu
          rintro ⟨⟩
    · obtain ⟨m₁', hm₁', halike, hrests, hrests'⟩ := h.alike.idle_same hr hn ha
      refine ⟨m₁', hm₁', halike.ground.eq, halike.tasks.eq, ?_⟩
      intro other hother
      rw [hrests'.hosted, hrests.hosted, h.others other hother]

/-- A run that spares the provider leads to the same machine but for it. -/
theorem EqualBut.run (hr : r'.config = r.config) (h : m.EqualBut who m') (hm : m.Uncalled who)
    (hrun : Run m as mₙ) (hops : ∀ op ∈ m.dispatched as, op.provider? ≠ some who) :
    ∃ mₙ', Run m' as mₙ' ∧ mₙ.EqualBut who mₙ' := by
  induction hrun generalizing m' with
  | refl => exact ⟨m', .refl, h⟩
  | @step m m₁ mₙ a as ha _ ih =>
    simp only [dispatched, journal, ha, List.mem_append, Option.mem_toList] at hops
    obtain ⟨hm₁, m₁', hm₁', h₁⟩ := h.happen hr hm ha fun op hop => hops op (.inl hop)
    obtain ⟨mₙ', hrest, hₙ⟩ := ih h₁ hm₁ fun op hop => hops op (.inr hop)
    exact ⟨mₙ', .step hm₁' hrest, hₙ⟩

theorem equalBut_replace (m : Machine r) (h : Hosted who.Request who.Reply) :
    m.EqualBut who (m.replace h) := by
  refine ⟨rfl, rfl, ?_⟩
  intro other hother
  cases who <;> cases other <;> first | rfl | exact absurd rfl hother

end Machine

/-- Without its provider a call is refused, and no provider takes notice of it. -/
theorem World.accept_refused (w : World r) (call : Call)
    (hr : r.collaborators.service call.provider = .unconfigured call.provider.collaborator)
    (span : Span) :
    (w.accept span call).2 = .now (.fault call.provider.missing) ∧
      ∀ other, (w.scene.accept call).1.hosted other = w.scene.hosted other := by
  obtain ⟨hreception, hkept⟩ :=
    Hosted.refuses call.request ((w.scene.hosted_service call.provider).trans hr)
  constructor
  · rw [World.accept_reception, Scene.accept_reception, hreception]
    rfl
  · intro other
    by_cases ho : other = call.provider
    · subst ho
      rw [Scene.hosted_accept_self, hkept]
    · exact Scene.hosted_accept_other _ ho

namespace Task
variable {t : Task} {w : World r} {self : Nat} {pending : List Continuation}
  {call : Call} {e : Fault}
  {op : Operation Program}

/-- A task that is answered at once goes on with the answer. -/
theorem delegate_task {verdict : Verdict Reply} (h : (w.accept t.span call).2 = .now verdict) :
    (t.delegate w self pending call).task = (t.receive w self pending verdict).task := by
  unfold delegate
  cases hw : w.accept t.span call with
  | mk u reception =>
    rw [hw] at h
    cases h
    cases verdict <;> rfl

theorem dispatch_task {verdict : Verdict Reply} (hcall : op.call? = some call)
    (h : (w.accept t.span call).2 = .now verdict) :
    (t.dispatch w self pending op).task = (t.receive w self pending verdict).task := by
  unfold dispatch
  split
  · cases hcall
  · have hnow : ((w.emit t.span (.dispatching op.name)).accept t.span call).2 = .now verdict := by
      rw [accept_emit, h]
    rw [execute_of_call? hcall, delegate_task hnow]
    cases verdict <;> rfl

theorem openBackground_refused (self : Nat) {request : String}
    (h : (w.accept t.span (.ui request)).2 = .now (.fault e)) :
    ∃ u : World r, t.openBackground w self request =
      t.enter (u.emit t.span (.backgroundFailed e)) (.ended (.value .unit)) := by
  unfold openBackground
  cases hw : w.accept t.span (.ui request) with
  | mk u reception =>
    rw [hw] at h
    cases h
    exact ⟨u, rfl⟩

end Task

namespace Machine
variable {m : Machine r} {i : Nat} {t : Task} {c : Cursor} {op : Operation Program}
  {pending : List Continuation} {who : Provider}

/-- What is dispatched without its provider fails, or starts an interaction in the background.
Containers and providers stay as they are. -/
theorem dispatch_unconfigured (hr : r.collaborators.service who = .unconfigured who.collaborator)
    (hop : op.provider? = some who) (ht : m.tasks[i]? = some t) (hp : t.phase = .running c)
    (hc : c.advance = .execute op pending) :
    ∃ m₁, m.step? i = some m₁ ∧ m₁.world.containers = m.world.containers ∧
      (∀ other, m₁.world.scene.hosted other = m.world.scene.hosted other) ∧
      (op.backgroundRequest? = none →
        m₁.tasks[i]? = some (t.resumed pending (.error who.missing))) ∧
      ∀ request, op.backgroundRequest? = some request →
        m₁.tasks[i]? = some (t.resumed pending (.ok .unit)) ∧
          m₁.tasks[m.tasks.size]? = some (t.background request) := by
  obtain ⟨m₁, hm₁, hs⟩ := stepped_dispatch ht hp hc
  have hstep : t.step? m.world i = some (t.dispatch m.world i pending op) := by
    simp only [Task.step?, hp, hc]
  have hscene : m₁.world.scene = m.world.scene.after t.container op.deed? := by
    rw [hs.world, Task.step?_scene hstep]
    simp only [hp, Phase.deed?, hc]
  cases hb : op.backgroundRequest? with
  | none =>
    obtain ⟨call, hcall, rfl⟩ := Operation.call?_of_provider? hop hb
    rw [Operation.deed?_of_call? hcall] at hscene
    refine ⟨m₁, hm₁, ?_, ?_, ?_, ?_⟩
    · exact (congrArg Scene.containers hscene).trans (m.world.scene.after_containers ..)
    · intro other
      rw [hscene]
      exact (m.world.accept_refused call hr t.span).2 other
    · intro _
      rw [hs.self, Task.dispatch_task hcall (m.world.accept_refused call hr t.span).1]
      rfl
    · rintro _ ⟨⟩
  | some request =>
    cases op with
    | forkUi interaction =>
      cases hb
      refine ⟨m₁, hm₁, congrArg Scene.containers hscene, ?_, ?_, ?_⟩
      · intro other
        rw [hscene]
        rfl
      · rintro ⟨⟩
      · rintro _ ⟨⟩
        exact ⟨hs.self, hs.added (k := 0) rfl⟩
    | _ => cases hb

/-- An interaction in the background fails without its provider, and the
task that was launched for it ends. -/
theorem opening_unconfigured {request : String}
    (hr : r.collaborators.service .ui = .unconfigured .ui) (ht : m.tasks[i]? = some t)
    (hp : t.phase = .opening request) :
    ∃ m₁, m.step? i = some m₁ ∧ m₁.world.containers = m.world.containers ∧
      (∀ other, m₁.world.scene.hosted other = m.world.scene.hosted other) ∧
      m₁.tasks[i]? = some { t with phase := .ended (.value .unit) } ∧
      m₁.world.trace.head? = some ⟨m.world.now, t.span,
        .backgroundFailed Provider.ui.missing⟩ := by
  have hstep : t.step? m.world i = some (t.openBackground m.world i request) := by
    simp only [Task.step?, hp]
  obtain ⟨m₁, hm₁, hs⟩ := stepped_of_task ht hstep
  have hscene : m₁.world.scene = (m.world.scene.accept (.ui request)).1 := by
    rw [hs.world, Task.openBackground_scene]
  obtain ⟨hreception, hkept⟩ := m.world.accept_refused (.ui request) hr t.span
  obtain ⟨u, hopened⟩ := Task.openBackground_refused i hreception
  refine ⟨m₁, hm₁, ?_, ?_, ?_, ?_⟩
  · rw [Scene.accept_ui] at hscene
    exact congrArg Scene.containers hscene
  · intro other
    rw [hscene, hkept]
  · rw [hs.self, hopened]
    rfl
  · have hnow := hs.turn.now_eq
    rw [hs.world]
    rw [hopened] at hnow ⊢
    exact congrArg
      (fun now => some (TraceLine.mk now t.span (.backgroundFailed Provider.ui.missing))) hnow

/-- A run that dispatches no operation of a provider goes the same way with any service in its
place. Without one, an operation fails and changes nothing else; an interaction in the background
is started all the same and fails alone. -/
theorem provider_independence (who : Provider) :
    (∀ (m mₙ : Machine r) (as : List Happening), Initial m → Run m as mₙ →
      (∀ op ∈ m.dispatched as, op.provider? ≠ some who) →
      ∀ s : Hosted who.Request who.Reply,
        ∃ mₙ', Run (m.replace s) as mₙ' ∧ mₙ.EqualBut who mₙ') ∧
    (r.collaborators.service who = .unconfigured who.collaborator →
      ∀ (m : Machine r) (i : Nat) (t : Task) c op pending, op.provider? = some who →
      m.tasks[i]? = some t → t.phase = .running c → c.advance = .execute op pending →
      ∃ m₁, m.step? i = some m₁ ∧ m₁.world.containers = m.world.containers ∧
        (∀ other, m₁.world.scene.hosted other = m.world.scene.hosted other) ∧
        (op.backgroundRequest? = none →
          m₁.tasks[i]? = some (t.resumed pending (.error who.missing))) ∧
        ∀ request, op.backgroundRequest? = some request →
          m₁.tasks[i]? = some (t.resumed pending (.ok .unit)) ∧
            m₁.tasks[m.tasks.size]? = some (t.background request)) ∧
    (r.collaborators.service .ui = .unconfigured .ui →
      ∀ (m : Machine r) (i : Nat) (t : Task) request, m.tasks[i]? = some t →
      t.phase = .opening request →
      ∃ m₁, m.step? i = some m₁ ∧ m₁.world.containers = m.world.containers ∧
        (∀ other, m₁.world.scene.hosted other = m.world.scene.hosted other) ∧
        m₁.tasks[i]? = some { t with phase := .ended (.value .unit) } ∧
        m₁.world.trace.head? =
          some ⟨m.world.now, t.span, .backgroundFailed Provider.ui.missing⟩) := by
  refine ⟨?_, ?_, ?_⟩
  · intro m mₙ as hm h hops s
    exact (equalBut_replace m s).run rfl (uncalled_initial hm who) h hops
  · intro hr m i t c op pending hop ht hp hc
    exact dispatch_unconfigured hr hop ht hp hc
  · intro hr m i t request ht hp
    exact opening_unconfigured hr ht hp

/-- Asks every provider but the API. -/
def apiless : Flow .unit :=
  (Flow.forkUi (.str "bg")).followedBy
    ((Flow.requestPermissions [.camera]).followedBy (Flow.write .persistent "k" "v"))

/-- What stands in for the API if there is none. -/
def noApi : Hosted Provider.api.Request Provider.api.Reply := ⟨.unconfigured .api, ()⟩

/-- The run ends in the same way without an API, and a request that is sent then fails. -/
theorem provider_independence_apiless :
    ∃ as m m', Run failingApi.machine as m ∧ Run (failingApi.machine.replace noApi) as m' ∧
      (m.ending? 0).isSome ∧ m.EqualBut .api m' ∧
      ∃ t pending m₁,
        (m'.launch (Flow.callApi (.new .get "/")).program 0).1.step? m'.tasks.size = some m₁ ∧
        m₁.tasks[m'.tasks.size]? =
          some (Task.resumed t pending (.error Provider.api.missing)) := by
  let as : List Happening := .launch apiless.program 0 ::
    [.step 0, .step 0, .step 1, .step 0, .step 0, .tick, .step 1].map .move
  have hend : (failingApi.machine.follow? as).map (fun m => (m.ending? 0).isSome) = some true := by
    decide +kernel
  have hnone :
      (failingApi.machine.dispatched as).all (fun op => op.provider? ≠ some .api) = true := by
    decide +kernel
  obtain ⟨m, hm, hended⟩ := Option.map_eq_some_iff.mp hend
  have hr := run_of_follow? hm
  have hops : ∀ op ∈ failingApi.machine.dispatched as, op.provider? ≠ some .api := by
    intro op hop
    exact of_decide_eq_true (List.all_eq_true.mp hnone op hop)
  obtain ⟨hreplace, -, -⟩ := provider_independence (r := failingApi.runner) .api
  obtain ⟨m', hr', hsame⟩ := hreplace _ m as failingApi.machine_initial hr hops noApi
  obtain ⟨-, hrefused, -⟩ := provider_independence
    (r := failingApi.runner.replace noApi.service) .api
  have hlaunched : (m'.launch (Flow.callApi (.new .get "/")).program 0).1.tasks[m'.tasks.size]? =
      some (runner _ (Flow.callApi (.new .get "/")).program 0) := Array.getElem?_push_size
  obtain ⟨m₁, hm₁, -, -, hfails, -⟩ := hrefused rfl _ _ _ _ _ _ rfl hlaunched rfl rfl
  exact ⟨as, m, m', hr, hr', hended, hsame, _, _, m₁, hm₁, hfails rfl⟩

end Machine

end Workflow
