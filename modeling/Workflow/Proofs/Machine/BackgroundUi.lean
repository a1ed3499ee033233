import Mathlib.Data.Set.Defs
import Workflow.Bench
import Workflow.Program.Flow
import Workflow.Proofs.Machine.Commit
import Workflow.Proofs.Machine.Lockstep
import Workflow.Proofs.Session

/-! Interactions in the background go unheard.

No program waits for an interaction in the background, so its answer reaches none: two user
interfaces that differ only on texts that no program waits for lead to the same run. -/
namespace Workflow

/-- A service without a memory: the request alone decides how long an answer takes,
if it takes time, and what it is. -/
def Service.memoryless {Request : Type} {Reply : Request → Type} (wait : Request → Option Wait)
    (f : (request : Request) → Except Fault (Reply request)) : Service Request Reply where
  State := Unit
  accept _ request := ⟨(), [], (wait request).elim (.now (.ofExcept (f request))) .later⟩
  answer _ request := ⟨(), [], .ofExcept (f request)⟩

/-- The runner with a user interface without a memory. -/
def Runner.answering (r : Runner) (wait : String → Option Wait)
    (f : String → Except Fault String) :
    Runner :=
  ⟨{ r.collaborators with ui := Service.memoryless wait f }, r.config⟩

/-- The text of the interaction that an operation waits for. -/
def Operation.interaction? {P : Type} : Operation P → Option String
  | .runUi interaction => some (encodeInteraction interaction)
  | _ => none

/-- The text of the interaction that the program starts or ends by the next step. -/
def Phase.interaction? : Phase → Option String
  | .running c =>
    match c.advance with
    | .execute op _ => op.interaction?
    | .finished _ => none
  | .sleeping _ (.call (.ui request)) _ => some request
  | _ => none

/-- The texts of the interactions that programs wait for in a run. -/
def Machine.interactions {r : Runner} (m : Machine r) (as : List Machine.Happening) : List String :=
  m.journal (fun t => t.phase.interaction?) as

variable {r : Runner} {wait : String → Option Wait} {f g : String → Except Fault String}

/-- The same machine with other answers of the user interface. -/
def Machine.retune (m : Machine (r.answering wait f)) (g : String → Except Fault String) :
    Machine (r.answering wait g) where
  world := {
    now := m.world.now
    containers := m.world.containers
    cells := m.world.cells
    races := m.world.races
    ui := ()
    api := m.world.api
    permissions := m.world.permissions
    storage := m.world.storage
    calls := m.world.calls
    trace := m.world.trace }
  tasks := m.tasks

/-- The worlds are the same but for the user interface and the record of what happened. -/
structure World.Matches (w : World (r.answering wait f))
    (w' : World (r.answering wait g)) : Prop where
  ground : w.ground.Alike .same w'.ground
  api : w'.api = w.api
  permissions : w'.permissions = w.permissions
  storage : w'.storage = w.storage

section
variable {w : World (r.answering wait f)} {w' : World (r.answering wait g)} {t : Task}
  {e : Effect (r.answering wait f)} {e' : Effect (r.answering wait g)} {self : Nat}

/-- All that a call hears is the same, unless it is an interaction that is answered differently. -/
theorem World.Matches.accept (h : w.Matches w') {call : Call}
    (hui : ∀ request, call = .ui request → g request = f request) (span : Span) :
    (w'.accept span call).2 = (w.accept span call).2 := by
  have hapi := h.api
  have hpermissions := h.permissions
  have hstorage := h.storage
  cases call with
  | ui request =>
    have heq := hui request rfl
    simp only [World.accept, Runner.answering, Service.memoryless, heq]
  | api request =>
    exact congrArg (fun s => (r.collaborators.api.accept s request).reception.map _) hapi
  | permissions call =>
    exact congrArg
      (fun s => (r.collaborators.permissions.accept s call).reception.map _) hpermissions
  | storage call =>
    exact congrArg (fun s => (r.collaborators.storage.accept s call).reception.map _) hstorage

theorem World.Matches.answer (h : w.Matches w') {call : Call}
    (hui : ∀ request, call = .ui request → g request = f request) (span : Span) :
    (w'.answer span call).2 = (w.answer span call).2 := by
  have hapi := h.api
  have hpermissions := h.permissions
  have hstorage := h.storage
  cases call with
  | ui request =>
    have heq := hui request rfl
    simp only [World.answer, Runner.answering, Service.memoryless, heq]
  | api request =>
    exact congrArg (fun s => (r.collaborators.api.answer s request).verdict.map _) hapi
  | permissions call =>
    exact congrArg (fun s => (r.collaborators.permissions.answer s call).verdict.map _) hpermissions
  | storage call =>
    exact congrArg (fun s => (r.collaborators.storage.answer s call).verdict.map _) hstorage

/-- The other collaborators do the same in both. -/
theorem Scene.after_matches {s : Scene (r.answering wait f)} {u : Scene (r.answering wait g)}
    (hapi : u.api = s.api) (hpermissions : u.permissions = s.permissions)
    (hstorage : u.storage = s.storage) (i : Nat) (d : Option Deed) :
    (u.after i d).api = (s.after i d).api ∧
      (u.after i d).permissions = (s.after i d).permissions ∧
      (u.after i d).storage = (s.after i d).storage := by
  cases d with
  | none => exact ⟨hapi, hpermissions, hstorage⟩
  | some d =>
    cases d with
    | update u => exact ⟨hapi, hpermissions, hstorage⟩
    | accept call =>
      cases call <;> simp only [Scene.after, Scene.accept, World.accept, World.scene_emitAll] <;>
        simp [World.scene, Scene.world, Runner.answering, hapi, hpermissions, hstorage]
    | answer call =>
      cases call <;> simp only [Scene.after, Scene.answer, World.answer, World.scene_emitAll] <;>
        simp [World.scene, Scene.world, Runner.answering, hapi, hpermissions, hstorage]

theorem Operation.interaction?_of_call? {P : Type} {op : Operation P} {request : String}
    (h : op.call? = some (.ui request)) : op.interaction? = some request := by
  cases op with
  | runUi interaction =>
    cases h
    rfl
  | read store key | delete store key | write store key value => cases store <;> cases h
  | _ => cases h

/-- A task hears the same, unless its program waits for an
interaction that is answered differently. -/
theorem World.Matches.hears (h : w.Matches w')
    (hui : ∀ request, t.phase.interaction? = some request → g request = f request) :
    t.Hears w w' := by
  have hraces : w'.races = w.races := h.ground.races.eq
  have hcell (handle : Handle) : w'.cell handle = w.cell handle := h.ground.cell handle
  have hcalm (x : Except Fault String) : ((Verdict.ofExcept x).map Reply.ui).message? = none := by
    cases x <;> rfl
  refine ⟨?_, ?_, ?_, ?_, ?_, ?_, ?_⟩
  · intro c op pending call hp hc hcall
    apply h.accept
    rintro request rfl
    apply hui
    simp only [hp, Phase.interaction?, hc]
    exact Operation.interaction?_of_call? hcall
  · intro due call pending hp
    apply h.answer
    rintro request rfl
    apply hui
    simp only [hp, Phase.interaction?]
  · intro request hp
    simp only [World.accept, Runner.answering, Service.memoryless]
    cases wait request with
    | none => exact .now ((hcalm _).trans (hcalm _).symm)
    | some duration => exact .later
  · intro due request pending hp
    exact (hcalm _).trans (hcalm _).symm
  · intro handle pending hp
    rw [hcell]
  · intro c handle pending hp hc
    rw [hcell]
  · intro race pending hp
    rw [hraces]

end

namespace Machine
variable {m m₁ : Machine (r.answering wait f)} {m' : Machine (r.answering wait g)} {a : Happening}
  {as : List Happening}

/-- The machines are the same but for the user interface and the record of what happened. -/
structure Matches (m : Machine (r.answering wait f))
    (m' : Machine (r.answering wait g)) : Prop where
  world : m.world.Matches m'.world
  tasks : m'.tasks = m.tasks

theorem matches_retune (m : Machine (r.answering wait f)) : m.Matches (m.retune g) :=
  ⟨⟨.refl m.world.ground, rfl, rfl, rfl⟩, rfl⟩

theorem Matches.alike (h : m.Matches m') : m.Alike .same (fun _ t t' => t' = t) m' := by
  refine ⟨h.world.ground, ?_⟩
  rw [h.tasks]
  apply Pointwise.refl
  intro _ _
  rfl

theorem answering_config : (r.answering wait g).config = (r.answering wait f).config := rfl

theorem matches_step {i : Nat} (h : m.Matches m') (hs : m.step? i = some m₁)
    (hui : ∀ request, m.note? (fun t => t.phase.interaction?) (.move (.step i)) = some request →
      g request = f request) :
    ∃ m₁', m'.step? i = some m₁' ∧ m₁.Matches m₁' := by
  obtain ⟨t, e, he, hs⟩ := step?_stepped hs
  have ht' : m'.tasks[i]? = some t := by rw [h.tasks, hs.task]
  have hhears : t.Hears m.world m'.world := by
    apply h.world.hears
    intro request hrequest
    apply hui
    simp [note?, hs.task, hrequest]
  have hrel : Option.Rel (Effect.Alike .same) (t.step? m.world i) (t.step? m'.world i) :=
    Task.step?_alike answering_config h.world.ground hhears
  obtain ⟨e', he', heffect⟩ := exists_of_rel_some hrel he
  obtain ⟨m₁', hm₁', hs'⟩ := stepped_of_task ht' he'
  have halike := h.alike.step hs hs' heffect.ground heffect.task heffect.launched fun _ _ _ => rfl
  have hscene := Task.step?_scene he
  have hscene' := Task.step?_scene he'
  obtain ⟨hapi, hpermissions, hstorage⟩ := Scene.after_matches (s := m.world.scene)
    (u := m'.world.scene) h.world.api h.world.permissions h.world.storage t.container t.phase.deed?
  rw [← hscene, ← hscene', ← hs.world, ← hs'.world] at hapi hpermissions hstorage
  exact ⟨m₁', hm₁', ⟨halike.ground, hapi, hpermissions, hstorage⟩, halike.tasks.eq⟩

theorem matches_happen (h : m.Matches m') (ha : m.happen? a = some m₁)
    (hui : ∀ request, m.note? (fun t => t.phase.interaction?) a = some request →
      g request = f request) :
    ∃ m₁', m'.happen? a = some m₁' ∧ m₁.Matches m₁' := by
  rcases step_or_idle a with ⟨i, rfl⟩ | hn
  · exact matches_step h ha hui
  · obtain ⟨m₁', hm₁', halike, hrests, hrests'⟩ := h.alike.idle_same answering_config hn ha
    refine ⟨m₁', hm₁', ⟨halike.ground, ?_, ?_, ?_⟩, halike.tasks.eq⟩
    · rw [hrests'.api, hrests.api, h.world.api]
    · rw [hrests'.permissions, hrests.permissions, h.world.permissions]
    · rw [hrests'.storage, hrests.storage, h.world.storage]

/-- The same happenings lead to the same machine, but for the user interface. -/
theorem matches_run {mₙ : Machine (r.answering wait f)} (h : m.Matches m') (hr : Run m as mₙ)
    (hui : ∀ request ∈ m.interactions as, g request = f request) :
    ∃ mₙ', Run m' as mₙ' ∧ mₙ.Matches mₙ' := by
  induction hr generalizing m' with
  | refl => exact ⟨m', .refl, h⟩
  | @step m m₁ mₙ a as ha _ ih =>
    simp only [interactions, journal, ha, List.mem_append, Option.mem_toList] at hui
    obtain ⟨m₁', hm₁', h₁⟩ :=
      matches_happen h ha fun request hrequest => hui request (.inl hrequest)
    obtain ⟨mₙ', hrest, hₙ⟩ := ih h₁ fun request hrequest => hui request (.inr hrequest)
    exact ⟨mₙ', .step hm₁' hrest, hₙ⟩

/-- An interaction in the background is started at once, and never fails where it is started. -/
theorem forkUi_step {i : Nat} {t : Task} {c : Cursor} {interaction : Json}
    {pending : List Continuation} (ht : m.tasks[i]? = some t) (hp : t.phase = .running c)
    (hc : c.advance = .execute (.forkUi interaction) pending) :
    ∃ m₁, m.step? i = some m₁ ∧ m₁.tasks[i]? = some (t.resumed pending (.ok .unit)) ∧
      m₁.tasks[m.tasks.size]? = some (t.background (encodeInteraction interaction)) := by
  obtain ⟨m₁, hm₁, hs⟩ := stepped_dispatch ht hp hc
  exact ⟨m₁, hm₁, hs.self, hs.added (k := 0) rfl⟩

/-- Two user interfaces that differ only on texts that no program waits for lead, by the same
happenings, to the same tasks with the same results, the same containers, the same entries of the
other collaborators and the same calls; and starting an interaction in the background succeeds. -/
theorem background_ui_unobservable {mₙ : Machine (r.answering wait f)} {B : Set String}
    (hfg : ∀ request, request ∉ B → g request = f request) (h : Run m as mₙ)
    (hB : ∀ request ∈ m.interactions as, request ∉ B) :
    (∃ mₙ', Run (m.retune g) as mₙ' ∧ mₙ'.tasks = mₙ.tasks ∧
      mₙ'.world.now = mₙ.world.now ∧ mₙ'.world.containers = mₙ.world.containers ∧
      mₙ'.world.cells = mₙ.world.cells ∧ mₙ'.world.races = mₙ.world.races ∧
      mₙ'.world.api = mₙ.world.api ∧ mₙ'.world.permissions = mₙ.world.permissions ∧
      mₙ'.world.storage = mₙ.world.storage ∧ mₙ'.world.calls = mₙ.world.calls) ∧
    (∀ (i : Nat) (t : Task) c interaction pending, mₙ.tasks[i]? = some t →
      t.phase = .running c →
      c.advance = .execute (.forkUi interaction) pending →
      ∃ m₁, mₙ.step? i = some m₁ ∧
        m₁.tasks[i]? = some (t.resumed pending (.ok .unit)) ∧
        m₁.tasks[mₙ.tasks.size]? = some (t.background (encodeInteraction interaction))) := by
  constructor
  · have hsame : ∀ request ∈ m.interactions as, g request = f request :=
      fun request hrequest => hfg request (hB request hrequest)
    obtain ⟨mₙ', hr, hmatches⟩ := matches_run (matches_retune m) h hsame
    have hground := hmatches.world.ground
    exact ⟨mₙ', hr, hmatches.tasks, hground.now, hground.containers, hground.cells.eq,
      hground.races.eq, hmatches.world.api, hmatches.world.permissions, hmatches.world.storage,
      hground.calls⟩
  · intro i t c interaction pending ht hp hc
    exact forkUi_step ht hp hc

/-- An interaction in the background, and another one that a fork waits for. -/
def announcing : Flow .json :=
  (Flow.forkUi (.str "bg")).andThen fun _ =>
    (Flow.fork (Flow.runUi (.str "fg"))).andThen fun h => Flow.await h

/-- A bench with a user interface that answers at once. -/
def uiMachine (f : String → Except Fault String) :
    Machine ((Bench.new.setup .empty []).runner.answering (fun _ => none) f) :=
  { Bench.new.setup .empty [] with ui := ⟨.memoryless (fun _ => none) f, ()⟩ : Setup }.machine

/-- Every text is answered. -/
def answersAll : String → Except Fault String := fun _ => .ok "null"

/-- One text is refused. -/
def refusesOne : String → Except Fault String := fun request =>
  if request = "\"bg\"" then .error (.collaborator .ui "off") else .ok "null"

/-- Whether the interaction in the background succeeds or fails, both are asked for,
and the run ends in the same way. -/
theorem background_ui_unobservable_announcing :
    ∃ as m m', Run (uiMachine answersAll) as m ∧
      Run ((uiMachine answersAll).retune refusesOne) as m' ∧ (m.ending? 0).isSome ∧
      m.world.calls.map Prod.snd = [.ui "\"fg\"", .ui "\"bg\""] ∧ m'.tasks = m.tasks ∧
      m'.world.calls = m.world.calls := by
  let as : List Happening := .launch announcing.program 0 ::
    [0, 1, 0, 0, 2, 2, 0, 0].map (.move <| .step ·)
  have hend : ((uiMachine answersAll).follow? as).map (fun m =>
      ((m.ending? 0).isSome, m.world.calls.map Prod.snd)) =
        some (true, [.ui "\"fg\"", .ui "\"bg\""]) := by
    decide +kernel
  have htexts : (uiMachine answersAll).interactions as = ["\"fg\""] := by
    decide +kernel
  obtain ⟨m, hm, heq⟩ := Option.map_eq_some_iff.mp hend
  obtain ⟨hended, hcalls⟩ := Prod.mk.inj heq
  have hr := run_of_follow? hm
  have hfg : ∀ request, request ∉ ({"\"bg\""} : Set String) →
      refusesOne request = answersAll request := by
    intro request hne
    exact if_neg hne
  have hB : ∀ request ∈ (uiMachine answersAll).interactions as,
      request ∉ ({"\"bg\""} : Set String) := by
    intro request hmem
    rw [htexts, List.mem_singleton] at hmem
    subst hmem
    have hne : "\"fg\"" ≠ "\"bg\"" := by decide
    exact hne
  obtain ⟨⟨m', hr', htasks, -, -, -, -, -, -, -, hsame⟩, -⟩ :=
    background_ui_unobservable hfg hr hB
  exact ⟨as, m, m', hr, hr', hended, hcalls, htasks, hsame⟩

end Machine

end Workflow
