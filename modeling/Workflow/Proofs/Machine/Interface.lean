import Workflow.Proofs.Machine.Delegation
import Workflow.Proofs.Ui.Traffic

/-! Tasks at a scripted user interface.

What the tasks of a machine do at a scripted interface is traffic at it: handing over an interaction
is a call that leaves its request, signals it and falls asleep, or goes on to its answer if the
interface has no latency. The calls that have no answer yet are those for which tasks sleep. -/
namespace Workflow

/-- A runner whose user interface is scripted. -/
def Runner.playing (api : ApiService) (permissions : PermissionService) (storage : StorageService)
    (config : RunnerConfig) : Runner :=
  ⟨⟨ScriptedUi.service, api, permissions, storage⟩, config⟩

/-- How long an answer takes, unless there is one already. -/
def Reception.wait? {α : Type} : Reception α → Option Wait
  | .now _ => none
  | .later wait => some wait

namespace ScriptedUi
variable {ui : ScriptedUi}

theorem accept_of_latency {latency : Nat} (h : ui.latency = some latency) (request : String) :
    ui.accept request = ⟨ui.record request, [.uiRequest request], .later (.ms latency)⟩ := by
  have hrecord : (ui.record request).latency = some latency := h
  simp only [accept, hrecord]

theorem accept_of_no_latency (h : ui.latency = none) (request : String) :
    ui.accept request =
      ⟨(ui.record request).next.1, [.uiRequest request],
        .now (.ofExcept (ui.record request).next.2)⟩ := by
  have hrecord : (ui.record request).latency = none := h
  simp only [accept, hrecord]

end ScriptedUi

namespace Phase

/-- The request whose answer a task in this phase sleeps for, and until when. -/
def uiSleep? : Phase → Option (String × Option Nat)
  | .sleeping due (.call (.ui request)) _ => some (request, due)
  | .sleeping due (.background request) _ => some (request, due)
  | _ => none

theorem deed?_of_uiSleep? {p : Phase} {request : String} {due : Option Nat}
    (h : p.uiSleep? = some (request, due)) : p.deed? = some (.answer (.ui request)) := by
  unfold uiSleep? at h
  split at h <;> cases h <;> rfl

theorem uiSleep?_of_deed? {p : Phase} {request : String}
    (h : p.deed? = some (.answer (.ui request))) :
    ∃ due, p.uiSleep? = some (request, due) := by
  obtain ⟨due, pending, rfl | ⟨_, hrequest, rfl⟩⟩ := sleeping_of_answer h
  · exact ⟨due, rfl⟩
  · cases hrequest
    exact ⟨due, rfl⟩

theorem uiRequest?_eq_some_iff {p : Phase} {request : String} :
    p.uiRequest? = some request ↔ p.deed? = some (.accept (.ui request)) := by
  rw [← accepts?_uiRequest?]
  unfold accepts?
  cases p.deed? with
  | none => simp
  | some d =>
    cases d with
    | accept call => cases call <;> simp [Call.uiRequest?]
    | _ => simp

end Phase

namespace Task
variable {r : Runner} {t : Task} {w : World r} {self : Nat} {pending : List Continuation}
  {e : Effect r}

theorem uiSleep?_receive (verdict : Verdict Reply) :
    (t.receive w self pending verdict).task.phase.uiSleep? = none := by
  cases verdict <;> rfl

theorem uiSleep?_closeBackground (verdict : Verdict Reply) :
    (t.closeBackground w self verdict).task.phase.uiSleep? = none := by
  unfold closeBackground
  split
  · split <;> rfl
  all_goals rfl

/-- The clock stands still while a call is handed over. -/
theorem due_accept (w : World r) (span : Span) (call : Call) (wait : Wait) :
    (w.accept span call).1.due wait = w.due wait := by
  have hnow := (w.keeps_accept span call).now
  cases wait with
  | ms n => exact congrArg (fun now => some (now + n)) hnow
  | forever => rfl

theorem wait?_accept (w : World r) (span : Span) (request : String) :
    (w.accept span (.ui request)).2.wait? =
      (r.collaborators.ui.accept w.ui request).reception.wait? := by
  show ((r.collaborators.ui.accept w.ui request).reception.map Reply.ui).wait? = _
  cases (r.collaborators.ui.accept w.ui request).reception <;> rfl

theorem uiSleep?_delegate_ui (request : String) :
    (t.delegate w self pending (.ui request)).task.phase.uiSleep? =
      (r.collaborators.ui.accept w.ui request).reception.wait?.map fun wait =>
        (request, w.due wait) := by
  have hdue := due_accept w t.span (.ui request)
  rw [← wait?_accept w t.span]
  unfold delegate
  split
  next h =>
    rw [h, uiSleep?_receive]
    rfl
  next h =>
    rw [h] at hdue ⊢
    exact congrArg (fun due => some (request, due)) (hdue _)

theorem uiSleep?_delegate {call : Call} (hcall : ∀ request, call ≠ .ui request) :
    (t.delegate w self pending call).task.phase.uiSleep? = none := by
  unfold delegate
  split
  next => exact uiSleep?_receive _
  next =>
    cases call with
    | ui request => exact absurd rfl (hcall request)
    | _ => rfl

theorem uiSleep?_openBackground (request : String) :
    (t.openBackground w self request).task.phase.uiSleep? =
      (r.collaborators.ui.accept w.ui request).reception.wait?.map fun wait =>
        (request, w.due wait) := by
  have hdue := due_accept w t.span (.ui request)
  rw [← wait?_accept w t.span]
  unfold openBackground
  split
  next h =>
    rw [h, uiSleep?_closeBackground]
    rfl
  next h =>
    rw [h] at hdue ⊢
    exact congrArg (fun due => some (request, due)) (hdue _)

theorem uiSleep?_execute (op : Operation Program) :
    (t.execute w self pending op).task.phase.uiSleep? =
    op.interaction?.bind fun request =>
      (r.collaborators.ui.accept w.ui request).reception.wait?.map fun wait =>
        (request, w.due wait) := by
  rw [← op.call?_uiRequest?]
  cases hc : op.call? with
  | some call =>
    rw [execute_of_call? hc]
    cases call with
    | ui request => exact uiSleep?_delegate_ui request
    | _ => exact uiSleep?_delegate nofun
  | none =>
    cases op with
    | read store key | delete store key | write store key value =>
      cases store with
      | persistent => cases hc
      | ephemeral => rfl
    | race ps => cases ps <;> rfl
    | callApi | runUi | checkPermissions | requestPermissions => cases hc
    | _ => rfl

theorem due_le_of_uiSleep? {request : String} {due : Nat} (h : t.step? w self = some e)
    (hs : t.phase.uiSleep? = some (request, some due)) : due ≤ w.now := by
  have hp : ∃ alarm pending, t.phase = .sleeping (some due) alarm pending := by
    unfold Phase.uiSleep? at hs
    split at hs <;> cases hs <;> exact ⟨_, _, by assumption⟩
  obtain ⟨alarm, pending, hp⟩ := hp
  simp only [step?, hp] at h
  exact (Option.ite_none_right_eq_some.mp h).1

/-- Only who has just handed over an interaction sleeps for its answer after a step. -/
theorem uiSleep?_step? (h : t.step? w self = some e) : e.task.phase.uiSleep? =
    t.phase.uiRequest?.bind fun request =>
      (r.collaborators.ui.accept w.ui request).reception.wait?.map fun wait =>
        (request, w.due wait) := by
  obtain ⟨hnone, -⟩ | ⟨op, pending, hop, rfl⟩ := launched_or_dispatch h
  · rw [Phase.uiRequest?, hnone, Option.bind_none, Option.or_none]
    cases hopen : t.phase.opening? with
    | some request =>
      simp only [step?, Phase.opening?_eq_some_iff.mp hopen, Option.some.injEq] at h
      rw [← h]
      exact uiSleep?_openBackground request
    | none =>
      cases step?_turn h with
      | sleeps hp hc | awaits hp hc | enters hp hc => simp [Phase.operation?, hp, hc] at hnone
      | opens hp => simp [Phase.opening?, hp] at hopen
      | loses hp => simp [hp, Phase.uiSleep?]
      | _ => rfl
  · have hopen : t.phase.opening? = none := by
      cases hp : t.phase with
      | opening request => simp [hp, Phase.operation?] at hop
      | _ => rfl
    rw [Phase.uiRequest?, hopen, hop, Option.none_or, Option.bind_some]
    unfold dispatch
    split <;> exact uiSleep?_execute _

end Task

namespace Machine
variable {api : ApiService} {permissions : PermissionService} {storage : StorageService}
  {config : RunnerConfig}
  {m m' : Machine (.playing api permissions storage config)} {a : Happening} {as : List Happening}
  {s : UiTraffic} {seat : Nat → Nat}

/-- A task sleeps for the answer to a request. -/
def UiSleeps {r : Runner} (m : Machine r) (i : Nat) (request : String) (due : Option Nat) : Prop :=
  ∃ t, m.tasks[i]? = some t ∧ t.phase.uiSleep? = some (request, due)

/-- The interface is as the traffic says, and the calls that wait for their answers are those of the
sleeping tasks: the task with number `i` sleeps for the call `seat i`. -/
structure Seated (m : Machine (.playing api permissions storage config)) (s : UiTraffic)
    (seat : Nat → Nat) : Prop where
  now : s.now = m.world.now
  ui : s.service.ui = m.world.ui
  seated : ∀ i request due, m.UiSleeps i request due →
    ∃ instant, due = some instant ∧ s.calls[seat i]? = some ⟨request, .sleeping instant⟩
  single :
    ∀ i j request request' due due', m.UiSleeps i request due → m.UiSleeps j request' due' →
    seat i = seat j → i = j
  answered : ∀ k c, s.calls[k]? = some c →
    c.isAnswered = true ∨ ∃ i request due, m.UiSleeps i request due ∧ seat i = k

theorem seated_initial (h : Initial m) (seat : Nat → Nat) :
    Seated m (.start m.world.now m.world.ui) seat := by
  have hnobody (i : Nat) (request : String) (due : Option Nat) : ¬ m.UiSleeps i request due := by
    rintro ⟨t, ht, hs⟩
    obtain ⟨-, -, _, ⟨_, _, hp⟩, -⟩ := h.writers i t ht
    rw [hp] at hs
    cases hs
  exact ⟨rfl, rfl, fun i request due hi => absurd hi (hnobody i request due),
    fun i _ request _ due _ hi => absurd hi (hnobody i request due), nofun⟩

/-- A step matters for who sleeps only by the task that takes it. -/
theorem uiSleeps_stepped {r : Runner} {m m' : Machine r} {i j : Nat} {t : Task} {e : Effect r}
    {request : String} {due : Option Nat} (hs : Stepped m i t e m') :
    m'.UiSleeps j request due ↔
      j = i ∧ e.task.phase.uiSleep? = some (request, due) ∨
      j ≠ i ∧ m.UiSleeps j request due := by
  constructor
  · rintro ⟨u, hu, hsleep⟩
    obtain ⟨rfl, rfl⟩ | ⟨hj, hu⟩ | ⟨k, -, hk⟩ := hs.cases hu
    · exact .inl ⟨rfl, hsleep⟩
    · exact .inr ⟨hj, u, hu, hsleep⟩
    · obtain ⟨_, rfl⟩ | ⟨_, _, _, -, rfl⟩ :=
        hs.turn.launched_cases (List.mem_of_getElem? hk)
      · cases hsleep
      · cases hsleep
  · rintro (⟨rfl, hsleep⟩ | ⟨hj, u, hu, hsleep⟩)
    · exact ⟨e.task, hs.self, hsleep⟩
    · exact ⟨u, hs.other hj hu, hsleep⟩

theorem uiSleeps_idled {r : Runner} {m m' : Machine r} {j : Nat} {a : Happening} {added : List Task}
    {request : String} {due : Option Nat} (hi : Idled m a added m') :
    m'.UiSleeps j request due ↔ m.UiSleeps j request due := by
  constructor
  · rintro ⟨u, hu, hsleep⟩
    obtain hu | ⟨-, hu⟩ := hi.cases hu
    · exact ⟨u, hu, hsleep⟩
    · obtain ⟨_, _, -, rfl⟩ := hi.programs u hu
      cases hsleep
  · rintro ⟨u, hu, hsleep⟩
    exact ⟨u, hi.keeps hu, hsleep⟩

/-- What concerns neither the interface nor who sleeps for it is nothing to the traffic. -/
theorem Seated.of_same {now : Nat} (h : Seated m s seat) (hnow : now = m'.world.now)
    (hui : m'.world.ui = m.world.ui)
    (hsleeps : ∀ i request due, m'.UiSleeps i request due ↔ m.UiSleeps i request due) :
    Seated m' { s with now } seat where
  now := hnow
  ui := h.ui.trans hui.symm
  seated i request due hi := h.seated i request due ((hsleeps i request due).mp hi)
  single i j _ _ _ _ hi hj := h.single i j _ _ _ _ ((hsleeps ..).mp hi) ((hsleeps ..).mp hj)
  answered k c hc := (h.answered k c hc).imp_right fun ⟨i, request, due, hi, hk⟩ =>
    ⟨i, request, due, (hsleeps ..).mpr hi, hk⟩

/-- A call that is answered at once leaves everyone else where they are. -/
theorem Seated.add_answered {s' : UiTraffic} {request : String} {reply : Except Fault String}
    (h : Seated m s seat) (hnow : s'.now = m'.world.now) (hui : s'.service.ui = m'.world.ui)
    (hcalls : s'.calls = s.calls ++ [⟨request, .answered reply⟩])
    (hsleeps : ∀ i request due, m'.UiSleeps i request due ↔ m.UiSleeps i request due) :
    Seated m' s' seat where
  now := hnow
  ui := hui
  seated i request due hi := by
    obtain ⟨instant, rfl, hcall⟩ := h.seated i request due ((hsleeps ..).mp hi)
    have hlt : seat i < s.calls.length := (List.getElem?_eq_some_iff.mp hcall).1
    exact ⟨instant, rfl, by rw [hcalls, List.getElem?_append_left hlt, hcall]⟩
  single i j _ _ _ _ hi hj := h.single _ _ _ _ _ _ ((hsleeps ..).mp hi) ((hsleeps ..).mp hj)
  answered k c hc := by
    rw [hcalls, List.getElem?_append] at hc
    split at hc
    next =>
      exact (h.answered k c hc).imp_right fun ⟨i, request, due, hi, hk⟩ =>
        ⟨i, request, due, (hsleeps ..).mpr hi, hk⟩
    next =>
      obtain ⟨-, rfl⟩ := List.getElem?_eq_some_iff.mp hc
      rw [List.getElem_singleton]
      exact .inl rfl

/-- A call that falls asleep takes the next seat. -/
theorem Seated.add_sleeping {s' : UiTraffic} {i instant : Nat} {request : String}
    (h : Seated m s seat) (hnow : s'.now = m'.world.now) (hui : s'.service.ui = m'.world.ui)
    (hcalls : s'.calls = s.calls ++ [⟨request, .sleeping instant⟩])
    (hsleeps : ∀ j request' due', m'.UiSleeps j request' due' ↔
      j = i ∧ request' = request ∧ due' = some instant ∨
      j ≠ i ∧ m.UiSleeps j request' due')
    (hidle : ∀ request due, ¬ m.UiSleeps i request due) :
    Seated m' s' fun j => if j = i then s.calls.length else seat j := by
  have hold {j : Nat} {request' : String} {due' : Option Nat} (hj : m.UiSleeps j request' due') :
      j ≠ i ∧ seat j < s.calls.length := by
    obtain ⟨_, -, hcall⟩ := h.seated j request' due' hj
    refine ⟨?_, (List.getElem?_eq_some_iff.mp hcall).1⟩
    rintro rfl
    exact hidle _ _ hj
  refine ⟨hnow, hui, ?_, ?_, ?_⟩
  · intro j request' due' hj
    obtain ⟨rfl, rfl, rfl⟩ | ⟨hji, hj⟩ := (hsleeps ..).mp hj
    · refine ⟨instant, rfl, ?_⟩
      rw [hcalls, if_pos rfl]
      exact List.getElem?_concat_length
    · obtain ⟨instant', rfl, hcall⟩ := h.seated j request' due' hj
      refine ⟨instant', rfl, ?_⟩
      rw [hcalls, if_neg hji, List.getElem?_append_left (hold hj).2, hcall]
  · intro j j' _ _ _ _ hj hj' heq
    obtain ⟨rfl, -⟩ | ⟨hji, hj⟩ := (hsleeps ..).mp hj <;>
      obtain ⟨rfl, -⟩ | ⟨hji', hj'⟩ := (hsleeps ..).mp hj'
    · rfl
    · rw [if_pos rfl, if_neg hji'] at heq
      have := (hold hj').2
      omega
    · rw [if_pos rfl, if_neg hji] at heq
      have := (hold hj).2
      omega
    · rw [if_neg hji, if_neg hji'] at heq
      exact h.single _ _ _ _ _ _ hj hj' heq
  · intro k c hc
    rw [hcalls, List.getElem?_append] at hc
    split at hc
    next =>
      refine (h.answered k c hc).imp_right fun ⟨j, request', due', hj, hk⟩ =>
        ⟨j, request', due', ?_, ?_⟩
      · exact (hsleeps ..).mpr (.inr ⟨(hold hj).1, hj⟩)
      · rw [if_neg (hold hj).1, hk]
    next hk =>
      obtain ⟨hzero, -⟩ := List.getElem?_eq_some_iff.mp hc
      rw [List.length_singleton] at hzero
      refine .inr ⟨i, request, some instant, (hsleeps ..).mpr (.inl ⟨rfl, rfl, rfl⟩), ?_⟩
      rw [if_pos rfl]
      omega

section
variable {i : Nat} {t : Task} {e : Effect (.playing api permissions storage config)}
  {request : String}

/-- A task fetches the answer that it slept for. -/
theorem seated_answer (h : Seated m s seat) (hs : Stepped m i t e m')
    (he : t.step? m.world i = some e) (hd : t.phase.deed? = some (.answer (.ui request))) :
    ∃ ms s' seat', s.Run ms s' ∧ Seated m' s' seat' := by
  obtain ⟨due, hsleep⟩ := Phase.uiSleep?_of_deed? hd
  have hi : m.UiSleeps i request due := ⟨t, hs.task, hsleep⟩
  obtain ⟨instant, rfl, hcall⟩ := h.seated i request due hi
  have hdue : instant ≤ s.now := h.now ▸ Task.due_le_of_uiSleep? he hsleep
  have hlt : seat i < s.calls.length := (List.getElem?_eq_some_iff.mp hcall).1
  have hawake : e.task.phase.uiSleep? = none := by
    rw [Task.uiSleep?_step? he]
    cases hr : t.phase.uiRequest? with
    | none => rfl
    | some other => cases hd.symm.trans (Phase.uiRequest?_eq_some_iff.mp hr)
  have hsleeps (j : Nat) (request' : String) (due' : Option Nat) :
      m'.UiSleeps j request' due' ↔ j ≠ i ∧ m.UiSleeps j request' due' := by
    rw [uiSleeps_stepped hs, hawake]
    simp
  have hui : m'.world.ui = s.service.ui.next.1 := by
    have hscene := Task.step?_scene he
    rw [hd] at hscene
    rw [h.ui, hs.world]
    exact (congrArg Scene.ui hscene).trans
      (congrArg Scene.ui (Scene.answer_ui m.world.scene request))
  refine ⟨_, _, seat, .snoc .nil (.answer hcall hdue), ?_⟩
  constructor
  · exact h.now.trans (by rw [hs.world, hs.turn.now_eq])
  · exact hui.symm
  · intro j request' due' hj
    obtain ⟨hji, hj⟩ := (hsleeps ..).mp hj
    obtain ⟨instant', rfl, hcall'⟩ := h.seated j request' due' hj
    have hseat : seat i ≠ seat j := fun heq => hji (h.single _ _ _ _ _ _ hi hj heq).symm
    exact ⟨instant', rfl, by rw [List.getElem?_set_ne hseat, hcall']⟩
  · intro j j' _ _ _ _ hj hj'
    exact h.single _ _ _ _ _ _ ((hsleeps ..).mp hj).2 ((hsleeps ..).mp hj').2
  · intro k c hc
    rw [List.getElem?_set] at hc
    split at hc
    next =>
      cases hc
      exact .inl rfl
    next hk =>
      refine (h.answered k c hc).imp_right fun ⟨j, request', due', hj, hjk⟩ =>
        ⟨j, request', due', ?_, hjk⟩
      refine (hsleeps ..).mpr ⟨?_, hj⟩
      rintro rfl
      exact hk hjk

/-- A task hands over an interaction. -/
theorem seated_accept (h : Seated m s seat) (hs : Stepped m i t e m')
    (he : t.step? m.world i = some e) (hr : t.phase.uiRequest? = some request) :
    ∃ ms s' seat', s.Run ms s' ∧ Seated m' s' seat' := by
  have hd := Phase.uiRequest?_eq_some_iff.mp hr
  have hnow : s.now = m'.world.now := h.now.trans (by rw [hs.world, hs.turn.now_eq])
  have hidle (request' : String) (due : Option Nat) : ¬ m.UiSleeps i request' due := by
    rintro ⟨u, hu, hsleep⟩
    cases hs.task.symm.trans hu
    cases hd.symm.trans (Phase.deed?_of_uiSleep? hsleep)
  have hui : m'.world.ui = (s.service.ui.accept request).state := by
    have hscene := Task.step?_scene he
    rw [hd] at hscene
    rw [h.ui, hs.world]
    exact (congrArg Scene.ui hscene).trans
      (congrArg Scene.ui (Scene.accept_ui m.world.scene request))
  have hsleep : e.task.phase.uiSleep? =
      (s.service.ui.accept request).reception.wait?.map fun wait =>
        (request, m.world.due wait) := by
    rw [Task.uiSleep?_step? he, hr, h.ui]
    rfl
  obtain ⟨ms, hrun⟩ := UiTraffic.Run.call s request
  cases hl : s.service.ui.latency with
  | none =>
    rw [ScriptedUi.accept_of_no_latency hl] at hui hsleep
    rw [hl] at hrun
    refine ⟨_, _, seat,
      hrun.snoc (.answer (i := s.calls.length) List.getElem?_concat_length (Nat.le_refl _)), ?_⟩
    rw [List.set_append_right _ _ (Nat.le_refl _), Nat.sub_self, List.set_cons_zero]
    refine h.add_answered hnow hui.symm rfl fun j request' due' => ?_
    rw [uiSleeps_stepped hs, hsleep]
    constructor
    · rintro (⟨-, hnone⟩ | ⟨-, hj⟩)
      · cases hnone
      · exact hj
    · intro hj
      refine .inr ⟨?_, hj⟩
      rintro rfl
      exact hidle _ _ hj
  | some latency =>
    rw [ScriptedUi.accept_of_latency hl] at hui hsleep
    rw [hl, Option.getD_some] at hrun
    refine ⟨_, _, _, hrun, h.add_sleeping hnow hui.symm rfl (fun j request' due' => ?_) hidle⟩
    have hnew : some (request, some (m.world.now + latency)) = some (request', due') ↔
        request' = request ∧ due' = some (s.now + latency) := by
      rw [h.now]
      grind
    rw [uiSleeps_stepped hs, hsleep, ← hnew]
    rfl

/-- A step that neither hands over an interaction nor fetches an answer. -/
theorem seated_other (h : Seated m s seat) (hs : Stepped m i t e m')
    (he : t.step? m.world i = some e) (hr : t.phase.uiRequest? = none)
    (hd : ∀ request, t.phase.deed? ≠ some (.answer (.ui request))) :
    Seated m' s seat := by
  refine h.of_same (h.now.trans (by rw [hs.world, hs.turn.now_eq])) ?_ fun j request due => ?_
  · have hscene := congrArg Scene.ui (Task.step?_scene he)
    rw [hs.world]
    refine hscene.trans ?_
    cases hdeed : t.phase.deed? with
    | none => rfl
    | some d =>
      cases d with
      | update u => rfl
      | accept call =>
        cases call with
        | ui request => cases hr.symm.trans (Phase.uiRequest?_eq_some_iff.mpr hdeed)
        | api request => exact congrArg Scene.ui (Scene.accept_api m.world.scene request)
        | permissions call => exact congrArg Scene.ui (Scene.accept_permissions m.world.scene call)
        | storage call => exact congrArg Scene.ui (Scene.accept_storage m.world.scene call)
      | answer call =>
        cases call with
        | ui request => exact absurd hdeed (hd request)
        | api request => exact congrArg Scene.ui (Scene.answer_api m.world.scene request)
        | permissions call => exact congrArg Scene.ui (Scene.answer_permissions m.world.scene call)
        | storage call => exact congrArg Scene.ui (Scene.answer_storage m.world.scene call)
  · rw [uiSleeps_stepped hs, Task.uiSleep?_step? he, hr]
    constructor
    · rintro (⟨-, hnone⟩ | ⟨-, hj⟩)
      · cases hnone
      · exact hj
    · rintro ⟨u, hu, hsleep⟩
      refine .inr ⟨?_, u, hu, hsleep⟩
      rintro rfl
      cases hs.task.symm.trans hu
      exact hd request (Phase.deed?_of_uiSleep? hsleep)

end

theorem seated_happen (h : Seated m s seat) (ha : m.happen? a = some m') :
    ∃ ms s' seat', s.Run ms s' ∧ Seated m' s' seat' := by
  rcases step_or_idle a with ⟨i, rfl⟩ | hn
  · obtain ⟨t, e, he, hs⟩ := step?_stepped ha
    cases hr : t.phase.uiRequest? with
    | some request => exact seated_accept h hs he hr
    | none =>
      by_cases hd : ∃ request, t.phase.deed? = some (.answer (.ui request))
      · obtain ⟨request, hd⟩ := hd
        exact seated_answer h hs he hd
      · exact ⟨[], s, seat, .nil, seated_other h hs he hr fun request heq =>
          hd ⟨request, heq⟩⟩
  · cases happen?_change ha with
    | step => exact absurd rfl (hn _)
    | idle _ hi =>
      -- the clock may have moved on, and nothing else
      obtain ⟨d, hd⟩ := Nat.exists_eq_add_of_le hi.now
      refine ⟨[.pass d], _, seat, .snoc .nil (.pass d), ?_⟩
      have hnow : s.now + d = m'.world.now := by rw [h.now, hd]
      exact h.of_same hnow (rests_of_idle ha hn).ui fun i request due => uiSleeps_idled hi

/-- The tasks of a machine bring no other traffic to its interface than calls do. -/
theorem seated_run (h : Seated m s seat) (hrun : Run m as m') :
    ∃ ms s' seat', s.Run ms s' ∧ Seated m' s' seat' := by
  induction hrun generalizing s seat with
  | refl => exact ⟨[], s, seat, .nil, h⟩
  | step ha _ ih =>
    obtain ⟨ms, s₁, seat₁, hms, h₁⟩ := seated_happen h ha
    obtain ⟨ms', s₂, seat₂, hms', h₂⟩ := ih h₁
    exact ⟨ms ++ ms', s₂, seat₂, hms.trans hms', h₂⟩

end Machine

end Workflow
