import Workflow.Proofs.Machine.Run
import Workflow.Proofs.Machine.Scene
import Workflow.Proofs.Program.Only

/-! A task on its own.

What a task that involves no others does next is decided by what it has to do, by the
scene, and by what a handle says if it waits for one. It is decided neither by the time nor
by what the task was launched for. So such a task walks, however it is scheduled, along the
one path that it would walk alone. -/
namespace Workflow

variable {r : Runner} {allowed : Operation Program → Prop}

/-- The operation involves no other task, and its result does not depend on the moment. -/
def Operation.Solitary {P : Type} : Operation P → Prop
  | .fork _ | .race _ | .forkUi _ | .peek _ => False
  | _ => True

/-- A program of allowed operations can sleep with this alarm. -/
def Alarm.Only (allowed : Operation Program → Prop) (alarm : Alarm) : Prop :=
  alarm.kind?.isSome ∧ ∀ call, alarm = .call call →
    ∃ op, allowed op ∧ op.call? = some call

/-- A phase of a task that runs a program of allowed operations. -/
def Phase.Only (allowed : Operation Program → Prop) : Phase → Prop
  | .running c => c.Only allowed
  | .sleeping _ alarm pending => alarm.Only allowed ∧ StackOnly allowed pending
  | .awaiting h pending => allowed (.await h) ∧ StackOnly allowed pending
  | .racing _ pending => (∃ ps, allowed (.race ps)) ∧ StackOnly allowed pending
  | .opening _ => False
  | .ended _ => True

namespace Task
variable {t u : Task} {w w' : World r} {self self' : Nat} {e : Effect r}
  {pending : List Continuation}

/-- All that the task still has to do consists of allowed operations. -/
structure Only (allowed : Operation Program → Prop) (t : Task) : Prop where
  phase : t.phase.Only allowed
  boundaries : ∀ b ∈ t.boundaries, StackOnly allowed b

theorem Only.running {c : Cursor} (h : t.Only allowed) (hp : t.phase = .running c) :
    c.Only allowed := by
  have := h.phase
  rwa [hp] at this

theorem Only.resumed (h : t.Only allowed) (hp : StackOnly allowed pending)
    (result : Except Fault Dyn) : (t.resumed pending result).Only allowed :=
  ⟨Cursor.only_resume hp result, h.boundaries⟩

theorem delegate_alarm {call : Call} {alarm : Alarm} {due : Option Nat}
    {pending' : List Continuation}
    (h : (t.delegate w self pending call).task.phase = .sleeping due alarm pending') :
    alarm = .call call := by
  unfold delegate at h
  split at h
  next _ verdict _ => cases verdict <;> cases h
  next => cases h; rfl

/-- Who goes to sleep at an operation sleeps for its call, for
something outside, or for some time. -/
theorem dispatch_alarm {op : Operation Program} {alarm : Alarm} {due : Option Nat}
    {pending' : List Continuation}
    (h : (t.dispatch w self pending op).task.phase = .sleeping due alarm pending') :
    (∃ call, op.call? = some call ∧ alarm = .call call) ∨
    (∃ ending, alarm = .external ending) ∨
      alarm = .delay ∧ due.isSome := by
  have hexecute : ∃ w' : World r, (t.execute w' self pending op).task.phase =
      .sleeping due alarm pending' := by
    unfold dispatch at h
    split at h <;> exact ⟨_, h⟩
  obtain ⟨w', h⟩ := hexecute
  cases hc : op.call? with
  | some call =>
    rw [execute_of_call? hc] at h
    exact .inl ⟨call, rfl, delegate_alarm h⟩
  | none =>
    right
    cases op with
    | runExternal action => cases h; exact .inl ⟨_, rfl⟩
    | delay duration => cases h; exact .inr ⟨rfl, rfl⟩
    | read store key | delete store key | write store key value =>
      cases store
      · cases hc
      · cases h
    | race ps => cases ps <;> cases h
    | callApi | runUi | checkPermissions | requestPermissions => cases hc
    | _ => cases h

/-- A step leaves a task with allowed operations only. -/
theorem only_step? (h : t.step? w self = some e) (ht : t.Only allowed) : e.task.Only allowed := by
  have hphase := ht.phase
  cases step?_turn h with
  | answered hp hc | forks hp hc =>
    obtain ⟨-, -, hst⟩ := (ht.running hp).advance hc
    exact ht.resumed hst _
  | @sleeps c op pending w' due alarm hp hc hw ha =>
    obtain ⟨hop, -, hst⟩ := (ht.running hp).advance hc
    have hdispatch :
        (t.dispatch w self pending op).task = { t with phase := .sleeping due alarm pending } := by
      simp only [step?, hp, hc, Option.some.injEq] at h
      rw [h]
    refine ⟨⟨⟨by simp [ha], ?_⟩, hst⟩, ht.boundaries⟩
    rintro call rfl
    rcases dispatch_alarm (congrArg Task.phase hdispatch) with ⟨_, hcall, ⟨⟩⟩ |
      ⟨_, ⟨⟩⟩ | ⟨⟨⟩, -⟩
    exact ⟨op, hop, hcall⟩
  | awaits hp hc =>
    obtain ⟨hop, -, hst⟩ := (ht.running hp).advance hc
    exact ⟨⟨hop, hst⟩, ht.boundaries⟩
  | races hp hc =>
    obtain ⟨hop, -, hst⟩ := (ht.running hp).advance hc
    exact ⟨⟨⟨_, hop⟩, hst⟩, ht.boundaries⟩
  | enters hp hc =>
    obtain ⟨-, hps, hst⟩ := (ht.running hp).advance hc
    exact ⟨Cursor.only_new (hps _ (by simp [Operation.programs])),
      List.forall_mem_cons.mpr ⟨hst, ht.boundaries⟩⟩
  | leaves hp hc hb =>
    have hbs := ht.boundaries
    rw [hb, List.forall_mem_cons] at hbs
    exact ⟨Cursor.only_resume hbs.1 _, hbs.2⟩
  | wakes hp | awaited hp | wins hp | exhausts hp =>
    rw [hp] at hphase
    exact ht.resumed hphase.2 _
  | concludes | crashes | closes | settles => exact ⟨trivial, ht.boundaries⟩
  | opens hp =>
    rw [hp] at hphase
    exact hphase.elim
  | loses => exact ht

/-- What a task does to the scene comes from an allowed operation. -/
theorem Only.deed? (ht : t.Only allowed) {d : Deed} (hd : t.phase.deed? = some d) :
    ∃ op, allowed op ∧
      (op.deed? = some d ∨ ∃ call, op.call? = some call ∧ d = .answer call) := by
  have hphase := ht.phase
  unfold Phase.deed? at hd
  split at hd
  next c hp =>
    split at hd
    next op pending hc => exact ⟨op, ((ht.running hp).advance hc).1, .inl hd⟩
    next => cases hd
  next call pending hp =>
    rw [hp] at hphase
    obtain ⟨op, hop, hcall⟩ := hphase.1.2 call rfl
    cases hd
    exact ⟨op, hop, .inr ⟨call, hcall, rfl⟩⟩
  next hp =>
    rw [hp] at hphase
    cases hphase.1.1
  next hp =>
    rw [hp] at hphase
    exact hphase.elim
  next => cases hd

theorem receive_launched (t : Task) (w : World r) (self : Nat) (pending : List Continuation)
    (verdict : Verdict Reply) : (t.receive w self pending verdict).launched = [] := by
  cases verdict <;> rfl

theorem delegate_launched (t : Task) (w : World r) (self : Nat) (pending : List Continuation)
    (call : Call) : (t.delegate w self pending call).launched = [] := by
  unfold delegate
  split
  · exact receive_launched ..
  · rfl

theorem execute_launched {op : Operation Program} (hop : op.Solitary) (t : Task) (w : World r)
    (self : Nat) (pending : List Continuation) : (t.execute w self pending op).launched = [] := by
  cases hc : op.call? with
  | some call => rw [execute_of_call? hc, delegate_launched]
  | none =>
    cases op with
    | read store key | delete store key | write store key value =>
      cases store
      · cases hc
      · rfl
    | fork | race | forkUi => exact hop.elim
    | callApi | runUi | checkPermissions | requestPermissions => cases hc
    | _ => rfl

/-- Who involves no other task launches none. -/
theorem launched_eq_nil (h : t.step? w self = some e) (ht : t.Only allowed)
    (ha : ∀ op, allowed op → op.Solitary) : e.launched = [] := by
  have hturn := step?_turn h
  cases hp : t.phase with
  | running c =>
    simp only [step?, hp] at h
    split at h <;> cases h
    · unfold finish
      split
      · rfl
      · simp only [leaveBoundary]
        split <;> rfl
    next op pending hc =>
      have hop := ha op ((ht.running hp).advance hc).1
      unfold dispatch
      split <;> exact execute_launched hop ..
  | _ =>
    cases hturn with
    | answered hp' | forks hp' | races hp' => cases hp.symm.trans hp'
    | _ => rfl

end Task

/-- The phase without its time. -/
def Phase.untimed : Phase → Phase
  | .sleeping due alarm pending => .sleeping (due.map fun _ => 0) alarm pending
  | p => p

namespace Task
variable {t u : Task} {w w' : World r} {self self' : Nat} {e : Effect r}
  {pending : List Continuation}

/-- The task without its time and whatever it was launched for. -/
def bare (t : Task) : Task := { t with role := .run, span := [], phase := t.phase.untimed }

theorem bare_ended_iff {v : Verdict Dyn} : t.bare.phase = .ended v ↔ t.phase = .ended v := by
  unfold bare
  cases t.phase <;> simp [Phase.untimed]

theorem bare_bare (t : Task) : t.bare.bare = t.bare := by
  unfold bare
  cases t.phase with
  | sleeping due => cases due <;> rfl
  | _ => rfl

theorem receive_bare (verdict : Verdict Reply) :
    (t.bare.receive w' self' pending verdict).task.bare =
      (t.receive w self pending verdict).task.bare := by
  cases verdict <;> rfl

theorem delegate_bare (hs : w'.scene = w.scene) (call : Call) :
    (t.bare.delegate w' self' pending call).task.bare =
      (t.delegate w self pending call).task.bare := by
  have hreception : (w'.accept t.bare.span call).2 = (w.accept t.span call).2 := by
    rw [World.accept_reception, World.accept_reception, hs]
  unfold delegate
  generalize w'.accept t.bare.span call = x at hreception
  generalize w.accept t.span call = y at hreception
  obtain ⟨x, reception⟩ := x
  obtain ⟨y, _⟩ := y
  cases hreception
  cases reception with
  | now verdict => exact receive_bare verdict
  | later wait => cases wait <;> rfl

theorem container_of_scene (hs : w'.scene = w.scene) (i : Nat) : w'.container i = w.container i :=
  congrArg (fun s : Scene r => s.container i) hs

theorem execute_bare (hs : w'.scene = w.scene) {op : Operation Program} (hop : op.Solitary) :
    (t.bare.execute w' self' pending op).task.bare = (t.execute w self pending op).task.bare := by
  cases hc : op.call? with
  | some call => rw [execute_of_call? hc, execute_of_call? hc, delegate_bare hs]
  | none =>
    have hcontainer := container_of_scene hs t.container
    cases op with
    | read store key =>
      cases store with
      | persistent => cases hc
      | ephemeral =>
        simp only [execute, proceed, bare]
        rw [hcontainer]
    | readForeignAll =>
      simp only [execute, proceed, bare]
      rw [hcontainer]
    | delete store key | write store key value =>
      cases store
      · cases hc
      · rfl
    | runExternal action =>
      obtain ⟨wait, ending⟩ := action
      cases wait <;> rfl
    | fork | race | forkUi | peek => exact hop.elim
    | callApi | runUi | checkPermissions | requestPermissions => cases hc
    | _ => rfl

theorem dispatch_of_solitary {op : Operation Program} (hop : op.Solitary) (t : Task) (w : World r)
    (self : Nat) (pending : List Continuation) : t.dispatch w self pending op =
      t.execute (w.emit t.span (.dispatching op.name)) self pending op := by
  cases op with
  | peek => exact hop.elim
  | _ => rfl

theorem dispatch_bare (hs : w'.scene = w.scene) {op : Operation Program} (hop : op.Solitary) :
    (t.bare.dispatch w' self' pending op).task.bare = (t.dispatch w self pending op).task.bare := by
  rw [dispatch_of_solitary hop, dispatch_of_solitary hop]
  refine execute_bare ?_ hop
  simpa using hs

theorem finish_bare (result : Except Fault Dyn) :
    (t.bare.finish w' result).task.bare = (t.finish w result).task.bare := by
  have hboundaries : t.bare.boundaries = t.boundaries := rfl
  unfold finish
  rw [hboundaries]
  cases t.boundaries with
  | nil => rfl
  | cons pending outer =>
    simp only [leaveBoundary]
    cases result >>= Dyn.take .outcome with
    | error e => rfl
    | ok outcome => cases outcome <;> rfl

theorem wake_bare (hs : w'.scene = w.scene) {alarm : Alarm} (ha : alarm.kind?.isSome) :
    (t.bare.wake w' self' pending alarm).task.bare = (t.wake w self pending alarm).task.bare := by
  cases alarm with
  | delay => rfl
  | external ending => cases ending <;> rfl
  | call call =>
    have hverdict : (w'.answer t.bare.span call).2 = (w.answer t.span call).2 := by
      rw [World.answer_verdict, World.answer_verdict, hs]
    simp only [wake]
    rw [hverdict]
    exact receive_bare _
  | background | host => cases ha

/-- What the task does next if it is alone, and the handles say what the cells hold. -/
def solo? (cells : Array Cell) (t : Task) (s : Scene r) : Option (Task × Scene r) :=
  (t.step? (s.world cells) 0).map fun e => (e.task.bare, e.world.scene)

theorem deed?_bare (t : Task) : t.bare.phase.deed? = t.phase.deed? := by
  unfold bare
  cases t.phase with
  | sleeping due alarm pending => cases alarm <;> rfl
  | _ => rfl

variable {cells : Array Cell}

/-- A step of a task among others is the one that it would take alone. -/
theorem solo?_of_step? (h : t.step? w self = some e) (ht : t.Only allowed)
    (ha : ∀ op, allowed op → op.Solitary)
    (hcells : ∀ handle pending result, t.phase = .awaiting handle pending →
      (w.cell handle).outcome? handle = some result →
      (cells[handle.index]?.getD .pending).outcome? handle = some result) :
    t.bare.solo? cells w.scene = some (e.task.bare, e.world.scene) := by
  have hscene : (w.scene.world cells).scene = w.scene := w.scene.scene_world cells
  have hafter := step?_scene h
  obtain ⟨e', he', htask⟩ : ∃ e', t.bare.step? (w.scene.world cells) 0 = some e' ∧
      e'.task.bare = e.task.bare := by
    have hphase := ht.phase
    unfold step? at h
    split at h
    next c hp =>
      have hp' : t.bare.phase = .running c := by simp [bare, hp, Phase.untimed]
      split at h <;> cases h
      next result hc =>
        exact ⟨t.bare.finish (w.scene.world cells) result, by simp only [step?, hp', hc],
          finish_bare result⟩
      next op pending hc =>
        have hop := ha op ((ht.running hp).advance hc).1
        exact ⟨t.bare.dispatch (w.scene.world cells) 0 pending op, by simp only [step?, hp', hc],
          dispatch_bare hscene hop⟩
    next => cases h
    next due alarm pending hp =>
      have hp' : t.bare.phase = .sleeping (some 0) alarm pending := by
        simp [bare, hp, Phase.untimed]
      rw [hp] at hphase
      split at h <;> cases h
      exact ⟨t.bare.wake (w.scene.world cells) 0 pending alarm, by simp [step?, hp'],
        wake_bare hscene hphase.1.1⟩
    next handle pending hp =>
      have hp' : t.bare.phase = .awaiting handle pending := by simp [bare, hp, Phase.untimed]
      obtain ⟨result, hresult, rfl⟩ := Option.map_eq_some_iff.mp h
      have hcell : ((w.scene.world cells).cell handle).outcome? handle = some result :=
        hcells handle pending result hp hresult
      exact ⟨t.bare.proceed (w.scene.world cells) pending (result.map .json),
        by simp only [step?, hp', hcell, Option.map_some], rfl⟩
    next race pending hp =>
      rw [hp] at hphase
      obtain ⟨⟨ps, hps⟩, -⟩ := hphase
      exact (ha _ hps).elim
    next request hp =>
      rw [hp] at hphase
      exact hphase.elim
    next => cases h
  have hsame : e'.world.scene = e.world.scene := by
    rw [step?_scene he', hafter, hscene, deed?_bare]
    rfl
  rw [solo?, he', Option.map_some, htask, hsame]

/-- A task that neither steps nor sleeps for a time to come does nothing alone either. -/
theorem solo?_eq_none (h : t.step? w self = none) (ht : t.Only allowed)
    (ha : ∀ op, allowed op → op.Solitary)
    (hdue : ∀ due, Machine.dueOf t = some due → due ≤ w.now)
    (hcells : ∀ handle pending, t.phase = .awaiting handle pending →
      (w.cell handle).outcome? handle = none →
        (cells[handle.index]?.getD .pending).outcome? handle = none) (s : Scene r) :
    t.bare.solo? cells s = none := by
  have hphase := ht.phase
  have hnone : t.bare.step? (s.world cells) 0 = none := by
    cases hp : t.phase with
    | running c =>
      simp only [step?, hp] at h
      split at h <;> cases h
    | sleeping due alarm pending =>
      cases due with
      | none => simp [step?, bare, hp, Phase.untimed]
      | some due =>
        have hle := hdue due (by simp [Machine.dueOf, hp])
        simp [step?, hp, hle] at h
    | awaiting handle pending =>
      have hout : (w.cell handle).outcome? handle = none := by simpa [step?, hp] using h
      have hcell : ((s.world cells).cell handle).outcome? handle = none :=
        hcells handle pending hp hout
      simp [step?, bare, hp, Phase.untimed, hcell]
    | racing race pending =>
      rw [hp] at hphase
      obtain ⟨⟨ps, hps⟩, -⟩ := hphase
      exact (ha _ hps).elim
    | opening request =>
      rw [hp] at hphase
      exact hphase.elim
    | ended v => simp [step?, bare, hp, Phase.untimed]
  rw [solo?, hnone, Option.map_none]

end Task

/-- The way of a task from one moment to a later one, alone among others: it takes its steps, and in
between others change the scene, as `R` allows. -/
inductive Trail (cells : Array Cell) (R : Scene r → Scene r → Prop) :
    Task → Scene r → Task → Scene r → Prop
  | refl {t : Task} {s : Scene r} : Trail cells R t s t s
  | own {t u v : Task} {s s₁ s₂ : Scene r} (h : t.solo? cells s = some (u, s₁))
    (rest : Trail cells R u s₁ v s₂) : Trail cells R t s v s₂
  | other {t v : Task} {s s₁ s₂ : Scene r} (h : R s s₁) (rest : Trail cells R t s₁ v s₂) :
    Trail cells R t s v s₂

namespace Trail
variable {cells : Array Cell} {R : Scene r → Scene r → Prop} {t u v u' : Task}
  {s s' s₁ s₂ s₂' : Scene r}

theorem trans (h : Trail cells R t s u s₁) (h' : Trail cells R u s₁ v s₂) :
    Trail cells R t s v s₂ := by
  induction h with
  | refl => exact h'
  | own h _ ih => exact .own h (ih h')
  | other h _ ih => exact .other h (ih h')

/-- What others may change does not matter for the steps of a task of this kind. -/
structure Unaffected (cells : Array Cell) (R : Scene r → Scene r → Prop) (P : Task → Prop) :
    Prop where
  equivalence : Equivalence R
  keeps : ∀ (t u : Task) (s s₁ : Scene r), P t → t.solo? cells s = some (u, s₁) → P u
  step : ∀ (t : Task) (s s' : Scene r), P t → R s s' →
    Option.Rel (fun x y => x.1 = y.1 ∧ R x.2 y.2) (t.solo? cells s) (t.solo? cells s')

variable {P : Task → Prop}

/-- Who does nothing alone does not change. -/
theorem eq_of_stuck (hR : Unaffected cells R P) (ht : P t) (hs : t.solo? cells s = none)
    (h : Trail cells R t s v s₂) : t = v ∧ R s s₂ := by
  induction h with
  | refl => exact ⟨rfl, hR.equivalence.refl _⟩
  | own h => cases hs.symm.trans h
  | other h _ ih =>
    have hstuck := hR.step _ _ _ ht h
    rw [hs] at hstuck
    cases hnext : Task.solo? cells _ _ with
    | some x => rw [hnext] at hstuck; cases hstuck
    | none =>
      obtain ⟨rfl, hrest⟩ := ih ht hnext
      exact ⟨rfl, hR.equivalence.trans h hrest⟩

/-- A way that ends where nothing is left to do goes through the task's next step. -/
theorem next (hR : Unaffected cells R P) (ht : P t) (hs : t.solo? cells s = some (u, s₁))
    (h : Trail cells R t s v s₂) (hend : v.solo? cells s₂ = none) :
    ∃ s₁', R s₁ s₁' ∧ Trail cells R u s₁' v s₂ := by
  induction h generalizing s₁ with
  | refl => cases hs.symm.trans hend
  | own h rest =>
    cases hs.symm.trans h
    exact ⟨_, hR.equivalence.refl _, rest⟩
  | other h _ ih =>
    have hstep := hR.step _ _ _ ht h
    rw [hs] at hstep
    cases hnext : Task.solo? cells _ _ with
    | none => rw [hnext] at hstep; cases hstep
    | some x =>
      rw [hnext] at hstep
      obtain ⟨u', s'⟩ := x
      obtain ⟨rfl, hrel⟩ : u = u' ∧ R s₁ s' := by
        cases hstep with
        | some h => exact h
      obtain ⟨s₁', hrel', rest⟩ := ih ht hnext hend
      exact ⟨s₁', hR.equivalence.trans hrel hrel', rest⟩

/-- All ways of a task that end where nothing is left to do end at the same place. -/
theorem unique (hR : Unaffected cells R P) (ht : P t) (hs : R s s') (h : Trail cells R t s v s₂)
    (hend : v.solo? cells s₂ = none) (h' : Trail cells R t s' u' s₂')
    (hend' : u'.solo? cells s₂' = none) :
    v = u' ∧ R s₂ s₂' := by
  induction h generalizing s' with
  | @refl t s =>
    have hstuck := hR.step t s s' ht hs
    rw [hend] at hstuck
    cases hnext : t.solo? cells s' with
    | some x => rw [hnext] at hstuck; cases hstuck
    | none =>
      obtain ⟨rfl, hrest⟩ := eq_of_stuck hR ht hnext h'
      exact ⟨rfl, hR.equivalence.trans hs hrest⟩
  | @own t u v s s₁ s₂ h _ ih =>
    have hstep := hR.step t s s' ht hs
    rw [h] at hstep
    cases hnext : t.solo? cells s' with
    | none => rw [hnext] at hstep; cases hstep
    | some x =>
      rw [hnext] at hstep
      obtain ⟨u₁, s₁'⟩ := x
      obtain ⟨rfl, hrel⟩ : u = u₁ ∧ R s₁ s₁' := by
        cases hstep with
        | some h => exact h
      obtain ⟨s₁'', hrel', rest'⟩ := next hR ht hnext h' hend'
      exact ih (hR.keeps _ _ _ _ ht h) (hR.equivalence.trans hrel hrel') hend rest'
  | other h _ ih => exact ih ht (hR.equivalence.trans (hR.equivalence.symm h) hs) hend h'

theorem unaffected_eq : Unaffected (r := r) cells Eq fun _ => True where
  equivalence := ⟨fun _ => rfl, Eq.symm, Eq.trans⟩
  keeps _ _ _ _ _ _ := trivial
  step t s s' _ hs := by
    subst hs
    cases t.solo? cells s with
    | none => exact .none
    | some x => exact .some ⟨rfl, rfl⟩

end Trail

end Workflow
