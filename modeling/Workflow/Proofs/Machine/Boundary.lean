import Workflow.Bench
import Workflow.Program.Flow
import Workflow.Proofs.Machine.Role
import Workflow.Proofs.Machine.Scene
import Workflow.Proofs.Program.Cursor
import Workflow.Proofs.Session

/-! Recovery boundaries.

A task inside a boundary steps exactly as it would if the guarded program were all
that it has to run, until that program has ended. Then the boundary turns the end
into the answer that goes on outside. -/
namespace Workflow

variable {r : Runner}

/-- Nothing but the trace has changed, and it has grown. -/
def World.Tells (w w' : World r) : Prop := ∃ lines, w' = { w with trace := lines ++ w.trace }

theorem World.Tells.refl (w : World r) : w.Tells w := ⟨[], rfl⟩

theorem World.tells_emit (w : World r) (span : Span) (event : Event) :
    w.Tells (w.emit span event) :=
  ⟨[⟨w.now, span, event⟩], rfl⟩

theorem World.Tells.scene {w w' : World r} (h : w.Tells w') : w'.scene = w.scene := by
  obtain ⟨lines, rfl⟩ := h
  rfl

/-- What goes on outside a boundary when the program inside has ended: success and failure are told,
but an outcome that asks for it is a failure outside. -/
def boundaryAnswer (result : Except Fault Dyn) : Except Fault Dyn :=
  match result >>= Dyn.take .outcome with
  | .ok (.succeed v) => .ok ⟨.attempt .json, .ok v⟩
  | .ok (.fail message) => .error (.explicit message)
  | .error e => .ok ⟨.attempt .json, .error e⟩

namespace Task
variable {t : Task} {w : World r} {self : Nat} {outer : List (List Continuation)}

/-- The task with further boundaries around all that it has to do. -/
def within (outer : List (List Continuation)) (t : Task) : Task :=
  { t with boundaries := t.boundaries ++ outer }

/-- What the program inside the innermost boundary has ended with. -/
def result? (t : Task) : Option (Except Fault Dyn) :=
  match t.phase with
  | .running c =>
    match c.advance with
    | .finished result => some result
    | .execute .. => none
  | _ => none

theorem result?_eq_some_iff {result : Except Fault Dyn} :
    t.result? = some result ↔ ∃ c, t.phase = .running c ∧ c.advance = .finished result := by
  unfold result?
  split
  next c hp => split <;> simp_all
  next h =>
    constructor
    · intro he
      cases he
    · rintro ⟨c, hp, -⟩
      exact absurd hp (h c)

/-- What the task's own program has ended with, when nothing is around it any more. -/
def completes? (t : Task) : Option (Except Fault Dyn) :=
  if t.boundaries.isEmpty then t.result? else none

theorem completes?_eq_some_iff {result : Except Fault Dyn} :
    t.completes? = some result ↔
      t.boundaries = [] ∧ ∃ c, t.phase = .running c ∧ c.advance = .finished result := by
  simp [completes?, result?_eq_some_iff]

end Task

def Effect.within (outer : List (List Continuation)) (e : Effect r) : Effect r :=
  { e with task := e.task.within outer }

namespace Task
variable {t : Task} {w : World r} {self : Nat} {outer : List (List Continuation)}

theorem receive_within (w : World r) (self : Nat) (pending : List Continuation)
    (verdict : Verdict Reply) :
    (t.within outer).receive w self pending verdict =
      (t.receive w self pending verdict).within outer := by
  cases verdict <;> rfl

theorem delegate_within (w : World r) (self : Nat) (pending : List Continuation) (call : Call) :
    (t.within outer).delegate w self pending call =
      (t.delegate w self pending call).within outer := by
  have haccept : w.accept (t.within outer).span call = w.accept t.span call := rfl
  unfold delegate
  rw [haccept]
  split
  · exact receive_within ..
  · rfl

theorem branches_within (race index : Nat) (ps : List Program) :
    (t.within outer).branches race index ps = t.branches race index ps := by
  induction ps generalizing index with
  | nil => rfl
  | cons p ps ih =>
    rw [branches, branches, ih]
    rfl

theorem execute_within (w : World r) (self : Nat) (pending : List Continuation)
    (op : Operation Program) :
    (t.within outer).execute w self pending op = (t.execute w self pending op).within outer := by
  cases hc : op.call? with
  | some call => rw [execute_of_call? hc, execute_of_call? hc, delegate_within]
  | none =>
    cases op with
    | read store key | delete store key | write store key value =>
      cases store with
      | persistent => cases hc
      | ephemeral => rfl
    | race ps =>
      cases ps with
      | nil => rfl
      | cons p ps => simp only [execute, branches_within]; rfl
    | callApi | runUi | checkPermissions | requestPermissions => cases hc
    | _ => rfl

theorem closeBackground_within (w : World r) (self : Nat) (verdict : Verdict Reply) :
    (t.within outer).closeBackground w self verdict =
      (t.closeBackground w self verdict).within outer := by
  unfold closeBackground
  split
  · split <;> rfl
  · rfl
  · rfl
  · rfl

theorem openBackground_within (w : World r) (self : Nat) (request : String) :
    (t.within outer).openBackground w self request =
      (t.openBackground w self request).within outer := by
  have haccept : w.accept (t.within outer).span (.ui request) = w.accept t.span (.ui request) := rfl
  unfold openBackground
  rw [haccept]
  split
  · exact closeBackground_within ..
  · rfl

theorem wake_within (w : World r) (self : Nat) (pending : List Continuation) (alarm : Alarm) :
    (t.within outer).wake w self pending alarm = (t.wake w self pending alarm).within outer := by
  cases alarm with
  | delay => rfl
  | external ending => cases ending <;> rfl
  | call call => exact receive_within ..
  | background request => exact closeBackground_within ..
  | host h result => cases result <;> rfl

theorem judge_within (w : World r) (race : Nat) (pending : List Continuation) (x : Race)
    (a : Arrival) (rest : List Arrival) :
    (t.within outer).judge w race pending x a rest =
      (t.judge w race pending x a rest).within outer := by
  simp only [judge]
  split <;> rfl

theorem leaveBoundary_within (w : World r) (pending : List Continuation)
    (inner : List (List Continuation)) (result : Except Fault Dyn) :
    (t.within outer).leaveBoundary w pending (inner ++ outer) result =
      (t.leaveBoundary w pending inner result).within outer := by
  simp only [leaveBoundary]
  split <;> rfl

/-- Whatever is around a task does not matter for its step, until its own program has ended. -/
theorem step?_within (h : t.completes? = none) :
    (t.within outer).step? w self = (t.step? w self).map (·.within outer) := by
  have hphase : (t.within outer).phase = t.phase := rfl
  unfold step?
  rw [hphase]
  split
  next c hp =>
    split
    next result hc =>
      cases hb : t.boundaries with
      | nil =>
        have := completes?_eq_some_iff.mpr ⟨hb, c, hp, hc⟩
        simp [h] at this
      | cons pending inner =>
        have hw : (t.within outer).boundaries = pending :: (inner ++ outer) := by simp [within, hb]
        simp only [finish, hb, hw, leaveBoundary_within, Option.map_some]
    next op pending hc =>
      simp only [dispatch]
      split <;> simp only [Option.map_some] <;> exact congrArg some (execute_within ..)
  next => rfl
  next due alarm pending hp =>
    split
    · exact congrArg some (wake_within ..)
    · rfl
  next h pending hp => simp only [Option.map_map]; rfl
  next race pending hp =>
    split
    · split
      · exact congrArg some (judge_within ..)
      · split <;> rfl
    · rfl
  next request hp => exact congrArg some (openBackground_within ..)
  next => rfl

theorem leaveBoundary_eq (t : Task) (w : World r) (pending : List Continuation)
    (outer : List (List Continuation)) (result : Except Fault Dyn) :
    ∃ w', w.Tells w' ∧ t.leaveBoundary w pending outer result =
      ⟨w', { t with boundaries := outer }.resumed pending (boundaryAnswer result), []⟩ := by
  simp only [leaveBoundary, boundaryAnswer]
  cases result >>= Dyn.take .outcome with
  | error e => exact ⟨_, w.tells_emit t.span (.absorbed e), rfl⟩
  | ok outcome => cases outcome <;> exact ⟨w, .refl w, rfl⟩

/-- Where a failure goes that is raised in the task: to the innermost boundary, and
if there is none, it ends the task. -/
def delivered (t : Task) (e : Fault) : Task :=
  match t.boundaries with
  | [] => { t with phase := .ended (.fault e) }
  | pending :: outer =>
    { t with boundaries := outer }.resumed pending (.ok ⟨.attempt .json, .error e⟩)

theorem delivered_resumed (t : Task) (pending : List Continuation) (result : Except Fault Dyn)
    (e : Fault) : (t.resumed pending result).delivered e = t.delivered e := by
  unfold delivered
  cases h : t.boundaries <;> simp [resumed, h]

/-- The message with which the next step of the task panics. -/
def panics? (t : Task) (w : World r) : Option String :=
  match t.phase with
  | .running c =>
    match c.advance with
    | .finished _ => none
    | .execute op _ =>
      op.call?.bind fun call =>
        match (w.scene.accept call).2 with
        | .now (.panic message) => some message
        | _ => none
  | .sleeping (some due) alarm _ =>
    if due ≤ w.now then
      match alarm with
      | .external (.panic message) => some message
      | .call call =>
        match (w.scene.answer call).2 with
        | .panic message => some message
        | _ => none
      | _ => none
    else none
  | _ => none

theorem crash_of_panics? {message : String} (h : t.panics? w = some message) :
    ∃ w', t.step? w self = some (t.crash w' self message) := by
  unfold panics? at h
  unfold step?
  split at h
  next c hp =>
    split at h
    · cases h
    next op pending hc =>
      obtain ⟨call, hcall, hpanic⟩ := Option.bind_eq_some_iff.mp h
      split at hpanic <;> cases hpanic
      next hreception =>
        have hdispatch : t.dispatch w self pending op =
            t.execute (w.emit t.span (.dispatching op.name)) self pending op := by
          cases op with
          | peek handle => cases hcall
          | _ => rfl
        have haccept : ((w.emit t.span (.dispatching op.name)).accept t.span call).2 =
            .now (.panic message) := by
          rw [World.accept_reception]
          exact hreception
        refine ⟨((w.emit t.span (.dispatching op.name)).accept t.span call).1, ?_⟩
        simp only [hp, hc, hdispatch, execute_of_call? hcall, delegate]
        split
        next w' verdict heq =>
          rw [heq] at haccept
          cases haccept
          rw [heq]
          rfl
        next w' wait heq =>
          rw [heq] at haccept
          cases haccept
  next due alarm pending hp =>
    split at h
    next hdue =>
      simp only [hp, hdue, if_true]
      split at h
      · cases h
        exact ⟨w, rfl⟩
      next call =>
        split at h <;> cases h
        next hverdict =>
          rw [← w.answer_verdict t.span] at hverdict
          refine ⟨(w.answer t.span call).1, ?_⟩
          simp only [wake, hverdict]
          rfl
      · cases h
    · cases h
  next => cases h

end Task

namespace Machine
variable {m m' n : Machine r} {a : Happening} {as : List Happening} {i j : Nat} {t : Task}
  {outer : List (List Continuation)} {c : Cursor} {pending : List Continuation}

/-- The machine with further boundaries around all that task `j` has to do. -/
def enclose (m : Machine r) (j : Nat) (outer : List (List Continuation)) : Machine r :=
  { m with tasks := m.tasks.modify j (Task.within outer) }

/-- The machine on which the program is all that task `j` has to run. -/
def alone (m : Machine r) (j : Nat) (p : Program) : Machine r :=
  { m with
    tasks := m.tasks.modify j fun t => { t with boundaries := [], phase := .running (.new p) } }

/-- What the program of task `j` has ended with, when nothing is around it any more. -/
def completion? (m : Machine r) (j : Nat) : Option (Except Fault Dyn) :=
  m.tasks[j]?.bind Task.completes?

theorem modify_set_append {tasks : Array Task} (i : Nat) (u : Task) (launched : Array Task)
    (hj : j < tasks.size) (f : Task → Task) : (tasks.set! i u ++ launched).modify j f =
      (tasks.modify j f).set! i (if i = j then f u else u) ++ launched := by
  apply Array.ext_getElem?
  intro k
  simp only [Array.getElem?_modify, Array.getElem?_append, Array.set!_eq_setIfInBounds,
    Array.size_setIfInBounds, Array.size_modify, Array.getElem?_setIfInBounds]
  grind

theorem enclose_tasks (i : Nat) : (m.enclose j outer).tasks[i]? =
    if j = i then m.tasks[i]?.map (Task.within outer) else m.tasks[i]? :=
  Array.getElem?_modify

/-- The steps of the enclosed machine are those of the machine, but for the step in which the
enclosed program has ended. -/
theorem step?_enclose (hj : j < m.tasks.size) (h : i = j → m.completion? j = none) :
    (m.enclose j outer).step? i = (m.step? i).map (·.enclose j outer) := by
  have htask : (m.enclose j outer).tasks[i]? =
      if j = i then m.tasks[i]?.map (Task.within outer) else m.tasks[i]? := enclose_tasks i
  cases ht : m.tasks[i]? with
  | none => simp_all [step?]
  | some t =>
    have hstep : (m.enclose j outer).tasks[i]? =
        some (if i = j then t.within outer else t) := by
      rw [htask, ht]
      by_cases hij : i = j
      · simp [hij]
      · simp [hij, Ne.symm hij]
    simp only [step?, hstep, ht]
    have heffect : (if i = j then t.within outer else t).step? (m.enclose j outer).world i =
        (t.step? m.world i).map fun e => if i = j then e.within outer else e := by
      by_cases hij : i = j
      · have hcomplete := h hij
        rw [completion?, ← hij, ht] at hcomplete
        simp only [hij, if_true]
        exact Task.step?_within hcomplete
      · simp only [hij, if_false, Option.map_id']
        rfl
    rw [heffect, Option.map_map, Option.map_map]
    congr 1
    funext e
    have hset := modify_set_append i e.task e.launched.toArray hj (Task.within outer)
    simp only [Function.comp_apply, enclose, List.foldl_push_eq_append', hset]
    by_cases hij : i = j <;> simp [hij, Effect.within]

theorem isNone_step?_enclose (hj : j < m.tasks.size) (i : Nat) :
    ((m.enclose j outer).step? i).isNone = (m.step? i).isNone := by
  by_cases h : i = j → m.completion? j = none
  · rw [step?_enclose hj h, Option.isNone_map]
  · -- the program has ended: the task steps on both machines, if to different places
    obtain ⟨rfl, hcomplete⟩ := Classical.not_imp.mp h
    obtain ⟨result, hresult⟩ := Option.ne_none_iff_exists'.mp hcomplete
    obtain ⟨t, ht, hc⟩ := Option.bind_eq_some_iff.mp hresult
    obtain ⟨-, c, hp, hadvance⟩ := Task.completes?_eq_some_iff.mp hc
    have ht' : (m.enclose i outer).tasks[i]? = some (t.within outer) := by
      simp [enclose_tasks, ht]
    obtain ⟨m₁, hm₁, -⟩ := stepped_finish ht hp hadvance
    obtain ⟨m₂, hm₂, -⟩ := stepped_finish (t := t.within outer) ht' hp hadvance
    simp [hm₁, hm₂]

theorem foldl_earlier_modify (now : Nat) (ts : List Task) (best : Option Nat) (j : Nat) :
    (ts.modify j (Task.within outer)).foldl (earlier now) best = ts.foldl (earlier now) best := by
  induction ts generalizing j best with
  | nil => simp
  | cons t ts ih =>
    cases j with
    | zero => rfl
    | succ j => simp [ih]

theorem nextDue_enclose : (m.enclose j outer).nextDue = m.nextDue := by
  rw [nextDue_eq, nextDue_eq, enclose, Array.toList_modify]
  exact foldl_earlier_modify ..

theorem isQuiet_enclose (hj : j < m.tasks.size) : (m.enclose j outer).isQuiet = m.isQuiet := by
  unfold isQuiet
  have hsize : (m.enclose j outer).tasks.size = m.tasks.size := Array.size_modify
  rw [hsize]
  congr 1
  funext i
  exact isNone_step?_enclose hj i

theorem happen?_enclose (hj : j < m.tasks.size)
    (h : a = .move (.step j) → m.completion? j = none) :
    (m.enclose j outer).happen? a = (m.happen? a).map (·.enclose j outer) := by
  cases a with
  | move a =>
    cases a with
    | step i => exact step?_enclose hj fun hi => h (by rw [hi])
    | tick =>
      simp only [happen?, move?, isQuiet_enclose hj, tick?, nextDue_enclose]
      split
      · rw [Option.map_map]
        rfl
      · rfl
  | launch p container =>
    simp only [happen?, launch, Option.map_some, enclose]
    congr 2
    apply Array.ext_getElem?
    intro k
    simp only [Array.getElem?_push, Array.getElem?_modify, Array.size_modify]
    by_cases hk : k = m.tasks.size
    · simp [hk, Nat.ne_of_lt hj]
    · simp [hk]
  | supply container => rfl

theorem size_le_of_happen? (h : m.happen? a = some m') : m.tasks.size ≤ m'.tasks.size := by
  cases happen?_change h with
  | step hs =>
    rw [hs.size]
    exact Nat.le_add_right _ _
  | idle _ hi =>
    have := congrArg List.length hi.tasks
    simp at this
    omega

/-- A program whose task has completed it has ended. -/
theorem ends_of_completion? {result : Except Fault Dyn} (h : m.completion? j = some result) :
    ∃ m', m.step? j = some m' ∧ m'.ending? j = some (.ofExcept result) := by
  obtain ⟨t, ht, hcomplete⟩ := Option.bind_eq_some_iff.mp h
  obtain ⟨hb, c, hp, hc⟩ := Task.completes?_eq_some_iff.mp hcomplete
  obtain ⟨m', hm, hs⟩ := stepped_finish ht hp hc
  refine ⟨m', hm, ending?_eq_some_iff.mpr ⟨_, hs.self, ?_⟩⟩
  simp [Task.finish, hb, Task.conclude, Task.enter]

/-- What happens to a machine without completing the program of a task,
happens also with boundaries around it. -/
theorem run_enclose (hj : j < m.tasks.size) (h : Run m as m')
    (hopen : ∀ result, m'.ending? j ≠ some (.ofExcept result)) :
    Run (m.enclose j outer) as (m'.enclose j outer) := by
  induction h with
  | refl => exact .refl
  | @step m m₁ m' a as ha hrest ih =>
    have hcomplete : a = .move (.step j) → m.completion? j = none := by
      rintro rfl
      refine Option.eq_none_iff_forall_ne_some.mpr fun result hresult => ?_
      obtain ⟨m₂, hm₂, hended⟩ := ends_of_completion? hresult
      cases ha.symm.trans hm₂
      exact hopen result (ending?_run hrest hended)
    refine .step ?_ (ih (Nat.lt_of_lt_of_le hj (size_le_of_happen? ha)) hopen)
    rw [happen?_enclose hj hcomplete, ha]
    rfl

/-- Task `j` runs a program. -/
def RunsProgram (m : Machine r) (j : Nat) : Prop :=
  ∃ t, m.tasks[j]? = some t ∧ t.Fits ∧ t.role.OfProgram

theorem RunsProgram.lt_size (h : m.RunsProgram j) : j < m.tasks.size := by
  obtain ⟨t, ht, -⟩ := h
  exact (Array.getElem?_eq_some_iff.mp ht).1

theorem runsProgram_happen? (h : m.RunsProgram j) (ha : m.happen? a = some m') :
    m'.RunsProgram j := by
  obtain ⟨t, ht, hf, hr⟩ := h
  cases happen?_change ha with
  | @step i t' e _ hs =>
    by_cases hj : j = i
    · subst hj
      cases hs.task.symm.trans ht
      exact ⟨e.task, hs.self, hs.turn.fits hf, hs.turn.role_eq ▸ hr⟩
    · exact ⟨t, hs.other hj ht, hf, hr⟩
  | idle _ hi => exact ⟨t, hi.keeps ht, hf, hr⟩

/-- A program that is not completed ends by nothing but a panic. -/
theorem open_happen? (h : m.RunsProgram j)
    (hopen : ∀ result, m.ending? j ≠ some (.ofExcept result)) (ha : m.happen? a = some m')
    (hc : a = .move (.step j) → m.completion? j = none) (result : Except Fault Dyn) :
    m'.ending? j ≠ some (.ofExcept result) := by
  intro hv
  obtain ⟨t, ht, hf, hr⟩ := h
  obtain ⟨u, hu, hend⟩ := ending?_eq_some_iff.mp hv
  have kept : m'.tasks[j]? = some t → False := by
    intro ht'
    cases ht'.symm.trans hu
    exact hopen result (ending?_eq_some_iff.mpr ⟨t, ht, hend⟩)
  cases happen?_change ha with
  | @step i t' e _ hs =>
    by_cases hj : j = i
    · subst hj
      cases hs.task.symm.trans ht
      cases hs.self.symm.trans hu
      obtain ⟨c, d, hp, hadvance, hb, -⟩ | ⟨message, hmessage⟩ :=
        hs.turn.program_ends hf hr hend
      · have hnone := hc rfl
        rw [completion?, ht, Option.bind_some,
          Task.completes?_eq_some_iff.mpr ⟨hb, c, hp, hadvance⟩] at hnone
        cases hnone
      · cases result <;> cases hmessage
    · exact kept (hs.other hj ht)
  | idle _ hi => exact kept (hi.keeps ht)

/-- What happens with boundaries around a task happens without them too, until
the enclosed program is completed. -/
theorem run_of_enclose (hp : m.RunsProgram j)
    (hopen : ∀ result, m.ending? j ≠ some (.ofExcept result))
    (h : Run (m.enclose j outer) as n) :
    (∃ m', Run m as m' ∧ (∀ result, m'.ending? j ≠ some (.ofExcept result)) ∧
      n = m'.enclose j outer) ∨
    ∃ before after m' n', as = before ++ .move (.step j) :: after ∧ Run m before m' ∧
      (m'.completion? j).isSome ∧ (m'.enclose j outer).step? j = some n' ∧ Run n' after n := by
  induction as generalizing m with
  | nil =>
    cases h
    exact .inl ⟨m, .refl, hopen, rfl⟩
  | cons a as ih =>
    cases h with
    | @step _ n₁ _ _ _ ha hrest =>
      by_cases hcomplete : a = .move (.step j) → m.completion? j = none
      · rw [happen?_enclose hp.lt_size hcomplete] at ha
        obtain ⟨m₁, hm₁, rfl⟩ := Option.map_eq_some_iff.mp ha
        have hopen₁ := open_happen? hp hopen hm₁ hcomplete
        obtain ⟨m', hrun, hm', rfl⟩ |
            ⟨before, after, m', n', rfl, hrun, hc, hstep, hafter⟩ :=
          ih (runsProgram_happen? hp hm₁) hopen₁ hrest
        · exact .inl ⟨m', .step hm₁ hrun, hm', rfl⟩
        · exact .inr ⟨a :: before, after, m', n', rfl, .step hm₁ hrun, hc, hstep, hafter⟩
      · obtain ⟨rfl, hne⟩ := Classical.not_imp.mp hcomplete
        exact .inr ⟨[], as, m, n₁, rfl, .refl, Option.isSome_iff_ne_none.mpr hne, ha, hrest⟩

/-- A task that leaves its innermost boundary goes on outside with the boundary's answer. -/
theorem leave_step {result : Except Fault Dyn} (ht : m.tasks[j]? = some t)
    (hp : t.phase = .running c) (hc : c.advance = .finished result)
    (hb : t.boundaries = pending :: outer) :
    ∃ w, m.world.Tells w ∧ m.step? j = some ⟨w, m.tasks.set! j
      ({ t with boundaries := outer }.resumed pending (boundaryAnswer result))⟩ := by
  obtain ⟨w, htells, hleave⟩ := t.leaveBoundary_eq m.world pending outer result
  refine ⟨w, htells, ?_⟩
  simp [step?, ht, Task.step?, hp, hc, Task.finish, hb, hleave]

/-- A task that enters a boundary goes on with the guarded program
alone, everything else being outside. -/
theorem enter_step {p : Program} (ht : m.tasks[j]? = some t) (hp : t.phase = .running c)
    (hc : c.advance = .execute (.recover p) pending) :
    ∃ w, m.world.Tells w ∧ m.step? j =
      some (((⟨w, m.tasks⟩ : Machine r).alone j p).enclose j (pending :: t.boundaries)) := by
  refine ⟨m.world.emit t.span (.dispatching (Operation.recover p).name),
    m.world.tells_emit .., ?_⟩
  have htasks : m.tasks.set! j
        { t with boundaries := pending :: t.boundaries, phase := .running (.new p) } =
      (m.tasks.modify j fun t => { t with boundaries := [], phase := .running (.new p) }).modify j
        (Task.within (pending :: t.boundaries)) := by
    apply Array.ext_getElem?
    intro k
    simp only [Array.getElem?_modify, Array.set!_eq_setIfInBounds, Array.getElem?_setIfInBounds]
    by_cases hk : j = k
    · obtain ⟨hlt, rfl⟩ := Array.getElem?_eq_some_iff.mp ht
      simp [← hk, hlt, Task.within]
    · simp [hk]
  simp only [step?, ht, Task.step?, hp, hc, Task.dispatch, Task.execute, Option.map_some, alone,
    enclose, ← htasks, List.foldl_nil]

theorem alone_runsProgram (hm : m.Reachable) (ht : m.tasks[j]? = some t) (hp : t.phase = .running c)
    (w : World r) (p : Program) : ((⟨w, m.tasks⟩ : Machine r).alone j p).RunsProgram j := by
  have hrole : t.role.OfProgram :=
    (fit_reachable hm j t ht).role (by simp [hp, Phase.OfProgram]) (by simp [Task.hasEnded, hp])
  refine ⟨{ t with boundaries := [], phase := .running (.new p) }, ?_, ?_, hrole⟩
  · simp [alone, Array.getElem?_modify, ht]
  · exact Task.fits_of_program hrole trivial

/-- The runs inside a boundary: those of the guarded program alone, until it is completed, and then
whatever goes on from there. -/
theorem run_enclose_iff (hp : m.RunsProgram j)
    (hopen : ∀ result, m.ending? j ≠ some (.ofExcept result)) :
    Run (m.enclose j outer) as n ↔
      (∃ m', Run m as m' ∧ (∀ result, m'.ending? j ≠ some (.ofExcept result)) ∧
        n = m'.enclose j outer) ∨
      ∃ before after m' n', as = before ++ .move (.step j) :: after ∧ Run m before m' ∧
        (m'.completion? j).isSome ∧ (m'.enclose j outer).step? j = some n' ∧
        Run n' after n := by
  constructor
  · exact run_of_enclose hp hopen
  · rintro (⟨m', hrun, hopen', rfl⟩ |
      ⟨before, after, m', n', rfl, hrun, hc, hstep, hafter⟩)
    · exact run_enclose hp.lt_size hrun hopen'
    · refine (run_enclose hp.lt_size hrun ?_).trans (.step hstep hafter)
      -- a program that is about to be completed has not ended
      intro result hended
      obtain ⟨d, hd⟩ := Option.isSome_iff_exists.mp hc
      obtain ⟨t, ht, hcomplete⟩ := Option.bind_eq_some_iff.mp hd
      obtain ⟨-, c, hp', -⟩ := Task.completes?_eq_some_iff.mp hcomplete
      obtain ⟨u, hu, hend⟩ := ending?_eq_some_iff.mp hended
      cases ht.symm.trans hu
      cases hp'.symm.trans hend

/-- When the guarded program is completed, the task goes on outside, as it was when it entered. -/
theorem exit_step {result : Except Fault Dyn} (h : Run m as m') (ht : m.tasks[j]? = some t)
    (hresult : m'.completion? j = some result) :
    ∃ w, m'.world.Tells w ∧ (m'.enclose j (pending :: outer)).step? j = some ⟨w,
      m'.tasks.set! j
      ({ t with boundaries := outer }.resumed pending (boundaryAnswer result))⟩ := by
  obtain ⟨u, hu, hcomplete⟩ := Option.bind_eq_some_iff.mp hresult
  obtain ⟨hb, c, hp, hc⟩ := Task.completes?_eq_some_iff.mp hcomplete
  obtain ⟨boundaries, phase, hsame⟩ := same_run h ht
  cases hu.symm.trans hsame
  cases hb
  have hu' : (m'.enclose j (pending :: outer)).tasks[j]? =
      some { t with boundaries := pending :: outer, phase := phase } := by
    simp [enclose_tasks, hu, Task.within]
  obtain ⟨w, htells, hstep⟩ := leave_step hu' hp hc rfl
  refine ⟨w, htells, hstep.trans ?_⟩
  congr 2
  apply Array.ext_getElem?
  intro k
  simp only [enclose, Array.set!_eq_setIfInBounds, Array.getElem?_setIfInBounds, Array.size_modify,
    Array.getElem?_modify]
  by_cases hk : j = k
  · simp [hk]; rfl
  · simp [hk]

/-- The answer of a boundary, as it reaches the continuation of a recovered program. -/
theorem advance_boundaryAnswer {b : Kind} (k : Except Fault Json → Flow b)
    (rest : List Continuation) (result : Except Fault Dyn) :
    (Cursor.resume (Flow.continuation (a := .attempt .json) k :: rest)
      (boundaryAnswer result)).advance =
      match result >>= Dyn.take .outcome with
      | .ok (.succeed v) => Cursor.advance ⟨(k (.ok v)).program, rest⟩
      | .ok (.fail message) => .finished (.error (.explicit message))
      | .error e => Cursor.advance ⟨(k (.error e)).program, rest⟩ := by
  have told (x : Except Fault Json) :
      Cursor.advance ⟨.done ⟨.attempt .json, x⟩,
        Flow.continuation (a := .attempt .json) k :: rest⟩ =
        Cursor.advance ⟨(k x).program, rest⟩ :=
    congrArg (fun p => Cursor.advance ⟨p, rest⟩)
      (Flow.continuation_mk (a := .attempt .json) k x)
  unfold boundaryAnswer
  cases result >>= Dyn.take .outcome with
  | error e => exact told (.error e)
  | ok outcome =>
    cases outcome with
    | succeed v => exact told (.ok v)
    | fail message => exact Cursor.advance_throw ..

/-- A failure that reaches the end of a program goes to the innermost boundary around it. -/
theorem delivered_step {e : Fault} (ht : m.tasks[j]? = some t) (hp : t.phase = .running c)
    (hc : c.advance = .finished (.error e)) :
    ∃ m', m.step? j = some m' ∧ m'.tasks = m.tasks.set! j (t.delivered e) ∧
      m'.world.scene = m.world.scene := by
  cases hb : t.boundaries with
  | nil =>
    refine ⟨⟨(t.conclude m.world (.error e)).world, m.tasks.set! j (t.delivered e)⟩,
      ?_, rfl, ?_⟩
    · simp [step?, ht, Task.step?, hp, hc, Task.finish, hb, Task.conclude, Task.enter,
        Task.delivered, Verdict.ofExcept]
    · exact Task.conclude_scene t m.world (.error e)
  | cons pending outer =>
    obtain ⟨w, htells, hstep⟩ := leave_step ht hp hc hb
    refine ⟨_, hstep, ?_, htells.scene⟩
    simp [Task.delivered, hb, boundaryAnswer, bind, Except.bind]

/-- An outcome that fails at one boundary is a failure right outside it. -/
theorem fail_step {d : Except Fault Dyn} {message : String} (ht : m.tasks[j]? = some t)
    (hp : t.phase = .running c) (hc : c.advance = .finished d)
    (hd : (d >>= Dyn.take .outcome) = .ok (.fail message)) (hb : t.boundaries = pending :: outer) :
    ∃ m₁, m.step? j = some m₁ ∧ m₁.world.scene = m.world.scene ∧ m₁.tasks[j]? =
      some ({ t with boundaries := outer }.resumed pending (.error (.explicit message))) := by
  obtain ⟨w, htells, hstep⟩ := leave_step ht hp hc hb
  refine ⟨_, hstep, htells.scene, ?_⟩
  have hlt := (Array.getElem?_eq_some_iff.mp ht).1
  simp [boundaryAnswer, hd, hlt]

/-- A task that panics has ended, whatever boundaries are around it, and nothing revives it. -/
theorem panic_step {message : String} (ht : m.tasks[j]? = some t)
    (hpanic : t.panics? m.world = some message) :
    ∃ m', m.step? j = some m' ∧ ∀ as n, Run m' as n →
      n.tasks[j]? = some { t with phase := .ended (.panic message) } := by
  obtain ⟨w, hstep⟩ := Task.crash_of_panics? hpanic
  obtain ⟨m', hm, hs⟩ := stepped_of_task ht hstep
  refine ⟨m', hm, ?_⟩
  intro as n hrun
  obtain hkept | ⟨_, _, m₁, m₂, -, -, h₁, h₂, -⟩ := hrun.task_cases hs.self
  · exact hkept
  · obtain ⟨u, e, he, hs'⟩ := step?_stepped h₂
    cases h₁.symm.trans hs'.task
    cases he

/-- A failure goes to the innermost boundary around it and to no other, and a panic through all of
them. Inside its boundary the guarded program runs as if it were the task's whole program. -/
theorem recover_delivers_innermost (hm : m.Reachable) (ht : m.tasks[j]? = some t) :
    (∀ c (p : Flow .outcome) (b : Kind) (k : Except Fault Json → Flow b)
      (rest : List Continuation), t.phase = .running c →
      c.advance = Cursor.advance ⟨((Flow.recover p).andThen k).program, rest⟩ →
      ∃ w boundaries, m.world.Tells w ∧
        let bare := (⟨w, m.tasks⟩ : Machine r).alone j p.program
        m.step? j = some (bare.enclose j boundaries) ∧
        (∀ as n, Run (bare.enclose j boundaries) as n ↔
          (∃ m', Run bare as m' ∧ (∀ result, m'.ending? j ≠ some (.ofExcept result)) ∧
            n = m'.enclose j boundaries) ∨
          ∃ before after m' n', as = before ++ .move (.step j) :: after ∧ Run bare before m' ∧
            (m'.completion? j).isSome ∧ (m'.enclose j boundaries).step? j = some n' ∧
            Run n' after n) ∧
        ∀ before m' result, Run bare before m' → m'.completion? j = some result →
          (∃ m'', m'.step? j = some m'' ∧ m''.ending? j = some (.ofExcept result)) ∧
          ∃ w' c', m'.world.Tells w' ∧ (m'.enclose j boundaries).step? j =
              some ⟨w', m'.tasks.set! j { t with phase := .running c' }⟩ ∧
            c'.advance = match result >>= Dyn.take .outcome with
              | .ok (.succeed v) => Cursor.advance ⟨(k (.ok v)).program, rest⟩
              | .ok (.fail message) => .finished (.error (.explicit message))
              | .error e => Cursor.advance ⟨(k (.error e)).program, rest⟩) ∧
    (∀ e, (∀ pending, Cursor.advance ⟨.throw e, pending⟩ = .finished (.error e) ∧
        (Cursor.resume pending (.error e)).advance = .finished (.error e)) ∧
      (t.result? = some (.error e) →
        ∃ m', m.step? j = some m' ∧ m'.tasks = m.tasks.set! j (t.delivered e) ∧
          m'.world.scene = m.world.scene)) ∧
    (∀ d message pending outer, t.result? = some d →
      (d >>= Dyn.take .outcome) = .ok (.fail message) → t.boundaries = pending :: outer →
      ∃ m₁, m.step? j = some m₁ ∧ m₁.world.scene = m.world.scene ∧
        ∀ as m₂, Run m₁ as m₂ → .move (.step j) ∉ as →
        ∃ m₃, m₂.step? j = some m₃ ∧
          m₃.tasks =
            m₂.tasks.set! j ({ t with boundaries := outer }.delivered (.explicit message)) ∧
          m₃.world.scene = m₂.world.scene) ∧
    ∀ message, t.panics? m.world = some message →
      ∃ m', m.step? j = some m' ∧ ∀ as n, Run m' as n →
        n.tasks[j]? = some { t with phase := .ended (.panic message) } := by
  refine ⟨?_, ?_, ?_, fun message => panic_step ht⟩
  · intro c p b k rest hp hc
    have hrecover : c.advance = .execute (.recover p.program)
        (Flow.continuation (a := .attempt .json) k :: rest) :=
      hc.trans ((Cursor.advance_andThen (Flow.recover p) k rest).trans (Cursor.advance_step ..))
    obtain ⟨w, htells, hstep⟩ := enter_step ht hp hrecover
    have hbare := alone_runsProgram hm ht hp w p.program
    have htask : ((⟨w, m.tasks⟩ : Machine r).alone j p.program).tasks[j]? =
        some { t with boundaries := [], phase := .running (.new p.program) } := by
      simp [alone, Array.getElem?_modify, ht]
    have hopen (result : Except Fault Dyn) :
        ((⟨w, m.tasks⟩ : Machine r).alone j p.program).ending? j ≠
          some (.ofExcept result) := by
      simp [ending?, htask]
    refine ⟨w, _, htells, hstep, fun as n => run_enclose_iff hbare hopen, ?_⟩
    intro before m' result hrun hresult
    obtain ⟨w', htells', hexit⟩ := exit_step hrun htask hresult
    exact ⟨ends_of_completion? hresult, w', _, htells', hexit,
      advance_boundaryAnswer k rest result⟩
  · intro e
    refine ⟨fun pending => ⟨Cursor.advance_throw .., Cursor.advance_throw ..⟩, ?_⟩
    intro hresult
    obtain ⟨c, hp, hc⟩ := Task.result?_eq_some_iff.mp hresult
    exact delivered_step ht hp hc
  · intro d message pending outer hresult hd hb
    obtain ⟨c, hp, hc⟩ := Task.result?_eq_some_iff.mp hresult
    obtain ⟨m₁, hm₁, hscene₁, ht₁⟩ := fail_step ht hp hc hd hb
    refine ⟨m₁, hm₁, hscene₁, ?_⟩
    intro as m₂ hrun has
    obtain ht₂ | ⟨before, after, _, _, rfl, -⟩ := hrun.task_cases ht₁
    · obtain ⟨m₃, hm₃, htasks, hscene⟩ :=
        delivered_step ht₂ rfl (Cursor.advance_throw ..)
      rw [Task.delivered_resumed] at htasks
      exact ⟨m₃, hm₃, htasks, hscene⟩
    · simp at has

/-- An outcome that fails inside two boundaries, after a write. -/
def nested : Flow (.attempt .json) :=
  Flow.recover ((Flow.recover ((Flow.write .ephemeral "k" "inner").followedBy
    (Flow.pure (a := .outcome) (.fail "stop")))).followedBy
      (Flow.pure (a := .outcome) (.succeed .null)))

/-- The inner boundary makes a failure of it, and the outer one absorbs that: the program goes on,
and what was written is there. -/
theorem recover_delivers_innermost_nested :
    ∃ (as : List Happening) (m m₁ m₂ : Machine (Bench.new.setup .empty []).runner),
      Run (Bench.new.setup .empty []).machine as m ∧ m.step? 0 = some m₁ ∧
      m₁.step? 0 = some m₂ ∧
        m₂.ending? 0 = none ∧ (m₂.world.container 0).named.find? "k" = some "inner" := by
  let as : List Happening := .launch nested.program 0 :: [0, 0, 0].map (.move <| .step ·)
  have hstart : ((Bench.new.setup .empty []).machine.follow? as).map (fun m =>
      (m.tasks[0]?.map fun t => (t.boundaries.length, t.result?.bind fun d =>
          match d >>= Dyn.take .outcome with
          | .ok (.fail message) => some message
          | _ => none),
        (m.world.container 0).named.find? "k")) =
      some (some (2, some "stop"), some "inner") := by
    decide +kernel
  obtain ⟨m, hm, hstate⟩ := Option.map_eq_some_iff.mp hstart
  obtain ⟨htask, hwritten⟩ := Prod.mk.injEq .. ▸ hstate
  obtain ⟨t, ht, hinside⟩ := Option.map_eq_some_iff.mp htask
  obtain ⟨hlength, hfails⟩ := Prod.mk.injEq .. ▸ hinside
  obtain ⟨inner, outer, hb⟩ : ∃ inner outer, t.boundaries = [inner, outer] := by
    rcases hb : t.boundaries with _ | ⟨inner, _ | ⟨outer, _ | ⟨_, _⟩⟩⟩ <;>
      simp [hb] at hlength
    exact ⟨inner, outer, rfl⟩
  obtain ⟨d, hd, hstop⟩ := Option.bind_eq_some_iff.mp hfails
  obtain ⟨-, -, hfail, -⟩ := recover_delivers_innermost (reachable_of_follow? hm) ht
  split at hstop <;> cases hstop
  next houtcome =>
    obtain ⟨m₁, hm₁, hscene₁, hnext⟩ := hfail d "stop" inner [outer] hd houtcome hb
    obtain ⟨m₂, hm₂, htasks, hscene₂⟩ := hnext [] m₁ .refl (by simp)
    refine ⟨as, m, m₁, m₂, run_of_follow? hm, hm₁, hm₂, ?_, ?_⟩
    · have hrunning :
          m₂.tasks[0]? = none ∨ m₂.tasks[0]? = some ({ t with boundaries := [] }.resumed
          outer (.ok ⟨.attempt .json, .error (.explicit "stop")⟩)) := by
        rw [htasks, Array.set!_eq_setIfInBounds, Array.getElem?_setIfInBounds_self]
        split
        · exact .inr rfl
        · exact .inl rfl
      unfold ending?
      rcases hrunning with h | h <;> simp [h, Task.resumed]
    · have hkept : m₂.world.scene = m.world.scene := hscene₂.trans hscene₁
      have hcontainer : m₂.world.container 0 = m.world.container 0 :=
        congrArg (fun s : Scene _ => s.container 0) hkept
      rw [hcontainer]
      exact hwritten

end Machine

end Workflow
