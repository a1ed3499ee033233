import Workflow.Bench
import Workflow.Program.Flow
import Workflow.Proofs.Machine.Role
import Workflow.Proofs.Program.Drive
import Workflow.Proofs.Session

/-! Tasks drive their programs.

The steps of a task are those of the loop, spread over a run in which others step in between. What a
task ends with is therefore what its program means, given the answers that its operations got. -/
namespace Workflow

universe u

variable {r : Runner}

theorem Verdict.ofExcept_inj {α : Type} {x y : Except Fault α}
    (h : Verdict.ofExcept x = Verdict.ofExcept y) : x = y := by
  cases x <;> cases y <;> cases h <;> rfl

/-- Gives the answers of a list, one after the other. -/
def replay : Handler (List (Except Fault Dyn)) :=
  fun _ answers => (answers.headD (.error (.explicit "")), answers.tail)

/-- The loop performs these operations with these answers, each of the kind that its operation
promises, and ends with this result. -/
structure Cursor.Yields (c : Cursor) (performed : List Performed)
    (result : Except Fault Dyn) : Prop where
  drive : Drive replay c (performed.map (·.answer)) ⟨performed, result, []⟩
  kinds : ∀ x ∈ performed, OfKind x.operation.result x.answer

/-- What is left to do inside and outside of the recovery boundaries leads to the result. -/
def Unwinds : List (List Continuation) → Cursor → Except Fault Dyn → Prop
  | [], c, result => ∃ performed, c.Yields performed result
  | pending :: outer, c, result => (∃ performed inner, c.Yields performed inner) ∧
      ∃ answer, OfKind (.attempt .json) answer ∧ Unwinds outer (.resume pending answer) result

variable {c : Cursor} {op : Operation Program} {pending : List Continuation}
  {result answer : Except Fault Dyn} {boundaries : List (List Continuation)}

theorem Cursor.yields_nil (h : c.advance = .finished result) : c.Yields [] result :=
  ⟨.finished h, by simp⟩

theorem Cursor.Yields.cons {performed : List Performed} (h : c.advance = .execute op pending)
    (ha : OfKind op.result answer) (hy : (Cursor.resume pending answer).Yields performed result) :
    c.Yields (⟨op, answer⟩ :: performed) result := by
  refine ⟨?_, List.forall_mem_cons.mpr ⟨ha, hy.kinds⟩⟩
  have hd : Drive replay c (answer :: performed.map (·.answer))
      (Evaluation.after ⟨performed, result, []⟩ ⟨op, answer⟩) := .execute h hy.drive
  exact hd

/-- Before the loop was resumed with an answer, it asked for it. -/
theorem Unwinds.execute (h : c.advance = .execute op pending) (ha : OfKind op.result answer)
    (hu : Unwinds boundaries (.resume pending answer) result) : Unwinds boundaries c result := by
  cases boundaries with
  | nil =>
    obtain ⟨performed, hy⟩ := hu
    exact ⟨_, hy.cons h ha⟩
  | cons _ _ =>
    obtain ⟨⟨performed, inner, hy⟩, houter⟩ := hu
    exact ⟨⟨_, inner, hy.cons h ha⟩, houter⟩

/-- For what kind of answer a program waits, and what goes on with it. -/
def Phase.expects : Phase → Option (Kind × List Continuation)
  | .sleeping _ alarm pending => alarm.kind?.map (·, pending)
  | .awaiting _ pending | .racing _ pending => some (.json, pending)
  | _ => none

namespace Task
variable {t u : Task} {w : World r} {self : Nat} {e : Effect r} {kind : Kind}

/-- What the task still has to do leads to the result. -/
def Unwinds (result : Except Fault Dyn) (t : Task) : Prop :=
  match t.phase with
  | .running c => Workflow.Unwinds t.boundaries c result
  | .ended v => v = .ofExcept result
  | phase =>
    ∃ kind pending answer, phase.expects = some (kind, pending) ∧ OfKind kind answer ∧
      Workflow.Unwinds t.boundaries (.resume pending answer) result

theorem unwinds_running (hp : t.phase = .running c) :
    t.Unwinds result ↔ Workflow.Unwinds t.boundaries c result := by
  simp [Unwinds, hp]

theorem unwinds_waiting (hp : t.phase.expects = some (kind, pending)) :
    t.Unwinds result ↔ ∃ answer, OfKind kind answer ∧
      Workflow.Unwinds t.boundaries (.resume pending answer) result := by
  unfold Unwinds
  split
  next h => simp [h, Phase.expects] at hp
  next h => simp [h, Phase.expects] at hp
  next =>
    constructor
    · rintro ⟨_, _, answer, heq, ha, hu⟩
      cases hp.symm.trans heq
      exact ⟨answer, ha, hu⟩
    · rintro ⟨answer, ha, hu⟩
      exact ⟨kind, pending, answer, hp, ha, hu⟩

/-- A waiting task was about to execute what it waits for. -/
theorem unwinds_of_waiting (hp : t.phase = .running c) (hc : c.advance = .execute op pending)
    {phase : Phase} (hw : phase.expects = some (op.result, pending))
    (hu : Unwinds result { t with phase }) : t.Unwinds result := by
  obtain ⟨answer, ha, hu⟩ := (unwinds_waiting hw).mp hu
  exact (unwinds_running hp).mpr (.execute hc ha hu)

/-- What a task leads to after a step, it led to before. -/
theorem Turn.unwinds (h : t.Turn w self e) (hf : t.Fits) (hr : t.role.OfProgram)
    (hu : e.task.Unwinds result) : t.Unwinds result := by
  cases h with
  | answered hp hc _ ha => exact (unwinds_running hp).mpr (.execute hc ha hu)
  | forks hp hc => exact (unwinds_running hp).mpr (.execute hc (ofKind_ok (k := .handle) _) hu)
  | sleeps hp hc _ ha =>
    refine unwinds_of_waiting hp hc ?_ hu
    simp [Phase.expects, ha]
  | awaits hp hc => exact unwinds_of_waiting hp hc rfl hu
  | races hp hc => exact unwinds_of_waiting hp hc rfl hu
  | enters hp hc =>
    -- the boundary has been put around a program whose result became the answer
    obtain ⟨-, answer, ha, hu⟩ := hu
    exact (unwinds_running hp).mpr (.execute hc ha hu)
  | leaves hp hc hb _ ha =>
    rw [unwinds_running hp, hb]
    exact ⟨⟨[], _, Cursor.yields_nil hc⟩, _, ha, hu⟩
  | concludes hp hc hb =>
    rw [unwinds_running hp, hb]
    have hresult := Verdict.ofExcept_inj hu
    exact ⟨[], Cursor.yields_nil (hresult ▸ hc)⟩
  | @wakes due alarm pending kind _ _ hp _ ha _ hk =>
    have hw : t.phase.expects = some (kind, pending) := by simp [hp, Phase.expects, ha]
    exact (unwinds_waiting hw).mpr ⟨_, hk, hu⟩
  | @awaited h pending _ hp =>
    have hw : t.phase.expects = some (.json, pending) := by simp [hp, Phase.expects]
    exact (unwinds_waiting hw).mpr ⟨_, ofKind_json _, hu⟩
  | @wins race pending _ _ _ _ _ hp =>
    have hw : t.phase.expects = some (.json, pending) := by simp [hp, Phase.expects]
    exact (unwinds_waiting hw).mpr ⟨_, ofKind_ok (k := .json) _, hu⟩
  | @exhausts race pending _ hp =>
    have hw : t.phase.expects = some (.json, pending) := by simp [hp, Phase.expects]
    exact (unwinds_waiting hw).mpr ⟨_, ofKind_error _, hu⟩
  | loses => exact hu
  | crashes => cases result <;> cases hu
  | opens hp => simp [hf.background (.inl ⟨_, hp⟩), Role.OfProgram] at hr
  | closes hp => simp [hf.closing hp, Role.OfProgram] at hr
  | settles hp => simp [(hf.host hp).1, Role.OfProgram] at hr

end Task

namespace Machine
variable {m m' : Machine r} {as : List Happening} {j : Nat} {t u : Task}

/-- What a task leads to at the end of a run, it led to all along. -/
theorem run_unwinds (hm : m.Reachable) (h : Run m as m') (ht : m.tasks[j]? = some t)
    (hr : t.role.OfProgram) (hu : m'.tasks[j]? = some u) (hw : u.Unwinds result) :
    t.Unwinds result := by
  induction h generalizing t with
  | refl =>
    cases ht.symm.trans hu
    exact hw
  | step ha _ ih =>
    have next := fun t ht hr => @ih t (hm.run (.single ha)) ht hr hu
    cases happen?_change ha with
    | idle _ hi => exact next t (hi.keeps ht) hr
    | @step i t' e _ hs =>
      by_cases hj : j = i
      · subst hj
        cases hs.task.symm.trans ht
        refine hs.turn.unwinds (fit_reachable hm j t ht) hr (next e.task hs.self ?_)
        rwa [hs.turn.role_eq]
      · exact next t (hs.other hj ht) hr

/-- A task that has not panicked ends with what its program means, given
the answers that its operations got. -/
theorem ended_yields (hm : m.Reachable) (h : Run m as m') {p : Program} (ht : m.tasks[j]? = some t)
    (hr : t.role.OfProgram) (hp : t.phase = .running (.new p)) (hb : t.boundaries = [])
    (hv : m'.ending? j = some (.ofExcept result)) :
    ∃ performed, (Cursor.new p).Yields performed result := by
  obtain ⟨u, hu, hend⟩ := ending?_eq_some_iff.mp hv
  have hw : u.Unwinds result := by simp [Task.Unwinds, hend]
  have := run_unwinds hm h ht hr hu hw
  rwa [Task.unwinds_running hp, hb] at this

end Machine

/-- Driving a program operation by operation always ends, and gives its recursive meaning. The tasks
of a machine run the same loop, so they end with this meaning in whatever order they step. -/
theorem drive_new_iff_eval {σ : Type u} (handle : Handler σ) (p : Program) (s : σ) :
    (∀ x, Drive handle (Cursor.new p) s x ↔ x = p.eval handle s) ∧
    Performs handle s (p.eval handle s).performed (p.eval handle s).state ∧
    (∀ before op e after, (p.eval handle s).performed = before ++ ⟨op, .error e⟩ :: after →
      after = [] ∧ (p.eval handle s).result = .error e) ∧
    (∀ e, (p.eval handle s).result = .error e →
      ∀ pending x, Drive handle ⟨p, pending⟩ s x ↔ x = p.eval handle s) ∧
    (∀ (r : Runner) (m m' : Machine r) (as : List Machine.Happening) (j : Nat) (t : Task)
      (result : Except Fault Dyn), m.Reachable → m.tasks[j]? = some t → t.role.OfProgram →
      t.phase = .running (.new p) → t.boundaries = [] → m.Run as m' →
      m'.ending? j = some (.ofExcept result) →
      ∃ performed, p.eval replay (performed.map (·.answer)) = ⟨performed, result, []⟩ ∧
        ∀ x ∈ performed, OfKind x.operation.result x.answer) := by
  refine ⟨fun x => drive_iff_evalWith, p.eval_performs handle s, ?_, ?_, ?_⟩
  · intro before op e after h
    exact Program.failed_last h
  · intro e he pending x
    rw [drive_iff_evalWith, Program.evalWith_of_error he]
  · intro r m m' as j t result hm ht hr hp hb hrun hv
    obtain ⟨performed, hy⟩ := Machine.ended_yields hm hrun ht hr hp hb hv
    exact ⟨performed, (drive_iff_evalWith.mp hy.drive).symm, hy.kinds⟩

/-- Forks a program and awaits it. -/
def forkThenAwait : Program :=
  ((Flow.fork (Flow.pure (a := .json) Json.null)).andThen Flow.await).program

/-- On a machine, the program has ended with what it means. -/
theorem drive_new_iff_eval_forked : ∃ performed,
    forkThenAwait.eval replay (performed.map (·.answer)) =
      ⟨performed, .ok (.json .null), []⟩ := by
  have hm : ((Bench.new.setup .empty []).machine.launch forkThenAwait 0).1.Reachable :=
    ⟨_, [.launch forkThenAwait 0], Setup.machine_initial _, .single rfl⟩
  have hend : (((Bench.new.setup .empty []).machine.launch forkThenAwait 0).1.follow?
      ([0, 0, 1, 0, 0].map (.move <| .step ·))).bind (·.ending? 0) =
        some (.ofExcept (.ok (.json .null))) := rfl
  obtain ⟨m', hm', hv⟩ := Option.bind_eq_some_iff.mp hend
  obtain ⟨-, -, -, -, htask⟩ := drive_new_iff_eval (fun _ _ => (.ok .unit, ())) forkThenAwait ()
  obtain ⟨performed, heval, -⟩ :=
    htask _ _ m' _ 0 (Machine.runner _ forkThenAwait 0) _ hm rfl trivial
      rfl rfl (Machine.run_of_follow? hm') hv
  exact ⟨performed, heval⟩

end Workflow
