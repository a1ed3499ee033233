import Workflow.Proofs.Machine.Provider
import Workflow.Proofs.Machine.Rest

/-! Programs that make calls whose replies are known.

A service answers a request if it gives the same reply whatever else was asked of it in
between, at once or after a time. A program that comes to its end with the help of such
services ends in one way only, in every run. -/
namespace Workflow

namespace Hosted
variable {Request : Type} {Reply : Request → Type} {h h' h'' : Hosted Request Reply}

/-- The service as it may be after any number of requests. -/
inductive Becomes (h : Hosted Request Reply) : Hosted Request Reply → Prop
  | refl : Becomes h h
  | accepted {h' : Hosted Request Reply} (hb : Becomes h h') (request : Request) :
    Becomes h (h'.accepted request)
  | answered {h' : Hosted Request Reply} (hb : Becomes h h') (request : Request) :
    Becomes h (h'.answered request)

theorem Becomes.trans (hb : h.Becomes h') (hb' : h'.Becomes h'') : h.Becomes h'' := by
  induction hb' with
  | refl => exact hb
  | accepted _ request ih => exact ih.accepted request
  | answered _ request ih => exact ih.answered request

/-- From now on the service gives this reply to the request, at once or after a time. -/
def Answers (h : Hosted Request Reply) (request : Request) (reply : Reply request) : Prop :=
  ∀ h', h.Becomes h' →
    (h'.reception request = .now (.value reply) ∨
      ∃ n, h'.reception request = .later (.ms n)) ∧
    h'.verdict request = .value reply

theorem Answers.becomes {request : Request} {reply : Reply request} (ha : h.Answers request reply)
    (hb : h.Becomes h') : h'.Answers request reply :=
  fun h'' hb' => ha h'' (hb.trans hb')

theorem answers_stateless {f : (request : Request) → Except Fault (Reply request)}
    {request : Request} {reply : Reply request} (hf : f request = .ok reply) :
    Answers ⟨.stateless f, ()⟩ request reply := by
  intro h hb
  have hservice : h.service = .stateless f := by
    induction hb with
    | refl => rfl
    | accepted _ _ ih | answered _ _ ih => exact ih
  obtain ⟨service, state⟩ := h
  cases hservice
  have hverdict : Verdict.ofExcept (f request) = .value reply := by rw [hf]; rfl
  exact ⟨.inl (congrArg Reception.now hverdict), hverdict⟩

end Hosted

variable {r : Runner}

namespace Scene
variable {s s' s'' : Scene r}

/-- Every provider is as it may be after some requests. -/
def Becomes (s s' : Scene r) : Prop := ∀ who, (s.hosted who).Becomes (s'.hosted who)

theorem becomes_after (s : Scene r) (i : Nat) (d : Option Deed) : s.Becomes (s.after i d) := by
  intro who
  cases d with
  | none => exact .refl
  | some d =>
    cases d with
    | update u => cases who <;> exact .refl
    | accept call =>
      by_cases hc : who = call.provider
      · subst hc
        rw [after, hosted_accept_self]
        exact .accepted .refl _
      · rw [after, hosted_accept_other s hc]
        exact .refl
    | answer call =>
      by_cases hc : who = call.provider
      · subst hc
        rw [after, hosted_answer_self]
        exact .answered .refl _
      · rw [after, hosted_answer_other s hc]
        exact .refl

end Scene

namespace Task
variable {t : Task} {w : World r} {s s' : Scene r} {self : Nat} {e : Effect r}
  {verdict : Verdict Dyn}

/-- The task makes calls that are answered, and then ends in this way. -/
inductive EndsAs (s : Scene r) (verdict : Verdict Dyn) : Task → Prop
  | ended {t : Task} (hp : t.phase = .ended verdict) : EndsAs s verdict t
  | finishes {t : Task} {c : Cursor} {result : Except Fault Dyn} (hb : t.boundaries = [])
    (hp : t.phase = .running c) (hc : c.advance = .finished result)
    (hv : verdict = .ofExcept result) : EndsAs s verdict t
  | asks {t : Task} {c : Cursor} {op : Operation Program}
    {pending : List Continuation} {call : Call}
    {reply : call.provider.Reply call.request} (hp : t.phase = .running c)
    (hc : c.advance = .execute op pending) (hop : op.call? = some call)
    (ha : (s.hosted call.provider).Answers call.request reply)
    (next :
      EndsAs s verdict (t.resumed pending ((call.reply reply).result r.config.absentSentinel))) :
    EndsAs s verdict t
  | waits {t : Task} {due : Nat} {pending : List Continuation} {call : Call}
    {reply : call.provider.Reply call.request}
    (hp : t.phase = .sleeping (some due) (.call call) pending)
    (ha : (s.hosted call.provider).Answers call.request reply)
    (next :
      EndsAs s verdict (t.resumed pending ((call.reply reply).result r.config.absentSentinel))) :
    EndsAs s verdict t

theorem dispatch_later {op : Operation Program} {call : Call} {n : Nat}
    (hcall : op.call? = some call) (h : (w.accept t.span call).2 = .later (.ms n)) (self : Nat)
    (pending : List Continuation) :
    ∃ due, (t.dispatch w self pending op).task =
      { t with phase := .sleeping (some due) (.call call) pending } := by
  have hlater : ((w.emit t.span (.dispatching op.name)).accept t.span call).2 = .later (.ms n) := by
    rw [accept_emit, h]
  unfold dispatch
  split
  · cases hcall
  · rw [execute_of_call? hcall, delegate]
    cases hw : (w.emit t.span (.dispatching op.name)).accept t.span call with
    | mk u reception =>
      rw [hw] at hlater
      cases hlater
      exact ⟨_, rfl⟩

theorem EndsAs.becomes (h : t.EndsAs s verdict) (hs : s.Becomes s') : t.EndsAs s' verdict := by
  induction h with
  | ended hp => exact .ended hp
  | finishes hb hp hc hv => exact .finishes hb hp hc hv
  | @asks _ _ _ _ call _ hp hc hop ha _ ih =>
    exact .asks hp hc hop (ha.becomes (hs call.provider)) ih
  | @waits _ _ _ call _ hp ha _ ih => exact .waits hp (ha.becomes (hs call.provider)) ih

theorem EndsAs.step? (h : t.EndsAs w.scene verdict) (he : t.step? w self = some e) :
    e.task.EndsAs e.world.scene verdict := by
  have hs : w.scene.Becomes e.world.scene := by
    rw [step?_scene he]
    exact Scene.becomes_after _ _ _
  have goes {u : Task} (hu : u.EndsAs w.scene verdict) (heq : e.task = u) :
      e.task.EndsAs e.world.scene verdict := heq ▸ hu.becomes hs
  cases h with
  | ended hp => simp [Task.step?, hp] at he
  | finishes hb hp hc hv =>
    simp only [Task.step?, hp, hc, finish, hb] at he
    cases he
    exact .ended (congrArg Phase.ended hv.symm)
  | @asks _ c op pending call reply hp hc hop ha next =>
    simp only [Task.step?, hp, hc] at he
    cases he
    have hreception : (w.accept t.span call).2 =
        ((w.scene.hosted call.provider).reception call.request).map call.reply := by
      rw [World.accept_reception, Scene.accept_reception]
    obtain hnow | ⟨n, hlater⟩ := (ha _ .refl).1
    · apply goes next
      rw [dispatch_task hop (by rw [hreception, hnow]; rfl)]
      rfl
    · obtain ⟨due, hsleeps⟩ :=
        dispatch_later hop (by rw [hreception, hlater]; rfl) self pending
      have hwaits :
          EndsAs w.scene verdict { t with phase := .sleeping (some due) (.call call) pending } :=
        .waits rfl ha next
      exact goes hwaits hsleeps
  | @waits _ due pending call reply hp ha next =>
    simp only [Task.step?, hp] at he
    split at he
    · cases he
      have hverdict : (w.answer t.span call).2 = .value (call.reply reply) := by
        rw [World.answer_verdict, Scene.answer_verdict, (ha _ .refl).2]
        rfl
      apply goes next
      simp only [wake, hverdict]
      rfl
    · cases he

end Task

namespace Machine
variable {m m' : Machine r} {i : Nat} {p : Program} {verdict verdict' : Verdict Dyn}

/-- The task is known to end in this way. -/
def EndsAs (m : Machine r) (i : Nat) (verdict : Verdict Dyn) : Prop :=
  ∃ t, m.tasks[i]? = some t ∧ t.EndsAs m.world.scene verdict

theorem EndsAs.happen {a : Happening} (h : m.EndsAs i verdict) (ha : m.happen? a = some m') :
    m'.EndsAs i verdict := by
  obtain ⟨t, ht, hs⟩ := h
  cases a with
  | move a =>
    cases a with
    | step j =>
      obtain ⟨u, e, he, hstep⟩ := step?_stepped ha
      by_cases hj : j = i
      · subst hj
        cases ht.symm.trans hstep.task
        exact ⟨e.task, hstep.self, hstep.world ▸ hs.step? he⟩
      · refine ⟨t, hstep.other (Ne.symm hj) ht, hs.becomes ?_⟩
        rw [hstep.world, Task.step?_scene he]
        exact Scene.becomes_after _ _ _
    | tick =>
      obtain ⟨-, due, -, rfl⟩ := of_tick ha
      exact ⟨t, ht, hs⟩
  | launch p container =>
    refine ⟨t, task_kept ha ht nofun, ?_⟩
    cases ha
    exact hs
  | supply c =>
    cases ha
    refine ⟨t, ht, hs.becomes fun who => ?_⟩
    cases who <;> exact .refl

theorem EndsAs.run {as : List Happening} (h : m.EndsAs i verdict) (hr : Run m as m') :
    m'.EndsAs i verdict := by
  induction hr with
  | refl => exact h
  | step ha _ ih => exact ih (h.happen ha)

theorem EndsAs.ending?_eq (h : m.EndsAs i verdict) (he : m.ending? i = some verdict') :
    verdict' = verdict := by
  obtain ⟨t, ht, hs⟩ := h
  obtain ⟨u, hu, hend⟩ := ending?_eq_some_iff.mp he
  cases ht.symm.trans hu
  cases hs with
  | ended hp => exact (Phase.ended.inj (hp.symm.trans hend)).symm
  | finishes _ hp | asks hp | waits hp => cases hp.symm.trans hend

/-- A task that is known to end has ended when nothing can proceed any more. -/
theorem EndsAs.ended (h : m.EndsAs i verdict) (hrest : m.AtRest) : m.ending? i = some verdict := by
  obtain ⟨t, ht, hs⟩ := h
  obtain ⟨hstep, hdue⟩ := move?_eq_none_iff.mp hrest
  have stuck : t.step? m.world i = none := by
    cases he : t.step? m.world i with
    | none => rfl
    | some e =>
      obtain ⟨m', hm', -⟩ := stepped_of_task ht he
      cases (hstep i).symm.trans hm'
  cases hs with
  | ended hp => exact ending?_eq_some_iff.mpr ⟨t, ht, hp⟩
  | finishes _ hp hc => simp [Task.step?, hp, hc] at stuck
  | asks hp hc => simp [Task.step?, hp, hc] at stuck
  | @waits _ due _ _ _ hp =>
    have hle : due ≤ m.world.now := due_le_now_of_nextDue_eq_none hdue ht (by rw [dueOf, hp])
    simp [Task.step?, hp, hle] at stuck

/-- However the run goes, the program ends in this way: it ends in no other, and has ended when
nothing can proceed any more. -/
def Yields (m : Machine r) (p : Program) (verdict : Verdict Dyn) : Prop :=
  ∀ container as m', Run m (.launch p container :: as) m' →
    (∀ v, m'.ending? m.tasks.size = some v → v = verdict) ∧
    (m'.AtRest → m'.ending? m.tasks.size = some verdict)

/-- A program ends in one way only. -/
theorem Yields.unique (h : m.Yields p verdict) (h' : m.Yields p verdict') : verdict' = verdict := by
  obtain ⟨as, m', hmoves, hrest⟩ := exists_atRest (m.launch p 0).1
  have hrun : Run m (.launch p 0 :: as.map .move) m' := .step rfl hmoves
  exact (h 0 _ m' hrun).1 _ ((h' 0 _ m' hrun).2 hrest)

theorem Yields.iff (h : m.Yields p verdict) : m.Yields p verdict' ↔ verdict' = verdict :=
  ⟨h.unique, fun heq => heq ▸ h⟩

theorem yields_of_endsAs (h : ∀ container, (runner r p container).EndsAs m.world.scene verdict) :
    m.Yields p verdict := by
  intro container as m' hr
  cases hr with
  | step hl hr =>
    cases hl
    have hs : (m.launch p container).1.EndsAs m.tasks.size verdict :=
      ⟨runner r p container, by simp [launch, runner], h container⟩
    exact ⟨fun v hv => (hs.run hr).ending?_eq hv, (hs.run hr).ended⟩

/-- A program that makes one call ends as it goes on with the reply. -/
theorem yields_of_call (call : Call) {op : Operation Program} {pending : List Continuation}
    {reply : call.provider.Reply call.request} {result : Except Fault Dyn}
    (hp : (Cursor.new p).advance = .execute op pending) (hop : op.call? = some call)
    (ha : (m.world.scene.hosted call.provider).Answers call.request reply)
    (hc : (Cursor.resume pending ((call.reply reply).result r.config.absentSentinel)).advance =
      .finished result) : m.Yields p (.ofExcept result) :=
  yields_of_endsAs fun _ => .asks rfl hp hop ha (.finishes rfl rfl hc rfl)

end Machine

end Workflow
