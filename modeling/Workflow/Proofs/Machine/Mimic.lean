import Mathlib.Data.Option.Defs
import Workflow.Proofs.Machine.Boundary
import Workflow.Proofs.Program.Mimic

/-! Tasks that differ only in how their own program ends.

Until the program of a task has come to its end, the task does the same as any other that mimics it.
Boundaries do not get in the way: what differs is pending outside of all of them. -/
namespace Workflow

variable {r : Runner}

/-- The phases differ only in what is pending, and that mimics each other. -/
inductive Phase.Mimics : Phase → Phase → Prop
  | same (phase : Phase) : Mimics phase phase
  | running {c c' : Cursor} (h : c.Mimics c') : Mimics (.running c) (.running c')
  | sleeping {due : Option Nat} {alarm : Alarm} {pending pending' : List Continuation}
    (h : StackMimics pending pending') :
    Mimics (.sleeping due alarm pending) (.sleeping due alarm pending')
  | awaiting {handle : Handle} {pending pending' : List Continuation}
    (h : StackMimics pending pending') :
    Mimics (.awaiting handle pending) (.awaiting handle pending')
  | racing {race : Nat} {pending pending' : List Continuation} (h : StackMimics pending pending') :
    Mimics (.racing race pending) (.racing race pending')

/-- The tasks do the same up to the end of their own programs, which may end differently. -/
inductive Task.Mimics : Task → Task → Prop
  /-- No boundary is around what the task does. -/
  | bare {t : Task} {phase phase' : Phase} (hb : t.boundaries = []) (hp : t.phase = phase)
    (h : phase.Mimics phase') : Mimics t { t with phase := phase' }
  /-- What differs is pending outside the outermost boundary. -/
  | guarded (t : Task) {pending pending' : List Continuation} (h : StackMimics pending pending') :
    Mimics (t.within [pending]) (t.within [pending'])

/-- The steps do the same to the world and leave tasks that mimic each other. -/
structure Effect.Mimics (e e' : Effect r) : Prop where
  world : e'.world = e.world
  task : e.task.Mimics e'.task
  launched : e'.launched = e.launched

namespace Task
variable {t t' : Task} {phase : Phase} {w : World r} {self : Nat}
  {pending pending' : List Continuation}

theorem Mimics.refl (t : Task) : t.Mimics t := by
  rcases List.eq_nil_or_concat t.boundaries with hb | ⟨inner, pending, hb⟩
  · exact .bare hb rfl (.same t.phase)
  · have ht : t = { t with boundaries := inner }.within [pending] := by
      obtain ⟨role, span, container, boundaries, phase⟩ := t
      simp_all [within]
    rw [ht]
    exact .guarded _ (.refl pending)

theorem Mimics.role_eq (h : t.Mimics t') : t'.role = t.role := by
  cases h <;> rfl

theorem Mimics.dueOf_eq (h : t.Mimics t') : Machine.dueOf t' = Machine.dueOf t := by
  cases h with
  | guarded => rfl
  | bare hb hp h =>
    unfold Machine.dueOf
    rw [hp]
    cases h <;> rfl

/-- Two tasks that mimic each other come to the end of their programs at the same time. -/
theorem Mimics.completes?_isSome (h : t.Mimics t') :
    t'.completes?.isSome = t.completes?.isSome := by
  cases h with
  | guarded u => simp [completes?, within]
  | bare hb hp h =>
    cases h with
    | @running c c' hc =>
      rw [Bool.eq_iff_iff, Option.isSome_iff_exists, Option.isSome_iff_exists]
      simp only [completes?_eq_some_iff]
      have hiff := hc.finished_iff
      constructor
      · rintro ⟨result, -, d, hd, hresult⟩
        cases hd
        obtain ⟨result, hresult⟩ := hiff.mpr ⟨result, hresult⟩
        exact ⟨result, hb, c, hp, hresult⟩
      · rintro ⟨result, -, d, hd, hresult⟩
        cases hp.symm.trans hd
        obtain ⟨result, hresult⟩ := hiff.mp ⟨result, hresult⟩
        exact ⟨result, hb, c', rfl, hresult⟩
    | _ => simp [completes?, result?, hp]

end Task

theorem Effect.Mimics.refl (e : Effect r) : e.Mimics e := ⟨rfl, .refl e.task, rfl⟩

namespace Task
variable {t : Task} {phase : Phase} {self : Nat} {pending pending' : List Continuation}

theorem proceed_mimics (hb : t.boundaries = []) (h : StackMimics pending pending') (w : World r)
    (result : Except Fault Dyn) :
    (t.proceed w pending result).Mimics ({ t with phase := phase }.proceed w pending' result) :=
  ⟨rfl, .bare (t := { t with phase := .running (Cursor.resume pending result) }) hb
    rfl (.running (h.resume result)), rfl⟩

/-- A panic is the end of both, and the same. -/
theorem crash_mimics (t : Task) (phase : Phase) (w : World r) (self : Nat) (message : String) :
    (t.crash w self message).Mimics ({ t with phase := phase }.crash w self message) :=
  .refl (t.crash w self message)

theorem receive_mimics (hb : t.boundaries = []) (h : StackMimics pending pending') (w : World r)
    (verdict : Verdict Reply) : (t.receive w self pending verdict).Mimics
      ({ t with phase := phase }.receive w self pending' verdict) := by
  cases verdict with
  | value reply => exact proceed_mimics hb h w _
  | fault e => exact proceed_mimics hb h w _
  | panic message => exact crash_mimics t phase w self message

theorem sleep_mimics (hb : t.boundaries = []) (h : StackMimics pending pending') (w : World r)
    (due : Option Nat) (alarm : Alarm) : (t.enter w (.sleeping due alarm pending)).Mimics
      ({ t with phase := phase }.enter w (.sleeping due alarm pending')) :=
  ⟨rfl, .bare (t := { t with phase := .sleeping due alarm pending }) hb rfl (.sleeping h), rfl⟩

theorem race_mimics (hb : t.boundaries = []) (h : StackMimics pending pending') (w : World r)
    (race : Nat) : (t.enter w (.racing race pending)).Mimics
      ({ t with phase := phase }.enter w (.racing race pending')) :=
  ⟨rfl, .bare (t := { t with phase := .racing race pending }) hb rfl (.racing h), rfl⟩

theorem delegate_mimics (hb : t.boundaries = []) (h : StackMimics pending pending') (w : World r)
    (call : Call) : (t.delegate w self pending call).Mimics
      ({ t with phase := phase }.delegate w self pending' call) := by
  simp only [delegate]
  cases w.accept t.span call with
  | mk u reception =>
    cases reception with
    | now verdict => exact receive_mimics hb h u verdict
    | later wait => exact sleep_mimics hb h u _ _

theorem branches_phase (t : Task) (phase : Phase) (race index : Nat) (ps : List Program) :
    { t with phase := phase }.branches race index ps = t.branches race index ps := by
  induction ps generalizing index with
  | nil => rfl
  | cons p ps ih =>
    rw [branches, branches, ih]
    rfl

theorem execute_mimics (hb : t.boundaries = []) (h : StackMimics pending pending') (w : World r)
    (op : Operation Program) : (t.execute w self pending op).Mimics
      ({ t with phase := phase }.execute w self pending' op) := by
  cases hcall : op.call? with
  | some call =>
    rw [execute_of_call? hcall, execute_of_call? hcall]
    exact delegate_mimics hb h w call
  | none =>
    cases op with
    | callApi | runUi | checkPermissions | requestPermissions => cases hcall
    | read store key | delete store key | write store key value =>
      cases store with
      | persistent => cases hcall
      | ephemeral => exact proceed_mimics hb h _ _
    | writeForeign key value => exact proceed_mimics hb h _ _
    | readForeignAll => exact proceed_mimics hb h _ _
    | forkUi interaction => exact ⟨rfl, (proceed_mimics hb h w _).task, rfl⟩
    | fork p => exact ⟨rfl, (proceed_mimics hb h w.newCell.1 _).task, rfl⟩
    | peek handle => exact proceed_mimics hb h _ _
    | log tag message => exact proceed_mimics hb h _ _
    | runExternal action => exact sleep_mimics hb h _ _ _
    | delay duration => exact sleep_mimics hb h _ _ _
    | await handle =>
      exact ⟨rfl, .bare (t := { t with phase := .awaiting handle pending }) hb rfl
        (.awaiting h), rfl⟩
    | race ps =>
      cases ps with
      | nil => exact proceed_mimics hb h _ _
      | cons p ps => exact ⟨rfl, (race_mimics hb h w _).task, branches_phase ..⟩
    | recover p =>
      -- the new boundary has what differs outside of it
      refine ⟨rfl, ?_, rfl⟩
      simp only [execute, hb]
      exact .guarded ⟨t.role, t.span, t.container, [], .running (.new p)⟩ h

theorem dispatch_mimics (hb : t.boundaries = []) (h : StackMimics pending pending') (w : World r)
    (op : Operation Program) : (t.dispatch w self pending op).Mimics
      ({ t with phase := phase }.dispatch w self pending' op) := by
  unfold dispatch
  split
  · exact execute_mimics hb h _ _
  · exact execute_mimics hb h _ _

theorem closeBackground_phase (t : Task) (phase : Phase) (w : World r) (self : Nat)
    (verdict : Verdict Reply) : { t with phase := phase }.closeBackground w self verdict =
      t.closeBackground w self verdict := by
  unfold closeBackground
  split
  · split <;> rfl
  · rfl
  · rfl
  · rfl

theorem wake_mimics (hb : t.boundaries = []) (h : StackMimics pending pending') (w : World r)
    (alarm : Alarm) : (t.wake w self pending alarm).Mimics
      ({ t with phase := phase }.wake w self pending' alarm) := by
  cases alarm with
  | delay => exact proceed_mimics hb h w _
  | external ending =>
    cases ending with
    | value v => exact proceed_mimics hb h w _
    | failure message contexts => exact proceed_mimics hb h w _
    | panic message => exact crash_mimics t phase w self message
  | call call => exact receive_mimics hb h _ _
  | background request =>
    simp only [wake, closeBackground_phase]
    exact .refl _
  | host handle result =>
    cases result with
    | some result => exact .refl _
    | none => exact .refl _

theorem judge_mimics (hb : t.boundaries = []) (h : StackMimics pending pending') (w : World r)
    (race : Nat) (x : Race) (a : Arrival) (rest : List Arrival) :
    (t.judge w race pending x a rest).Mimics
      ({ t with phase := phase }.judge w race pending' x a rest) := by
  simp only [judge]
  split
  · exact proceed_mimics hb h _ _
  · exact race_mimics hb h _ race
  · exact race_mimics hb h _ race

/-- A program inside the outermost boundary has ended: both tasks
go on outside with the same answer. -/
theorem leaveBoundary_mimics (t : Task) (h : StackMimics pending pending') (w : World r)
    (result : Except Fault Dyn) :
    (t.leaveBoundary w pending [] result).Mimics (t.leaveBoundary w pending' [] result) := by
  have hopen : { t with boundaries := [] }.boundaries = [] := rfl
  simp only [leaveBoundary]
  split
  · exact @proceed_mimics r { t with boundaries := [] } t.phase _ _ hopen h _ _
  · exact @proceed_mimics r { t with boundaries := [] } t.phase _ _ hopen h _ _
  · exact @proceed_mimics r { t with boundaries := [] } t.phase _ _ hopen h _ _

/-- Until its program has come to its end, a task does the same as one that mimics it. -/
theorem Mimics.step? {t' : Task} {w : World r} (h : t.Mimics t') (hn : t.completes? = none) :
    Option.Rel Effect.Mimics (t.step? w self) (t'.step? w self) := by
  cases h with
  | @guarded u pending pending' h =>
    cases hu : u.completes? with
    | none =>
      rw [step?_within hu, step?_within hu]
      cases u.step? w self with
      | none => exact .none
      | some e => exact .some ⟨rfl, .guarded e.task h, rfl⟩
    | some result =>
      obtain ⟨hb, c, hp, hc⟩ := completes?_eq_some_iff.mp hu
      have hwithin (b : List Continuation) : (u.within [b]).boundaries = [b] := by
        simp [within, hb]
      have hstep (b : List Continuation) : (u.within [b]).step? w self =
          some (u.leaveBoundary w b [] result) := by
        have hphase : (u.within [b]).phase = .running c := hp
        simp only [Task.step?, hphase, hc, finish, hwithin]
        rfl
      rw [hstep, hstep]
      exact .some (leaveBoundary_mimics u h w result)
  | bare hb hp h =>
    cases h with
    | same =>
      subst hp
      cases t.step? w self with
      | none => exact .none
      | some e => exact .some (.refl e)
    | @running c c' h =>
      cases hc : c.advance with
      | finished result =>
        have := completes?_eq_some_iff.mpr ⟨hb, c, hp, hc⟩
        cases hn.symm.trans this
      | execute op pending =>
        obtain ⟨pending', hc', hs⟩ := h.of_execute hc
        simp only [Task.step?, hp, hc, hc']
        exact .some (dispatch_mimics hb hs w op)
    | @sleeping due alarm pending pending' h =>
      cases due with
      | none =>
        simp only [Task.step?, hp]
        exact .none
      | some due =>
        simp only [Task.step?, hp]
        split
        · exact .some (wake_mimics hb h w alarm)
        · exact .none
    | @awaiting handle pending pending' h =>
      simp only [Task.step?, hp]
      cases (w.cell handle).outcome? handle with
      | none => exact .none
      | some result => exact .some (proceed_mimics hb h w _)
    | @racing race pending pending' h =>
      simp only [Task.step?, hp]
      split
      next x _ =>
        split
        · exact .some (judge_mimics hb h w race x _ _)
        · split
          · exact .none
          · exact .some (proceed_mimics hb h w _)
      · exact .none

/-- Tasks that mimic each other can step at the same time. -/
theorem Mimics.isSome_step? {t' : Task} (h : t.Mimics t') (w : World r) (self : Nat) :
    (t'.step? w self).isSome = (t.step? w self).isSome := by
  have hends {u : Task} (hu : u.completes?.isSome = true) : (u.step? w self).isSome = true := by
    obtain ⟨result, hresult⟩ := Option.isSome_iff_exists.mp hu
    obtain ⟨-, c, hp, hc⟩ := completes?_eq_some_iff.mp hresult
    simp [Task.step?, hp, hc]
  cases hn : t.completes? with
  | some result =>
    have ht : t.completes?.isSome = true := by simp [hn]
    rw [hends ht, hends (h.completes?_isSome.trans ht)]
  | none =>
    have hrel : Option.Rel Effect.Mimics (t.step? w self) (t'.step? w self) := h.step? hn
    revert hrel
    generalize t.step? w self = e
    generalize t'.step? w self = e'
    intro hrel
    cases hrel <;> rfl

end Task

end Workflow
