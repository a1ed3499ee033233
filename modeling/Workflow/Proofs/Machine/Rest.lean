import Mathlib.Logic.Hydra
import Workflow.Proofs.Machine.Role
import Workflow.Proofs.Program.Scope

/-! Machines come to rest.

A program is a well-founded tree, so what a task leads to and what it launches are both below the
task. A step takes one task away and puts such tasks in its place, which cannot go on for ever, in
whatever order the tasks step. The steps that leave all tasks as they are look at an arrival or move
the clock, and neither goes on for ever without something else in between. -/
namespace Workflow

variable {r : Runner}

section
variable {motive : Program → Prop} (done : ∀ v, motive (.done v))
  (throw : ∀ e, motive (.throw e))
  (step : ∀ op, (∀ p ∈ op.programs, motive p) → motive (.step op))
  (bind : ∀ p k, motive p → (∀ v, motive (k v)) → motive (.bind p k))
include done throw step bind

set_option linter.unusedSectionVars false in
mutual

/-- Induction on a program together with the programs inside its operations. -/
theorem Program.deep : ∀ p, motive p
  | .done v => done v
  | .throw e => throw e
  | .step op => step op (Operation.deep op)
  | .bind p k => bind p k (Program.deep p) fun v => Program.deep (k v)

theorem Operation.deep : ∀ (op : Operation Program), ∀ p ∈ op.programs, motive p
  | .fork p, _, h | .recover p, _, h => List.mem_singleton.mp h ▸ Program.deep p
  | .race ps, q, h => Program.deepAll ps q h

theorem Program.deepAll : ∀ (ps : List Program), ∀ p ∈ ps, motive p
  | p :: ps, q, h => by
    rcases List.mem_cons.mp h with h | h
    · exact h ▸ Program.deep p
    · exact Program.deepAll ps q h

end

end

/-- The phase waits for a result that goes to `pending`. -/
inductive Phase.Waits (pending : List Continuation) : Phase → Prop
  | sleeping {due : Option Nat} {alarm : Alarm} : Waits pending (.sleeping due alarm pending)
  | awaiting {h : Handle} : Waits pending (.awaiting h pending)
  | racing {race : Nat} : Waits pending (.racing race pending)

namespace Task

/-- The task can turn into `u`, or launch it. -/
inductive Leads (t : Task) : Task → Prop
  | answered {c : Cursor} {op : Operation Program} {pending : List Continuation}
    {result : Except Fault Dyn} (hp : t.phase = .running c) (hc : c.advance = .execute op pending) :
    Leads t (t.resumed pending result)
  | waits {c : Cursor} {op : Operation Program} {pending : List Continuation} {phase : Phase}
    (hp : t.phase = .running c) (hc : c.advance = .execute op pending) (hw : phase.Waits pending) :
    Leads t { t with phase := phase }
  | enters {c : Cursor} {p : Program} {pending : List Continuation} (hp : t.phase = .running c)
    (hc : c.advance = .execute (.recover p) pending) :
    Leads t { t with boundaries := pending :: t.boundaries, phase := .running (.new p) }
  | launches {c : Cursor} {op : Operation Program} {pending : List Continuation} {p : Program}
    {role : Role} {span : Span} (hp : t.phase = .running c) (hc : c.advance = .execute op pending)
    (hop : p ∈ op.programs) : Leads t (t.child role span p)
  | background {c : Cursor} {op : Operation Program} {pending : List Continuation}
    {request : String} (hp : t.phase = .running c) (hc : c.advance = .execute op pending) :
    Leads t (t.background request)
  | leaves {c : Cursor} {result result' : Except Fault Dyn} {pending : List Continuation}
    {outer : List (List Continuation)} (hp : t.phase = .running c)
    (hc : c.advance = .finished result) (hb : t.boundaries = pending :: outer) :
    Leads t ({ t with boundaries := outer }.resumed pending result')
  | resumes {pending : List Continuation} {result : Except Fault Dyn} (hw : t.phase.Waits pending) :
    Leads t (t.resumed pending result)
  | opens {request : String} {due : Option Nat} (hp : t.phase = .opening request) :
    Leads t { t with phase := .sleeping due (.background request) [] }
  | ends {v : Verdict Dyn} (he : t.hasEnded = false) : Leads t { t with phase := .ended v }

/-- The task cannot lead on and on. -/
def Halts (t : Task) : Prop := Acc (fun u t => t.Leads u) t

variable {t u : Task} {c c' : Cursor} {pending : List Continuation} {phase : Phase}

/-- Only what a cursor needs next decides what a task leads to. -/
theorem Halts.of_advance (h : Halts { t with phase := .running c }) (hc : c'.advance = c.advance) :
    Halts { t with phase := .running c' } := by
  refine Acc.intro _ fun u hu => h.inv ?_
  cases hu with
  | answered hp hc' => cases hp; exact .answered rfl (hc ▸ hc')
  | waits hp hc' hw => cases hp; exact .waits rfl (hc ▸ hc') hw
  | enters hp hc' => cases hp; exact .enters rfl (hc ▸ hc')
  | launches hp hc' hop => cases hp; exact .launches rfl (hc ▸ hc') hop
  | background hp hc' => cases hp; exact .background rfl (hc ▸ hc')
  | leaves hp hc' hb => cases hp; exact .leaves rfl (hc ▸ hc') hb
  | resumes hw => cases hw
  | opens hp => cases hp
  | ends => exact .ends rfl

theorem halts_ended {v : Verdict Dyn} : Halts { t with phase := .ended v } := by
  refine Acc.intro _ fun u hu => ?_
  cases hu with
  | resumes hw => cases hw
  | ends he => cases he
  | _ hp => cases hp

theorem halts_of_waits (hw : phase.Waits pending)
    (h : ∀ result, Halts (t.resumed pending result)) :
    Halts { t with phase := phase } := by
  refine Acc.intro _ fun u hu => ?_
  cases hu with
  | resumes hw' => cases hw <;> cases hw' <;> exact h _
  | ends => exact halts_ended
  | _ hp => cases hw <;> cases hp

theorem halts_finished {result : Except Fault Dyn} (hp : t.phase = .running c)
    (hc : c.advance = .finished result)
    (h : ∀ pending outer result, t.boundaries = pending :: outer →
      Halts ({ t with boundaries := outer }.resumed pending result)) : Halts t := by
  refine Acc.intro _ fun u hu => ?_
  cases hu with
  | leaves hp' hc' hb => exact h _ _ _ hb
  | ends => exact halts_ended
  | resumes hw => rw [hp] at hw; cases hw
  | opens hp' => cases hp.symm.trans hp'
  | _ hp' hc' => cases hp.symm.trans hp'; cases hc.symm.trans hc'

theorem advance_resume_nil (result : Except Fault Dyn) :
    (Cursor.resume [] result).advance = .finished result := by
  cases result with
  | ok v => rfl
  | error e => exact Cursor.advance_throw e []

theorem halts_background {request : String} : Halts (t.background request) := by
  have hresumed (result : Except Fault Dyn) : Halts ((t.background request).resumed [] result) :=
    halts_finished rfl (advance_resume_nil result) nofun
  refine Acc.intro _ fun u hu => ?_
  cases hu with
  | opens hp => exact halts_of_waits .sleeping hresumed
  | ends => exact halts_ended
  | resumes hw => cases hw
  | _ hp => cases hp

/-- A program halts if what is pending behind it does, whatever goes on there. -/
theorem halts_running (p : Program) (h : ∀ result, Halts (t.resumed pending result)) :
    Halts { t with phase := .running ⟨p, pending⟩ } := by
  induction p using Program.deep generalizing t pending with
  | done v => exact h (.ok v)
  | throw e => exact (h (.error e)).of_advance (by simp [Cursor.resume])
  | bind p k ihp ihk =>
    refine Halts.of_advance (c := ⟨p, k :: pending⟩) (ihp ?_) (by simp)
    intro result
    cases result with
    | ok v => exact (ihk v h).of_advance (Cursor.advance_done_cons v k pending)
    | error e => exact h (.error e)
  | step op ih =>
    refine Acc.intro _ fun u hu => ?_
    -- the operation decides what is pending
    have here {c : Cursor} {op' : Operation Program} {pending' : List Continuation}
        (hp : Phase.running ⟨.step op, pending⟩ = .running c)
        (hc : c.advance = .execute op' pending') : op = op' ∧ pending = pending' := by
      cases hp
      simpa using hc
    cases hu with
    | answered hp hc =>
      obtain ⟨rfl, rfl⟩ := here hp hc
      exact h _
    | waits hp hc hw =>
      obtain ⟨rfl, rfl⟩ := here hp hc
      exact halts_of_waits hw h
    | @enters _ p _ hp hc =>
      obtain ⟨rfl, rfl⟩ := here hp hc
      refine ih p (by simp [Operation.programs])
        (t := { t with boundaries := pending :: t.boundaries }) ?_
      intro result
      refine halts_finished rfl (advance_resume_nil result) ?_
      intro pending' outer result' hb
      cases hb
      exact h result'
    | @launches _ _ _ p role span hp hc hop =>
      obtain ⟨rfl, rfl⟩ := here hp hc
      refine ih p hop (t := t.child role span p) ?_
      intro result
      refine halts_finished rfl (advance_resume_nil result) ?_
      intro pending' outer result' hb
      cases hb
    | background => exact halts_background
    | leaves hp hc hb =>
      cases hp
      simp at hc
    | resumes hw => cases hw
    | opens hp => cases hp
    | ends => exact halts_ended

/-- What is pending inside the innermost boundary halts if what is outside does. -/
theorem halts_resumed_of_outer
    (h : ∀ pending outer result, t.boundaries = pending :: outer →
      Halts ({ t with boundaries := outer }.resumed pending result))
    (pending : List Continuation) (result : Except Fault Dyn) :
    Halts (t.resumed pending result) := by
  induction pending generalizing result with
  | nil => exact halts_finished rfl (advance_resume_nil result) h
  | cons k pending ih =>
    cases result with
    | ok v => exact (halts_running (k v) ih).of_advance (Cursor.advance_done_cons v k pending)
    | error e => exact halts_finished rfl (Cursor.advance_throw e []) h

theorem halts_resumed (t : Task) (pending : List Continuation) (result : Except Fault Dyn) :
    Halts (t.resumed pending result) := by
  obtain ⟨role, span, container, boundaries, phase⟩ := t
  induction boundaries generalizing pending result phase with
  | nil =>
    refine halts_resumed_of_outer ?_ pending result
    intro pending outer result hb
    cases hb
  | cons b outer ih =>
    refine halts_resumed_of_outer ?_ pending result
    intro pending outer result hb
    cases hb
    exact ih b result phase

/-- No task leads on and on. -/
theorem halts (t : Task) : Halts t := by
  obtain ⟨role, span, container, boundaries, phase⟩ := t
  let t : Task := ⟨role, span, container, boundaries, phase⟩
  cases phase with
  | running c => exact halts_running (t := t) c.current (halts_resumed t c.pending)
  | sleeping due alarm pending =>
    exact halts_of_waits (t := t) .sleeping (halts_resumed t pending)
  | awaiting h pending => exact halts_of_waits (t := t) .awaiting (halts_resumed t pending)
  | racing race pending => exact halts_of_waits (t := t) .racing (halts_resumed t pending)
  | ended v => exact halts_ended (t := t)
  | opening request =>
    refine Acc.intro _ fun u hu => ?_
    cases hu with
    | opens hp => exact halts_of_waits (t := t) .sleeping (halts_resumed t [])
    | ends => exact halts_ended
    | resumes hw => cases hw
    | _ hp => cases hp

variable {w : World r} {self : Nat} {e : Effect r}

theorem Turn.launched_leads (h : t.Turn w self e) (hu : u ∈ e.launched) : t.Leads u := by
  cases h with
  | answered hp hc hw hr hop hl =>
    obtain rfl | ⟨request, rfl⟩ := hl
    · cases hu
    · obtain rfl := List.mem_singleton.mp hu
      exact .background hp hc
  | forks hp hc hw =>
    obtain rfl := List.mem_singleton.mp hu
    exact .launches hp hc (by simp [Operation.programs])
  | races hp hc hps hw =>
    obtain ⟨k, p, hmem, rfl⟩ := branches_mem hu
    exact .launches hp hc hmem
  | _ => cases hu

/-- A step leads on, or it looks at an arrival. -/
theorem Turn.leads (h : t.Turn w self e) : t.Leads e.task ∨
    e.task = t ∧ e.launched = [] ∧ ∃ race x x' a, w.races[race]? = some x ∧
      x.arrivals = a :: x'.arrivals ∧ e.world.races = w.races.modify race fun _ => x' := by
  have he := h.not_ended
  cases h with
  | answered hp hc => exact .inl (.answered hp hc)
  | sleeps hp hc => exact .inl (.waits hp hc .sleeping)
  | awaits hp hc => exact .inl (.waits hp hc .awaiting)
  | forks hp hc => exact .inl (.answered hp hc)
  | races hp hc => exact .inl (.waits hp hc .racing)
  | enters hp hc => exact .inl (.enters hp hc)
  | leaves hp hc hb => exact .inl (.leaves hp hc hb)
  | wakes hp | awaited hp | wins hp | exhausts hp =>
    refine .inl (.resumes ?_)
    rw [hp]
    constructor
  | opens hp => exact .inl (.opens hp)
  | concludes | crashes | closes | settles => exact .inl (.ends he)
  | loses hp hx ha hf hw => exact .inr ⟨rfl, rfl, _, _, _, _, hx, ha, hw.races⟩

end Task

/-- How many arrivals no race has looked at. -/
def World.arrivals (w : World r) : Nat := (w.races.toList.map (·.arrivals.length)).sum

theorem sum_map_modify_lt {α : Type} (f : α → Nat) {l : List α} {i : Nat} {x x' : α}
    (hi : l[i]? = some x) (hx : f x' < f x) :
    ((l.modify i fun _ => x').map f).sum < (l.map f).sum := by
  induction l generalizing i with
  | nil => cases hi
  | cons y l ih =>
    cases i with
    | zero =>
      cases hi
      simpa using hx
    | succ i =>
      have := ih hi
      simpa using this

theorem coe_set_add {α : Type} {l : List α} {i : Nat} {x : α} (hi : l[i]? = some x) (y : α) :
    ((l.set i y : List α) : Multiset α) + {x} = (l : Multiset α) + {y} := by
  induction l generalizing i with
  | nil => cases hi
  | cons z l ih =>
    cases i with
    | zero =>
      cases hi
      simp only [List.set_cons_zero, ← Multiset.cons_coe, ← Multiset.singleton_add]
      ac_rfl
    | succ i =>
      have := ih hi
      simp only [List.set_cons_succ, ← Multiset.cons_coe, Multiset.cons_add, this]

namespace Machine
variable {m m' : Machine r} {i : Nat} {t : Task} {e : Effect r}

/-- A step takes a task away and puts what it leads to in its place. -/
theorem Stepped.cutExpand (hs : Stepped m i t e m') (h : t.Leads e.task) :
    Relation.CutExpand (fun u t : Task => t.Leads u) (m'.tasks.toList : Multiset Task)
      (m.tasks.toList : Multiset Task) := by
  refine ⟨((e.task :: e.launched : List Task) : Multiset Task), t, ?_, ?_⟩
  · intro u hu
    rcases List.mem_cons.mp hu with rfl | hu
    · exact h
    · exact hs.turn.launched_leads hu
  · have ht : m.tasks.toList[i]? = some t := by rw [Array.getElem?_toList, hs.task]
    have hset := coe_set_add ht e.task
    rw [hs.tasks, ← Multiset.coe_add, add_right_comm, hset, ← Multiset.cons_coe,
      ← Multiset.singleton_add, add_assoc]

/-- When the clock has moved, somebody's time has come. -/
theorem isQuiet_tick (h : m.move? .tick = some m') : m'.isQuiet = false := by
  obtain ⟨-, due, hdue, rfl⟩ := of_tick h
  obtain ⟨-, ⟨t, hmem, ht⟩, -⟩ := nextDue_eq_some_iff.mp hdue
  obtain ⟨i, hi⟩ := List.mem_iff_getElem?.mp hmem
  rw [Array.getElem?_toList] at hi
  refine Bool.eq_false_iff.mpr fun hquiet => ?_
  have hnone := isQuiet_iff.mp hquiet i
  unfold dueOf at ht
  split at ht
  next alarm pending hp =>
    subst ht
    simp [step?, hi, Task.step?, hp] at hnone
  next => cases ht

/-- What every move makes smaller: the tasks, then the arrivals, then whether the clock may move. -/
def load (m : Machine r) : Multiset Task × Nat × Nat :=
  (m.tasks.toList, m.world.arrivals, if m.isQuiet then 1 else 0)

/-- No schedule goes on for ever. -/
theorem moves_wellFounded : WellFounded fun m' m : Machine r => ∃ a, m.move? a = some m' := by
  have hleads : WellFounded fun u t : Task => t.Leads u := ⟨Task.halts⟩
  have hwf := InvImage.wf (load (r := r))
    (WellFounded.prod_lex hleads.cutExpand (WellFounded.prod_lex Nat.lt_wfRel.wf Nat.lt_wfRel.wf))
  refine Subrelation.wf ?_ hwf
  rintro m' m ⟨a, ha⟩
  cases a with
  | step i =>
    obtain ⟨t, e, -, hs⟩ := step?_stepped ha
    rcases hs.turn.leads with h | ⟨htask, hlaunched, race, x, x', a, hx, harrivals, hraces⟩
    · exact .left _ _ (hs.cutExpand h)
    · have htasks : m'.tasks.toList = m.tasks.toList := by
        obtain ⟨hlt, rfl⟩ := Array.getElem?_eq_some_iff.mp hs.task
        rw [hs.tasks, htask, hlaunched, List.append_nil, ← Array.getElem_toList]
        exact List.set_getElem_self _
      have hlt : m'.world.arrivals < m.world.arrivals := by
        rw [World.arrivals, World.arrivals, hs.world, hraces, Array.toList_modify]
        refine sum_map_modify_lt _ (by rwa [Array.getElem?_toList]) ?_
        simp [harrivals]
      simp only [InvImage, load, htasks]
      exact .right _ (.left _ _ hlt)
  | tick =>
    have hbusy := isQuiet_tick ha
    obtain ⟨hquiet, due, -, rfl⟩ := of_tick ha
    simp only [InvImage, load, hquiet, hbusy]
    exact .right _ (.right _ Nat.zero_lt_one)

/-- A schedule that never comes to its end. -/
def Endless (f : Nat → Machine r) : Prop := ∀ i, ∃ a, (f i).move? a = some (f (i + 1))

theorem not_endless (f : Nat → Machine r) : ¬ Endless f := by
  generalize hm : f 0 = m
  induction m using moves_wellFounded.induction generalizing f with
  | _ m ih =>
    intro h
    subst hm
    exact ih (f 1) (h 0) (fun i => f (i + 1)) rfl fun i => h (i + 1)

/-- The machine makes these moves, while the host does nothing. -/
def Moves (m : Machine r) (as : List Move) (m' : Machine r) : Prop := Run m (as.map .move) m'

/-- What every move preserves holds after all of them. -/
theorem Moves.invariant {P : Machine r → Prop} {m m' : Machine r} {as : List Move}
    (h : m.Moves as m') (step : ∀ m a m', P m → m.move? a = some m' → P m') (hm : P m) :
    P m' := by
  induction as generalizing m with
  | nil =>
    cases h
    exact hm
  | cons a as ih =>
    cases h with
    | step ha hrest => exact ih hrest (step _ _ _ hm ha)

/-- Nothing can proceed any more. -/
def AtRest (m : Machine r) : Prop := ∀ a, m.move? a = none

/-- Every machine can come to rest. -/
theorem exists_atRest (m : Machine r) : ∃ as m', m.Moves as m' ∧ m'.AtRest := by
  induction m using moves_wellFounded.induction with
  | _ m ih =>
    by_cases h : m.AtRest
    · exact ⟨[], m, .refl, h⟩
    · obtain ⟨a, ha⟩ := Classical.not_forall.mp h
      obtain ⟨m₁, hm₁⟩ := Option.ne_none_iff_exists'.mp ha
      obtain ⟨as, m', hmoves, hrest⟩ := ih m₁ ⟨a, hm₁⟩
      exact ⟨a :: as, m', .step hm₁ hmoves, hrest⟩

end Machine

end Workflow
