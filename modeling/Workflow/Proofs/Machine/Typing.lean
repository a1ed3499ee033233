import Workflow.Proofs.Machine.Drive
import Workflow.Proofs.Program.Typing

/-! Kinds of tasks.

Every operation hands on a result of the kind that it promises, whoever it comes
from and however long that takes. So a task that runs a program with kinds keeps to
them, and so do all that it launches. -/
namespace Workflow

variable {r : Runner} {kind a b : Kind} {pending : List Continuation}

/-- The boundaries turn what the program inside ends with into a result of the second kind. Inside
of each, a program ends with an outcome. -/
inductive BoundariesTyped : Kind → List (List Continuation) → Kind → Prop
  | nil {kind : Kind} : BoundariesTyped kind [] kind
  | cons {a kind : Kind} {pending : List Continuation} {outer : List (List Continuation)}
    (hp : StackTyped (.attempt .json) pending a) (ho : BoundariesTyped a outer kind) :
    BoundariesTyped .outcome (pending :: outer) kind

/-- The kind of result that a task ends with, unless the host decides it. -/
def Role.kind? : Role → Option Kind
  | .run => none
  | .fork _ | .branch .. => some .json
  | .background | .host => some .unit

/-- The phase leads, through the boundaries, to a result of the kind. -/
def Phase.Typed (kind : Kind) (boundaries : List (List Continuation)) : Phase → Prop
  | .running c => ∃ a, c.Typed a ∧ BoundariesTyped a boundaries kind
  | .ended v => ∀ d, v = .value d → d.kind = kind
  | phase => ∀ a pending, phase.expects = some (a, pending) →
      ∃ b, StackTyped a pending b ∧ BoundariesTyped b boundaries kind

namespace Task
variable {t u : Task} {w : World r} {self : Nat} {e : Effect r} {result : Except Fault Dyn}

/-- The task ends with a result of the kind, unless it fails. -/
structure Typed (kind : Kind) (t : Task) : Prop where
  role : ∀ k, t.role.kind? = some k → k = kind
  phase : t.phase.Typed kind t.boundaries

theorem Typed.running {c : Cursor} (h : t.Typed kind) (hp : t.phase = .running c) :
    ∃ a, c.Typed a ∧ BoundariesTyped a t.boundaries kind := by
  have := h.phase
  rwa [hp] at this

theorem Typed.waiting (h : t.Typed kind) (hp : t.phase.expects = some (a, pending)) :
    ∃ b, StackTyped a pending b ∧ BoundariesTyped b t.boundaries kind := by
  have hphase := h.phase
  unfold Phase.Typed at hphase
  split at hphase
  next hc => simp [hc, Phase.expects] at hp
  next hv => simp [hv, Phase.expects] at hp
  next => exact hphase a pending hp

theorem Typed.resumed (h : t.Typed kind) (hs : StackTyped a pending b)
    (hb : BoundariesTyped b t.boundaries kind) (hr : OfKind a result) :
    (t.resumed pending result).Typed kind :=
  ⟨h.role, b, Cursor.typed_resume hs hr, hb⟩

/-- A task that goes on with what it waited for keeps to its kind. -/
theorem Typed.answered (h : t.Typed kind) (hp : t.phase.expects = some (a, pending))
    (hr : OfKind a result) : (t.resumed pending result).Typed kind := by
  obtain ⟨b, hs, hb⟩ := h.waiting hp
  exact h.resumed hs hb hr

theorem Typed.waits (h : t.Typed kind) {phase : Phase} (hs : StackTyped a pending b)
    (hb : BoundariesTyped b t.boundaries kind) (hp : phase.expects = some (a, pending)) :
    Typed kind { t with phase := phase } := by
  refine ⟨h.role, ?_⟩
  cases phase with
  | running | ended | opening => cases hp
  | sleeping | awaiting | racing =>
    intro a' pending' hp'
    cases hp.symm.trans hp'
    exact ⟨b, hs, hb⟩

theorem typed_child {role : Role} {span : Span} {p : Program} (hr : role.kind? = some kind)
    (hp : p.Typed kind) : (t.child role span p).Typed kind := by
  refine ⟨?_, kind, Cursor.typed_new hp, .nil⟩
  intro k hk
  exact Option.some.inj (hk.symm.trans hr)

/-- Every step of a task keeps to its kind. -/
theorem Turn.typed (h : t.Turn w self e) (hf : t.Fits) (ht : t.Typed kind) :
    e.task.Typed kind := by
  cases h with
  | answered hp hc _ hr =>
    obtain ⟨b, hcur, hb⟩ := ht.running hp
    exact ht.resumed (hcur.advance hc).2 hb hr
  | forks hp hc =>
    obtain ⟨b, hcur, hb⟩ := ht.running hp
    exact ht.resumed (hcur.advance hc).2 hb (ofKind_ok (k := .handle) _)
  | sleeps hp hc _ ha =>
    obtain ⟨b, hcur, hb⟩ := ht.running hp
    exact ht.waits (hcur.advance hc).2 hb (by simp [Phase.expects, ha])
  | awaits hp hc | races hp hc =>
    obtain ⟨b, hcur, hb⟩ := ht.running hp
    exact ht.waits (hcur.advance hc).2 hb rfl
  | enters hp hc =>
    obtain ⟨b, hcur, hb⟩ := ht.running hp
    obtain ⟨hinner, hs⟩ := hcur.advance hc
    exact ⟨ht.role, .outcome, Cursor.typed_new (hinner _ (List.mem_singleton.mpr rfl)),
      .cons hs hb⟩
  | leaves hp hc hbs _ hr =>
    obtain ⟨b, hcur, hb⟩ := ht.running hp
    rw [hbs] at hb
    cases hb with
    | cons hs ho => exact ⟨ht.role, _, Cursor.typed_resume hs hr, ho⟩
  | @concludes c result hp hc hbs =>
    obtain ⟨b, hcur, hb⟩ := ht.running hp
    rw [hbs] at hb
    cases hb with
    | nil =>
      refine ⟨ht.role, ?_⟩
      intro d hd
      cases result with
      | ok v =>
        cases hd
        exact hcur.finished hc _ rfl
      | error e => cases hd
  | @wakes _ _ pending k _ _ hp _ ha _ hr =>
    have hw : t.phase.expects = some (k, pending) := by simp [hp, Phase.expects, ha]
    exact ht.answered hw hr
  | @awaited _ pending _ hp =>
    have hw : t.phase.expects = some (.json, pending) := by simp [hp, Phase.expects]
    exact ht.answered hw (ofKind_json _)
  | @wins _ pending _ _ _ _ _ hp =>
    have hw : t.phase.expects = some (.json, pending) := by simp [hp, Phase.expects]
    exact ht.answered hw (ofKind_ok (k := .json) _)
  | @exhausts _ pending _ hp =>
    have hw : t.phase.expects = some (.json, pending) := by simp [hp, Phase.expects]
    exact ht.answered hw (ofKind_error _)
  | loses => exact ht
  | crashes =>
    refine ⟨ht.role, ?_⟩
    intro d hd
    cases hd
  | opens hp =>
    refine ⟨ht.role, ?_⟩
    intro a pending hexpects
    cases hexpects
  | closes hp =>
    refine ⟨ht.role, ?_⟩
    intro d hd
    cases hd
    exact ht.role .unit (by simp [hf.closing hp, Role.kind?])
  | settles hp =>
    refine ⟨ht.role, ?_⟩
    intro d hd
    cases hd
    exact ht.role .unit (by simp [(hf.host hp).1, Role.kind?])

/-- What is launched keeps to the kind that the launching operation asks for. -/
theorem Turn.launched_typed (h : t.Turn w self e) (ht : t.Typed kind) (hu : u ∈ e.launched) :
    ∃ k, u.Typed k := by
  cases h with
  | answered _ _ _ _ _ hl =>
    obtain rfl | ⟨request, rfl⟩ := hl
    · cases hu
    · obtain rfl := List.mem_singleton.mp hu
      refine ⟨.unit, fun k hk => (Option.some.inj hk).symm, ?_⟩
      intro a pending hexpects
      cases hexpects
  | forks hp hc =>
    obtain ⟨b, hcur, -⟩ := ht.running hp
    obtain rfl := List.mem_singleton.mp hu
    exact ⟨.json, typed_child rfl ((hcur.advance hc).1 _ (List.mem_singleton.mpr rfl))⟩
  | races hp hc =>
    obtain ⟨b, hcur, -⟩ := ht.running hp
    obtain ⟨k, p, hmem, rfl⟩ := branches_mem hu
    exact ⟨.json, typed_child rfl ((hcur.advance hc).1 p hmem)⟩
  | _ => cases hu

/-- The task is inside an operation that `t` has dispatched: it waits for the result, or runs a
program inside the boundary that the operation has put up. -/
inductive Inside (t : Task) (op : Operation Program) (pending : List Continuation) : Task → Prop
  | waits {phase : Phase} (hp : phase.expects = some (op.result, pending)) :
    Inside t op pending { t with phase := phase }
  | guarded {inner : List (List Continuation)} {phase : Phase} (hk : op.result = .attempt .json)
    (hp : ∀ v, phase ≠ .ended v) :
    Inside t op pending
      { t with boundaries := inner ++ pending :: t.boundaries, phase := phase }

/-- The operation that `t` has dispatched has returned: the task goes on with an error, or with a
value of the kind that the operation promises. -/
def Returned (t : Task) (op : Operation Program) (pending : List Continuation) (u : Task) : Prop :=
  ∃ result, OfKind op.result result ∧ u = t.resumed pending result

def Panicked (u : Task) : Prop := ∃ message, u.phase = .ended (.panic message)

/-- An operation that is dispatched returns at once, or the task is inside of it. -/
theorem Turn.dispatched (h : t.Turn w self e) {c : Cursor} {op : Operation Program}
    (hp : t.phase = .running c) (hc : c.advance = .execute op pending) :
    t.Inside op pending e.task ∨ t.Returned op pending e.task ∨ e.task.Panicked := by
  cases h with
  | answered hp' hc' _ hr =>
    cases hp.symm.trans hp'
    cases hc.symm.trans hc'
    exact .inr (.inl ⟨_, hr, rfl⟩)
  | forks hp' hc' =>
    cases hp.symm.trans hp'
    cases hc.symm.trans hc'
    exact .inr (.inl ⟨_, ofKind_ok (k := .handle) _, rfl⟩)
  | sleeps hp' hc' _ ha =>
    cases hp.symm.trans hp'
    cases hc.symm.trans hc'
    exact .inl (.waits (by simp [Phase.expects, ha]))
  | awaits hp' hc' | races hp' hc' =>
    cases hp.symm.trans hp'
    cases hc.symm.trans hc'
    exact .inl (.waits rfl)
  | enters hp' hc' =>
    cases hp.symm.trans hp'
    cases hc.symm.trans hc'
    exact .inl (@Inside.guarded t _ _ [] _ rfl (by simp))
  | leaves hp' hc' | concludes hp' hc' =>
    cases hp.symm.trans hp'
    cases hc.symm.trans hc'
  | crashes => exact .inr (.inr ⟨_, rfl⟩)
  | closes hp' => simp [hp] at hp'
  | wakes hp' | awaited hp' | wins hp' | loses hp' | exhausts hp' | opens hp' | settles hp' =>
    cases hp.symm.trans hp'

/-- A task that waits for a result goes on waiting, or with a
result of the kind that it waits for. -/
theorem Turn.of_expects (h : t.Turn w self e) (hw : t.phase.expects = some (kind, pending)) :
    e.task = t ∨ (∃ result, OfKind kind result ∧ e.task = t.resumed pending result) ∨
      e.task.Panicked := by
  cases h with
  | wakes hp _ ha _ hr =>
    rw [hp, Phase.expects, ha] at hw
    cases hw
    exact .inr (.inl ⟨_, hr, rfl⟩)
  | awaited hp =>
    rw [hp] at hw
    cases hw
    exact .inr (.inl ⟨_, ofKind_json _, rfl⟩)
  | wins hp =>
    rw [hp] at hw
    cases hw
    exact .inr (.inl ⟨_, ofKind_ok (k := .json) _, rfl⟩)
  | exhausts hp =>
    rw [hp] at hw
    cases hw
    exact .inr (.inl ⟨_, ofKind_error _, rfl⟩)
  | loses => exact .inl rfl
  | crashes => exact .inr (.inr ⟨_, rfl⟩)
  | closes hp =>
    obtain ⟨_, hp⟩ | ⟨_, _, _, hp⟩ := hp <;> simp [hp, Phase.expects, Alarm.kind?] at hw
  | settles hp => simp [hp, Phase.expects, Alarm.kind?] at hw
  | opens hp => simp [hp, Phase.expects] at hw
  | answered hp | sleeps hp | awaits hp | forks hp | races hp | enters hp | leaves hp
  | concludes hp =>
    simp [hp, Phase.expects] at hw

/-- A step of a task inside an operation stays inside, or the operation returns. -/
theorem Turn.inside {op : Operation Program} (h : u.Turn w self e) (hf : u.Fits)
    (hr : t.role.OfProgram) (hu : t.Inside op pending u) :
    t.Inside op pending e.task ∨ t.Returned op pending e.task ∨ e.task.Panicked := by
  cases hu with
  | waits hp =>
    obtain heq | ⟨result, hk, heq⟩ | hpanic := h.of_expects hp
    · rw [heq]
      exact .inl (.waits hp)
    · exact .inr (.inl ⟨result, hk, heq⟩)
    · exact .inr (.inr hpanic)
  | @guarded inner phase hk hne =>
    cases h with
    | answered | forks | wakes | awaited | wins | exhausts => exact .inl (.guarded hk nofun)
    | sleeps | awaits | races => exact .inl (.guarded hk nofun)
    | loses => exact .inl (.guarded hk hne)
    | @enters _ _ pending' => exact .inl (@Inside.guarded t _ _ (pending' :: inner) _ hk nofun)
    | leaves _ _ hb _ hresult =>
      -- either the boundary of the operation itself is left, or one inside of it
      cases inner with
      | nil =>
        cases hb
        exact .inr (.inl ⟨_, hk ▸ hresult, rfl⟩)
      | cons _ inner =>
        cases hb
        exact .inl (.guarded hk nofun)
    | concludes _ _ hb => simp at hb
    | crashes => exact .inr (.inr ⟨_, rfl⟩)
    | opens hp =>
      have hrole := hf.background (.inl ⟨_, hp⟩)
      simp [show t.role = _ from hrole, Role.OfProgram] at hr
    | closes hp =>
      have hrole := hf.closing hp
      simp [show t.role = _ from hrole, Role.OfProgram] at hr
    | settles hp =>
      have hrole := (hf.host hp).1
      simp [show t.role = _ from hrole, Role.OfProgram] at hr

end Task

namespace Machine
variable {m m' : Machine r} {as : List Happening} {j : Nat} {t u : Task}

/-- Every task keeps to some kind. -/
def Typed (m : Machine r) : Prop :=
  ∀ (j : Nat) (t : Task), m.tasks[j]? = some t → ∃ kind, t.Typed kind

theorem typed_initial (h : Initial m) : m.Typed := by
  intro j t ht
  obtain ⟨hrole, -, _, ⟨_, _, hp⟩, -⟩ := h.writers j t ht
  refine ⟨.unit, ?_, ?_⟩
  · intro k hk
    rw [hrole] at hk
    exact (Option.some.inj hk).symm
  · rw [hp]
    intro a pending hexpects
    cases hexpects

/-- The programs that the host launches are assembled flows. -/
def Assembles (as : List Happening) : Prop :=
  ∀ p container, .launch p container ∈ as →
    ∃ (kind : Kind) (f : Flow kind), f.Assembled ∧ f.program = p

theorem typed_runner {f : Flow kind} (hf : f.Assembled) (container : Nat) :
    (runner r f.program container).Typed kind :=
  ⟨nofun, kind, Cursor.typed_new hf.typed, .nil⟩

theorem typed_run (hm : m.Reachable) (h : Run m as m') (ha : Assembles as) (ht : m.Typed) :
    m'.Typed := by
  induction h with
  | refl => exact ht
  | @step m m₁ m' a as hstep _ ih =>
    refine ih (hm.run (.single hstep)) (fun p container hp => ha p container (.tail _ hp)) ?_
    intro j u hu
    cases happen?_change hstep with
    | step hs =>
      obtain ⟨kind, htyped⟩ := ht _ _ hs.task
      obtain ⟨-, rfl⟩ | ⟨-, hu⟩ | ⟨k, -, hk⟩ := hs.cases hu
      · exact ⟨kind, hs.turn.typed (fit_reachable hm _ _ hs.task) htyped⟩
      · exact ht j u hu
      · exact hs.turn.launched_typed htyped (List.mem_of_getElem? hk)
    | idle _ hi =>
      obtain hu | ⟨-, hu⟩ := hi.cases hu
      · exact ht j u hu
      · obtain ⟨p, container, rfl, rfl⟩ := hi.programs u hu
        obtain ⟨kind, f, hf, rfl⟩ := ha p container (.head _)
        exact ⟨kind, typed_runner hf container⟩

/-- A task keeps to the same kind all along. -/
theorem task_typed_run (hm : m.Reachable) (h : Run m as m') (ht : m.tasks[j]? = some t)
    (hk : t.Typed kind) : ∃ u, m'.tasks[j]? = some u ∧ u.Typed kind := by
  induction h generalizing t with
  | refl => exact ⟨t, ht, hk⟩
  | @step m m₁ m' a as ha _ ih =>
    have hm₁ := hm.run (.single ha)
    by_cases hj : a = .move (.step j)
    · obtain ⟨t', e, -, hs⟩ := step?_stepped (hj ▸ ha)
      cases hs.task.symm.trans ht
      exact ih hm₁ hs.self (hs.turn.typed (fit_reachable hm j t ht) hk)
    · exact ih hm₁ (task_kept ha ht hj) hk

/-- Once an operation is dispatched, its task is inside of it until the operation returns what it
promises or the task panics. -/
theorem inside_run {op : Operation Program} (hm : m.Reachable) (h : Run m as m')
    (ht : m.tasks[j]? = some u) (hr : t.role.OfProgram) (hu : t.Inside op pending u) :
    (∃ u', m'.tasks[j]? = some u' ∧ (t.Inside op pending u' ∨ u'.Panicked)) ∨
      ∃ before after m₁ u', as = before ++ after ∧ Run m before m₁ ∧
        m₁.tasks[j]? = some u' ∧ t.Returned op pending u' ∧ Run m₁ after m' := by
  induction h generalizing u with
  | refl => exact .inl ⟨u, ht, .inl hu⟩
  | @step m m₁ m' a as ha hrest ih =>
    have hm₁ := hm.run (.single ha)
    by_cases hj : a = .move (.step j)
    · obtain ⟨t', e, -, hs⟩ := step?_stepped (hj ▸ ha)
      cases hs.task.symm.trans ht
      obtain hin | hret | ⟨message, hpanic⟩ := hs.turn.inside (fit_reachable hm j u ht) hr hu
      · obtain hin | ⟨before, after, m₂, u', rfl, hb, hu', hret, hafter⟩ :=
          ih hm₁ hs.self hin
        · exact .inl hin
        · exact .inr ⟨a :: before, after, m₂, u', rfl, .step ha hb, hu', hret, hafter⟩
      · exact .inr ⟨[a], as, m₁, e.task, rfl, .single ha, hs.self, hret, hrest⟩
      · have hended := ending?_run hrest (ending?_eq_some_iff.mpr ⟨_, hs.self, hpanic⟩)
        obtain ⟨u', hu', hp⟩ := ending?_eq_some_iff.mp hended
        exact .inl ⟨u', hu', .inr ⟨message, hp⟩⟩
    · obtain hin | ⟨before, after, m₂, u', rfl, hb, hu', hret, hafter⟩ :=
        ih hm₁ (task_kept ha ht hj) hu
      · exact .inl hin
      · exact .inr ⟨a :: before, after, m₂, u', rfl, .step ha hb, hu', hret, hafter⟩

end Machine

end Workflow
