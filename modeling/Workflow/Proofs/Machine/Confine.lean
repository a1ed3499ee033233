import Workflow.Proofs.Machine.Commit
import Workflow.Proofs.Machine.Role

/-! Every task works on one container.

What a task does, and what it launches, does not depend on any container but its own, and it changes
none but its own. Whoever descends from a run works on the container of the run. -/
namespace Workflow

variable {r : Runner}

/-- The world with other contents of its containers. -/
def World.withContainers (w : World r) (cs : Array Container) : World r :=
  { w with containers := cs }

def Effect.withContainers (e : Effect r) (cs : Array Container) : Effect r :=
  ⟨e.world.withContainers cs, e.task, e.launched⟩

/-- The containers after a deed of a task that works on this one. -/
def Deed.commit (cs : Array Container) (container : Nat) (d : Option Deed) : Array Container :=
  (d.bind Deed.update?).elim cs fun u => cs.modify container u.apply

/-- What a deed makes of the containers is decided by the one that the task works on. -/
theorem Deed.commit_eq {cs cs' : Array Container} {i : Nat} (h : cs[i]? = cs'[i]?)
    (d : Option Deed) :
    Deed.commit cs i d = cs.modify i fun _ => (Deed.commit cs' i d)[i]?.getD .empty := by
  apply Array.ext_getElem?
  intro j
  unfold commit
  rw [Array.getElem?_modify]
  by_cases hj : i = j
  · subst hj
    cases d.bind update? with
    | none =>
      rw [if_pos rfl, Option.elim_none, Option.elim_none, ← h]
      cases cs[i]? <;> rfl
    | some u =>
      rw [if_pos rfl, Option.elim_some, Option.elim_some, Array.getElem?_modify,
        Array.getElem?_modify, if_pos rfl, if_pos rfl, ← h]
      cases cs[i]? <;> rfl
  · rw [if_neg hj]
    cases d.bind update? with
    | none => rfl
    | some u => rw [Option.elim_some, Array.getElem?_modify, if_neg hj]

namespace World
variable (w : World r) (cs : Array Container) (span : Span)

theorem emitAll_withContainers (events : List Event) :
    (w.withContainers cs).emitAll span events = (w.emitAll span events).withContainers cs := by
  induction events generalizing w with
  | nil => rfl
  | cons event events ih => exact ih (w.emit span event)

theorem accept_withContainers (call : Call) :
    (w.withContainers cs).accept span call =
      ((w.accept span call).1.withContainers cs, (w.accept span call).2) := by
  cases call <;> simp only [accept] <;> rw [← emitAll_withContainers] <;> rfl

theorem answer_withContainers (call : Call) :
    (w.withContainers cs).answer span call =
      ((w.answer span call).1.withContainers cs, (w.answer span call).2) := by
  cases call <;> simp only [answer] <;> rw [← emitAll_withContainers] <;> rfl

end World

namespace Task
variable (t : Task) (w : World r) (cs : Array Container) (self : Nat) (pending : List Continuation)

theorem crash_withContainers (message : String) :
    t.crash (w.withContainers cs) self message = (t.crash w self message).withContainers cs := by
  unfold crash
  cases t.role <;> rfl

theorem finish_withContainers (result : Except Fault Dyn) :
    t.finish (w.withContainers cs) result = (t.finish w result).withContainers cs := by
  unfold finish
  split
  · unfold conclude
    cases t.role with
    | run => cases result <;> rfl
    | fork h =>
      simp only
      cases result >>= Dyn.take .json <;> rfl
    | _ => rfl
  · unfold leaveBoundary
    cases result >>= Dyn.take .outcome with
    | error e => rfl
    | ok outcome => cases outcome <;> rfl

theorem receive_withContainers (verdict : Verdict Reply) :
    t.receive (w.withContainers cs) self pending verdict =
      (t.receive w self pending verdict).withContainers cs := by
  cases verdict with
  | panic message => exact crash_withContainers t w cs self message
  | _ => rfl

theorem delegate_withContainers (call : Call) :
    t.delegate (w.withContainers cs) self pending call =
      (t.delegate w self pending call).withContainers cs := by
  unfold delegate
  rw [World.accept_withContainers]
  cases h : w.accept t.span call with
  | mk u reception =>
    cases reception with
    | now verdict => exact receive_withContainers t u cs self pending verdict
    | later wait => rfl

theorem closeBackground_withContainers (verdict : Verdict Reply) :
    t.closeBackground (w.withContainers cs) self verdict =
      (t.closeBackground w self verdict).withContainers cs := by
  unfold closeBackground
  split
  · split <;> rfl
  · rfl
  · rfl
  · exact crash_withContainers ..

theorem openBackground_withContainers (request : String) :
    t.openBackground (w.withContainers cs) self request =
      (t.openBackground w self request).withContainers cs := by
  unfold openBackground
  rw [World.accept_withContainers]
  cases h : w.accept t.span (.ui request) with
  | mk u reception =>
    cases reception with
    | now verdict => exact closeBackground_withContainers t u cs self verdict
    | later wait => rfl

theorem wake_withContainers (alarm : Alarm) :
    t.wake (w.withContainers cs) self pending alarm =
      (t.wake w self pending alarm).withContainers cs := by
  cases alarm with
  | delay => rfl
  | external ending =>
    cases ending with
    | panic message => exact crash_withContainers t w cs self message
    | _ => rfl
  | call call =>
    simp only [wake, World.answer_withContainers]
    exact receive_withContainers ..
  | background request =>
    simp only [wake, World.answer_withContainers]
    exact closeBackground_withContainers ..
  | host h result => cases result <;> rfl

theorem judge_withContainers (race : Nat) (x : Race) (a : Arrival) (rest : List Arrival) :
    t.judge (w.withContainers cs) race pending x a rest =
      (t.judge w race pending x a rest).withContainers cs := by
  unfold judge
  cases a.ending <;> rfl

variable {t w cs}

/-- An operation reads and updates the task's own container. -/
theorem execute_withContainers (h : cs[t.container]? = w.containers[t.container]?)
    (op : Operation Program) : t.execute (w.withContainers cs) self pending op =
      (t.execute w self pending op).withContainers (Deed.commit cs t.container op.deed?) := by
  have hcontainer : (w.withContainers cs).container t.container = w.container t.container := by
    simp only [World.container, World.withContainers, h]
  cases hc : op.call? with
  | some call =>
    rw [execute_of_call? hc, execute_of_call? hc, delegate_withContainers,
      Operation.deed?_of_call? hc]
    rfl
  | none =>
    cases op with
    | read store key =>
      cases store with
      | persistent => cases hc
      | ephemeral =>
        simp only [execute, hcontainer]
        rfl
    | readForeignAll =>
      simp only [execute, hcontainer]
      rfl
    | delete store key | write store key value =>
      cases store with
      | persistent => cases hc
      | ephemeral => rfl
    | race ps => cases ps <;> rfl
    | callApi | runUi | checkPermissions | requestPermissions => cases hc
    | _ => rfl

theorem dispatch_withContainers (h : cs[t.container]? = w.containers[t.container]?)
    (op : Operation Program) : t.dispatch (w.withContainers cs) self pending op =
      (t.dispatch w self pending op).withContainers (Deed.commit cs t.container op.deed?) := by
  have htold := execute_withContainers (w := w.emit t.span (.dispatching op.name)) self pending h op
  cases op with
  | peek handle => exact execute_withContainers self pending h (.peek handle)
  | _ => exact htold

/-- A step does not depend on any container but the task's own, and changes none but this. -/
theorem step?_withContainers (h : cs[t.container]? = w.containers[t.container]?) :
    t.step? (w.withContainers cs) self = (t.step? w self).map fun e =>
      e.withContainers (Deed.commit cs t.container t.phase.deed?) := by
  cases hp : t.phase with
  | running c =>
    cases hc : c.advance with
    | finished result =>
      simp only [step?, hp, hc, Phase.deed?, finish_withContainers]
      rfl
    | execute op pending =>
      simp only [step?, hp, hc, Phase.deed?, dispatch_withContainers self pending h]
      rfl
  | sleeping due alarm pending =>
    have hkeeps : Deed.commit cs t.container (Phase.sleeping due alarm pending).deed? = cs := by
      cases alarm <;> rfl
    rw [hkeeps]
    cases due with
    | none => simp only [step?, hp, Option.map_none]
    | some due =>
      have hnow : (w.withContainers cs).now = w.now := rfl
      simp only [step?, hp, hnow, wake_withContainers]
      split <;> rfl
  | awaiting handle pending =>
    have hcell : (w.withContainers cs).cell handle = w.cell handle := rfl
    simp only [step?, hp, hcell, Option.map_map]
    rfl
  | racing race pending =>
    have hraces : (w.withContainers cs).races = w.races := rfl
    simp only [step?, hp, hraces, judge_withContainers]
    split
    · split
      · rfl
      · split <;> rfl
    · rfl
  | opening request =>
    simp only [step?, hp, openBackground_withContainers]
    rfl
  | ended ending => simp only [step?, hp, Option.map_none]

end Task

theorem Task.Turn.container_eq {t : Task} {w : World r} {self : Nat} {e : Effect r}
    (h : t.Turn w self e) : e.task.container = t.container := by
  obtain ⟨boundaries, phase, heq⟩ := h.same
  rw [heq]

/-- What is launched works on the container of who launches it. -/
theorem Task.Turn.launched_container {t u : Task} {w : World r} {self : Nat} {e : Effect r}
    (h : t.Turn w self e) (hu : u ∈ e.launched) : u.container = t.container := by
  obtain ⟨request, rfl⟩ | ⟨role, span, p, -, rfl⟩ := h.launched_cases hu <;> rfl

namespace Machine
variable {m m' m₁ mₙ : Machine r} {a : Happening} {as : List Happening}
  {i j k : Nat} {t u : Task}
  {e : Effect r}

/-- The machine with other contents of its containers. -/
def withContainers (m : Machine r) (cs : Array Container) : Machine r :=
  ⟨m.world.withContainers cs, m.tasks⟩

/-- The next step of task `j` is the same whatever the containers hold but for number `k`, and this
is the only one that it changes. -/
def Confined (m : Machine r) (j k : Nat) : Prop :=
  ∀ cs, cs[k]? = m.world.containers[k]? →
    (m.withContainers cs).step? j =
      (m.step? j).map fun m' => m'.withContainers (cs.modify k fun _ => m'.world.container k)

theorem confined_of_task (ht : m.tasks[j]? = some t) : m.Confined j t.container := by
  intro cs hcs
  have ht' : (m.withContainers cs).tasks[j]? = some t := ht
  simp only [step?, ht', ht]
  have hworld : (m.withContainers cs).world = m.world.withContainers cs := rfl
  rw [hworld, Task.step?_withContainers j hcs, Option.map_map, Option.map_map]
  cases he : t.step? m.world j with
  | none => rfl
  | some e =>
    have hcontainers : e.world.containers =
        Deed.commit m.world.containers t.container t.phase.deed? := by
      have hscene := congrArg Scene.containers (Task.step?_scene he)
      rw [Scene.after_containers] at hscene
      exact hscene
    have hcontainer : e.world.container t.container =
        (Deed.commit m.world.containers t.container t.phase.deed?)[t.container]?.getD .empty := by
      rw [World.container, hcontainers]
    simp only [Option.map_some, Function.comp_apply, Effect.withContainers,
      withContainers, hcontainer, ← Deed.commit_eq hcs]

/-- The tasks that a happening adds to a family: what its members launch. -/
def offspring (m : Machine r) (family : List Nat) (a : Happening) (m' : Machine r) : List Nat :=
  match a with
  | .move (.step i) =>
    if i ∈ family then List.range' m.tasks.size (m'.tasks.size - m.tasks.size) else []
  | _ => []

/-- A family of tasks with all that descend from it in a run. -/
def lineage (m : Machine r) (family : List Nat) : List Happening → List Nat
  | [] => family
  | a :: as =>
    match m.happen? a with
    | some m' => m'.lineage (family ++ m.offspring family a m') as
    | none => family

def WorksOn (m : Machine r) (j k : Nat) : Prop := ∃ t, m.tasks[j]? = some t ∧ t.container = k

/-- A task works on one container all its life. -/
theorem WorksOn.happen (h : m.WorksOn j k) (ha : m.happen? a = some m') : m'.WorksOn j k := by
  obtain ⟨t, ht, rfl⟩ := h
  cases happen?_change ha with
  | @step i u e _ hs =>
    by_cases hj : j = i
    · subst hj
      cases ht.symm.trans hs.task
      exact ⟨e.task, hs.self, hs.turn.container_eq⟩
    · exact ⟨t, hs.other hj ht, rfl⟩
  | idle _ hi => exact ⟨t, hi.keeps ht, rfl⟩

theorem offspring_worksOn {family : List Nat} (hf : ∀ i ∈ family, m.WorksOn i k)
    (ha : m.happen? a = some m') (hj : j ∈ m.offspring family a m') : m'.WorksOn j k := by
  cases happen?_change ha with
  | @step i t e _ hs =>
    simp only [offspring] at hj
    split at hj
    next hi =>
      obtain ⟨u, hu, rfl⟩ := hf i hi
      cases hu.symm.trans hs.task
      have hsize := hs.size
      obtain ⟨hle, hlt⟩ := List.mem_range'_1.mp hj
      obtain ⟨v, hv⟩ : ∃ v, e.launched[j - m.tasks.size]? = some v :=
        ⟨_, List.getElem?_eq_getElem (by omega)⟩
      refine ⟨v, ?_, hs.turn.launched_container (List.mem_of_getElem? hv)⟩
      have hadded := hs.added hv
      rwa [Nat.add_sub_cancel' hle] at hadded
    next => cases hj
  | @idle _ _ _ hn =>
    unfold offspring at hj
    split at hj
    · exact absurd rfl (hn _)
    · cases hj

/-- All that descend from a family work on its container. -/
theorem lineage_worksOn {family : List Nat} (hf : ∀ i ∈ family, m.WorksOn i k)
    (h : Run m as mₙ) (hj : j ∈ m.lineage family as) :
    mₙ.WorksOn j k := by
  induction h generalizing family with
  | refl => exact hf j hj
  | @step m m₁ mₙ a as ha _ ih =>
    simp only [lineage, ha] at hj
    refine ih ?_ hj
    intro i hi
    obtain hi | hi := List.mem_append.mp hi
    · exact (hf i hi).happen ha
    · exact offspring_worksOn hf ha hi

/-- Whoever works on a container has done so before, was launched by such a task,
or was started there by the host. -/
theorem WorksOn.cases (h : m'.WorksOn j k) (ha : m.happen? a = some m') :
    m.WorksOn j k ∨
    (∃ i, a = .move (.step i) ∧ m.WorksOn i k ∧ m.tasks.size ≤ j ∧ j < m'.tasks.size) ∨
      ∃ p, a = .launch p k := by
  obtain ⟨u, hu, rfl⟩ := h
  have hlt := (Array.getElem?_eq_some_iff.mp hu).1
  cases happen?_change ha with
  | @step i t e _ hs =>
    obtain ⟨rfl, rfl⟩ | ⟨-, hu⟩ | ⟨n, rfl, hn⟩ := hs.cases hu
    · exact .inl ⟨t, hs.task, hs.turn.container_eq.symm⟩
    · exact .inl ⟨u, hu, rfl⟩
    · have hcontainer := hs.turn.launched_container (List.mem_of_getElem? hn)
      exact .inr (.inl ⟨i, rfl, ⟨t, hs.task, hcontainer.symm⟩, Nat.le_add_right _ _, hlt⟩)
  | idle _ hi =>
    obtain hu | ⟨-, hu⟩ := hi.cases hu
    · exact .inl ⟨u, hu, rfl⟩
    · obtain ⟨p, container, rfl, rfl⟩ := hi.programs u hu
      exact .inr (.inr ⟨p, rfl⟩)

/-- If the host starts nothing else on a container, only the
family and its descendants work on it. -/
theorem mem_lineage {family : List Nat} (hf : ∀ i, m.WorksOn i k → i ∈ family)
    (h : Run m as mₙ) (hl : ∀ p, .launch p k ∉ as) (hj : mₙ.WorksOn j k) :
    j ∈ m.lineage family as := by
  induction h generalizing family with
  | refl => exact hf j hj
  | @step m m₁ mₙ a as ha _ ih =>
    simp only [lineage, ha]
    obtain ⟨ha', has⟩ : (∀ p, a ≠ .launch p k) ∧ ∀ p, .launch p k ∉ as := by
      simp only [List.mem_cons, not_or] at hl
      exact ⟨fun p hp => (hl p).1 hp.symm, fun p => (hl p).2⟩
    refine ih ?_ has hj
    intro i hi
    obtain hi | ⟨i', rfl, hi', hle, hlt⟩ | ⟨p, rfl⟩ := hi.cases ha
    · exact List.mem_append_left _ (hf i hi)
    · apply List.mem_append_right
      simp only [offspring, hf i' hi', if_true]
      exact List.mem_range'_1.mpr ⟨hle, by omega⟩
    · exact absurd rfl (ha' p)

end Machine

end Workflow
