import Workflow.Proofs.Machine.Turn

/-! Runs of a machine: what can happen to it, in any order and for as long as one likes.

`Change` says what one happening does to the pool of tasks, and invariants are carried along it. -/
namespace Workflow

/-- The task will write the handle of the host, or drop its write side. -/
def Task.Writes (t : Task) (h : Handle) : Prop :=
  ∃ due result, t.phase = .sleeping due (.host h result) []

namespace Machine

variable {r : Runner} {m m' m'' : Machine r} {i j : Nat} {t u : Task} {e : Effect r}

/-- A move of the machine, or something that the host does. -/
inductive Happening where
  | move (move : Move)
  /-- The host starts a program on a container. -/
  | launch (program : Program) (container : Nat)
  /-- The host makes a container. -/
  | supply (container : Container)

def happen? (m : Machine r) : Happening → Option (Machine r)
  | .move a => m.move? a
  | .launch p container => some (m.launch p container).1
  | .supply c => some ⟨(m.world.newContainer c).1, m.tasks⟩

inductive Run : Machine r → List Happening → Machine r → Prop
  | refl {m : Machine r} : Run m [] m
  | step {m m' m'' : Machine r} {a : Happening} {as : List Happening}
    (h : m.happen? a = some m') (rest : Run m' as m'') : Run m (a :: as) m''

/-- Nothing has happened yet. There may be handles of the host, each with at
most one task that will write it. -/
structure Initial (m : Machine r) : Prop where
  races : m.world.races = #[]
  cells : ∀ c ∈ m.world.cells, c = .pending
  writers :
    ∀ (i : Nat) (t : Task), m.tasks[i]? = some t → t.role = .host ∧ t.boundaries = [] ∧
    ∃ h, t.Writes h ∧ h.index < m.world.cells.size
  single :
    ∀ (i j : Nat) (t u : Task) (h : Handle), m.tasks[i]? = some t → m.tasks[j]? = some u →
    t.Writes h → u.Writes h → i = j

def Reachable (m : Machine r) : Prop := ∃ m₀ as, Initial m₀ ∧ Run m₀ as m

theorem Run.trans {as bs : List Happening} (h : Run m as m') (h' : Run m' bs m'') :
    Run m (as ++ bs) m'' := by
  induction h with
  | refl => exact h'
  | step h _ ih => exact .step h (ih h')

theorem Run.single {a : Happening} (h : m.happen? a = some m') : Run m [a] m' := .step h .refl

/-- Only one machine is reached by the same happenings, so a run goes on from there. -/
theorem Run.rest {as bs : List Happening} (h : Run m as m') (h' : Run m (as ++ bs) m'') :
    Run m' bs m'' := by
  induction h with
  | refl => exact h'
  | step h _ ih =>
    cases h' with
    | step h₁ h₂ =>
      cases h.symm.trans h₁
      exact ih h₂

theorem Reachable.run {as : List Happening} (h : m.Reachable) (h' : Run m as m') :
    m'.Reachable := by
  obtain ⟨m₀, bs, hi, hb⟩ := h
  exact ⟨m₀, bs ++ as, hi, hb.trans h'⟩

/-- Task `i` is `t` and takes the step with effect `e`; no other task is touched, and
launched ones are added at the end. -/
structure Stepped (m : Machine r) (i : Nat) (t : Task) (e : Effect r) (m' : Machine r) : Prop where
  task : m.tasks[i]? = some t
  turn : t.Turn m.world i e
  world : m'.world = e.world
  tasks : m'.tasks.toList = m.tasks.toList.set i e.task ++ e.launched

/-- A task that can step lets the machine step. -/
theorem stepped_of_task (ht : m.tasks[i]? = some t) (he : t.step? m.world i = some e) :
    ∃ m', m.step? i = some m' ∧ Stepped m i t e m' := by
  refine ⟨⟨e.world, e.launched.foldl Array.push (m.tasks.set! i e.task)⟩, ?_, ht,
    Task.step?_turn he, rfl, ?_⟩
  · simp [step?, ht, he]
  · simp only [List.foldl_push_eq_append', Array.toList_append, Array.set!_eq_setIfInBounds,
      Array.toList_setIfInBounds]

/-- A task that comes to rest at an operation lets the machine dispatch it. -/
theorem stepped_dispatch {c : Cursor} {op : Operation Program} {pending : List Continuation}
    (ht : m.tasks[i]? = some t) (hp : t.phase = .running c) (hc : c.advance = .execute op pending) :
    ∃ m', m.step? i = some m' ∧ Stepped m i t (t.dispatch m.world i pending op) m' := by
  apply stepped_of_task ht
  simp [Task.step?, hp, hc]

/-- A task whose program has ended lets the machine finish it. -/
theorem stepped_finish {c : Cursor} {result : Except Fault Dyn} (ht : m.tasks[i]? = some t)
    (hp : t.phase = .running c) (hc : c.advance = .finished result) :
    ∃ m', m.step? i = some m' ∧ Stepped m i t (t.finish m.world result) m' := by
  apply stepped_of_task ht
  simp [Task.step?, hp, hc]

theorem step?_stepped (h : m.step? i = some m') :
    ∃ t e, t.step? m.world i = some e ∧ Stepped m i t e m' := by
  cases ht : m.tasks[i]? with
  | none => simp [step?, ht] at h
  | some t =>
    cases he : t.step? m.world i with
    | none => simp [step?, ht, he] at h
    | some e =>
      obtain ⟨m₁, hm, hs⟩ := stepped_of_task ht he
      cases h.symm.trans hm
      exact ⟨t, e, he, hs⟩

namespace Stepped

theorem lt (h : Stepped m i t e m') : i < m.tasks.size :=
  (Array.getElem?_eq_some_iff.mp h.task).1

theorem self (h : Stepped m i t e m') : m'.tasks[i]? = some e.task := by
  rw [← Array.getElem?_toList, h.tasks, List.getElem?_append_left (by simpa using h.lt)]
  simp [h.lt]

theorem size (h : Stepped m i t e m') : m'.tasks.size = m.tasks.size + e.launched.length := by
  have := congrArg List.length h.tasks
  simpa using this

/-- A task is as before unless it is the one that steps. -/
theorem other (h : Stepped m i t e m') (hj : j ≠ i) (hu : m.tasks[j]? = some u) :
    m'.tasks[j]? = some u := by
  have hlt := (Array.getElem?_eq_some_iff.mp hu).1
  rw [← Array.getElem?_toList, h.tasks, List.getElem?_append_left (by simpa using hlt),
    List.getElem?_set_ne hj.symm, Array.getElem?_toList, hu]

theorem added (h : Stepped m i t e m') {k : Nat} (hu : e.launched[k]? = some u) :
    m'.tasks[m.tasks.size + k]? = some u := by
  rw [← Array.getElem?_toList, h.tasks, List.getElem?_append_right (by simp)]
  simpa using hu

/-- Every task afterwards is the one that stepped, another one from before, or a launched one. -/
theorem cases (h : Stepped m i t e m') (hu : m'.tasks[j]? = some u) :
    (j = i ∧ u = e.task) ∨ (j ≠ i ∧ m.tasks[j]? = some u) ∨
      ∃ k, j = m.tasks.size + k ∧ e.launched[k]? = some u := by
  rw [← Array.getElem?_toList, h.tasks] at hu
  by_cases hlt : j < m.tasks.size
  · rw [List.getElem?_append_left (by simpa using hlt)] at hu
    by_cases hj : j = i
    · subst hj
      left
      exact ⟨rfl, by simpa [hlt] using hu.symm⟩
    · rw [List.getElem?_set_ne (Ne.symm hj), Array.getElem?_toList] at hu
      exact .inr (.inl ⟨hj, hu⟩)
  · rw [List.getElem?_append_right (by simpa using hlt)] at hu
    right; right
    exact ⟨j - m.tasks.size, by omega, by simpa using hu⟩

end Stepped

/-- The task with which the host starts a program. -/
def runner (r : Runner) (program : Program) (container : Nat) : Task :=
  ⟨.run, Span.run r.config.name, container, [], .running (.new program)⟩

/-- No task steps: the clock may move on, and the host may start a program. -/
structure Idled (m : Machine r) (a : Happening) (added : List Task) (m' : Machine r) : Prop where
  now : m.world.now ≤ m'.world.now
  cells : m'.world.cells = m.world.cells
  races : m'.world.races = m.world.races
  tasks : m'.tasks.toList = m.tasks.toList ++ added
  programs : ∀ u ∈ added, ∃ p container, a = .launch p container ∧ u = runner r p container

namespace Idled
variable {a : Happening} {added : List Task}

theorem keeps (h : Idled m a added m') (hu : m.tasks[j]? = some u) : m'.tasks[j]? = some u := by
  have hlt := (Array.getElem?_eq_some_iff.mp hu).1
  rw [← Array.getElem?_toList, h.tasks, List.getElem?_append_left (by simpa using hlt),
    Array.getElem?_toList, hu]

theorem cases (h : Idled m a added m') (hu : m'.tasks[j]? = some u) :
    m.tasks[j]? = some u ∨ m.tasks.size ≤ j ∧ u ∈ added := by
  rw [← Array.getElem?_toList, h.tasks] at hu
  by_cases hlt : j < m.tasks.size
  · rw [List.getElem?_append_left (by simpa using hlt), Array.getElem?_toList] at hu
    exact .inl hu
  · rw [List.getElem?_append_right (by simpa using hlt)] at hu
    exact .inr ⟨by omega, List.mem_of_getElem? hu⟩

end Idled

theorem idled_of_tasks_eq {a : Happening} (hn : m.world.now ≤ m'.world.now)
    (hc : m'.world.cells = m.world.cells) (hr : m'.world.races = m.world.races)
    (ht : m'.tasks = m.tasks) : Idled m a [] m' :=
  ⟨hn, hc, hr, by simp [ht], by simp⟩

/-- What one happening does to the machine. -/
inductive Change (m : Machine r) : Happening → Machine r → Prop
  | step {i : Nat} {t : Task} {e : Effect r} {m' : Machine r} (h : Stepped m i t e m') :
    Change m (.move (.step i)) m'
  | idle {a : Happening} {added : List Task} {m' : Machine r} (ha : ∀ i, a ≠ .move (.step i))
    (h : Idled m a added m') : Change m a m'

/-- The earlier of a time found so far and the time for which a task sleeps, if that is to come. -/
def earlier (now : Nat) (best : Option Nat) (t : Task) : Option Nat :=
  match dueOf t with
  | none => best
  | some due => if due ≤ now then best else some (best.elim due (min due))

theorem nextDue_eq (m : Machine r) :
    m.nextDue = m.tasks.toList.foldl (earlier m.world.now) none := by
  rw [Array.foldl_toList]
  rfl

theorem foldl_earlier_gt {now due : Nat} {ts : List Task} {best : Option Nat}
    (hb : ∀ d, best = some d → now < d) (h : ts.foldl (earlier now) best = some due) :
    now < due := by
  induction ts generalizing best with
  | nil => exact hb due h
  | cons t ts ih =>
    rw [List.foldl_cons] at h
    refine ih ?_ h
    intro d hd
    unfold earlier at hd
    split at hd
    · exact hb d hd
    · split at hd
      · exact hb d hd
      next hlt =>
        cases hd
        cases best with
        | none => simpa using hlt
        | some b =>
          have := hb b rfl
          simp only [Option.elim]
          omega

/-- The next time for which a task sleeps is to come. -/
theorem now_lt_nextDue {due : Nat} (h : m.nextDue = some due) : m.world.now < due := by
  rw [nextDue_eq] at h
  exact foldl_earlier_gt (by simp) h

theorem foldl_earlier_none {now : Nat} {ts : List Task} {best : Option Nat}
    (h : ts.foldl (earlier now) best = none) :
    best = none ∧ ∀ t ∈ ts, ∀ due, dueOf t = some due → due ≤ now := by
  induction ts generalizing best with
  | nil => exact ⟨h, by simp⟩
  | cons t ts ih =>
    obtain ⟨hb, hts⟩ := ih h
    unfold earlier at hb
    split at hb
    next ht =>
      refine ⟨hb, ?_⟩
      intro u hu due hd
      rcases List.mem_cons.mp hu with rfl | hu
      · simp [ht] at hd
      · exact hts u hu due hd
    next d ht =>
      split at hb
      next hle =>
        refine ⟨hb, ?_⟩
        intro u hu due hd
        rcases List.mem_cons.mp hu with rfl | hu
        · rw [ht] at hd
          cases hd
          exact hle
        · exact hts u hu due hd
      next => cases hb

/-- If no timer is left, nobody sleeps for a time to come. -/
theorem due_le_now_of_nextDue_eq_none (h : m.nextDue = none) (ht : m.tasks[i]? = some t) {due : Nat}
    (hd : dueOf t = some due) : due ≤ m.world.now := by
  rw [nextDue_eq] at h
  exact (foldl_earlier_none h).2 t (Array.mem_toList_iff.mpr (Array.mem_of_getElem? ht)) due hd

/-- Of the times that are to come, the earlier one is kept. -/
theorem earlier_eq_some {now d : Nat} {best : Option Nat} (h : earlier now best t = some d) :
    (best = some d ∨ dueOf t = some d) ∧ (∀ b, best = some b → d ≤ b) ∧
      ∀ due, dueOf t = some due → now < due → d ≤ due := by
  unfold earlier at h
  split at h
  next ht => grind
  next due ht =>
    split at h
    · grind
    · cases best with
      | none => grind
      | some b =>
        simp only [Option.elim, Option.some.injEq] at h
        grind

theorem foldl_earlier_some {now due : Nat} {ts : List Task} {best : Option Nat}
    (h : ts.foldl (earlier now) best = some due) :
    (best = some due ∨ ∃ t ∈ ts, dueOf t = some due) ∧
    (∀ b, best = some b → due ≤ b) ∧
      ∀ t ∈ ts, ∀ d, dueOf t = some d → now < d → due ≤ d := by
  induction ts generalizing best with
  | nil =>
    refine ⟨.inl h, ?_, by simp⟩
    intro b hb
    cases h.symm.trans hb
    exact Nat.le_refl _
  | cons t ts ih =>
    rw [List.foldl_cons] at h
    obtain ⟨hmem, hbest, hts⟩ := ih h
    have hcons : (∃ u ∈ ts, dueOf u = some due) → ∃ u ∈ t :: ts, dueOf u = some due :=
      fun ⟨u, hu, hd⟩ => ⟨u, List.mem_cons_of_mem t hu, hd⟩
    cases he : earlier now best t with
    | none =>
      have hnone : [t].foldl (earlier now) best = none := he
      obtain ⟨rfl, hdue⟩ := foldl_earlier_none hnone
      refine ⟨.inr (hcons (hmem.resolve_left (by simp [he]))), nofun,
        List.forall_mem_cons.mpr ⟨?_, hts⟩⟩
      intro d hd hlt
      have hle := hdue t (List.mem_singleton.mpr rfl) d hd
      omega
    | some d =>
      obtain ⟨hd, hb, hdue⟩ := earlier_eq_some he
      have hle := hbest d he
      refine ⟨?_, fun b hb' => Nat.le_trans hle (hb b hb'),
        List.forall_mem_cons.mpr ⟨fun d' hd' hlt => Nat.le_trans hle (hdue d' hd' hlt), hts⟩⟩
      obtain heq | hmem := hmem
      · cases he.symm.trans heq
        exact hd.imp_right fun hd => ⟨t, List.mem_cons_self, hd⟩
      · exact .inr (hcons hmem)

/-- The clock moves on to the time of a task, which is no later than that of any other. -/
theorem nextDue_eq_some_iff {due : Nat} : m.nextDue = some due ↔ m.world.now < due ∧
    (∃ t ∈ m.tasks.toList, dueOf t = some due) ∧
      ∀ t ∈ m.tasks.toList, ∀ d, dueOf t = some d → m.world.now < d → due ≤ d := by
  constructor
  · intro h
    have hlt := now_lt_nextDue h
    rw [nextDue_eq] at h
    obtain ⟨hmem, -, hmin⟩ := foldl_earlier_some h
    exact ⟨hlt, hmem.resolve_left nofun, hmin⟩
  · rintro ⟨hlt, ⟨t, ht, hd⟩, hmin⟩
    cases hn : m.nextDue with
    | none =>
      obtain ⟨i, hi⟩ := List.mem_iff_getElem?.mp ht
      rw [Array.getElem?_toList] at hi
      have hle := due_le_now_of_nextDue_eq_none hn hi hd
      omega
    | some d =>
      have hlt' := now_lt_nextDue hn
      rw [nextDue_eq] at hn
      obtain ⟨hmem, -, hmin'⟩ := foldl_earlier_some hn
      obtain ⟨u, hu, hd'⟩ := hmem.resolve_left nofun
      have := hmin u hu d hd' hlt'
      have := hmin' t ht due hd hlt
      exact congrArg some (by omega)

theorem isQuiet_iff : m.isQuiet = true ↔ ∀ i, m.step? i = none := by
  constructor
  · intro h i
    by_cases hlt : i < m.tasks.size
    · have := List.all_eq_true.mp h i (List.mem_range.mpr hlt)
      simpa using this
    · simp [step?, Array.getElem?_eq_none (Nat.le_of_not_lt hlt)]
  · intro h
    simp [isQuiet, h]

/-- Nothing moves exactly if no task can step and no timer is left. -/
theorem move?_eq_none_iff :
    (∀ a, m.move? a = none) ↔ (∀ i, m.step? i = none) ∧ m.nextDue = none := by
  constructor
  · intro h
    have hstep (i : Nat) : m.step? i = none := h (.step i)
    refine ⟨hstep, ?_⟩
    have htick := h .tick
    simpa [move?, isQuiet_iff.mpr hstep, tick?] using htick
  · rintro ⟨hstep, hdue⟩ a
    cases a with
    | step i => exact hstep i
    | tick => simp [move?, tick?, hdue]

/-- The clock moves when no task can step, to the next time for which one sleeps. -/
theorem of_tick (h : m.move? .tick = some m') : m.isQuiet = true ∧
    ∃ due, m.nextDue = some due ∧ m' = { m with world := { m.world with now := due } } := by
  simp only [move?] at h
  split at h
  next hq =>
    obtain ⟨due, hd, rfl⟩ := Option.map_eq_some_iff.mp h
    exact ⟨hq, due, hd, rfl⟩
  next => cases h

theorem happen?_change {a : Happening} (h : m.happen? a = some m') : Change m a m' := by
  cases a with
  | move a =>
    cases a with
    | step i =>
      obtain ⟨t, e, -, hs⟩ := step?_stepped h
      exact .step hs
    | tick =>
      obtain ⟨-, due, hd, rfl⟩ := of_tick h
      exact .idle nofun (idled_of_tasks_eq (Nat.le_of_lt (now_lt_nextDue hd)) rfl rfl rfl)
  | launch p container =>
    cases h
    have h : Idled m (.launch p container) [runner r p container] (m.launch p container).1 := by
      refine ⟨Nat.le_refl _, rfl, rfl, by simp [launch, runner], ?_⟩
      intro u hu
      exact ⟨p, container, rfl, by simpa using hu⟩
    exact .idle nofun h
  | supply c =>
    cases h
    exact .idle nofun (idled_of_tasks_eq (Nat.le_refl _) rfl rfl rfl)

/-- What is not a step of the task itself leaves it as it is. -/
theorem task_kept {a : Happening} (ha : m.happen? a = some m') (ht : m.tasks[j]? = some t)
    (hne : a ≠ .move (.step j)) : m'.tasks[j]? = some t := by
  cases happen?_change ha with
  | @step i _ _ _ hs =>
    apply hs.other _ ht
    rintro rfl
    exact hne rfl
  | idle _ hi => exact hi.keeps ht

/-- Nothing but a task's own step changes it: in a run it stays as it
is, or the run contains the step. -/
theorem Run.task_cases {as : List Happening} (h : Run m as m') (ht : m.tasks[j]? = some t) :
    m'.tasks[j]? = some t ∨
      ∃ before after m₁ m₂, as = before ++ .move (.step j) :: after ∧ Run m before m₁ ∧
        m₁.tasks[j]? = some t ∧ m₁.step? j = some m₂ ∧ Run m₂ after m' := by
  induction h with
  | refl => exact .inl ht
  | @step m m₁ m' a as ha hr ih =>
    by_cases hj : a = .move (.step j)
    · subst hj
      exact .inr ⟨[], as, m, m₁, rfl, .refl, ht, ha, hr⟩
    · obtain h | ⟨before, after, m₂, m₃, rfl, hb, h₂, h₃, h₄⟩ :=
        ih (task_kept ha ht hj)
      · exact .inl h
      · exact .inr ⟨a :: before, after, m₂, m₃, rfl, .step ha hb, h₂, h₃, h₄⟩

/-- What holds initially and along every change of a reachable
machine holds of every reachable one. -/
theorem Reachable.invariant {P : Machine r → Prop} (hm : m.Reachable)
    (init : ∀ m, Initial m → P m)
    (step : ∀ m a m', m.Reachable → Change m a m' → P m → P m') :
    P m := by
  obtain ⟨m₀, as, hi, hr⟩ := hm
  have h := init m₀ hi
  have hm : m₀.Reachable := ⟨m₀, [], hi, .refl⟩
  clear hi
  induction hr with
  | refl => exact h
  | step ha _ ih => exact ih (step _ _ _ hm (happen?_change ha) h) (hm.run (.single ha))

end Machine

end Workflow
