import Workflow.Bench
import Workflow.Program.Flow
import Workflow.Proofs.Machine.Parting
import Workflow.Proofs.Session

/-! Ends that nobody observes.

However a forked program ends, if nobody looks into its cell, and however a branch ends, if its race
is decided by then, no other task can tell. -/
namespace Workflow

variable {r : Runner}

/-- The operations launch the same programs, but at place `k` the
one launches `p` and the other `p'`. -/
inductive Operation.Relaunches (k : Nat) (p p' : Program) :
    Operation Program → Operation Program → Prop
  | fork (hk : k = 0) : Relaunches k p p' (.fork p) (.fork p')
  | race {ps : List Program} (hk : ps[k]? = some p) :
    Relaunches k p p' (.race ps) (.race (ps.set k p'))

namespace Task
variable {k : Nat} {p p' : Program} {ps : List Program} {op op' : Operation Program}

theorem branches_set (t : Task) (race : Nat) (hk : ps[k]? = some p) (p' : Program) :
    ∃ role span, (t.branches race 0 ps)[k]? = some (t.child role span p) ∧
      t.branches race 0 (ps.set k p') = (t.branches race 0 ps).set k (t.child role span p') := by
  have hget := t.branches_getElem? race 0 ps k
  rw [hk, Option.map_some] at hget
  refine ⟨_, _, hget, ?_⟩
  apply List.ext_getElem?
  intro n
  have hlt := (List.getElem?_eq_some_iff.mp hk).1
  have hlt' := (List.getElem?_eq_some_iff.mp hget).1
  rw [List.getElem?_set, branches_getElem?, List.getElem?_set]
  by_cases hn : k = n
  · subst hn
    simp only [if_true, hlt, hlt', Option.map_some]
  · simp only [if_neg hn, branches_getElem?]

/-- To launch another program is to put it into the task that is launched. -/
theorem dispatch_relaunches (h : op.Relaunches k p p' op') (t : Task) (phase : Phase) (w : World r)
    (self : Nat) (pending : List Continuation) :
    ∃ role span, (t.dispatch w self pending op).launched[k]? = some (t.child role span p) ∧
      { t with phase := phase }.dispatch w self pending op' =
        ⟨(t.dispatch w self pending op).world, (t.dispatch w self pending op).task,
          (t.dispatch w self pending op).launched.set k (t.child role span p')⟩ := by
  cases h with
  | fork hk =>
    subst hk
    exact ⟨_, _, rfl, rfl⟩
  | @race ps hk =>
    have hlt := (List.getElem?_eq_some_iff.mp hk).1
    have hps : ps ≠ [] := by
      rintro rfl
      cases hk
    have hps' : ps.set k p' ≠ [] := by
      simpa using hps
    obtain ⟨role, span, hget, hset⟩ := t.branches_set w.races.size hk p'
    refine ⟨role, span, ?_, ?_⟩
    · rw [dispatch_race hps]
      exact hget
    · rw [dispatch_race hps, dispatch_race hps', branches_phase, hset, List.length_set]
      rfl

end Task

namespace Machine

section
variable (m : Machine r) (race : Nat)

/-- Nobody waits for the race. -/
def IsLeft : Prop :=
  ∀ (i : Nat) (t : Task) (pending : List Continuation), m.tasks[i]? = some t →
    t.phase ≠ .racing race pending

/-- The race is decided: nobody waits for it any more, or a success has arrived. -/
def IsDecided : Prop :=
  m.IsLeft race ∨
    ∃ x, m.world.races[race]? = some x ∧ ∃ a ∈ x.arrivals, ∃ v, a.ending = .value v

end

/-- A run in which task `j`, when its program has come to its end, ends as `ending` says instead. -/
inductive RunEnding (j : Nat) (ending : Except Fault Dyn → Verdict Dyn) :
    Machine r → List Happening → Machine r → Prop
  | refl {m : Machine r} : RunEnding j ending m [] m
  | step {m m' m'' : Machine r} {a : Happening} {as : List Happening} (h : m.happen? a = some m')
    (hn : a = .move (.step j) → m.completion? j = none) (rest : RunEnding j ending m' as m'') :
    RunEnding j ending m (a :: as) m''
  | ends {m m' : Machine r} {result : Except Fault Dyn} {as : List Happening}
    (h : m.completion? j = some result)
    (rest : RunEnding j ending (m.ended j (ending result)) as m') :
    RunEnding j ending m (.move (.step j) :: as) m'

/-- Nobody observes in such a run how task `j` ends: if it was forked, nobody looks into its cell,
and if it is a branch, its race is decided by the time at which its program is completed. -/
def Unobserved (m : Machine r) (j : Nat) (ending : Except Fault Dyn → Verdict Dyn)
    (as : List Happening) : Role → Prop
  | .fork handle => ∀ before a after m', as = before ++ a :: after →
      RunEnding j ending m before m' → m'.note? Task.reads? a ≠ some handle
  | .branch race _ => ∀ before after m', as = before ++ .move (.step j) :: after →
      RunEnding j ending m before m' → (m'.completion? j).isSome → m'.IsDecided race
  | _ => False

/-- The machines are the same but for task `j`, its cell or its
race, and the record of what happened. -/
structure SameBut (j : Nat) (m m' : Machine r) : Prop where
  tasks : ∀ i, i ≠ j → m'.tasks[i]? = m.tasks[i]?
  now : m'.world.now = m.world.now
  containers : m'.world.containers = m.world.containers
  ui : m'.world.ui = m.world.ui
  api : m'.world.api = m.world.api
  permissions : m'.world.permissions = m.world.permissions
  storage : m'.world.storage = m.world.storage
  calls : m'.world.calls = m.world.calls

section
variable {l : Likeness} {S : Task → Task → Prop} {m m' m'' : Machine r} {j : Nat}

theorem SameBut.symm (h : m.SameBut j m') : m'.SameBut j m :=
  ⟨fun i hi => (h.tasks i hi).symm, h.now.symm, h.containers.symm, h.ui.symm, h.api.symm,
    h.permissions.symm, h.storage.symm, h.calls.symm⟩

theorem SameBut.trans (h : m.SameBut j m') (h' : m'.SameBut j m'') : m.SameBut j m'' :=
  ⟨fun i hi => (h'.tasks i hi).trans (h.tasks i hi), h'.now.trans h.now,
    h'.containers.trans h.containers, h'.ui.trans h.ui, h'.api.trans h.api,
    h'.permissions.trans h.permissions, h'.storage.trans h.storage, h'.calls.trans h.calls⟩

/-- The other tasks note the same. -/
theorem SameBut.note?_eq {α : Type} (h : m.SameBut j m') (f : Task → Option α) {a : Happening}
    (ha : a ≠ .move (.step j)) : m'.note? f a = m.note? f a := by
  rcases step_or_idle a with ⟨i, rfl⟩ | hidle
  · have hi : i ≠ j := fun hij => ha (congrArg (Happening.move <| .step ·) hij)
    rw [note?, note?, h.tasks i hi]
  · rw [note?_of_ne hidle, note?_of_ne hidle]

theorem Beside.sameBut (h : m.Beside l j S m') : m.SameBut j m' := by
  have hground := h.alike.ground
  have hscene := h.scene
  refine ⟨?_, hground.now, hground.containers, congrArg Scene.ui hscene,
    congrArg Scene.api hscene, congrArg Scene.permissions hscene, congrArg Scene.storage hscene,
    hground.calls⟩
  intro i hi
  have hsize := h.alike.tasks.size
  by_cases hlt : i < m.tasks.size
  · have hget := Array.getElem?_eq_getElem hlt
    have hget' := Array.getElem?_eq_getElem (hsize ▸ hlt : i < m'.tasks.size)
    rw [hget, hget', (h.alike.tasks.rel i _ _ hget hget').1 hi]
  · rw [Array.getElem?_eq_none (by omega), Array.getElem?_eq_none (by omega)]

end

/-- Task `j` has ended in both machines, and they are the same but for what nobody observes. -/
inductive Apart (j : Nat) (role : Role) (m m' : Machine r) : Prop
  | settled {handle : Handle} (hr : role = .fork handle)
    (h : m.Beside (.settled handle) j BothEnded m')
  /-- Somebody may still wait for the race, and will come to the success first. -/
  | led {race index : Nat} (hr : role = .branch race index)
    (h : m.Beside (.led race) j BothEnded m')
  | left {race index : Nat} (hr : role = .branch race index)
    (h : m.Beside (.loose race) j BothEnded m') (hl : m.IsLeft race)

section
variable {m m' m₁ : Machine r} {a : Happening} {as : List Happening} {i j race : Nat} {t : Task}
  {handle : Handle}

/-- A cell that is settled in both machines is no reason to wait in either. -/
theorem Beside.ready_settled (h : m.Beside (.settled handle) j BothEnded m') : m.Ready m' := by
  have hground := h.alike.ground
  have hraces : m'.world.races = m.world.races := hground.races.eq
  refine ⟨?_, ?_⟩
  · intro handle'
    rcases hground.cell handle' with heq | ⟨-, hc, hc'⟩
    · rw [heq]
    · rw [hc.isSome_outcome?, hc'.isSome_outcome?]
  · intro k u race pending _ _
    rw [hraces]

/-- Nobody looks into the cell of the handle, so it does not matter how it is settled. -/
theorem Beside.happen_settled (h : m.Beside (.settled handle) j BothEnded m')
    (ha : m.happen? a = some m₁) (hn : m.note? Task.reads? a ≠ some handle) :
    ∃ m₁', m'.happen? a = some m₁' ∧ m₁.Beside (.settled handle) j BothEnded m₁' := by
  have hground := h.alike.ground
  have hraces : m'.world.races = m.world.races := hground.races.eq
  rcases step_or_idle a with ⟨i, rfl⟩ | hidle
  · obtain ⟨t, e, he, hs⟩ := step?_stepped ha
    refine h.step_other (h.ne_of_step ha) hs he (Task.hears_of_scene h.scene ?_ ?_)
    · intro handle' hreads
      rcases hground.cell handle' with heq | ⟨hindex, -⟩
      · exact heq
      · obtain rfl : handle' = handle := by
          obtain ⟨index⟩ := handle'
          obtain ⟨index'⟩ := handle
          exact congrArg Handle.mk hindex
        exact absurd (by simp [note?, hs.task, hreads]) hn
    · intro race pending _
      rw [hraces]
  · exact h.idle_ended h.ready_settled hidle ha

/-- A race is the same in both machines, unless it is the one that may be apart. -/
theorem race_cases {w w' : World r} {Q : Race → Race → Prop}
    {hQ : ∀ x x' a, Q x x' → Q (x.receive a) (x'.receive a)}
    (hg : w.ground.Alike (.parted race Q hQ) w'.ground) (race' : Nat) :
    w'.races[race']? = w.races[race']? ∨ race' = race ∧
      ∃ x x', w.races[race']? = some x ∧ w'.races[race']? = some x' ∧ Q x x' := by
  have hrel := hg.race race'
  revert hrel
  generalize w.races[race']? = x
  generalize w'.races[race']? = x'
  intro hrel
  cases hrel with
  | none => exact .inl rfl
  | some h =>
    rcases h with rfl | ⟨heq, hx⟩
    · exact .inl rfl
    · exact .inr ⟨heq, _, _, rfl, rfl, hx⟩

/-- A race that nobody waits for is waited for by nobody ever after. -/
theorem isLeft_happen (hm : m.Reachable) (hl : m.IsLeft race) (hlt : race < m.world.races.size)
    (ha : m.happen? a = some m₁) : m₁.IsLeft race := by
  intro k u pending hu hp
  cases happen?_change ha with
  | step hs =>
    rcases hs.racing_cases (fit_reachable hm) hu hp with hu | ⟨-, heq, -⟩
    · exact hl k u pending hu hp
    · omega
  | idle _ hi =>
    rcases hi.cases hu with hu | ⟨-, hu⟩
    · exact hl k u pending hu hp
    · obtain ⟨p, container, -, rfl⟩ := hi.programs u hu
      cases hp

/-- In a race that somebody waits for, the same has arrived at both machines. -/
theorem Beside.race_eq (h : m.Beside (.loose race) j BothEnded m') (hl : m.IsLeft race) {k : Nat}
    {u : Task} {race' : Nat} {pending : List Continuation} (hu : m.tasks[k]? = some u)
    (hp : u.phase = .racing race' pending) : m'.world.races[race']? = m.world.races[race']? := by
  rcases race_cases h.alike.ground race' with heq | ⟨rfl, -⟩
  · exact heq
  · exact absurd hp (hl k u pending hu)

theorem Beside.ready_loose (h : m.Beside (.loose race) j BothEnded m') (hl : m.IsLeft race) :
    m.Ready m' := by
  refine ⟨?_, ?_⟩
  · intro handle
    rw [h.cell_eq rfl]
  · intro k u race' pending hu hp
    rw [h.race_eq hl hu hp]

/-- Nobody waits for the race, so it does not matter what has arrived at it. -/
theorem Beside.happen_loose (h : m.Beside (.loose race) j BothEnded m') (hl : m.IsLeft race)
    (ha : m.happen? a = some m₁) :
    ∃ m₁', m'.happen? a = some m₁' ∧ m₁.Beside (.loose race) j BothEnded m₁' := by
  rcases step_or_idle a with ⟨i, rfl⟩ | hidle
  · obtain ⟨t, e, he, hs⟩ := step?_stepped ha
    refine h.step_other (h.ne_of_step ha) hs he (Task.hears_of_scene h.scene ?_ ?_)
    · intro handle _
      exact h.cell_eq rfl handle
    · intro race' pending hp
      exact h.race_eq hl hs.task hp
  · exact h.idle_ended (h.ready_loose hl) hidle ha

theorem isReady_of_led {x x' : Race} (h : x.Led x') : x'.isReady = x.isReady := by
  obtain ⟨front, rest, rest', harrivals, rfl, b, hb, -⟩ := h
  cases front with
  | nil => cases hb
  | cons a front => simp [Race.isReady, harrivals]

theorem Beside.ready_led (h : m.Beside (.led race) j BothEnded m') : m.Ready m' := by
  refine ⟨?_, ?_⟩
  · intro handle
    rw [h.cell_eq rfl]
  · intro k u race' pending _ _
    rcases race_cases h.alike.ground race' with heq | ⟨-, x, x', hx, hx', hled⟩
    · rw [heq]
    · rw [hx, hx', Option.any_some, Option.any_some, isReady_of_led hled]

/-- Who waits for the race comes to the success before it could see what is different, and then
nobody waits for the race any more. -/
theorem Beside.step_racer (hm : m.Reachable) (h : m.Beside (.led race) j BothEnded m')
    {e : Effect r} {pending : List Continuation} {x x' : Race} (hi : i ≠ j)
    (hs : Stepped m i t e m₁) (he : t.step? m.world i = some e)
    (hp : t.phase = .racing race pending) (hx : m.world.races[race]? = some x)
    (hx' : m'.world.races[race]? = some x') (hled : x.Led x') :
    ∃ m₁', m'.step? i = some m₁' ∧ (m₁.Beside (.led race) j BothEnded m₁' ∨
      m₁.Beside (.loose race) j BothEnded m₁' ∧ m₁.IsLeft race) := by
  obtain ⟨t', ht', hrel⟩ := h.task hs.task
  obtain rfl := hrel.1 hi
  obtain ⟨e', he', hcases⟩ := Task.step?_led hp hx hx' hled h.alike.ground he
  have hscene : e'.world.scene = e.world.scene := by
    rw [Task.step?_scene he, Task.step?_scene he', h.scene]
  rcases hcases with halike | ⟨halike, hgone⟩
  · obtain ⟨m₁', hm₁', hbeside⟩ := h.step hs ht' he' halike.ground hscene
      ⟨fun _ => halike.task, fun hij => absurd hij hi⟩ halike.launched
    exact ⟨m₁', hm₁', .inl hbeside⟩
  · have hloose : m.Beside (.loose race) j BothEnded m' :=
      h.mono (fun _ _ _ h => h) fun _ _ _ h => h.imp_right (And.imp_right fun _ => trivial)
    obtain ⟨m₁', hm₁', hbeside⟩ := hloose.step hs ht' he' halike.ground hscene
      ⟨fun _ => halike.task, fun hij => absurd hij hi⟩ halike.launched
    refine ⟨m₁', hm₁', .inr ⟨hbeside, ?_⟩⟩
    intro k u pending' hu hracing
    have hlt := (Array.getElem?_eq_some_iff.mp hx).1
    rcases hs.racing_cases (fit_reachable hm) hu hracing with hold | ⟨-, heq, -⟩
    · obtain rfl := (convened_reachable hm).single k i u t' race pending' pending hold hs.task
        hracing hp
      cases hs.self.symm.trans hu
      exact hgone pending' hracing
    · omega

theorem Beside.happen_led (hm : m.Reachable) (h : m.Beside (.led race) j BothEnded m')
    (ha : m.happen? a = some m₁) :
    ∃ m₁', m'.happen? a = some m₁' ∧ (m₁.Beside (.led race) j BothEnded m₁' ∨
      m₁.Beside (.loose race) j BothEnded m₁' ∧ m₁.IsLeft race) := by
  have hground := h.alike.ground
  rcases step_or_idle a with ⟨i, rfl⟩ | hidle
  · obtain ⟨t, e, he, hs⟩ := step?_stepped ha
    have hne := h.ne_of_step ha
    have hother (heard : ∀ pending, t.phase = .racing race pending →
        m'.world.races[race]? = m.world.races[race]?) :
        ∃ m₁', m'.step? i = some m₁' ∧ m₁.Beside (.led race) j BothEnded m₁' := by
      refine h.step_other hne hs he (Task.hears_of_scene h.scene (fun _ _ => h.cell_eq rfl _) ?_)
      intro race' pending hp
      rcases race_cases hground race' with heq | ⟨rfl, -⟩
      · exact heq
      · exact heard pending hp
    rcases race_cases hground race with heq | ⟨-, x, x', hx, hx', hled⟩
    · obtain ⟨m₁', hm₁', hbeside⟩ := hother fun _ _ => heq
      exact ⟨m₁', hm₁', .inl hbeside⟩
    · by_cases hracing : ∃ pending, t.phase = .racing race pending
      · obtain ⟨pending, hp⟩ := hracing
        exact h.step_racer hm hne hs he hp hx hx' hled
      · obtain ⟨m₁', hm₁', hbeside⟩ :=
          hother fun pending hp => absurd ⟨pending, hp⟩ hracing
        exact ⟨m₁', hm₁', .inl hbeside⟩
  · obtain ⟨m₁', hm₁', hbeside⟩ := h.idle_ended h.ready_led hidle ha
    exact ⟨m₁', hm₁', .inl hbeside⟩

/-- The tasks end, each in its own way, and nobody is going to observe it. -/
theorem Beside.ends {t : Task} {v v' : Verdict Dyn} (h : m.Beside .same j Task.Mimics m')
    (ht : m.tasks[j]? = some t)
    (hrole : (∃ handle, t.role = .fork handle) ∨
      ∃ race index, t.role = .branch race index ∧ m.IsDecided race) :
    (m.ended j v).Apart j t.role (m'.ended j v') := by
  obtain ⟨t', ht', hrel⟩ := h.task ht
  have hrole' := (hrel.2 rfl).role_eq
  rcases hrole with ⟨handle, hr⟩ | ⟨race, index, hr, hdecided⟩
  · refine .settled hr (h.ended ht ht' ?_)
    rw [Task.endBy_ground, Task.endBy_ground, hrole', hr]
    exact h.alike.ground.settle handle v v'
  · rcases hdecided with hleft | ⟨x, hx, hwon⟩
    · refine .left hr (h.ended ht ht' ?_) ?_
      · rw [Task.endBy_ground, Task.endBy_ground, hrole', hr]
        exact h.alike.ground.report fun _ _ => trivial
      · intro k u pending hu hp
        simp only [Machine.ended, ht, Array.set!_eq_setIfInBounds,
          Array.getElem?_setIfInBounds] at hu
        split at hu
        · split at hu <;> cases hu
          rw [Task.endBy_task] at hp
          cases hp
        · exact hleft k u pending hu hp
    · refine .led hr (h.ended ht ht' ?_)
      rw [Task.endBy_ground, Task.endBy_ground, hrole', hr]
      apply h.alike.ground.report
      intro y hy
      cases hx.symm.trans hy
      exact Race.led_receive hwon _ _

theorem beside_self (hj : j < m.tasks.size) : m.Beside .same j Task.Mimics m :=
  ⟨⟨.refl _, .refl (fun _ u => ⟨fun _ => rfl, fun _ => .refl u⟩) _⟩, rfl, hj⟩

namespace Apart
variable {role : Role}

theorem beside (h : m.Apart j role m') : ∃ l, m.Beside l j BothEnded m' := by
  cases h with
  | settled _ h => exact ⟨_, h⟩
  | led _ h => exact ⟨_, h⟩
  | left _ h => exact ⟨_, h⟩

theorem sameBut (h : m.Apart j role m') : m.SameBut j m' := by
  obtain ⟨l, h⟩ := h.beside
  exact h.sameBut

theorem ended (h : m.Apart j role m') : ∃ t', m'.tasks[j]? = some t' ∧ t'.hasEnded = true := by
  obtain ⟨l, h⟩ := h.beside
  obtain ⟨t', ht', hrel⟩ := h.task (Array.getElem?_eq_getElem h.lt)
  exact ⟨t', ht', (hrel.2 rfl).2⟩

theorem ne_of_happen (h : m.Apart j role m') (ha : m'.happen? a = some m₁) :
    a ≠ .move (.step j) := by
  rintro rfl
  obtain ⟨t', ht', hended⟩ := h.ended
  obtain ⟨t, e, -, hs⟩ := step?_stepped ha
  cases hs.task.symm.trans ht'
  cases hs.turn.not_ended.symm.trans hended

/-- The task has ended already, so its program is not completed once more. -/
theorem completion?_eq_none (h : m.Apart j role m') : m'.completion? j = none := by
  obtain ⟨t', ht', hended⟩ := h.ended
  obtain ⟨v, hp⟩ := Task.hasEnded_iff.mp hended
  rw [completion?, ht', Option.bind_some, Option.eq_none_iff_forall_ne_some]
  intro result hresult
  obtain ⟨-, c, hc, -⟩ := Task.completes?_eq_some_iff.mp hresult
  cases hp.symm.trans hc

/-- The same can happen to both machines. -/
theorem isSome_happen? (h : m.Apart j role m') (a : Happening) :
    (m'.happen? a).isSome = (m.happen? a).isSome := by
  cases h with
  | settled _ h => exact h.isSome_happen? h.ready_settled a
  | led _ h => exact h.isSome_happen? h.ready_led a
  | left _ h hl => exact h.isSome_happen? (h.ready_loose hl) a

/-- Whatever happens to the one machine happens to the other, and they stay the same but for what
nobody observes. -/
theorem happen (hm : m.Reachable) (ht : m.tasks[j]? = some t) (h : m.Apart j t.role m')
    (ha : m.happen? a = some m₁)
    (hn : ∀ handle, t.role = .fork handle → m.note? Task.reads? a ≠ some handle) :
    ∃ m₁', m'.happen? a = some m₁' ∧ m₁.Apart j t.role m₁' := by
  cases h with
  | settled hr h =>
    obtain ⟨m₁', hm₁', hbeside⟩ := h.happen_settled ha (hn _ hr)
    exact ⟨m₁', hm₁', .settled hr hbeside⟩
  | led hr h =>
    obtain ⟨m₁', hm₁', hbeside | ⟨hbeside, hleft⟩⟩ := h.happen_led hm ha
    · exact ⟨m₁', hm₁', .led hr hbeside⟩
    · exact ⟨m₁', hm₁', .left hr hbeside hleft⟩
  | @left race index hr h hleft =>
    have hlt : race < m.world.races.size :=
      (ledger_reachable hm).branch j t race ht (Task.isBranch_iff.mpr ⟨index, hr⟩)
    obtain ⟨m₁', hm₁', hbeside⟩ := h.happen_loose hleft ha
    exact ⟨m₁', hm₁', .left hr hbeside (isLeft_happen hm hleft hlt ha)⟩

/-- The other way round. -/
theorem happen_back {m₁' : Machine r} (hm : m.Reachable) (ht : m.tasks[j]? = some t)
    (h : m.Apart j t.role m') (ha : m'.happen? a = some m₁')
    (hn : ∀ handle, t.role = .fork handle → m.note? Task.reads? a ≠ some handle) :
    ∃ m₁, m.happen? a = some m₁ ∧ m₁.Apart j t.role m₁' := by
  obtain ⟨m₁, hm₁⟩ : ∃ m₁, m.happen? a = some m₁ := by
    rw [← Option.isSome_iff_exists, ← h.isSome_happen?, ha, Option.isSome_some]
  obtain ⟨m₂', hm₂', hapart⟩ := h.happen hm ht hm₁ hn
  cases ha.symm.trans hm₂'
  exact ⟨m₁, hm₁, hapart⟩

end Apart

section
variable {ending ending' : Except Fault Dyn → Verdict Dyn} {role : Role}

theorem Unobserved.rest (hu : m.Unobserved j ending (a :: as) role)
    (hstep : ∀ bs m₂, RunEnding j ending m₁ bs m₂ → RunEnding j ending m (a :: bs) m₂) :
    m₁.Unobserved j ending as role := by
  cases role with
  | fork handle =>
    intro before b after m₂ heq hr
    exact hu (a :: before) b after m₂ (congrArg (a :: ·) heq) (hstep _ _ hr)
  | branch race index =>
    intro before after m₂ heq hr
    exact hu (a :: before) after m₂ (congrArg (a :: ·) heq) (hstep _ _ hr)
  | run | background | host => exact hu

theorem Unobserved.unread (hu : m.Unobserved j ending (a :: as) role) (hr : role = .fork handle) :
    m.note? Task.reads? a ≠ some handle := by
  subst hr
  exact hu [] a as m rfl .refl

theorem Unobserved.decided (hu : m.Unobserved j ending (.move (.step j) :: as) role)
    (hc : (m.completion? j).isSome) : (∃ handle, role = .fork handle) ∨
      ∃ race index, role = .branch race index ∧ m.IsDecided race := by
  cases role with
  | fork handle => exact .inl ⟨handle, rfl⟩
  | branch race index => exact .inr ⟨race, index, rfl, hu [] as m rfl .refl hc⟩
  | run | background | host => cases hu

/-- Two machines in which the task has ended otherwise than in a third one go on alike. -/
theorem Apart.run {m₂ n₁ : Machine r} (hm : m.Reachable) (ht : m.tasks[j]? = some t)
    (h₁ : m.Apart j t.role m₁) (h₂ : m.Apart j t.role m₂)
    (hr : RunEnding j ending m₁ as n₁) (hu : m₁.Unobserved j ending as t.role) :
    ∃ n₂, RunEnding j ending' m₂ as n₂ ∧ n₁.SameBut j n₂ := by
  induction hr generalizing m m₂ with
  | refl => exact ⟨m₂, .refl, h₁.sameBut.symm.trans h₂.sameBut⟩
  | @step m₁ m₁' n₁ a as ha hn _ ih =>
    have hne := h₁.ne_of_happen ha
    have hunread : ∀ handle, t.role = .fork handle → m.note? Task.reads? a ≠ some handle := by
      intro handle hrole
      rw [← h₁.sameBut.note?_eq _ hne]
      exact hu.unread hrole
    obtain ⟨m', hm', h₁'⟩ := h₁.happen_back hm ht ha hunread
    obtain ⟨m₂', hm₂', h₂'⟩ := h₂.happen hm ht hm' hunread
    obtain ⟨n₂, hrest, hsame⟩ := ih (hm.run (.single hm')) (task_kept hm' ht hne) h₁' h₂'
      (hu.rest fun _ _ => .step ha hn)
    exact ⟨n₂, .step hm₂' (fun heq => absurd heq hne) hrest, hsame⟩
  | ends hc => cases h₁.completion?_eq_none.symm.trans hc

/-- Until task `j` ends, the machines do the same. -/
theorem Beside.happen_before (h : m.Beside .same j Task.Mimics m') (ha : m.happen? a = some m₁)
    (hn : a = .move (.step j) → m.completion? j = none) :
    ∃ m₁', m'.happen? a = some m₁' ∧ (a = .move (.step j) → m'.completion? j = none) ∧
      m₁.Beside .same j Task.Mimics m₁' := by
  rcases step_or_idle a with ⟨i, rfl⟩ | hidle
  · by_cases hi : i = j
    · subst hi
      obtain ⟨m₁', hm₁', hc, hbeside⟩ := h.step_mimic ha (hn rfl)
      exact ⟨m₁', hm₁', fun _ => hc, hbeside⟩
    · obtain ⟨u, e, he, hs⟩ := step?_stepped ha
      obtain ⟨m₁', hm₁', hbeside⟩ := h.step_other hi hs he (h.hears u)
      refine ⟨m₁', hm₁', ?_, hbeside⟩
      intro heq
      cases heq
      exact absurd rfl hi
  · obtain ⟨m₁', hm₁', hbeside⟩ := h.idle_mimic hidle ha
    exact ⟨m₁', hm₁', fun heq => absurd heq (hidle j), hbeside⟩

theorem Beside.completion? {result : Except Fault Dyn} (h : m.Beside .same j Task.Mimics m')
    (hc : m.completion? j = some result) : ∃ result', m'.completion? j = some result' := by
  obtain ⟨t, ht, hcompletes⟩ := Option.bind_eq_some_iff.mp hc
  obtain ⟨t', ht', hrel⟩ := h.task ht
  rw [Machine.completion?, ht', Option.bind_some, ← Option.isSome_iff_exists,
    (hrel.2 rfl).completes?_isSome, hcompletes, Option.isSome_some]

/-- The machines do the same until the task ends, in each as it may; then they go on alike. -/
theorem Beside.runEnding {mₙ : Machine r} (hm : m.Reachable) (h : m.Beside .same j Task.Mimics m')
    (ht : m.tasks[j]? = some t) (hr : RunEnding j ending m as mₙ)
    (hu : m.Unobserved j ending as t.role) :
    ∃ mₙ', RunEnding j ending' m' as mₙ' ∧ mₙ.SameBut j mₙ' := by
  induction hr generalizing m' t with
  | refl => exact ⟨m', .refl, h.sameBut⟩
  | @step m m₁ mₙ a as ha hn _ ih =>
    obtain ⟨m₁', hm₁', hn', h₁⟩ := h.happen_before ha hn
    obtain ⟨boundaries, phase, ht₁⟩ := same_run (.single ha) ht
    obtain ⟨mₙ', hrest, hsame⟩ :=
      ih (t := { t with boundaries := boundaries, phase := phase })
        (hm.run (.single ha)) h₁ ht₁ (hu.rest fun _ _ => .step ha hn)
    exact ⟨mₙ', .step hm₁' hn' hrest, hsame⟩
  | @ends m mₙ result as hc rest =>
    -- both are apart from the machine on which the task ends as its program says
    have hplain : m.happen? (.move (.step j)) = some (m.ended j (.ofExcept result)) :=
      step?_of_completion? hc
    obtain ⟨result', hc'⟩ := h.completion? hc
    obtain ⟨boundaries, phase, ht₁⟩ := same_run (.single hplain) ht
    have hrole := hu.decided (by simp [hc])
    have h₁ : (m.ended j (.ofExcept result)).Apart j t.role (m.ended j (ending result)) :=
      (beside_self h.lt).ends ht hrole
    have h₂ : (m.ended j (.ofExcept result)).Apart j t.role (m'.ended j (ending' result')) :=
      h.ends ht hrole
    obtain ⟨mₙ', hrest, hsame⟩ :=
      Apart.run (t := { t with boundaries := boundaries, phase := phase })
        (hm.run (.single hplain)) ht₁ h₁ h₂ rest (hu.rest fun _ _ => .ends hc)
    exact ⟨mₙ', .ends hc' hrest, hsame⟩

/-- A run in which the task ends with what its program says is a plain run. -/
theorem runEnding_ofExcept_iff {mₙ : Machine r} :
    RunEnding j Verdict.ofExcept m as mₙ ↔ Run m as mₙ := by
  constructor
  · intro h
    induction h with
    | refl => exact .refl
    | step ha _ _ ih => exact .step ha ih
    | ends hc _ ih => exact .step (step?_of_completion? hc) ih
  · intro h
    induction h with
    | refl => exact .refl
    | @step m m₁ mₙ a as ha _ ih =>
      by_cases hj : a = .move (.step j)
      · subst hj
        cases hc : m.completion? j with
        | none => exact .step ha (fun _ => hc) ih
        | some result =>
          cases ha.symm.trans (step?_of_completion? hc)
          exact .ends hc ih
      · exact .step ha (fun heq => absurd heq hj) ih

/-- The journal of what is read in a plain run tells whether somebody looks into a cell. -/
theorem unobserved_of_journal {mₙ : Machine r} (h : Run m as mₙ)
    (hn : handle ∉ m.journal Task.reads? as) : m.Unobserved j .ofExcept as (.fork handle) := by
  rintro before a after m' rfl hbefore hreads
  have hb := runEnding_ofExcept_iff.mp hbefore
  apply hn
  rw [journal_append hb]
  cases hb.rest h with
  | step ha _ => simp [journal, ha, hreads]

end

theorem beside_set {t' : Task} (ht : m.tasks[j]? = some t) (hmimics : t.Mimics t') :
    m.Beside .same j Task.Mimics { m with tasks := m.tasks.set! j t' } := by
  refine ⟨⟨.refl _, by simp, ?_⟩, rfl, (Array.getElem?_eq_some_iff.mp ht).1⟩
  intro k u u' hu hu'
  simp only [Array.set!_eq_setIfInBounds, Array.getElem?_setIfInBounds] at hu'
  by_cases hk : j = k
  · subst hk
    cases ht.symm.trans hu
    rw [if_pos rfl] at hu'
    split at hu' <;> cases hu'
    exact ⟨fun hne => absurd rfl hne, fun _ => hmimics⟩
  · rw [if_neg hk] at hu'
    cases hu.symm.trans hu'
    exact ⟨fun _ => rfl, fun hkj => absurd hkj.symm hk⟩

/-- The machine on which task `i` goes on at another cursor. -/
def redirect (m : Machine r) (i : Nat) (c : Cursor) : Machine r :=
  { m with tasks := m.tasks.modify i fun t => { t with phase := .running c } }

/-- Where a program is launched, another one in its place is another
one in the task that is launched. -/
theorem relaunch_step {c c' : Cursor} {op op' : Operation Program} {pending : List Continuation}
    {k : Nat} {p p' : Program} (ht : m.tasks[i]? = some t) (hp : t.phase = .running c)
    (hc : c.advance = .execute op pending) (hc' : c'.advance = .execute op' pending)
    (h : op.Relaunches k p p' op') (hs : m.step? i = some m₁) :
    ∃ role span, m₁.tasks[m.tasks.size + k]? = some (t.child role span p) ∧
      (m.redirect i c').step? i =
        some { m₁ with tasks := m₁.tasks.set! (m.tasks.size + k) (t.child role span p') } := by
  obtain ⟨role, span, hget, heq⟩ :=
    Task.dispatch_relaunches h t (.running c') m.world i pending
  obtain ⟨m₂, hm₂, hstepped⟩ := stepped_dispatch ht hp hc
  cases hs.symm.trans hm₂
  refine ⟨role, span, hstepped.added hget, ?_⟩
  have ht' : (m.redirect i c').tasks[i]? = some { t with phase := .running c' } := by
    simp [redirect, Array.getElem?_modify, ht]
  obtain ⟨m₂', hm₂', hstepped'⟩ := stepped_dispatch ht' rfl hc'
  have hredirect : (m.redirect i c').world = m.world := rfl
  rw [hredirect, heq] at hstepped'
  have hworld : m₂'.world = m₁.world := by
    rw [hstepped'.world, hstepped.world]
  have htasks : m₂'.tasks.toList =
      (m₁.tasks.set! (m.tasks.size + k) (t.child role span p')).toList := by
    have hset (u : Task) : (m.redirect i c').tasks.toList.set i u = m.tasks.toList.set i u := by
      apply List.ext_getElem?
      intro n
      simp only [redirect, Array.toList_modify, List.getElem?_set, List.getElem?_modify,
        List.length_modify]
      by_cases hn : i = n
      · simp only [hn, if_true]
      · simp [hn]
    rw [Array.set!_eq_setIfInBounds, Array.toList_setIfInBounds, hstepped.tasks,
      hstepped'.tasks, hset, List.set_append_right _ _ (by simp)]
    simp
  rw [hm₂']
  obtain ⟨w, tasks⟩ := m₂'
  exact congrArg some (congr (congrArg Machine.mk hworld) (Array.toList_inj.mp htasks))

/-- How a task ends stays invisible if nobody observes it: with any other end, or with a program
that differs only in its end, the other tasks, the containers, the collaborators and the calls are
the same. -/
theorem unobserved_end_invisible (hm : m.Reachable) :
    (∀ (j : Nat) as mₙ, RunEnding j Verdict.ofExcept m as mₙ ↔ Run m as mₙ) ∧
    (∀ (j : Nat) (t : Task) ending ending' as mₙ, m.tasks[j]? = some t →
      RunEnding j ending m as mₙ → m.Unobserved j ending as t.role →
      (∃ mₙ', RunEnding j ending' m as mₙ' ∧ mₙ.SameBut j mₙ') ∧
      ∀ t', t.Mimics t' →
        ∃ mₙ', RunEnding j ending' { m with tasks := m.tasks.set! j t' } as mₙ' ∧
          mₙ.SameBut j mₙ') ∧
    (∀ (i : Nat) (t : Task) c c' op op' pending k p p' m₁ ending ending' as mₙ,
      m.tasks[i]? = some t → t.phase = .running c → c.advance = .execute op pending →
      c'.advance = .execute op' pending → op.Relaunches k p p' op' →
      (Cursor.new p).Mimics (.new p') → m.step? i = some m₁ →
      RunEnding (m.tasks.size + k) ending m₁ as mₙ →
      (∀ u, m₁.tasks[m.tasks.size + k]? = some u →
        m₁.Unobserved (m.tasks.size + k) ending as u.role) →
      ∃ mₙ', RunEnding (m.tasks.size + k) ending' (m.redirect i c')
        (.move (.step i) :: as) mₙ' ∧ mₙ.SameBut (m.tasks.size + k) mₙ') := by
  refine ⟨fun j as mₙ => runEnding_ofExcept_iff, ?_, ?_⟩
  · intro j t ending ending' as mₙ ht h hu
    refine ⟨?_, ?_⟩
    · exact (beside_self (Array.getElem?_eq_some_iff.mp ht).1).runEnding hm ht h hu
    · intro t' hmimics
      exact (beside_set ht hmimics).runEnding hm ht h hu
  · intro i t c c' op op' pending k p p' m₁ ending ending' as mₙ ht hp hc hc' hop
      hmimics hs h hu
    obtain ⟨role, span, hlaunched, hs'⟩ := relaunch_step ht hp hc hc' hop hs
    have hchild : (t.child role span p).Mimics (t.child role span p') :=
      .bare (t := t.child role span p) rfl rfl (.running hmimics)
    have hm₁ : m₁.Reachable := hm.run (.single (a := .move (.step i)) hs)
    obtain ⟨mₙ', hr, hsame⟩ :=
      (beside_set hlaunched hchild).runEnding hm₁ hlaunched h (hu _ hlaunched)
    refine ⟨mₙ', .step hs' ?_ hr, hsame⟩
    -- the task that launches is an older one
    intro heq
    have hlt := (Array.getElem?_eq_some_iff.mp ht).1
    cases heq
    omega

end

/-- Something is written, and then the program ends. -/
def scribbling (last : Flow .json) : Flow .json :=
  (Flow.write .ephemeral "sub" "done").andThen fun _ => last

/-- A program is forked and forgotten. -/
def forgetting (last : Flow .json) : Flow .unit :=
  (Flow.fork (scribbling last)).andThen fun _ => Flow.write .ephemeral "main" "done"

/-- Two programs race. -/
def contending : Flow .json :=
  Flow.race [scribbling (.pure (.str "first")), scribbling (.pure (.str "second"))]

/-- A bench on which a program has been launched. -/
def started {a : Kind} (f : Flow a) : Machine (Bench.new.setup .empty []).runner :=
  ((Bench.new.setup .empty []).machine.launch f.program 0).1

theorem started_reachable {a : Kind} (f : Flow a) : (started f).Reachable :=
  ⟨_, [.launch f.program 0], Setup.machine_initial _, .single rfl⟩

/-- A program that is forked and forgotten may fail as well, and the branch that loses may panic as
well; and it may fail instead of panicking. -/
theorem unobserved_end_invisible_forgotten :
    (∃ as m m', Run (started (forgetting (.pure .null))) as m ∧
      Run ((started (forgetting (.pure .null))).redirect 0
        (.new (forgetting (.throw (.explicit "late"))).program)) as m' ∧
      (m.ending? 0).isSome ∧ (m.ending? 1).map (Verdict.map fun _ => ()) = some (.value ()) ∧
      (m'.ending? 1).map (Verdict.map fun _ => ()) = some (.fault (.explicit "late")) ∧
      m.SameBut 1 m') ∧
    (∃ as bs m n n' n'', Run (started contending) as m ∧ Run m bs n ∧
      RunEnding 2 (fun _ => .panic "late") m bs n' ∧
      RunEnding 2 (fun _ => .fault (.explicit "late")) m bs n'' ∧ (m.completion? 2).isSome ∧
      (n.ending? 0).isSome ∧ n.SameBut 2 n' ∧ n'.SameBut 2 n'') := by
  constructor
  · let as : List Happening := [1, 0, 1, 0].map (.move <| .step ·)
    have hend : ((started (forgetting (.pure .null))).follow? (.move (.step 0) :: as)).map (fun m =>
        ((m.ending? 0).isSome, (m.ending? 1).map (Verdict.map fun _ => ()))) =
          some (true, some (.value ())) := by
      decide +kernel
    have hend' : (((started (forgetting (.pure .null))).redirect 0
        (.new (forgetting (.throw (.explicit "late"))).program)).follow?
          (.move (.step 0) :: as)).map
          (fun m => (m.ending? 1).map (Verdict.map fun _ => ())) =
            some (some (.fault (.explicit "late"))) := by
      decide +kernel
    have hreads : (((started (forgetting (.pure .null))).step? 0).map fun m =>
        m.journal Task.reads? as) = some [] := by
      decide +kernel
    obtain ⟨m, hm, heq⟩ := Option.map_eq_some_iff.mp hend
    obtain ⟨n, hn, heq'⟩ := Option.map_eq_some_iff.mp hend'
    obtain ⟨m₁, hm₁, hjournal⟩ := Option.map_eq_some_iff.mp hreads
    obtain ⟨hended, hvalue⟩ := Prod.mk.inj heq
    have hr := run_of_follow? hm
    have hr' := run_of_follow? hn
    have hmimics : (Cursor.new (scribbling (.pure .null)).program).Mimics
        (.new (scribbling (.throw (.explicit "late"))).program) :=
      Flow.mimics_andThen _ (fun _ => rfl) fun _ => rfl
    have hfirst : Run (started (forgetting (.pure .null))) [.move (.step 0)] m₁ := .single hm₁
    have hrest : Run m₁ as m := hfirst.rest hr
    have hunread : ∀ u, m₁.tasks[1]? = some u → m₁.Unobserved 1 .ofExcept as u.role := by
      intro u hu
      obtain ⟨m₂, hm₂, hs⟩ :=
        stepped_dispatch (m := started (forgetting (.pure .null))) (i := 0) rfl rfl rfl
      cases hm₁.symm.trans hm₂
      cases hu.symm.trans (hs.added (k := 0) rfl)
      exact unobserved_of_journal hrest (by simp [hjournal])
    obtain ⟨-, -, hrelaunch⟩ :=
      unobserved_end_invisible (started_reachable (forgetting (.pure .null)))
    obtain ⟨m', hrun, hsame⟩ := hrelaunch 0 _ _
      (.new (forgetting (.throw (.explicit "late"))).program) _ _ _ 0 _ _ m₁ .ofExcept .ofExcept
      as m rfl rfl rfl rfl (.fork rfl) hmimics hm₁ (runEnding_ofExcept_iff.mpr hrest) hunread
    have hrun' := runEnding_ofExcept_iff.mp hrun
    rw [← List.append_nil (Happening.move (.step 0) :: as)] at hrun'
    cases hr'.rest hrun'
    exact ⟨_, m, n, hr, hr', hended, hvalue, heq', hsame⟩
  · let as : List Happening := [0, 1, 1, 2].map (.move <| .step ·)
    let bs : List Happening := [2, 0, 0].map (.move <| .step ·)
    have hend : ((started contending).follow? as).bind (fun m => (m.follow? bs).map fun n =>
        ((m.completion? 2).isSome, m.tasks[2]?.any (·.isBranch 0), m.world.races[0]?.any
          (·.arrivals.any fun a => a.ending.map (fun _ => ()) = .value ()),
            (n.ending? 0).isSome)) =
        some (true, true, true, true) := by
      decide +kernel
    obtain ⟨m, hm, hend⟩ := Option.bind_eq_some_iff.mp hend
    obtain ⟨n, hn, heq⟩ := Option.map_eq_some_iff.mp hend
    obtain ⟨hcompletes, hbranch, hwon, hended⟩ : (m.completion? 2).isSome = true ∧
        m.tasks[2]?.any (·.isBranch 0) = true ∧ m.world.races[0]?.any
          (·.arrivals.any fun a => a.ending.map (fun _ => ()) = .value ()) = true ∧
        (n.ending? 0).isSome = true := by
      simpa only [Prod.mk.injEq] using heq
    have hr := run_of_follow? hm
    have hdecided : m.IsDecided 0 := by
      obtain ⟨x, hx, harrivals⟩ := (Option.any_eq_true _ _).mp hwon
      obtain ⟨a, ha, hvalue⟩ := List.any_eq_true.mp harrivals
      cases hv : a.ending with
      | value v => exact .inr ⟨x, hx, a, ha, v, hv⟩
      | fault | panic => simp [hv, Verdict.map] at hvalue
    obtain ⟨t, ht, hrole⟩ := (Option.any_eq_true _ _).mp hbranch
    obtain ⟨index, hrole⟩ := Task.isBranch_iff.mp hrole
    have hlate (ending : Except Fault Dyn → Verdict Dyn) : m.Unobserved 2 ending bs t.role := by
      rw [hrole]
      intro before after m' hsplit hbefore _
      cases before with
      | nil =>
        cases hbefore
        exact hdecided
      | cons a before =>
        -- the loser steps but once
        have hrest : before ++ .move (.step 2) :: after = [.move (.step 0), .move (.step 0)] :=
          (List.cons.inj hsplit).2.symm
        have hmem : Happening.move (.step 2) ∈ [Happening.move (.step 0), .move (.step 0)] := by
          rw [← hrest]
          simp
        simp at hmem
    have hr' := run_of_follow? hn
    obtain ⟨-, hinvisible, -⟩ :=
      unobserved_end_invisible ((started_reachable contending).run hr)
    obtain ⟨⟨n', hpanics, hsame⟩, -⟩ :=
      hinvisible 2 t .ofExcept (fun _ => .panic "late") bs n ht
        (runEnding_ofExcept_iff.mpr hr') (hlate _)
    obtain ⟨⟨n'', hfails, hsame'⟩, -⟩ :=
      hinvisible 2 t _ (fun _ => .fault (.explicit "late")) bs n' ht hpanics (hlate _)
    exact ⟨as, bs, m, n, n', n'', hr, hr', hpanics, hfails, hcompletes, hended, hsame, hsame'⟩

end Machine

end Workflow
