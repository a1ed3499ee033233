import Workflow.Proofs.Machine.Commit
import Workflow.Proofs.Machine.Handle
import Workflow.Proofs.Machine.Lockstep
import Workflow.Proofs.Machine.Mimic
import Workflow.Proofs.Machine.Racer

/-! Two runs that part at the end of one task.

When a forked program ends in different ways, only its cell is different, and all that can
be told apart is what the cell says to those who look into it. When a branch ends in
different ways after its race was decided, only what has arrived behind the winner is
different, and nobody gets to see that. -/
namespace Workflow

variable {r : Runner}

namespace Cell

/-- No result can come any more. -/
def IsSettled (c : Cell) : Prop := c.status ≠ .pending

variable {c : Cell}

theorem isSettled_fill (result : Except Fault Json) (c : Cell) : (c.fill result).IsSettled := by
  simp [IsSettled, status, fill, write, abandon]

theorem isSettled_abandon (c : Cell) : c.abandon.IsSettled := by
  obtain ⟨value, held⟩ := c
  cases value <;> simp [IsSettled, status, abandon]

theorem IsSettled.isSome_outcome? (h : c.IsSettled) (handle : Handle) :
    (c.outcome? handle).isSome = true := by
  obtain ⟨value, held⟩ := c
  cases value with
  | some result => rfl
  | none =>
    cases held with
    | true => exact absurd rfl h
    | false => rfl

end Cell

/-- However a forked program ends, its cell is settled. -/
theorem Verdict.isSettled_settle (v : Verdict Dyn) (c : Cell) : (v.settle c).IsSettled := by
  cases v with
  | value d => exact Cell.isSettled_fill _ c
  | fault e => exact Cell.isSettled_fill _ c
  | panic message => exact Cell.isSettled_abandon c

/-- The same has arrived at both up to a success, and perhaps something else behind it. -/
def Race.Led (x x' : Race) : Prop :=
  ∃ front rest rest', x.arrivals = front ++ rest ∧
    x' = { x with arrivals := front ++ rest' } ∧
    ∃ a ∈ front, ∃ v, a.ending = .value v

theorem Race.Led.receive {x x' : Race} (h : x.Led x') (a : Arrival) :
    (x.receive a).Led (x'.receive a) := by
  obtain ⟨front, rest, rest', harrivals, rfl, hwon⟩ := h
  refine ⟨front, rest ++ [a], rest' ++ [a], ?_, ?_, hwon⟩
  · simp [Race.receive, harrivals]
  · simp [Race.receive]

/-- What arrives behind a success may differ. -/
theorem Race.led_receive {x : Race} (hwon : ∃ a ∈ x.arrivals, ∃ v, a.ending = .value v)
    (a a' : Arrival) : (x.receive a).Led (x.receive a') :=
  ⟨x.arrivals, [a], [a'], rfl, rfl, hwon⟩

namespace Cell

/-- The cells are the same, or at the place of the handle and both settled. -/
def Settles (handle : Handle) (i : Nat) (c c' : Cell) : Prop :=
  c' = c ∨ i = handle.index ∧ c.IsSettled ∧ c'.IsSettled

variable {handle : Handle} {i : Nat} {c c' : Cell}

theorem Settles.fill (h : Settles handle i c c') (result : Except Fault Json) :
    Settles handle i (c.fill result) (c'.fill result) := by
  rcases h with rfl | ⟨hi, -, -⟩
  · exact .inl rfl
  · exact .inr ⟨hi, c.isSettled_fill result, c'.isSettled_fill result⟩

theorem Settles.abandon (h : Settles handle i c c') : Settles handle i c.abandon c'.abandon := by
  rcases h with rfl | ⟨hi, -, -⟩
  · exact .inl rfl
  · exact .inr ⟨hi, c.isSettled_abandon, c'.isSettled_abandon⟩

end Cell

/-- The races are the same, or they are the one race and apart so far. -/
def Race.Parts (race : Nat) (Q : Race → Race → Prop) (i : Nat) (x x' : Race) : Prop :=
  x' = x ∨ i = race ∧ Q x x'

theorem Race.Parts.receive {race i : Nat} {Q : Race → Race → Prop} {x x' : Race}
    (hQ : ∀ x x' a, Q x x' → Q (x.receive a) (x'.receive a)) (h : Parts race Q i x x')
    (a : Arrival) :
    Parts race Q i (x.receive a) (x'.receive a) := by
  rcases h with rfl | ⟨hi, hx⟩
  · exact .inl rfl
  · exact .inr ⟨hi, hQ x x' a hx⟩

namespace Likeness

/-- The cell of the handle may be settled in different ways. -/
def settled (handle : Handle) : Likeness :=
  { same with
    cell := Cell.Settles handle
    cell_refl := fun _ _ => .inl rfl
    fill := fun _ _ _ result h => h.fill result
    abandon := fun _ _ _ h => h.abandon }

/-- The books of one race may be apart so far. -/
def parted (race : Nat) (Q : Race → Race → Prop)
    (hQ : ∀ x x' a, Q x x' → Q (x.receive a) (x'.receive a)) : Likeness :=
  { same with
    race := Race.Parts race Q
    race_refl := fun _ _ => .inl rfl
    receive := fun _ _ _ a h => h.receive hQ a }

/-- The race may have received something else behind a success. -/
def led (race : Nat) : Likeness := parted race Race.Led fun _ _ a h => h.receive a

/-- The race may be in any state. -/
def loose (race : Nat) : Likeness := parted race (fun _ _ => True) fun _ _ _ h => h

end Likeness

/-- The handle into whose cell the next step of the task looks. -/
def Task.reads? (t : Task) : Option Handle :=
  match t.phase with
  | .awaiting handle _ => some handle
  | .running c =>
    match c.advance with
    | .execute (.peek handle) _ => some handle
    | _ => none
  | _ => none

namespace Task
variable {t : Task} {w w' : World r} {self : Nat} {e : Effect r} {pending : List Continuation}

/-- The scene decides what a collaborator answers, so only handles
and races are left to be heard of. -/
theorem hears_of_scene (hs : w'.scene = w.scene)
    (hc : ∀ handle, t.reads? = some handle → w'.cell handle = w.cell handle)
    (hx : ∀ race pending, t.phase = .racing race pending → w'.races[race]? = w.races[race]?) :
    t.Hears w w' := by
  have hreception (call : Call) : (w'.accept t.span call).2 = (w.accept t.span call).2 := by
    rw [World.accept_reception, World.accept_reception, hs]
  have hverdict (call : Call) : (w'.answer t.span call).2 = (w.answer t.span call).2 := by
    rw [World.answer_verdict, World.answer_verdict, hs]
  refine ⟨?_, ?_, ?_, ?_, ?_, ?_, hx⟩
  · intro _ _ _ call _ _ _
    exact hreception call
  · intro _ call _ _
    exact hverdict call
  · intro request _
    rw [hreception]
    exact .refl _
  · intro _ request _ _
    rw [hverdict]
  · intro handle pending hp
    rw [hc handle (by simp [reads?, hp])]
  · intro c handle pending hp hadvance
    rw [hc handle (by simp [reads?, hp, hadvance])]

/-- Who waits for a race sees the same arrival next. Once it is
the success, nobody waits any more. -/
theorem step?_led {race : Nat} {x x' : Race} (hp : t.phase = .racing race pending)
    (hx : w.races[race]? = some x) (hx' : w'.races[race]? = some x') (hled : x.Led x')
    (hg : w.ground.Alike (.led race) w'.ground) (he : t.step? w self = some e) :
    ∃ e', t.step? w' self = some e' ∧ (e.Alike (.led race) e' ∨
      e.Alike (.loose race) e' ∧ ∀ pending, e.task.phase ≠ .racing race pending) := by
  obtain ⟨front, rest, rest', harrivals, rfl, b, hb, v, hv⟩ := hled
  cases front with
  | nil => cases hb
  | cons a front =>
    rw [List.cons_append] at harrivals
    simp only [step?, hp, hx, harrivals, Option.some.injEq] at he
    have he' : t.step? w' self = some (t.judge w' race pending
        { x with arrivals := a :: (front ++ rest') } a (front ++ rest')) := by
      simp only [step?, hp, hx', List.cons_append]
    refine ⟨_, he', ?_⟩
    rw [← he]
    rcases List.mem_cons.mp hb with hwins | hb
    · right
      have hloose : w.ground.Alike (.loose race) w'.ground :=
        hg.mono (fun _ _ _ h => h) fun _ _ _ h => h.imp_right (And.imp_right fun _ => trivial)
      refine ⟨judge_alike hloose race x a _ fun _ => .inr ⟨rfl, trivial⟩, ?_⟩
      intro pending' hracing
      rw [hwins] at hv
      simp only [judge, hv] at hracing
      cases hracing
    · left
      apply judge_alike hg race x a
      intro _
      exact .inr ⟨rfl, front, rest, rest', rfl, rfl, b, hb, v, hv⟩

/-- The task ends with this verdict. -/
def endBy (t : Task) (w : World r) (self : Nat) : Verdict Dyn → Effect r
  | .value d => t.conclude w (.ok d)
  | .fault e => t.conclude w (.error e)
  | .panic message => t.crash w self message

theorem endBy_ofExcept (t : Task) (w : World r) (self : Nat) (result : Except Fault Dyn) :
    t.endBy w self (.ofExcept result) = t.conclude w result := by
  cases result <;> rfl

theorem endBy_task (t : Task) (w : World r) (self : Nat) (v : Verdict Dyn) :
    (t.endBy w self v).task = { t with phase := .ended v } := by
  cases v <;> rfl

theorem endBy_scene (t : Task) (w : World r) (self : Nat) (v : Verdict Dyn) :
    (t.endBy w self v).world.scene = w.scene := by
  cases v with
  | value d => exact conclude_scene t w _
  | fault e => exact conclude_scene t w _
  | panic message => exact crash_scene t w self message

/-- The end of a task reaches its cell or its race and nothing else that is shared. -/
theorem endBy_ground (t : Task) (w : World r) (self : Nat) (v : Verdict Dyn) :
    (t.endBy w self v).world.ground = { w.ground with
      cells := t.role.settle v w.cells
      races := t.role.report self v w.races } := by
  have hconclude (result : Except Fault Dyn) : (t.conclude w result).world.ground = { w.ground with
      cells := t.role.settle (.ofExcept result) w.cells
      races := t.role.report self (.ofExcept result) w.races } := by
    have hcalls : (t.conclude w result).world.calls = w.calls := by
      unfold conclude
      cases t.role with
      | fork handle => cases hv : result >>= Dyn.take .json <;> rfl
      | run => cases result <;> rfl
      | branch | background | host => rfl
    have hcontainers := congrArg Scene.containers (conclude_scene t w result)
    rw [← conclude_cells, ← conclude_races]
    simp only [World.ground, Ground.mk.injEq, true_and]
    exact ⟨conclude_now t w result, hcontainers, hcalls⟩
  cases v with
  | value d => exact hconclude (.ok d)
  | fault e => exact hconclude (.error e)
  | panic message =>
    unfold endBy crash
    cases hr : t.role <;> rfl

end Task

/-- The end of a forked program. -/
theorem Ground.Alike.settle {g g' : Ground} (h : g.Alike .same g') (handle : Handle)
    (v v' : Verdict Dyn) :
    { g with cells := g.cells.modify handle.index v.settle }.Alike (.settled handle)
      { g' with cells := g'.cells.modify handle.index v'.settle } := by
  have hcells : Pointwise (Likeness.settled handle).cell g.cells g'.cells :=
    h.cells.mono fun _ _ _ heq => .inl heq
  refine ⟨h.now, h.containers, h.calls, hcells.modify ?_, h.races⟩
  intro c c' _ _
  exact .inr ⟨rfl, v.isSettled_settle c, v'.isSettled_settle c'⟩

/-- The end of a branch. -/
theorem Ground.Alike.report {g g' : Ground} {race : Nat} {Q : Race → Race → Prop}
    {hQ : ∀ x x' a, Q x x' → Q (x.receive a) (x'.receive a)} (h : g.Alike .same g')
    {a a' : Arrival} (hx : ∀ x, g.races[race]? = some x → Q (x.receive a) (x.receive a')) :
    { g with races := g.races.modify race (.receive a) }.Alike (.parted race Q hQ)
      { g' with races := g'.races.modify race (.receive a') } := by
  have hraces : Pointwise (Likeness.parted race Q hQ).race g.races g'.races :=
    h.races.mono fun _ _ _ heq => .inl heq
  refine ⟨h.now, h.containers, h.calls, h.cells, hraces.modify ?_⟩
  intro x x' hget hget'
  obtain rfl : x' = x := h.races.rel race x x' hget hget'
  exact .inr ⟨rfl, hx x' hget⟩

namespace Machine

/-- The machine after task `j` has ended with this verdict. -/
def ended (m : Machine r) (j : Nat) (v : Verdict Dyn) : Machine r :=
  match m.tasks[j]? with
  | some t => ⟨(t.endBy m.world j v).world, m.tasks.set! j (t.endBy m.world j v).task⟩
  | none => m

/-- The tasks are the same, but task `j` is only related. -/
def ButFor (j : Nat) (S : Task → Task → Prop) (i : Nat) (t t' : Task) : Prop :=
  (i ≠ j → t' = t) ∧ (i = j → S t t')

/-- Both tasks have ended. -/
def BothEnded (t t' : Task) : Prop := t.hasEnded = true ∧ t'.hasEnded = true

/-- The machines stand side by side: their grounds are alike, their scenes the same, and
their tasks the same but for one. -/
structure Beside (l : Likeness) (j : Nat) (S : Task → Task → Prop)
    (m m' : Machine r) : Prop where
  alike : m.Alike l (ButFor j S) m'
  scene : m'.world.scene = m.world.scene
  lt : j < m.tasks.size

section
variable {l : Likeness} {S : Task → Task → Prop} {m m' m₁ : Machine r}
  {a : Happening} {i j : Nat}
  {t t' : Task} {e e' : Effect r}

theorem Beside.task (h : m.Beside l j S m') (ht : m.tasks[i]? = some t) :
    ∃ t', m'.tasks[i]? = some t' ∧ ButFor j S i t t' := by
  have hlt := (Array.getElem?_eq_some_iff.mp ht).1
  have hget := Array.getElem?_eq_getElem (h.alike.tasks.size ▸ hlt : i < m'.tasks.size)
  exact ⟨_, hget, h.alike.tasks.rel i t _ ht hget⟩

theorem Beside.mono {l' : Likeness} (h : m.Beside l j S m')
    (hc : ∀ i c c', l.cell i c c' → l'.cell i c c')
    (hx : ∀ i x x', l.race i x x' → l'.race i x x') :
    m.Beside l' j S m' :=
  ⟨⟨h.alike.ground.mono hc hx, h.alike.tasks⟩, h.scene, h.lt⟩

/-- A task that is launched is the same in both. -/
theorem Beside.fresh (h : m.Beside l j S m') (k : Nat) (u : Task) (hk : m.tasks.size ≤ k) :
    ButFor j S k u u := by
  have hlt := h.lt
  refine ⟨fun _ => rfl, ?_⟩
  intro hkj
  omega

theorem Beside.step (h : m.Beside l j S m') (hs : Stepped m i t e m₁)
    (ht' : m'.tasks[i]? = some t') (he' : t'.step? m'.world i = some e')
    (hg : e.world.ground.Alike l e'.world.ground) (hscene : e'.world.scene = e.world.scene)
    (ht : ButFor j S i e.task e'.task) (hl : e'.launched = e.launched) :
    ∃ m₁', m'.step? i = some m₁' ∧ m₁.Beside l j S m₁' := by
  obtain ⟨m₁', hm₁', hs'⟩ := stepped_of_task ht' he'
  have hlt := h.lt
  have hsize := hs.size
  refine ⟨m₁', hm₁', h.alike.step hs hs' hg ht hl h.fresh, ?_, by omega⟩
  rw [hs.world, hs'.world, hscene]

/-- Another task does the same in both machines if it hears the same. -/
theorem Beside.step_other (h : m.Beside l j S m') (hi : i ≠ j) (hs : Stepped m i t e m₁)
    (he : t.step? m.world i = some e) (hears : t.Hears m.world m'.world) :
    ∃ m₁', m'.step? i = some m₁' ∧ m₁.Beside l j S m₁' := by
  obtain ⟨t', ht', hrel⟩ := h.task hs.task
  obtain rfl := hrel.1 hi
  have hstep : Option.Rel (Effect.Alike l) (t'.step? m.world i) (t'.step? m'.world i) :=
    Task.step?_alike rfl h.alike.ground hears
  obtain ⟨e', he', heffect⟩ := exists_of_rel_some hstep he
  refine h.step hs ht' he' heffect.ground ?_ ⟨fun _ => heffect.task, fun hij => absurd hij hi⟩
    heffect.launched
  rw [Task.step?_scene he, Task.step?_scene he', h.scene]

/-- The clock and the host do the same to both machines. -/
theorem Beside.idle (h : m.Beside l j S m') (hdue : ∀ t t', S t t' → dueOf t' = dueOf t)
    (hstep : ∀ (k : Nat) (u u' : Task), m.tasks[k]? = some u → m'.tasks[k]? = some u' →
      (u'.step? m'.world k).isSome = (u.step? m.world k).isSome)
    (hn : ∀ i, a ≠ .move (.step i)) (ha : m.happen? a = some m₁) :
    ∃ m₁', m'.happen? a = some m₁' ∧ m₁.Beside l j S m₁' := by
  have hdues : ∀ k u u', ButFor j S k u u' → dueOf u' = dueOf u := by
    intro k u u' hu
    by_cases hk : k = j
    · exact hdue u u' (hu.2 hk)
    · rw [hu.1 hk]
  obtain ⟨m₁', hm₁', halike, hrests, hrests'⟩ := h.alike.idle rfl (h.alike.isQuiet hstep)
    (h.alike.nextDue hdues) h.fresh hn ha
  have hsize := size_le_of_happen? ha
  have hlt := h.lt
  refine ⟨m₁', hm₁', halike, ?_, by omega⟩
  have hcontainers : m₁'.world.containers = m₁.world.containers := halike.ground.containers
  have hcalls : m₁'.world.calls = m₁.world.calls := halike.ground.calls
  have hui : m'.world.ui = m.world.ui := congrArg Scene.ui h.scene
  have hapi : m'.world.api = m.world.api := congrArg Scene.api h.scene
  have hpermissions : m'.world.permissions = m.world.permissions :=
    congrArg Scene.permissions h.scene
  have hstorage : m'.world.storage = m.world.storage := congrArg Scene.storage h.scene
  simp only [World.scene, hcontainers, hcalls, hrests.ui, hrests'.ui, hui, hrests.api, hrests'.api,
    hapi, hrests.permissions, hrests'.permissions, hpermissions, hrests.storage, hrests'.storage,
    hstorage]

end

section before
variable {m m' m₁ : Machine r} {a : Happening} {i j : Nat} {t : Task} {result : Except Fault Dyn}

/-- If only what is equal counts as the same cell, the cells are equal. -/
theorem Beside.cell_eq {l : Likeness} {S : Task → Task → Prop} (h : m.Beside l j S m')
    (hl : l.cell = Likeness.same.cell) (handle : Handle) :
    m'.world.cell handle = m.world.cell handle := by
  have hcell := h.alike.ground.cell handle
  rw [hl] at hcell
  exact hcell

theorem Beside.races_eq (h : m.Beside .same j Task.Mimics m') : m'.world.races = m.world.races :=
  h.alike.ground.races.eq

theorem Beside.hears (h : m.Beside .same j Task.Mimics m') (t : Task) :
    t.Hears m.world m'.world := by
  apply Task.hears_of_scene h.scene
  · intro handle _
    exact h.cell_eq rfl handle
  · intro race pending _
    rw [h.races_eq]

/-- Until its program has ended, task `j` does the same in both machines. -/
theorem Beside.step_mimic (h : m.Beside .same j Task.Mimics m') (hs : m.step? j = some m₁)
    (hn : m.completion? j = none) :
    ∃ m₁', m'.step? j = some m₁' ∧ m'.completion? j = none ∧
      m₁.Beside .same j Task.Mimics m₁' := by
  obtain ⟨t, e, he, hs⟩ := step?_stepped hs
  obtain ⟨t', ht', hrel⟩ := h.task hs.task
  have hmimics := hrel.2 rfl
  have hcompletes : t.completes? = none := by simpa [completion?, hs.task] using hn
  have hcompletes' : m'.completion? j = none := by
    have hsome := hmimics.completes?_isSome
    rw [hcompletes, Option.isSome_none, Option.isSome_eq_false_iff,
      Option.isNone_iff_eq_none] at hsome
    simp [completion?, ht', hsome]
  -- the task itself in the other world first, and then its double there
  have hworlds : Option.Rel (Effect.Alike .same) (t.step? m.world j) (t.step? m'.world j) :=
    Task.step?_alike rfl h.alike.ground (h.hears t)
  have hdoubles : Option.Rel Effect.Mimics (t.step? m'.world j) (t'.step? m'.world j) :=
    hmimics.step? hcompletes
  obtain ⟨e₁, he₁, halike⟩ := exists_of_rel_some hworlds he
  obtain ⟨e', he', hdouble⟩ := exists_of_rel_some hdoubles he₁
  have htask := hdouble.task
  rw [halike.task] at htask
  have hscene : e'.world.scene = e.world.scene := by
    rw [hdouble.world, Task.step?_scene he₁, Task.step?_scene he, h.scene]
  obtain ⟨m₁', hm₁', hbeside⟩ := h.step hs ht' he' (hdouble.world ▸ halike.ground) hscene
    ⟨fun hne => absurd rfl hne, fun _ => htask⟩ (hdouble.launched.trans halike.launched)
  exact ⟨m₁', hm₁', hcompletes', hbeside⟩

theorem Beside.idle_mimic (h : m.Beside .same j Task.Mimics m') (hn : ∀ i, a ≠ .move (.step i))
    (ha : m.happen? a = some m₁) :
    ∃ m₁', m'.happen? a = some m₁' ∧ m₁.Beside .same j Task.Mimics m₁' := by
  refine h.idle (fun _ _ hmimics => hmimics.dueOf_eq) ?_ hn ha
  intro k u u' hu hu'
  have hrel := h.alike.tasks.rel k u u' hu hu'
  have hworlds : (u.step? m'.world k).isSome = (u.step? m.world k).isSome := by
    refine Task.isSome_step? h.alike.ground.now ?_ ?_
    · intro handle pending _
      rw [h.cell_eq rfl]
    · intro race pending _
      rw [h.races_eq]
  by_cases hk : k = j
  · rw [(hrel.2 hk).isSome_step?, hworlds]
  · rw [hrel.1 hk, hworlds]

/-- The machine steps by the end of a program that is completed. -/
theorem step?_of_completion? (h : m.completion? j = some result) :
    m.step? j = some (m.ended j (.ofExcept result)) := by
  obtain ⟨t, ht, hcompletes⟩ := Option.bind_eq_some_iff.mp h
  obtain ⟨hb, c, hp, hc⟩ := Task.completes?_eq_some_iff.mp hcompletes
  simp only [step?, ended, ht, Task.step?, hp, hc, Task.finish, hb, Option.map_some,
    Task.endBy_ofExcept]
  rfl

/-- However the tasks end: if what they share is alike then, the machines stay side by side. -/
theorem Beside.ended {l : Likeness} {t' : Task} {v v' : Verdict Dyn}
    (h : m.Beside .same j Task.Mimics m') (ht : m.tasks[j]? = some t) (ht' : m'.tasks[j]? = some t')
    (hg : (t.endBy m.world j v).world.ground.Alike l (t'.endBy m'.world j v').world.ground) :
    (m.ended j v).Beside l j BothEnded (m'.ended j v') := by
  simp only [Machine.ended, ht, ht']
  refine ⟨⟨hg, ?_⟩, ?_, by simpa using h.lt⟩
  · refine h.alike.tasks.set ⟨fun hne => absurd rfl hne, fun _ => ?_⟩ ?_
    · simp [Task.endBy_task, BothEnded, Task.hasEnded]
    · intro i u u' hi hu
      exact ⟨hu.1, fun hij => absurd hij hi⟩
  · rw [Task.endBy_scene, Task.endBy_scene, h.scene]

end before

section after
variable {l : Likeness} {m m' m₁ : Machine r} {a : Happening} {i j : Nat}

/-- A task that has ended takes no step any more. -/
theorem Beside.ne_of_step (h : m.Beside l j BothEnded m') (hs : m.step? i = some m₁) :
    i ≠ j := by
  rintro rfl
  obtain ⟨t, e, he, hs⟩ := step?_stepped hs
  obtain ⟨t', -, hrel⟩ := h.task hs.task
  have hnot := hs.turn.not_ended
  rw [(hrel.2 rfl).1] at hnot
  cases hnot

/-- What decides who can step is the same in both machines. -/
structure Ready (m m' : Machine r) : Prop where
  cell : ∀ handle, ((m'.world.cell handle).outcome? handle).isSome =
    ((m.world.cell handle).outcome? handle).isSome
  race : ∀ (k : Nat) (u : Task) race pending, m.tasks[k]? = some u →
    u.phase = .racing race pending →
    m'.world.races[race]?.any Race.isReady = m.world.races[race]?.any Race.isReady

theorem dueOf_eq_of_ended {u u' : Task} (h : BothEnded u u') : dueOf u' = dueOf u := by
  obtain ⟨v, hp⟩ := Task.hasEnded_iff.mp h.1
  obtain ⟨v', hp'⟩ := Task.hasEnded_iff.mp h.2
  simp [dueOf, hp, hp']

theorem Beside.isSome_step? (h : m.Beside l j BothEnded m') (hready : m.Ready m') (k : Nat)
    (u u' : Task) (hu : m.tasks[k]? = some u) (hu' : m'.tasks[k]? = some u') :
    (u'.step? m'.world k).isSome = (u.step? m.world k).isSome := by
  have hrel := h.alike.tasks.rel k u u' hu hu'
  by_cases hk : k = j
  · obtain ⟨hend, hend'⟩ := hrel.2 hk
    obtain ⟨v, hp⟩ := Task.hasEnded_iff.mp hend
    obtain ⟨v', hp'⟩ := Task.hasEnded_iff.mp hend'
    simp [Task.step?, hp, hp']
  · rw [hrel.1 hk]
    refine Task.isSome_step? h.alike.ground.now ?_ ?_
    · intro handle _ _
      exact hready.cell handle
    · intro race pending hp
      exact hready.race k u race pending hu hp

theorem Beside.idle_ended (h : m.Beside l j BothEnded m') (hready : m.Ready m')
    (hn : ∀ i, a ≠ .move (.step i)) (ha : m.happen? a = some m₁) :
    ∃ m₁', m'.happen? a = some m₁' ∧ m₁.Beside l j BothEnded m₁' :=
  h.idle (fun _ _ => dueOf_eq_of_ended) (h.isSome_step? hready) hn ha

/-- The same can happen to both machines. -/
theorem Beside.isSome_happen? (h : m.Beside l j BothEnded m') (hready : m.Ready m')
    (a : Happening) :
    (m'.happen? a).isSome = (m.happen? a).isSome := by
  have hstep := h.isSome_step? hready
  have hdues : ∀ k u u', ButFor j BothEnded k u u' → dueOf u' = dueOf u := by
    intro k u u' hu
    by_cases hk : k = j
    · exact dueOf_eq_of_ended (hu.2 hk)
    · rw [hu.1 hk]
  cases a with
  | move a =>
    cases a with
    | step i => exact isSome_step?_congr h.alike.tasks.size hstep i
    | tick =>
      simp only [happen?, move?, tick?, h.alike.isQuiet hstep, h.alike.nextDue hdues]
      split
      · rw [Option.isSome_map, Option.isSome_map]
      · rfl
  | launch p container | supply c => rfl

end after

end Machine

end Workflow
