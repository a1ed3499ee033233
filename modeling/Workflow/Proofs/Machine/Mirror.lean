import Workflow.Proofs.Machine.Boundary
import Workflow.Proofs.Machine.Deadlock
import Workflow.Proofs.Machine.Lockstep
import Workflow.Proofs.Machine.Solo
import Workflow.Proofs.Program.Renumber

/-! One task in two machines.

A program that reaches nothing but its container, the clock and what it has launched itself can run
in another machine, where its handles, its races and its container have other numbers, and where it
is another time. As long as the two worlds agree on these, it takes the same steps. -/
namespace Workflow

variable {r : Runner}

/-- The operation reaches nothing but the container, the clock, and what programs have launched. -/
def Operation.IsLocal {P : Type} : Operation P → Prop
  | .read .ephemeral _ | .write .ephemeral .. | .delete .ephemeral _ => True
  | .readForeignAll | .writeForeign .. => True
  | .fork _ | .await _ | .delay _ | .race _ | .recover _ | .log .. => True
  | _ => False

/-- What is called by which number in another machine. -/
structure Relabeling where
  handle : Equiv.Perm Nat
  race : Equiv.Perm Nat
  container : Nat
  /-- A time, and what time it is then in the other machine. -/
  since : Nat
  start : Nat

namespace Relabeling
variable (v : Relabeling)

def time (t : Nat) : Nat := t - v.since + v.start

def translation : Translation := .renumber v.handle

def role : Role → Role
  | .fork h => .fork (h.renumber v.handle)
  | .branch race index => .branch (v.race race) index
  | role => role

def phase : Phase → Phase
  | .running c => .running (v.translation.cursor c)
  | .sleeping due alarm pending => .sleeping (due.map v.time) alarm (v.translation.stack pending)
  | .awaiting h pending => .awaiting (h.renumber v.handle) (v.translation.stack pending)
  | .racing race pending => .racing (v.race race) (v.translation.stack pending)
  | .opening request => .opening request
  | .ended ending => .ended (ending.map (Dyn.renumber v.handle))

def task (t : Task) : Task :=
  ⟨v.role t.role, t.span, v.container, t.boundaries.map v.translation.stack, v.phase t.phase⟩

theorem time_le_iff {v : Relabeling} {now : Nat} (h : v.since ≤ now) (t : Nat) :
    v.time t ≤ v.time now ↔ t ≤ now := by
  unfold time
  omega

theorem time_add {v : Relabeling} {now : Nat} (h : v.since ≤ now) (n : Nat) :
    v.time (now + n) = v.time now + n := by
  unfold time
  omega

end Relabeling

theorem lt_of_getElem?_eq {α : Type} {xs ys : Array α} {i j : Nat} (h : xs[i]? = ys[j]?)
    (hj : j < ys.size) : i < xs.size := by
  rw [Array.getElem?_eq_getElem hj] at h
  exact (Array.getElem?_eq_some_iff.mp h).1

/-- The worlds agree on a container, on the cells of some handles, and on some races. -/
structure World.Mirrors (v : Relabeling) (container : Nat) (handles : Set Handle) (races : Set Nat)
    (w w' : World r) : Prop where
  container :
    container < w.containers.size ∧ w'.containers[v.container]? = w.containers[container]?
  cells :
    ∀ h ∈ handles, h.index < w.cells.size ∧ w'.cells[v.handle h.index]? = w.cells[h.index]?
  races : ∀ race ∈ races, race < w.races.size ∧ w'.races[v.race race]? = w.races[race]?

namespace World.Mirrors
variable {v : Relabeling} {container : Nat} {handles : Set Handle} {races : Set Nat}
  {w w' u u' : World r}

theorem tells (h : w.Mirrors v container handles races w') (hu : w.Tells u) (hu' : w'.Tells u') :
    u.Mirrors v container handles races u' := by
  obtain ⟨lines, rfl⟩ := hu
  obtain ⟨lines', rfl⟩ := hu'
  exact ⟨h.container, h.cells, h.races⟩

theorem emit (h : w.Mirrors v container handles races w') (span : Span) (event event' : Event) :
    (w.emit span event).Mirrors v container handles races (w'.emit span event') :=
  h.tells (w.tells_emit span event) (w'.tells_emit span event')

/-- What the first world has besides does not matter. -/
theorem left (h : w.Mirrors v container handles races w')
    (hc : u.containers[container]? = w.containers[container]?)
    (hcells : ∀ handle ∈ handles, u.cells[handle.index]? = w.cells[handle.index]?)
    (hraces : ∀ race ∈ races, u.races[race]? = w.races[race]?) :
    u.Mirrors v container handles races w' := by
  refine ⟨⟨?_, h.container.2.trans hc.symm⟩, ?_, ?_⟩
  · exact lt_of_getElem?_eq hc h.container.1
  · intro handle hh
    have heq := hcells handle hh
    exact ⟨lt_of_getElem?_eq heq (h.cells handle hh).1, (h.cells handle hh).2.trans heq.symm⟩
  · intro race hr
    have heq := hraces race hr
    exact ⟨lt_of_getElem?_eq heq (h.races race hr).1, (h.races race hr).2.trans heq.symm⟩

theorem container_eq (h : w.Mirrors v container handles races w') :
    w'.container v.container = w.container container := by
  simp only [World.container, h.container.2]

theorem cell_eq (h : w.Mirrors v container handles races w') {handle : Handle}
    (hh : handle ∈ handles) :
    w'.cell (handle.renumber v.handle) = w.cell handle := by
  simp only [World.cell, Handle.renumber, (h.cells handle hh).2]

theorem modifyContainer (h : w.Mirrors v container handles races w') (f : Container → Container) :
    (w.modifyContainer container f).Mirrors v container handles races
      (w'.modifyContainer v.container f) := by
  refine ⟨?_, h.cells, h.races⟩
  simp only [World.modifyContainer, Array.size_modify, Array.getElem?_modify, if_true,
    h.container.2, and_true]
  exact h.container.1

theorem modifyCell (h : w.Mirrors v container handles races w') (handle : Handle)
    (f : Cell → Cell) :
    (w.modifyCell handle f).Mirrors v container handles races
      (w'.modifyCell (handle.renumber v.handle) f) := by
  refine ⟨h.container, ?_, h.races⟩
  intro other ho
  obtain ⟨hlt, heq⟩ := h.cells other ho
  simp only [World.modifyCell, Handle.renumber, Array.size_modify, Array.getElem?_modify,
    EmbeddingLike.apply_eq_iff_eq, heq, and_true]
  exact hlt

theorem modifyRace (h : w.Mirrors v container handles races w') (race : Nat) (f : Race → Race) :
    ({ w with races := w.races.modify race f } : World r).Mirrors v container handles races
      { w' with races := w'.races.modify (v.race race) f } := by
  refine ⟨h.container, h.cells, ?_⟩
  intro other ho
  obtain ⟨hlt, heq⟩ := h.races other ho
  simp only [Array.size_modify, Array.getElem?_modify, EmbeddingLike.apply_eq_iff_eq, heq, and_true]
  exact hlt

/-- A fresh cell is there in both worlds if it has the number it should have. -/
theorem newCell (h : w.Mirrors v container handles races w')
    (hc : v.handle w.cells.size = w'.cells.size) :
    w.newCell.1.Mirrors v container (handles ∪ {w.newCell.2}) races w'.newCell.1 := by
  refine ⟨h.container, ?_, h.races⟩
  rintro other (ho | rfl)
  · obtain ⟨hlt, heq⟩ := h.cells other ho
    have hlt' := lt_of_getElem?_eq heq hlt
    simp only [World.newCell, Array.size_push, Array.getElem?_push, heq, Nat.ne_of_lt hlt,
      Nat.ne_of_lt hlt', if_false, and_true]
    exact Nat.lt_succ_of_lt hlt
  · simp [World.newCell, hc]

theorem newRace (h : w.Mirrors v container handles races w')
    (hc : v.race w.races.size = w'.races.size) (total : Nat) :
    (w.newRace total).1.Mirrors v container handles (races ∪ {(w.newRace total).2})
      (w'.newRace total).1 := by
  refine ⟨h.container, h.cells, ?_⟩
  rintro other (ho | rfl)
  · obtain ⟨hlt, heq⟩ := h.races other ho
    have hlt' := lt_of_getElem?_eq heq hlt
    simp only [World.newRace, Array.size_push, Array.getElem?_push, heq, Nat.ne_of_lt hlt,
      Nat.ne_of_lt hlt', if_false, and_true]
    exact Nat.lt_succ_of_lt hlt
  · simp [World.newRace, hc]

end World.Mirrors

/-- The races that a step starts: each has a first branch. -/
def Effect.raced (e : Effect r) : Set Nat := {race | ∃ u ∈ e.launched, u.role = .branch race 0}

/-- Both steps do the same, under other numbers. -/
structure Effect.Mirrors (v : Relabeling) (container : Nat) (handles : Set Handle) (races : Set Nat)
    (e e' : Effect r) : Prop where
  task : e'.task = v.task e.task
  launched : e'.launched = e.launched.map v.task
  world : e.world.Mirrors v container (handles ∪ e.forked) (races ∪ e.raced) e'.world

namespace Task
variable {v : Relabeling} {t : Task} {w w' : World r} {self self' : Nat}
  {pending : List Continuation}
  {handles : Set Handle} {races : Set Nat} {result : Except Fault Dyn}

theorem mirrors_alone {container : Nat} {u u' : Task} (hw : w.Mirrors v container handles races w')
    (hu : u' = v.task u) :
    Effect.Mirrors v container handles races ⟨w, u, []⟩ ⟨w', u', []⟩ := by
  refine ⟨hu, rfl, ?_⟩
  simpa [Effect.forked, Effect.raced] using hw

theorem task_resumed (v : Relabeling) (t : Task) (pending : List Continuation)
    (result : Except Fault Dyn) :
    v.task (t.resumed pending result) =
      (v.task t).resumed (v.translation.stack pending) (v.translation.result result) := by
  simp only [resumed, Relabeling.task, Relabeling.phase, Translation.cursor_resume]

/-- The task goes on with a result that is the same under other numbers. -/
theorem proceed_mirrors (hw : w.Mirrors v t.container handles races w')
    {result' : Except Fault Dyn} (hr : v.translation.result result = result') :
    (t.proceed w pending result).Mirrors v t.container handles races
      ((v.task t).proceed w' (v.translation.stack pending) result') := by
  subst hr
  exact mirrors_alone hw (task_resumed v t pending result).symm

theorem conclude_mirrors (hw : w.Mirrors v t.container handles races w') :
    (t.conclude w result).Mirrors v t.container handles races
      ((v.task t).conclude w' (v.translation.result result)) := by
  have htake : (v.translation.result result >>= Dyn.take .json) = result >>= Dyn.take .json :=
    Translation.renumber_take rfl result
  have hended : Verdict.ofExcept (v.translation.result result) =
      (Verdict.ofExcept result).map (Dyn.renumber v.handle) := by
    cases result <;> rfl
  refine mirrors_alone ?_ (by simp only [Relabeling.task, Relabeling.phase, hended])
  simp only [Relabeling.task, htake]
  cases t.role with
  | run => cases result <;> exact hw.emit _ _ _
  | fork h =>
    simp only [Relabeling.role]
    cases result >>= Dyn.take .json with
    | ok x => exact hw.modifyCell h _
    | error e => exact (hw.emit _ _ _).modifyCell h _
  | branch race index =>
    have hending : Verdict.ofExcept (α := Json) (v.translation.result result >>= Dyn.take .json) =
        Verdict.ofExcept (α := Json) (result >>= Dyn.take .json) := congrArg Verdict.ofExcept htake
    simp only [Relabeling.role, hending]
    exact hw.modifyRace race _
  | background | host => exact hw

theorem boundaryAnswer_renumber (ρ : Equiv.Perm Nat) (result : Except Fault Dyn) :
    boundaryAnswer ((Translation.renumber ρ).result result) =
      (Translation.renumber ρ).result (boundaryAnswer result) := by
  have htake : ((Translation.renumber ρ).result result >>= Dyn.take .outcome) = result >>=
      Dyn.take .outcome :=
    Translation.renumber_take rfl result
  simp only [boundaryAnswer, htake]
  cases result >>= Dyn.take .outcome with
  | error e => exact (Translation.renumber_ok rfl _).symm
  | ok outcome =>
    cases outcome with
    | succeed x => exact (Translation.renumber_ok rfl _).symm
    | fail message => rfl

theorem finish_mirrors (hw : w.Mirrors v t.container handles races w') :
    (t.finish w result).Mirrors v t.container handles races
      ((v.task t).finish w' (v.translation.result result)) := by
  cases hb : t.boundaries with
  | nil =>
    have hb' : (v.task t).boundaries = [] := by simp [Relabeling.task, hb]
    simp only [finish, hb, hb']
    exact conclude_mirrors hw
  | cons pending outer =>
    have hb' :
        (v.task t).boundaries = v.translation.stack pending :: outer.map v.translation.stack := by
      simp [Relabeling.task, hb]
    simp only [finish, hb, hb']
    obtain ⟨u, hu, heq⟩ := leaveBoundary_eq t w pending outer result
    obtain ⟨u', hu', heq'⟩ := leaveBoundary_eq (v.task t) w' (v.translation.stack pending)
      (outer.map v.translation.stack) (v.translation.result result)
    rw [heq, heq']
    refine mirrors_alone (hw.tells hu hu') ?_
    rw [task_resumed, Relabeling.translation, boundaryAnswer_renumber]
    rfl

theorem task_child (v : Relabeling) (t : Task) (role : Role) (span : Span) (p : Program) :
    v.task (t.child role span p) =
      (v.task t).child (v.role role) span (v.translation.program p) := rfl

theorem task_branches (v : Relabeling) (t : Task) (race index : Nat) (ps : List Program) :
    (t.branches race index ps).map v.task =
      (v.task t).branches (v.race race) index (v.translation.programs ps) := by
  induction ps generalizing index with
  | nil => rfl
  | cons p ps ih => simp only [branches, List.map_cons, ih, Translation.programs, task_child]; rfl

/-- A forked program gets a cell in both worlds. -/
theorem fork_mirrors (hw : w.Mirrors v t.container handles races w')
    (hc : v.handle w.cells.size = w'.cells.size) (p : Program) :
    (t.execute w self pending (.fork p)).Mirrors v t.container handles races
      ((v.task t).execute w' self' (v.translation.stack pending)
        (.fork (v.translation.program p))) := by
  have hh : (w.newCell.2).renumber v.handle = w'.newCell.2 := congrArg Handle.mk hc
  have hresult :
      v.translation.result (.ok ⟨.handle, w.newCell.2⟩) = .ok ⟨.handle, w'.newCell.2⟩ :=
    congrArg (fun h : Handle => Except.ok (⟨.handle, h⟩ : Dyn)) hh
  refine ⟨(proceed_mirrors hw hresult).task, ?_, ?_⟩
  · exact congrArg
      (fun h => [(v.task t).child (.fork h) t.span.fork (v.translation.program p)]) hh.symm
  · have hforked : Effect.forked (t.execute w self pending (.fork p)) = {w.newCell.2} := by
      ext h
      simp [Effect.forked, execute, child, eq_comm]
    have hraced : Effect.raced (t.execute w self pending (.fork p)) = ∅ := by
      ext race
      simp [Effect.raced, execute, child]
    rw [hforked, hraced, Set.union_empty]
    exact hw.newCell hc

/-- A race is started in both worlds. -/
theorem race_mirrors (hw : w.Mirrors v t.container handles races w')
    (hc : v.race w.races.size = w'.races.size) (p : Program) (ps : List Program) :
    (t.execute w self pending (.race (p :: ps))).Mirrors v t.container handles races
      ((v.task t).execute w' self' (v.translation.stack pending)
        (.race (v.translation.programs (p :: ps)))) := by
  have hlength : (v.translation.programs (p :: ps)).length = (p :: ps).length := by
    rw [Translation.programs_eq_map, List.length_map]
  refine ⟨?_, ?_, ?_⟩
  · exact congrArg (fun race => Task.mk (v.role t.role) t.span v.container
      (t.boundaries.map v.translation.stack) (.racing race (v.translation.stack pending))) hc.symm
  · exact (congrArg (fun race => (v.task t).branches race 0 _) hc.symm).trans
      (task_branches v t _ 0 (p :: ps)).symm
  · have hforked : Effect.forked (t.execute w self pending (.race (p :: ps))) = ∅ := by
      refine Set.eq_empty_of_forall_notMem ?_
      rintro h ⟨u, hu, hr⟩
      obtain ⟨k, q, -, rfl⟩ := branches_mem hu
      cases hr
    have hraced : Effect.raced (t.execute w self pending (.race (p :: ps))) = {w.races.size} := by
      ext race
      constructor
      · rintro ⟨u, hu, hr⟩
        obtain ⟨k, q, -, rfl⟩ := branches_mem hu
        exact (Role.branch.inj hr).1.symm
      · rintro rfl
        exact ⟨_, List.mem_cons_self, rfl⟩
    rw [hforked, hraced, Set.union_empty]
    have hnew := hw.newRace hc (p :: ps).length
    simp only [execute, Translation.programs] at hlength ⊢
    rw [hlength]
    exact hnew

/-- A local operation does the same in both worlds, under other numbers. -/
theorem execute_mirrors {op : Operation Program} (hop : op.IsLocal)
    (hw : w.Mirrors v t.container handles races w') (hnow : w'.now = v.time w.now)
    (hsince : v.since ≤ w.now)
    (hcell : ∀ p, op = .fork p → v.handle w.cells.size = w'.cells.size)
    (hrace : ∀ p ps, op = .race (p :: ps) → v.race w.races.size = w'.races.size) :
    (t.execute w self pending op).Mirrors v t.container handles races
      ((v.task t).execute w' self' (v.translation.stack pending)
        (v.translation.operation (v.translation.inside op))) := by
  cases op with
  | read store key =>
    cases store with
    | persistent => exact hop.elim
    | ephemeral =>
      refine proceed_mirrors hw ?_
      rw [← hw.container_eq]
      exact Translation.renumber_ok rfl _
  | write store key value =>
    cases store with
    | persistent => exact hop.elim
    | ephemeral =>
      exact proceed_mirrors ((hw.emit _ _ _).modifyContainer _) rfl
  | delete store key =>
    cases store with
    | persistent => exact hop.elim
    | ephemeral =>
      exact proceed_mirrors ((hw.emit _ _ _).modifyContainer _) rfl
  | readForeignAll =>
    refine proceed_mirrors hw ?_
    rw [← hw.container_eq]
    exact Translation.renumber_ok rfl _
  | writeForeign key value =>
    exact proceed_mirrors ((hw.emit _ _ _).modifyContainer _) rfl
  | fork p => exact fork_mirrors hw (hcell p rfl) p
  | await h => exact mirrors_alone (hw.emit _ _ _) rfl
  | delay duration =>
    refine mirrors_alone hw ?_
    simp only [World.due, hnow, Relabeling.task, Relabeling.phase, Option.map_some,
      Relabeling.time_add hsince]
  | race ps =>
    cases ps with
    | nil => exact proceed_mirrors hw rfl
    | cons p ps => exact race_mirrors hw (hrace p ps rfl) p ps
  | recover p => exact mirrors_alone hw rfl
  | log tag message => exact proceed_mirrors (hw.emit _ _ _) rfl
  | _ => exact hop.elim

theorem dispatch_of_local {op : Operation Program} (hop : op.IsLocal) :
    t.dispatch w self pending op =
      t.execute (w.emit t.span (.dispatching op.name)) self pending op := by
  cases op with
  | peek => exact hop.elim
  | _ => rfl

theorem dispatch_mirrors {op : Operation Program} (hop : op.IsLocal)
    (hw : w.Mirrors v t.container handles races w') (hnow : w'.now = v.time w.now)
    (hsince : v.since ≤ w.now)
    (hcell : ∀ p, op = .fork p → v.handle w.cells.size = w'.cells.size)
    (hrace : ∀ p ps, op = .race (p :: ps) → v.race w.races.size = w'.races.size) :
    (t.dispatch w self pending op).Mirrors v t.container handles races
      ((v.task t).dispatch w' self' (v.translation.stack pending)
        (v.translation.operation (v.translation.inside op))) := by
  have hlocal : (v.translation.operation (v.translation.inside op)).IsLocal := by
    cases op with
    | read store | write store | delete store =>
      cases store with
      | persistent => exact hop.elim
      | ephemeral => trivial
    | _ => exact hop
  rw [dispatch_of_local hop, dispatch_of_local hlocal]
  exact execute_mirrors hop (hw.emit _ _ _) hnow hsince hcell hrace

theorem judge_mirrors (hw : w.Mirrors v t.container handles races w') (race : Nat) (x : Race)
    (a : Arrival) (rest : List Arrival) :
    (t.judge w race pending x a rest).Mirrors v t.container handles races
      ((v.task t).judge w' (v.race race) (v.translation.stack pending) x a rest) := by
  have hlook (fault : Fault) := hw.modifyRace race fun _ => ⟨x.total, x.seen + 1, fault, rest⟩
  simp only [judge]
  cases a.ending with
  | value value => exact proceed_mirrors ((hlook _).emit _ _ _) (Translation.renumber_ok rfl _)
  | fault e => exact mirrors_alone ((hlook e).emit _ _ _) rfl
  | panic message => exact mirrors_alone (hlook _) rfl

/-- What a program of local operations can be waiting for. -/
inductive Waits (races : Set Nat) : Phase → Prop
  | running (c : Cursor) : Waits races (.running c)
  | sleeping (due : Nat) (pending : List Continuation) :
    Waits races (.sleeping (some due) .delay pending)
  | awaiting (h : Handle) (pending : List Continuation) : Waits races (.awaiting h pending)
  | racing {race : Nat} (hr : race ∈ races) (pending : List Continuation) :
    Waits races (.racing race pending)
  | ended (result : Except Fault Dyn) : Waits races (.ended (.ofExcept result))

/-- The task runs a program of local operations, which knows only some
handles and waits only for some races. -/
structure Local (handles : Set Handle) (races : Set Nat) (t : Task) : Prop where
  only : t.Only Operation.IsLocal
  knows : t.Scoped handles
  waits : Waits races t.phase

/-- What waiting for a cell gives depends on the handle only if its write side was dropped. -/
theorem outcome?_congr {c : Cell} (hc : c.status ≠ .abandoned) (h h' : Handle) :
    c.outcome? h' = c.outcome? h := by
  rw [Cell.outcome?_eq, Cell.outcome?_eq]
  cases hs : c.status with
  | abandoned => exact absurd hs hc
  | pending | filled => rfl

variable {e : Effect r}

/-- A local task takes the same step in both worlds. -/
theorem Local.mirrors (ht : t.Local handles races) (hw : w.Mirrors v t.container handles races w')
    (hnow : w'.now = v.time w.now) (hsince : v.since ≤ w.now)
    (hheld : ∀ h ∈ handles, (w.cell h).status ≠ .abandoned) (h : t.step? w self = some e)
    (hcell : e.forked.Nonempty → v.handle w.cells.size = w'.cells.size)
    (hrace : e.raced.Nonempty → v.race w.races.size = w'.races.size) (self' : Nat) :
    ∃ e', (v.task t).step? w' self' = some e' ∧ e.Mirrors v t.container handles races e' := by
  have hknows := ht.knows.phase
  have hp' : (v.task t).phase = v.phase t.phase := rfl
  have hwaits := ht.waits
  generalize hp : t.phase = phase at hwaits
  cases hwaits with
  | running c =>
    rw [hp, Relabeling.phase] at hp'
    cases hc : c.advance with
    | finished result =>
      simp only [step?, hp, hc, Option.some.injEq] at h
      subst h
      refine ⟨_, ?_, finish_mirrors hw⟩
      simp only [step?, hp', Translation.advance_cursor, hc, Translation.advance]
    | execute op pending =>
      simp only [step?, hp, hc, Option.some.injEq] at h
      subst h
      obtain ⟨hop, -, -⟩ := (ht.only.running hp).advance hc
      refine ⟨(v.task t).dispatch w' self' (v.translation.stack pending)
        (v.translation.operation (v.translation.inside op)), ?_,
        dispatch_mirrors hop hw hnow hsince ?_ ?_⟩
      · simp only [step?, hp', Translation.advance_cursor, hc, Translation.advance]
      · rintro p rfl
        exact hcell ⟨_, _, List.mem_singleton.mpr rfl, rfl⟩
      · rintro p ps rfl
        exact hrace ⟨_, _, List.mem_cons_self, rfl⟩
  | sleeping due pending =>
    rw [hp, Relabeling.phase] at hp'
    simp only [step?, hp] at h
    split at h
    next hle =>
      cases h
      refine ⟨_, ?_, proceed_mirrors hw rfl⟩
      simp only [step?, hp', Option.map_some, hnow, Relabeling.time_le_iff hsince, hle, if_true]
      rfl
    next => cases h
  | awaiting handle pending =>
    rw [hp] at hknows
    rw [hp, Relabeling.phase] at hp'
    obtain ⟨result, hresult, rfl⟩ :=
      Option.map_eq_some_iff.mp (by simpa only [step?, hp] using h)
    refine ⟨_, ?_, proceed_mirrors hw (Translation.renumber_result rfl (ofKind_json result))⟩
    simp only [step?, hp', hw.cell_eq hknows.1]
    rw [outcome?_congr (hheld handle hknows.1) handle, hresult]
    rfl
  | @racing race hr pending =>
    rw [hp, Relabeling.phase] at hp'
    simp only [step?, hp] at h
    simp only [step?, hp', (hw.races race hr).2]
    split at h
    next x hx =>
      split at h
      next a rest ha =>
        cases h
        exact ⟨_, rfl, judge_mirrors hw race x a rest⟩
      next ha =>
        split at h
        · cases h
        next hs =>
          cases h
          exact ⟨_, if_neg hs, proceed_mirrors hw rfl⟩
    next => cases h
  | ended ending => simp [step?, hp] at h

/-- Whether a local task can step is the same in both worlds, as far as its time comes in both. -/
theorem Local.isSome_step? (ht : t.Local handles races)
    (hw : w.Mirrors v t.container handles races w')
    (hheld : ∀ h ∈ handles, (w.cell h).status ≠ .abandoned)
    (hdue : ∀ due, Machine.dueOf t = some due → (v.time due ≤ w'.now ↔ due ≤ w.now))
    (self self' : Nat) : ((v.task t).step? w' self').isSome = (t.step? w self).isSome := by
  have hknows := ht.knows.phase
  have hp' : (v.task t).phase = v.phase t.phase := rfl
  have hwaits := ht.waits
  generalize hp : t.phase = phase at hwaits
  cases hwaits with
  | running c =>
    rw [hp, Relabeling.phase] at hp'
    simp only [step?, hp, hp', Translation.advance_cursor]
    cases c.advance <;> rfl
  | sleeping due pending =>
    rw [hp, Relabeling.phase] at hp'
    simp only [step?, hp, hp', Option.map_some, hdue due (by simp only [Machine.dueOf, hp])]
    split <;> rfl
  | awaiting handle pending =>
    rw [hp] at hknows
    rw [hp, Relabeling.phase] at hp'
    simp only [step?, hp, hp', hw.cell_eq hknows.1, Option.isSome_map]
    rw [outcome?_congr (hheld handle hknows.1) handle]
  | @racing race hr pending =>
    rw [hp, Relabeling.phase] at hp'
    rw [step?_racing hp, step?_racing hp', (hw.races race hr).2]
  | ended result =>
    rw [hp, Relabeling.phase] at hp'
    simp only [step?, hp, hp']

theorem Waits.mono {races' : Set Nat} {phase : Phase} (h : Waits races phase)
    (hr : races ⊆ races') :
    Waits races' phase := by
  cases h with
  | running c => exact .running c
  | sleeping due pending => exact .sleeping due pending
  | awaiting h pending => exact .awaiting h pending
  | racing hx pending => exact .racing (hr hx) pending
  | ended result => exact .ended result

theorem Local.mono {handles' : Set Handle} {races' : Set Nat} (h : t.Local handles races)
    (hh : handles ⊆ handles') (hr : races ⊆ races') : t.Local handles' races' :=
  ⟨h.only, h.knows.mono hh, h.waits.mono hr⟩

theorem local_child {p : Program} (ho : p.Only Operation.IsLocal) (hs : p.Scoped handles)
    (role : Role) (span : Span) :
    (t.child role span p).Local handles races :=
  ⟨⟨Cursor.only_new ho, by simp [child]⟩, scoped_child hs role span, .running _⟩

/-- After a local operation a task goes on, or waits for some
time, a handle, or the race it starts. -/
theorem execute_waits {op : Operation Program} (hop : op.IsLocal) :
    Waits (t.execute w self pending op).raced (t.execute w self pending op).task.phase := by
  cases op with
  | read store | write store | delete store =>
    cases store with
    | persistent => exact hop.elim
    | ephemeral => exact .running _
  | await h => exact .awaiting h pending
  | delay duration => exact .sleeping _ pending
  | race ps =>
    cases ps with
    | nil => exact .running _
    | cons p ps =>
      have hraced : w.races.size ∈ (t.execute w self pending (.race (p :: ps))).raced :=
        ⟨_, List.mem_cons_self, rfl⟩
      exact .racing hraced pending
  | readForeignAll | writeForeign | fork | recover | log => exact .running _
  | _ => exact hop.elim

/-- A local operation launches only its programs. -/
theorem execute_children {op : Operation Program} (hop : op.IsLocal) {u : Task}
    (hu : u ∈ (t.execute w self pending op).launched) :
    ∃ role span, ∃ p ∈ op.programs, u = t.child role span p := by
  cases op with
  | read store | write store | delete store =>
    cases store with
    | persistent => exact hop.elim
    | ephemeral => cases hu
  | fork p =>
    obtain rfl := List.mem_singleton.mp hu
    exact ⟨_, _, p, List.mem_singleton.mpr rfl, rfl⟩
  | race ps =>
    cases ps with
    | nil => cases hu
    | cons p ps =>
      obtain ⟨k, q, hq, rfl⟩ := branches_mem hu
      exact ⟨_, _, q, hq, rfl⟩
  | readForeignAll | writeForeign | await | delay | recover | log => cases hu
  | _ => exact hop.elim

theorem finish_waits (t : Task) (w : World r) (result : Except Fault Dyn) :
    Waits races (t.finish w result).task.phase := by
  unfold finish
  split
  · exact .ended result
  next pending outer _ =>
    obtain ⟨_, -, heq⟩ := leaveBoundary_eq t w pending outer result
    rw [heq]
    exact .running _

/-- A local task stays local, and knows besides only what it has just launched. -/
theorem Local.step? (ht : t.Local handles races) (h : t.step? w self = some e) :
    e.task.Local (handles ∪ e.forked) (races ∪ e.raced) := by
  refine ⟨only_step? h ht.only, (step?_turn h).scoped ht.knows, ?_⟩
  have hwaits := ht.waits
  generalize hp : t.phase = phase at hwaits
  cases hwaits with
  | running c =>
    cases hc : c.advance with
    | finished result =>
      simp only [Task.step?, hp, hc, Option.some.injEq] at h
      subst h
      exact finish_waits t w result
    | execute op pending =>
      simp only [Task.step?, hp, hc, Option.some.injEq] at h
      subst h
      obtain ⟨hop, -, -⟩ := (ht.only.running hp).advance hc
      rw [dispatch_of_local hop]
      exact (execute_waits hop).mono Set.subset_union_right
  | sleeping due pending =>
    simp only [Task.step?, hp] at h
    split at h <;> cases h
    exact .running _
  | awaiting handle pending =>
    obtain ⟨result, -, rfl⟩ :=
      Option.map_eq_some_iff.mp (by simpa only [Task.step?, hp] using h)
    exact .running _
  | @racing race hr pending =>
    simp only [Task.step?, hp] at h
    split at h
    next x hx =>
      split at h
      next a rest ha =>
        cases h
        unfold judge
        cases a.ending with
        | value => exact .running _
        | fault | panic => exact .racing (.inl hr) pending
      next =>
        split at h <;> cases h
        exact .running _
    next => cases h
  | ended ending => simp [Task.step?, hp] at h

/-- What a local task launches is local. -/
theorem Local.launched (ht : t.Local handles races) (h : t.step? w self = some e) {u : Task}
    (hu : u ∈ e.launched) : u.Local handles races := by
  have dispatched (c : Cursor) (op : Operation Program) (pending : List Continuation)
      (hp : t.phase = .running c) (hc : c.advance = .execute op pending) :
        u.Local handles races := by
    obtain ⟨hop, honly, -⟩ := (ht.only.running hp).advance hc
    obtain ⟨-, hscoped, -⟩ := (ht.knows.running hp).advance hc
    simp only [Task.step?, hp, hc, Option.some.injEq] at h
    rw [← h, dispatch_of_local hop] at hu
    obtain ⟨role, span, p, hmem, rfl⟩ := execute_children hop hu
    exact local_child (honly p hmem) (hscoped p hmem) role span
  cases step?_turn h with
  | answered hp hc | forks hp hc | races hp hc => exact dispatched _ _ _ hp hc
  | _ => cases hu

end Task

end Workflow
