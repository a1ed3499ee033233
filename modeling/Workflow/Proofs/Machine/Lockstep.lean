import Mathlib.Data.Option.Defs
import Workflow.Proofs.Machine.Race
import Workflow.Proofs.Machine.Scene

/-! Two runs side by side, perhaps by the help of different collaborators.

What a task does next is decided by the task and by what it hears: what its collaborator answers,
what the handle says that it looks at, and what has arrived at its race. Two worlds in which it
hears the same are alike after the step if they were before. How far two worlds are alike is left
open: a `Likeness` says which cells and races count as the same. -/
namespace Workflow

variable {r r' : Runner}

/-- There are as many elements, and those at the same places are related. -/
structure Pointwise {α : Type} (R : Nat → α → α → Prop) (xs ys : Array α) : Prop where
  size : ys.size = xs.size
  rel : ∀ (i : Nat) (x y : α), xs[i]? = some x → ys[i]? = some y → R i x y

namespace Pointwise
variable {α : Type} {R : Nat → α → α → Prop} {xs ys : Array α}

theorem refl (h : ∀ i x, R i x x) (xs : Array α) : Pointwise R xs xs := by
  refine ⟨rfl, ?_⟩
  intro i x y hx hy
  cases hx.symm.trans hy
  exact h i x

theorem set {S : Nat → α → α → Prop} (h : Pointwise R xs ys) {k : Nat} {x y : α}
    (hx : S k x y) (hRS : ∀ i x y, i ≠ k → R i x y → S i x y) :
    Pointwise S (xs.set! k x) (ys.set! k y) := by
  refine ⟨by simp [h.size], ?_⟩
  intro i z z' hz hz'
  simp only [Array.set!_eq_setIfInBounds, Array.getElem?_setIfInBounds] at hz hz'
  by_cases hi : k = i
  · subst hi
    simp only [if_true] at hz hz'
    split at hz <;> cases hz
    split at hz' <;> cases hz'
    exact hx
  · rw [if_neg hi] at hz hz'
    exact hRS i z z' (Ne.symm hi) (h.rel i z z' hz hz')

theorem push (h : Pointwise R xs ys) {x y : α} (hx : R xs.size x y) :
    Pointwise R (xs.push x) (ys.push y) := by
  refine ⟨by simp [h.size], ?_⟩
  intro i z z' hz hz'
  rw [Array.getElem?_push] at hz
  rw [Array.getElem?_push, h.size] at hz'
  by_cases hi : i = xs.size
  · subst hi
    rw [if_pos rfl] at hz hz'
    cases hz
    cases hz'
    exact hx
  · rw [if_neg hi] at hz hz'
    exact h.rel i z z' hz hz'

theorem modify (h : Pointwise R xs ys) {k : Nat} {f g : α → α}
    (hf : ∀ x y, xs[k]? = some x → ys[k]? = some y → R k (f x) (g y)) :
    Pointwise R (xs.modify k f) (ys.modify k g) := by
  refine ⟨by simp [h.size], ?_⟩
  intro i y z hy hz
  rw [Array.getElem?_modify] at hy hz
  by_cases hi : k = i
  · subst hi
    rw [if_pos rfl] at hy hz
    obtain ⟨x, hx, rfl⟩ := Option.map_eq_some_iff.mp hy
    obtain ⟨x', hx', rfl⟩ := Option.map_eq_some_iff.mp hz
    exact hf x x' hx hx'
  · rw [if_neg hi] at hy hz
    exact h.rel i y z hy hz

theorem mono {S : Nat → α → α → Prop} (h : Pointwise R xs ys)
    (hRS : ∀ i x y, R i x y → S i x y) :
    Pointwise S xs ys :=
  ⟨h.size, fun i x y hx hy => hRS i x y (h.rel i x y hx hy)⟩

theorem eq (h : Pointwise (fun _ x y => y = x) xs ys) : ys = xs := by
  apply Array.ext h.size
  intro i hi hi'
  exact h.rel i _ _ (Array.getElem?_eq_getElem hi') (Array.getElem?_eq_getElem hi)

end Pointwise

theorem exists_of_rel_some {α β : Type} {R : α → β → Prop} {x : Option α} {y : Option β}
    {a : α} (h : Option.Rel R x y) (hx : x = some a) :
    ∃ b, y = some b ∧ R a b := by
  cases h with
  | none => cases hx
  | some h =>
    cases hx
    exact ⟨_, rfl, h⟩

/-- What the tasks share, but for the collaborators and the record of what happened. -/
structure Ground where
  now : Nat
  containers : Array Container
  cells : Array Cell
  races : Array Race
  calls : List (Nat × Call)

namespace World
variable (w : World r) (span : Span)

def ground : Ground := ⟨w.now, w.containers, w.cells, w.races, w.calls⟩

@[simp] theorem ground_emit (event : Event) : (w.emit span event).ground = w.ground := rfl

@[simp] theorem ground_emitAll (events : List Event) :
    (w.emitAll span events).ground = w.ground := by
  induction events generalizing w with
  | nil => rfl
  | cons event events ih => exact ih (w.emit span event)

theorem ground_accept (call : Call) :
    (w.accept span call).1.ground = { w.ground with calls := (w.now, call) :: w.calls } := by
  cases call <;> exact ground_emitAll ..

theorem ground_answer (call : Call) : (w.answer span call).1.ground = w.ground := by
  cases call <;> exact ground_emitAll ..

end World

/-- Which cells and races at a place count as the same. What tasks do to them respects it. -/
structure Likeness where
  cell : Nat → Cell → Cell → Prop
  race : Nat → Race → Race → Prop
  cell_refl : ∀ i c, cell i c c
  race_refl : ∀ i x, race i x x
  fill : ∀ i c c' result, cell i c c' → cell i (c.fill result) (c'.fill result)
  abandon : ∀ i c c', cell i c c' → cell i c.abandon c'.abandon
  receive : ∀ i x x' a, race i x x' → race i (x.receive a) (x'.receive a)

/-- Nothing but the same counts as the same. -/
def Likeness.same : Likeness where
  cell _ c c' := c' = c
  race _ x x' := x' = x
  cell_refl _ _ := rfl
  race_refl _ _ := rfl
  fill _ _ _ result h := congrArg (Cell.fill result) h
  abandon _ _ _ h := congrArg Cell.abandon h
  receive _ _ _ a h := congrArg (Race.receive a) h

/-- The grounds differ at most in what counts as the same. -/
structure Ground.Alike (l : Likeness) (g g' : Ground) : Prop where
  now : g'.now = g.now
  containers : g'.containers = g.containers
  calls : g'.calls = g.calls
  cells : Pointwise l.cell g.cells g'.cells
  races : Pointwise l.race g.races g'.races

namespace Ground.Alike
variable {l : Likeness} {w : World r} {w' : World r'}

theorem refl (g : Ground) : g.Alike l g :=
  ⟨rfl, rfl, rfl, .refl l.cell_refl _, .refl l.race_refl _⟩

theorem mono {l' : Likeness} {g g' : Ground} (h : g.Alike l g')
    (hc : ∀ i c c', l.cell i c c' → l'.cell i c c')
    (hx : ∀ i x x', l.race i x x' → l'.race i x x') :
    g.Alike l' g' :=
  ⟨h.now, h.containers, h.calls, h.cells.mono hc, h.races.mono hx⟩

theorem eq {g g' : Ground} (h : g.Alike .same g') : g' = g := by
  obtain ⟨now, containers, cells, races, calls⟩ := g
  obtain ⟨now', containers', cells', races', calls'⟩ := g'
  obtain ⟨rfl, rfl, rfl, hcells, hraces⟩ := h
  obtain rfl := hcells.eq
  obtain rfl := hraces.eq
  rfl

theorem cell (h : w.ground.Alike l w'.ground) (handle : Handle) :
    l.cell handle.index (w.cell handle) (w'.cell handle) := by
  have hrel := h.cells.rel handle.index
  have hsize : w'.cells.size = w.cells.size := h.cells.size
  unfold World.cell
  by_cases hlt : handle.index < w.cells.size
  · have hget := Array.getElem?_eq_getElem hlt
    have hget' := Array.getElem?_eq_getElem (hsize ▸ hlt : handle.index < w'.cells.size)
    rw [hget, hget']
    exact hrel _ _ hget hget'
  · rw [Array.getElem?_eq_none (by omega), Array.getElem?_eq_none (by omega)]
    exact l.cell_refl _ _

theorem race (h : w.ground.Alike l w'.ground) (race : Nat) :
    Option.Rel (l.race race) w.races[race]? w'.races[race]? := by
  have hsize : w'.races.size = w.races.size := h.races.size
  by_cases hlt : race < w.races.size
  · have hget := Array.getElem?_eq_getElem hlt
    have hget' := Array.getElem?_eq_getElem (hsize ▸ hlt : race < w'.races.size)
    rw [hget, hget']
    exact .some (h.races.rel race _ _ hget hget')
  · rw [Array.getElem?_eq_none (by omega), Array.getElem?_eq_none (by omega)]
    exact .none

theorem fill (h : w.ground.Alike l w'.ground) (handle : Handle) (result : Except Fault Json) :
    (w.modifyCell handle (.fill result)).ground.Alike l
      (w'.modifyCell handle (.fill result)).ground := by
  refine ⟨h.now, h.containers, h.calls, h.cells.modify ?_, h.races⟩
  intro c c' hc hc'
  exact l.fill _ c c' _ (h.cells.rel _ c c' hc hc')

theorem abandon (h : w.ground.Alike l w'.ground) (handle : Handle) :
    (w.modifyCell handle .abandon).ground.Alike l (w'.modifyCell handle .abandon).ground := by
  refine ⟨h.now, h.containers, h.calls, h.cells.modify ?_, h.races⟩
  intro c c' hc hc'
  exact l.abandon _ c c' (h.cells.rel _ c c' hc hc')

theorem arrive (h : w.ground.Alike l w'.ground) (race : Nat) (a : Arrival) :
    (w.arrive race a).ground.Alike l (w'.arrive race a).ground := by
  refine ⟨h.now, h.containers, h.calls, h.cells,
    h.races.modify (f := Race.receive a) (g := Race.receive a) ?_⟩
  intro x x' hx hx'
  exact l.receive _ x x' _ (h.races.rel _ x x' hx hx')

theorem due (h : w.ground.Alike l w'.ground) (wait : Wait) : w'.due wait = w.due wait := by
  have hnow : w'.now = w.now := h.now
  cases wait <;> simp [World.due, hnow]

theorem accept (h : w.ground.Alike l w'.ground) (span : Span) (call : Call) :
    (w.accept span call).1.ground.Alike l (w'.accept span call).1.ground := by
  have hnow : w'.now = w.now := h.now
  have hcalls : w'.calls = w.calls := h.calls
  rw [World.ground_accept, World.ground_accept, hnow, hcalls]
  exact ⟨h.now, h.containers, rfl, h.cells, h.races⟩

end Ground.Alike

/-- Two steps end alike, and what they do to the task and what they launch is the same. -/
structure Effect.Alike (l : Likeness) (e : Effect r) (e' : Effect r') : Prop where
  ground : e.world.ground.Alike l e'.world.ground
  task : e'.task = e.task
  launched : e'.launched = e.launched

/-- The message of a panic. -/
def Verdict.message? {α : Type} : Verdict α → Option String
  | .panic message => some message
  | _ => none

/-- Both take the same time, or end both without a panic or both with the same one. -/
inductive Reception.Alike {α : Type} : Reception α → Reception α → Prop
  | now {v v' : Verdict α} (h : v'.message? = v.message?) : Alike (.now v) (.now v')
  | later {wait : Wait} : Alike (.later wait) (.later wait)

theorem Reception.Alike.refl {α : Type} (x : Reception α) : x.Alike x := by
  cases x with
  | now v => exact .now rfl
  | later wait => exact .later

/-- The next step of the task hears the same in both worlds. In the background the answer of the
user interface is not listened to. -/
structure Task.Hears (t : Task) (w : World r) (w' : World r') : Prop where
  accepted : ∀ c op pending call, t.phase = .running c → c.advance = .execute op pending →
    op.call? = some call → (w'.accept t.span call).2 = (w.accept t.span call).2
  answered : ∀ due call pending, t.phase = .sleeping due (.call call) pending →
    (w'.answer t.span call).2 = (w.answer t.span call).2
  opened : ∀ request, t.phase = .opening request →
    (w.accept t.span (.ui request)).2.Alike (w'.accept t.span (.ui request)).2
  closed : ∀ due request pending, t.phase = .sleeping due (.background request) pending →
    (w'.answer t.span (.ui request)).2.message? = (w.answer t.span (.ui request)).2.message?
  awaited : ∀ h pending, t.phase = .awaiting h pending →
    (w'.cell h).outcome? h = (w.cell h).outcome? h
  peeked : ∀ c h pending, t.phase = .running c → c.advance = .execute (.peek h) pending →
    (w'.cell h).glance = (w.cell h).glance
  raced : ∀ race pending, t.phase = .racing race pending → w'.races[race]? = w.races[race]?

/-- Something has arrived that can be looked at, or nothing will any more. -/
def Race.isReady (x : Race) : Bool := !x.arrivals.isEmpty || x.total ≤ x.seen

namespace Task
variable {l : Likeness} {t : Task} {w : World r} {w' : World r'} {self : Nat}
  {pending : List Continuation}

theorem crash_alike (h : w.ground.Alike l w'.ground) (message : String) :
    (t.crash w self message).Alike l (t.crash w' self message) := by
  refine ⟨?_, rfl, rfl⟩
  unfold crash
  cases t.role with
  | fork handle => exact h.abandon handle
  | branch race index => exact h.arrive race _
  | run | background | host => exact h

theorem conclude_alike (h : w.ground.Alike l w'.ground) (result : Except Fault Dyn) :
    (t.conclude w result).Alike l (t.conclude w' result) := by
  refine ⟨?_, rfl, rfl⟩
  unfold conclude
  cases t.role with
  | fork handle =>
    cases result >>= Dyn.take .json with
    | ok v => exact h.fill handle _
    | error e => exact h.fill handle _
  | branch race index => exact h.arrive race _
  | run => cases result <;> exact h
  | background | host => exact h

theorem finish_alike (h : w.ground.Alike l w'.ground) (result : Except Fault Dyn) :
    (t.finish w result).Alike l (t.finish w' result) := by
  unfold finish
  split
  · exact conclude_alike h result
  · simp only [leaveBoundary]
    split <;> exact ⟨h, rfl, rfl⟩

theorem receive_alike (hr : r'.config = r.config) (h : w.ground.Alike l w'.ground)
    (verdict : Verdict Reply) :
    (t.receive w self pending verdict).Alike l (t.receive w' self pending verdict) := by
  cases verdict with
  | value reply => exact ⟨h, by simp only [receive, proceed, hr], rfl⟩
  | fault e => exact ⟨h, rfl, rfl⟩
  | panic message => exact crash_alike h message

theorem delegate_alike (hr : r'.config = r.config) (h : w.ground.Alike l w'.ground) {call : Call}
    (hc : (w'.accept t.span call).2 = (w.accept t.span call).2) :
    (t.delegate w self pending call).Alike l (t.delegate w' self pending call) := by
  have haccept := h.accept t.span call
  unfold delegate
  cases hw : w.accept t.span call with
  | mk u reception =>
    cases hw' : w'.accept t.span call with
    | mk u' reception' =>
      rw [hw, hw'] at hc haccept
      obtain rfl : reception' = reception := hc
      cases reception' with
      | now verdict => exact receive_alike hr haccept verdict
      | later wait => exact ⟨haccept, by simp only [enter, haccept.due wait], rfl⟩

theorem execute_alike (hr : r'.config = r.config) (h : w.ground.Alike l w'.ground)
    {op : Operation Program} (hc : ∀ call, op.call? = some call →
      (w'.accept t.span call).2 = (w.accept t.span call).2)
    (hp : ∀ handle, op = .peek handle → (w'.cell handle).glance = (w.cell handle).glance) :
    (t.execute w self pending op).Alike l (t.execute w' self pending op) := by
  have hcontainers : w'.containers = w.containers := h.containers
  have hcontainer (i : Nat) : w'.container i = w.container i := by
    simp only [World.container, hcontainers]
  have hmodify (f : Container → Container) :
      (w.modifyContainer t.container f).ground.Alike l (w'.modifyContainer t.container f).ground :=
    ⟨h.now, congrArg (Array.modify · t.container f) hcontainers, h.calls, h.cells, h.races⟩
  cases hcall : op.call? with
  | some call =>
    rw [execute_of_call? hcall, execute_of_call? hcall]
    exact delegate_alike hr h (hc call hcall)
  | none =>
    cases op with
    | callApi | runUi | checkPermissions | requestPermissions => cases hcall
    | read store key =>
      cases store with
      | persistent => cases hcall
      | ephemeral => exact ⟨h, by simp only [execute, proceed, hcontainer], rfl⟩
    | write store key value =>
      cases store with
      | persistent => cases hcall
      | ephemeral => exact ⟨hmodify _, rfl, rfl⟩
    | delete store key =>
      cases store with
      | persistent => cases hcall
      | ephemeral => exact ⟨hmodify _, rfl, rfl⟩
    | writeForeign key value => exact ⟨hmodify _, rfl, rfl⟩
    | readForeignAll => exact ⟨h, by simp only [execute, proceed, hcontainer], rfl⟩
    | fork p =>
      have hsize : w'.cells.size = w.cells.size := h.cells.size
      refine ⟨⟨h.now, h.containers, h.calls, h.cells.push (l.cell_refl _ _), h.races⟩,
        ?_, ?_⟩
      · simp only [execute, proceed, World.newCell, hsize]
      · simp only [execute, proceed, World.newCell, hsize]
    | race ps =>
      cases ps with
      | nil => exact ⟨h, rfl, rfl⟩
      | cons p ps =>
        have hsize : w'.races.size = w.races.size := h.races.size
        refine ⟨⟨h.now, h.containers, h.calls, h.cells, h.races.push (l.race_refl _ _)⟩,
          ?_, ?_⟩
        · simp only [execute, enter, World.newRace, hsize]
        · simp only [execute, enter, World.newRace, hsize]
    | runExternal action => exact ⟨h, by simp only [execute, enter, h.due], rfl⟩
    | delay duration => exact ⟨h, by simp only [execute, enter, h.due], rfl⟩
    | peek handle => exact ⟨h, by simp only [execute, proceed, hp handle rfl], rfl⟩
    | forkUi | await | recover | log => exact ⟨h, rfl, rfl⟩

/-- A call hears the same whatever is told before. -/
theorem accept_emit (w : World r) (span : Span) (event : Event) (call : Call) :
    ((w.emit span event).accept span call).2 = (w.accept span call).2 := by
  cases call <;> rfl

theorem dispatch_alike (hr : r'.config = r.config) (h : w.ground.Alike l w'.ground)
    {op : Operation Program} (hc : ∀ call, op.call? = some call →
      (w'.accept t.span call).2 = (w.accept t.span call).2)
    (hp : ∀ handle, op = .peek handle → (w'.cell handle).glance = (w.cell handle).glance) :
    (t.dispatch w self pending op).Alike l (t.dispatch w' self pending op) := by
  unfold dispatch
  split
  · exact execute_alike hr h hc hp
  · have hemit : (w.emit t.span (.dispatching op.name)).ground.Alike l
        (w'.emit t.span (.dispatching op.name)).ground := h
    refine execute_alike hr hemit ?_ hp
    intro call hcall
    rw [accept_emit, accept_emit]
    exact hc call hcall

theorem closeBackground_alike (h : w.ground.Alike l w'.ground) {v v' : Verdict Reply}
    (hv : v'.message? = v.message?) :
    (t.closeBackground w self v).Alike l (t.closeBackground w' self v') := by
  -- without a panic the task ends quietly, whatever it tells
  have hquiet {s : Runner} (u : World s) (v : Verdict Reply) (hn : v.message? = none) :
      ∃ u', u'.ground = u.ground ∧
        t.closeBackground u self v = t.enter u' (.ended (.value .unit)) := by
    unfold closeBackground
    split
    · split
      · exact ⟨u, rfl, rfl⟩
      next e _ => exact ⟨u.emit t.span (.backgroundUndecodable e), rfl, rfl⟩
    · exact ⟨u, rfl, rfl⟩
    next e => exact ⟨u.emit t.span (.backgroundFailed e), rfl, rfl⟩
    · cases hn
  cases hm : v.message? with
  | none =>
    obtain ⟨u, hu, heq⟩ := hquiet w v hm
    obtain ⟨u', hu', heq'⟩ := hquiet w' v' (hv.trans hm)
    rw [heq, heq']
    exact ⟨by simpa only [enter, hu, hu'] using h, rfl, rfl⟩
  | some message =>
    have hpanic {v : Verdict Reply} (h : v.message? = some message) : v = .panic message := by
      cases v <;> cases h
      rfl
    rw [hpanic hm, hpanic (hv.trans hm)]
    exact crash_alike h message

theorem openBackground_alike (h : w.ground.Alike l w'.ground) {request : String}
    (ho : (w.accept t.span (.ui request)).2.Alike (w'.accept t.span (.ui request)).2) :
    (t.openBackground w self request).Alike l (t.openBackground w' self request) := by
  have haccept := h.accept t.span (.ui request)
  unfold openBackground
  cases hw : w.accept t.span (.ui request) with
  | mk u reception =>
    cases hw' : w'.accept t.span (.ui request) with
    | mk u' reception' =>
      rw [hw, hw'] at ho haccept
      cases ho with
      | now hv => exact closeBackground_alike haccept hv
      | @later wait => exact ⟨haccept, by simp only [enter, haccept.due wait], rfl⟩

theorem wake_alike (hr : r'.config = r.config) (h : w.ground.Alike l w'.ground) {due : Option Nat}
    {alarm : Alarm} (hp : t.phase = .sleeping due alarm pending) (ht : t.Hears w w') :
    (t.wake w self pending alarm).Alike l (t.wake w' self pending alarm) := by
  have hanswer (call : Call) :
      (w.answer t.span call).1.ground.Alike l (w'.answer t.span call).1.ground := by
    rw [World.ground_answer, World.ground_answer]
    exact h
  cases alarm with
  | delay => exact ⟨h, rfl, rfl⟩
  | external ending =>
    cases ending with
    | value v => exact ⟨h, rfl, rfl⟩
    | failure message contexts => exact ⟨h, rfl, rfl⟩
    | panic message => exact crash_alike h message
  | call call =>
    simp only [wake]
    rw [ht.answered due call pending hp]
    exact receive_alike hr (hanswer call) _
  | background request =>
    exact closeBackground_alike (hanswer (.ui request)) (ht.closed due request pending hp)
  | host handle result =>
    cases result with
    | some result => exact ⟨h.fill handle result, rfl, rfl⟩
    | none => exact ⟨h.abandon handle, rfl, rfl⟩

/-- What a race makes of an arrival does not depend on what arrives later. -/
theorem judge_alike (h : w.ground.Alike l w'.ground) (race : Nat) (x : Race) (a : Arrival)
    (arrivals : List Arrival) {rest rest' : List Arrival}
    (hx : ∀ fault, l.race race ⟨x.total, x.seen + 1, fault, rest⟩
      ⟨x.total, x.seen + 1, fault, rest'⟩) :
    (t.judge w race pending x a rest).Alike l
      (t.judge w' race pending { x with arrivals := arrivals } a rest') := by
  have hraces (fault : Fault) : Pointwise l.race
      (w.races.modify race fun _ => ⟨x.total, x.seen + 1, fault, rest⟩)
      (w'.races.modify race fun _ => ⟨x.total, x.seen + 1, fault, rest'⟩) :=
    Pointwise.modify h.races fun _ _ _ _ => hx fault
  simp only [judge]
  split
  · exact ⟨⟨h.now, h.containers, h.calls, h.cells, hraces _⟩, rfl, rfl⟩
  · exact ⟨⟨h.now, h.containers, h.calls, h.cells, hraces _⟩, rfl, rfl⟩
  · exact ⟨⟨h.now, h.containers, h.calls, h.cells, hraces _⟩, rfl, rfl⟩

/-- What a task does next is decided by what it hears. -/
theorem step?_alike (hr : r'.config = r.config) (h : w.ground.Alike l w'.ground)
    (ht : t.Hears w w') :
    Option.Rel (Effect.Alike l) (t.step? w self) (t.step? w' self) := by
  have hnow : w'.now = w.now := h.now
  cases hp : t.phase with
  | running c =>
    cases hc : c.advance with
    | finished result =>
      simp only [step?, hp, hc]
      exact .some (finish_alike h result)
    | execute op pending =>
      simp only [step?, hp, hc]
      refine .some (dispatch_alike hr h ?_ ?_)
      · intro call hcall
        exact ht.accepted c op pending call hp hc hcall
      · rintro handle rfl
        exact ht.peeked c handle pending hp hc
  | sleeping due alarm pending =>
    cases due with
    | none =>
      simp only [step?, hp]
      exact .none
    | some due =>
      simp only [step?, hp, hnow]
      split
      · exact .some (wake_alike hr h hp ht)
      · exact .none
  | awaiting handle pending =>
    simp only [step?, hp, ht.awaited handle pending hp]
    cases (w.cell handle).outcome? handle with
    | none => exact .none
    | some result => exact .some ⟨h, rfl, rfl⟩
  | racing race pending =>
    simp only [step?, hp, ht.raced race pending hp]
    split
    next x _ =>
      split
      · exact .some (judge_alike h race x _ x.arrivals fun _ => l.race_refl _ _)
      · split
        · exact .none
        · exact .some ⟨h, rfl, rfl⟩
    · exact .none
  | opening request =>
    simp only [step?, hp]
    exact .some (openBackground_alike h (ht.opened request hp))
  | ended v =>
    simp only [step?, hp]
    exact .none

theorem step?_racing {race : Nat} (hp : t.phase = .racing race pending) :
    (t.step? w self).isSome = w.races[race]?.any Race.isReady := by
  simp only [step?, hp]
  cases w.races[race]? with
  | none => rfl
  | some x =>
    cases hx : x.arrivals with
    | cons a rest => simp [hx, Race.isReady]
    | nil =>
      by_cases hs : x.seen < x.total
      · have hle : ¬ x.total ≤ x.seen := by omega
        simp [hx, Race.isReady, hs, hle]
      · have hle : x.total ≤ x.seen := by omega
        simp [hx, Race.isReady, hs, hle]

/-- Whether a task can step is decided by the clock, the handle and the race that it waits for. -/
theorem isSome_step? (hn : w'.now = w.now)
    (ha : ∀ h pending, t.phase = .awaiting h pending →
      ((w'.cell h).outcome? h).isSome = ((w.cell h).outcome? h).isSome)
    (hx : ∀ race pending, t.phase = .racing race pending →
      w'.races[race]?.any Race.isReady = w.races[race]?.any Race.isReady) :
    (t.step? w' self).isSome = (t.step? w self).isSome := by
  cases hp : t.phase with
  | running c => cases hc : c.advance <;> simp only [step?, hp, hc] <;> rfl
  | sleeping due alarm pending =>
    cases due with
    | none => simp only [step?, hp]; rfl
    | some due =>
      simp only [step?, hp, hn]
      split <;> rfl
  | awaiting handle pending =>
    simp only [step?, hp, Option.isSome_map]
    exact ha handle pending hp
  | racing race pending =>
    rw [step?_racing hp, step?_racing hp]
    exact hx race pending hp
  | opening request => simp only [step?, hp]; rfl
  | ended v => simp only [step?, hp]; rfl

end Task

/-- The collaborators are as before. -/
structure World.Rests (w w' : World r) : Prop where
  ui : w'.ui = w.ui
  api : w'.api = w.api
  permissions : w'.permissions = w.permissions
  storage : w'.storage = w.storage

namespace Machine
variable {l : Likeness} {R : Nat → Task → Task → Prop} {m m₁ : Machine r}
  {m' m₁' : Machine r'}
  {a : Happening} {i : Nat} {t t' : Task} {e : Effect r} {e' : Effect r'}

/-- The machines share grounds that are alike, and their tasks are related one by one. -/
structure Alike (l : Likeness) (R : Nat → Task → Task → Prop) (m : Machine r)
    (m' : Machine r') : Prop where
  ground : m.world.ground.Alike l m'.world.ground
  tasks : Pointwise R m.tasks m'.tasks

/-- A step of a task, or what the clock and the host do. -/
theorem step_or_idle (a : Happening) :
    (∃ i, a = .move (.step i)) ∨ ∀ i, a ≠ .move (.step i) := by
  by_cases h : ∃ i, a = .move (.step i)
  · exact .inl h
  · exact .inr fun i hi => h ⟨i, hi⟩

/-- Tasks stay related one by one if those that step and those that are launched are. -/
theorem pointwise_stepped (h : Pointwise R m.tasks m'.tasks) (hs : Stepped m i t e m₁)
    (hs' : Stepped m' i t' e' m₁') (ht : R i e.task e'.task)
    (hsize : e'.launched.length = e.launched.length)
    (hl : ∀ (n : Nat) (u u' : Task), e.launched[n]? = some u → e'.launched[n]? = some u' →
      R (m.tasks.size + n) u u') :
    Pointwise R m₁.tasks m₁'.tasks := by
  have htasks := h.size
  refine ⟨by rw [hs.size, hs'.size, htasks, hsize], ?_⟩
  intro k u u' hu hu'
  have hlt := hs.lt
  rcases hs.cases hu with ⟨rfl, rfl⟩ | ⟨hne, hu⟩ | ⟨n, rfl, hn⟩
  · cases hs'.self.symm.trans hu'
    exact ht
  · have hk := (Array.getElem?_eq_some_iff.mp hu).1
    rcases hs'.cases hu' with ⟨heq, -⟩ | ⟨-, hu'⟩ | ⟨n, heq, -⟩
    · exact absurd heq hne
    · exact h.rel k u u' hu hu'
    · omega
  · rcases hs'.cases hu' with ⟨heq, -⟩ | ⟨-, hu'⟩ | ⟨n', heq, hn'⟩
    · omega
    · have hk := (Array.getElem?_eq_some_iff.mp hu').1
      omega
    · obtain rfl : n' = n := by omega
      exact hl n' u u' hn hn'

/-- Two steps that end alike leave the machines alike. -/
theorem Alike.step (h : m.Alike l R m') (hs : Stepped m i t e m₁) (hs' : Stepped m' i t' e' m₁')
    (hg : e.world.ground.Alike l e'.world.ground) (ht : R i e.task e'.task)
    (hl : e'.launched = e.launched) (hR : ∀ k u, m.tasks.size ≤ k → R k u u) :
    m₁.Alike l R m₁' := by
  refine ⟨by rw [hs.world, hs'.world]; exact hg,
    pointwise_stepped h.tasks hs hs' ht (by rw [hl]) ?_⟩
  intro n u u' hu hu'
  rw [hl] at hu'
  cases hu.symm.trans hu'
  exact hR _ u (Nat.le_add_right _ _)

/-- What is launched from outside is the same. -/
theorem runner_congr (hr : r'.config = r.config) (p : Program) (container : Nat) :
    runner r' p container = runner r p container := by
  simp only [runner, hr]

/-- The clock and the host leave the machines alike, and the collaborators as they are. -/
theorem Alike.idle (hr : r'.config = r.config) (h : m.Alike l R m') (hq : m'.isQuiet = m.isQuiet)
    (hd : m'.nextDue = m.nextDue) (hR : ∀ k u, m.tasks.size ≤ k → R k u u)
    (hn : ∀ i, a ≠ .move (.step i)) (ha : m.happen? a = some m₁) :
    ∃ m₁', m'.happen? a = some m₁' ∧ m₁.Alike l R m₁' ∧ m.world.Rests m₁.world ∧
      m'.world.Rests m₁'.world := by
  cases a with
  | move a =>
    cases a with
    | step i => exact absurd rfl (hn i)
    | tick =>
      obtain ⟨hquiet, due, hdue, rfl⟩ := of_tick ha
      refine ⟨{ m' with world := { m'.world with now := due } }, ?_, ?_, ?_, ?_⟩
      · simp [happen?, move?, hq, hquiet, tick?, hd, hdue]
      · exact ⟨⟨rfl, h.ground.containers, h.ground.calls, h.ground.cells, h.ground.races⟩,
          h.tasks⟩
      · exact ⟨rfl, rfl, rfl, rfl⟩
      · exact ⟨rfl, rfl, rfl, rfl⟩
  | launch p container =>
    cases ha
    refine ⟨_, rfl, ⟨h.ground, ?_⟩, ⟨rfl, rfl, rfl, rfl⟩, ⟨rfl, rfl, rfl, rfl⟩⟩
    have htasks : (m'.launch p container).1.tasks = m'.tasks.push (runner r p container) :=
      congrArg m'.tasks.push (runner_congr hr p container)
    rw [htasks]
    exact h.tasks.push (hR m.tasks.size (runner r p container) (Nat.le_refl _))
  | supply c =>
    cases ha
    refine ⟨_, rfl,
      ⟨⟨h.ground.now, ?_, h.ground.calls, h.ground.cells, h.ground.races⟩, h.tasks⟩,
      ⟨rfl, rfl, rfl, rfl⟩, ⟨rfl, rfl, rfl, rfl⟩⟩
    exact congrArg (Array.push · c) h.ground.containers

theorem foldl_earlier_congr {now : Nat} {ts ts' : List Task} (best : Option Nat)
    (h : ts'.map dueOf = ts.map dueOf) :
    ts'.foldl (earlier now) best = ts.foldl (earlier now) best := by
  induction ts generalizing ts' best with
  | nil =>
    rw [List.map_nil, List.map_eq_nil_iff] at h
    rw [h]
  | cons t ts ih =>
    cases ts' with
    | nil => cases h
    | cons t' ts' =>
      obtain ⟨hhead, htail⟩ := List.cons.inj h
      have hearlier : earlier now best t' = earlier now best t := by
        simp only [earlier, hhead]
      rw [List.foldl_cons, List.foldl_cons, hearlier]
      exact ih _ htail

/-- Machines whose tasks sleep for the same times move their clocks alike. -/
theorem nextDue_congr (hnow : m'.world.now = m.world.now) (h : Pointwise R m.tasks m'.tasks)
    (hR : ∀ k u u', R k u u' → dueOf u' = dueOf u) : m'.nextDue = m.nextDue := by
  have hsize := h.size
  rw [nextDue_eq, nextDue_eq, hnow]
  apply foldl_earlier_congr
  apply List.ext_getElem?
  intro k
  simp only [List.getElem?_map, Array.getElem?_toList]
  by_cases hk : k < m.tasks.size
  · have hk' : k < m'.tasks.size := by omega
    have hrel := h.rel k _ _ (Array.getElem?_eq_getElem hk) (Array.getElem?_eq_getElem hk')
    rw [Array.getElem?_eq_getElem hk, Array.getElem?_eq_getElem hk', Option.map_some,
      Option.map_some, hR k _ _ hrel]
  · rw [Array.getElem?_eq_none (by omega), Array.getElem?_eq_none (by omega)]

theorem Alike.nextDue (h : m.Alike l R m') (hR : ∀ k u u', R k u u' → dueOf u' = dueOf u) :
    m'.nextDue = m.nextDue :=
  nextDue_congr h.ground.now h.tasks hR

theorem isSome_step?_congr (h : m'.tasks.size = m.tasks.size)
    (hstep : ∀ (k : Nat) (u u' : Task), m.tasks[k]? = some u → m'.tasks[k]? = some u' →
      (u'.step? m'.world k).isSome = (u.step? m.world k).isSome) (k : Nat) :
    (m'.step? k).isSome = (m.step? k).isSome := by
  by_cases hk : k < m.tasks.size
  · have hget := Array.getElem?_eq_getElem hk
    have hget' := Array.getElem?_eq_getElem (h.symm ▸ hk)
    simp only [step?, hget, hget', Option.isSome_map]
    exact hstep k _ _ hget hget'
  · have hk' : m'.tasks.size ≤ k := by omega
    simp [step?, Array.getElem?_eq_none (Nat.le_of_not_lt hk), Array.getElem?_eq_none hk']

/-- Machines whose tasks can step at the same time are quiet at the same time. -/
theorem isQuiet_congr (h : m'.tasks.size = m.tasks.size)
    (hstep : ∀ (k : Nat) (u u' : Task), m.tasks[k]? = some u → m'.tasks[k]? = some u' →
      (u'.step? m'.world k).isSome = (u.step? m.world k).isSome) :
    m'.isQuiet = m.isQuiet := by
  have hnone (k : Nat) : m'.step? k = none ↔ m.step? k = none := by
    rw [← Option.not_isSome_iff_eq_none, ← Option.not_isSome_iff_eq_none,
      isSome_step?_congr h hstep]
  rw [Bool.eq_iff_iff, isQuiet_iff, isQuiet_iff]
  exact forall_congr' hnone

theorem Alike.isQuiet (h : m.Alike l R m')
    (hstep : ∀ (k : Nat) (u u' : Task), m.tasks[k]? = some u → m'.tasks[k]? = some u' →
      (u'.step? m'.world k).isSome = (u.step? m.world k).isSome) :
    m'.isQuiet = m.isQuiet :=
  isQuiet_congr h.tasks.size hstep

/-- Machines with the same tasks on the same ground idle alike. -/
theorem Alike.idle_same (hr : r'.config = r.config) (h : m.Alike .same (fun _ t t' => t' = t) m')
    (hn : ∀ i, a ≠ .move (.step i)) (ha : m.happen? a = some m₁) :
    ∃ m₁', m'.happen? a = some m₁' ∧ m₁.Alike .same (fun _ t t' => t' = t) m₁' ∧
      m.world.Rests m₁.world ∧ m'.world.Rests m₁'.world := by
  have hcell (handle : Handle) : m'.world.cell handle = m.world.cell handle := h.ground.cell handle
  have hraces : m'.world.races = m.world.races := h.ground.races.eq
  have hquiet : m'.isQuiet = m.isQuiet := by
    apply h.isQuiet
    intro k u u' hu hu'
    obtain rfl : u' = u := h.tasks.rel k u u' hu hu'
    refine Task.isSome_step? h.ground.now ?_ ?_
    · intro handle pending _
      rw [hcell]
    · intro race pending _
      rw [hraces]
  have hdue : m'.nextDue = m.nextDue := h.nextDue fun _ _ _ heq => by rw [heq]
  exact h.idle hr hquiet hdue (fun _ _ _ => rfl) hn ha

end Machine

end Workflow
