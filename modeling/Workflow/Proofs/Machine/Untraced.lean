import Workflow.Proofs.Machine.Lockstep
import Workflow.Proofs.Machine.Rest
import Workflow.Proofs.Program.Resemble
import Workflow.Proofs.Session
import Workflow.Service.Memory

/-! What programs store is not told.

Two runs of programs that differ only in the values that they store go on side by side: the same
tasks step, the same results are awaited and the same keys are stored under, so the same is told. -/
namespace Workflow

/-- The runner with a persistent store that lives in memory. -/
def Runner.inMemory (r : Runner) : Runner :=
  ⟨{ r.collaborators with storage := MemoryStore.service }, r.config⟩

variable {r : Runner}

/-- What is stored persistently. -/
def World.stored (w : World r.inMemory) : MemoryStore := w.storage

/-- The persistent store has been called. -/
def World.called (w : World r.inMemory) (call : StorageCall) : World r.inMemory :=
  { w with calls := (w.now, .storage call) :: w.calls, storage := (w.stored.call call).1 }

/-- The same was told, and the worlds differ only in stored values. -/
structure World.Resembles (w w' : World r.inMemory) : Prop where
  now : w'.now = w.now
  cells : w'.cells = w.cells
  trace : w'.trace = w.trace
  keys : ∀ key, w'.stored.entries.contains key = w.stored.entries.contains key

/-- The tasks do alike what is left to do. -/
inductive Phase.Resembles : Phase → Phase → Prop
  | running {c c' : Cursor} (h : c.Resembles c') : Resembles (.running c) (.running c')
  | delayed (due : Option Nat) {pending pending' : List Continuation}
    (h : StacksResemble pending pending') :
    Resembles (.sleeping due .delay pending) (.sleeping due .delay pending')
  | hosting (due : Option Nat) (handle : Handle) (result : Option (Except Fault Json)) :
    Resembles (.sleeping due (.host handle result) []) (.sleeping due (.host handle result) [])
  | awaiting (handle : Handle) {pending pending' : List Continuation}
    (h : StacksResemble pending pending') :
    Resembles (.awaiting handle pending) (.awaiting handle pending')
  | ended (v v' : Verdict Dyn) : Resembles (.ended v) (.ended v')

structure Task.Resembles (t t' : Task) : Prop where
  role : t'.role = t.role
  span : t'.span = t.span
  boundaries : List.Forall₂ StacksResemble t.boundaries t'.boundaries
  phase : t.phase.Resembles t'.phase

structure Effect.Resembles (e e' : Effect r.inMemory) : Prop where
  world : e.world.Resembles e'.world
  task : e.task.Resembles e'.task
  launched : List.Forall₂ Task.Resembles e.launched e'.launched

namespace World.Resembles
variable {w w' : World r.inMemory} (h : w.Resembles w')
include h

theorem emit (span : Span) (event : Event) :
    (w.emit span event).Resembles (w'.emit span event) := by
  refine ⟨h.now, h.cells, ?_, h.keys⟩
  rw [World.emit, World.emit, h.now, h.trace]

theorem modifyCell (handle : Handle) (f : Cell → Cell) :
    (w.modifyCell handle f).Resembles (w'.modifyCell handle f) := by
  refine ⟨h.now, ?_, h.trace, h.keys⟩
  rw [World.modifyCell, World.modifyCell, h.cells]

theorem newCell : w.newCell.1.Resembles w'.newCell.1 ∧ w'.newCell.2 = w.newCell.2 := by
  refine ⟨⟨h.now, ?_, h.trace, h.keys⟩, ?_⟩
  · rw [World.newCell, World.newCell, h.cells]
  · rw [World.newCell, World.newCell, h.cells]

/-- What is written and read elsewhere is not told. -/
theorem modifyContainer (i i' : Nat) (f f' : Container → Container) :
    (w.modifyContainer i f).Resembles (w'.modifyContainer i' f') :=
  ⟨h.now, h.cells, h.trace, h.keys⟩

theorem get (key : String) : (w.called (.get key)).Resembles (w'.called (.get key)) :=
  ⟨h.now, h.cells, h.trace, h.keys⟩

theorem set (key value value' : String) :
    (w.called (.set key value)).Resembles (w'.called (.set key value')) := by
  refine ⟨h.now, h.cells, h.trace, fun k => ?_⟩
  have hk : (w'.stored.entries.find? k).isSome = (w.stored.entries.find? k).isSome := h.keys k
  change ((w'.stored.entries.insert key value').find? k).isSome =
    ((w.stored.entries.insert key value).find? k).isSome
  rw [Table.find?_insert, Table.find?_insert]
  split
  · rfl
  · exact hk

theorem delete (key : String) : (w.called (.delete key)).Resembles (w'.called (.delete key)) := by
  refine ⟨h.now, h.cells, h.trace, fun k => ?_⟩
  have hk : (w'.stored.entries.find? k).isSome = (w.stored.entries.find? k).isSome := h.keys k
  change ((w'.stored.entries.erase key).find? k).isSome =
    ((w.stored.entries.erase key).find? k).isSome
  rw [Table.find?_erase, Table.find?_erase]
  split
  · rfl
  · exact hk

theorem cell_eq (handle : Handle) : w'.cell handle = w.cell handle := by
  rw [World.cell, World.cell, h.cells]

theorem due_eq (wait : Wait) : w'.due wait = w.due wait := by
  cases wait <;> simp [World.due, h.now]

end World.Resembles

namespace Task
variable {t t' : Task} {w w' : World r.inMemory} {self : Nat} {pending pending' : List Continuation}
  {result result' : Except Fault Dyn}

/-- Tasks that resemble each other tell the same. -/
theorem emit_resembles (ht : t.Resembles t') (hw : w.Resembles w') (event : Event) :
    (w.emit t.span event).Resembles (w'.emit t'.span event) :=
  ht.span ▸ hw.emit t.span event

theorem enter_resembles (ht : t.Resembles t') (hw : w.Resembles w') {phase phase' : Phase}
    (hp : phase.Resembles phase') : (t.enter w phase).Resembles (t'.enter w' phase') :=
  ⟨hw, ⟨ht.role, ht.span, ht.boundaries, hp⟩, .nil⟩

theorem proceed_resembles (ht : t.Resembles t') (hw : w.Resembles w')
    (hs : StacksResemble pending pending') (hr : ResultsResemble result result') :
    (t.proceed w pending result).Resembles (t'.proceed w' pending' result') :=
  enter_resembles ht hw (.running (hs.resume hr))

theorem conclude_resembles (ht : t.Resembles t') (hw : w.Resembles w')
    (hr : ResultsResemble result result') :
    (t.conclude w result).Resembles (t'.conclude w' result') := by
  have hjson := hr.take_eq .json nofun nofun
  refine enter_resembles ht ?_ (.ended _ _)
  rw [ht.role]
  cases t.role with
  | run => cases hr <;> exact emit_resembles ht hw _
  | fork handle =>
    simp only [hjson]
    cases result >>= Dyn.take .json with
    | ok v => exact hw.modifyCell _ _
    | error e => exact (emit_resembles ht hw _).modifyCell _ _
  | branch race index => exact ⟨hw.now, hw.cells, hw.trace, hw.keys⟩
  | background | host => exact hw

theorem leaveBoundary_resembles {outer outer' : List (List Continuation)} (ht : t.Resembles t')
    (hw : w.Resembles w') (hs : StacksResemble pending pending')
    (houter : List.Forall₂ StacksResemble outer outer') (hr : ResultsResemble result result') :
    (t.leaveBoundary w pending outer result).Resembles
      (t'.leaveBoundary w' pending' outer' result') := by
  have houtcome := hr.take_eq .outcome nofun nofun
  have ht : Task.Resembles { t with boundaries := outer } { t' with boundaries := outer' } :=
    ⟨ht.role, ht.span, houter, ht.phase⟩
  unfold leaveBoundary
  simp only [houtcome]
  cases result >>= Dyn.take .outcome with
  | error e => exact proceed_resembles ht (emit_resembles ht hw _) hs (.ok (.same _))
  | ok outcome =>
    cases outcome with
    | succeed v => exact proceed_resembles ht hw hs (.ok (.same _))
    | fail message => exact proceed_resembles ht hw hs (.error _)

theorem finish_resembles (ht : t.Resembles t') (hw : w.Resembles w')
    (hr : ResultsResemble result result') :
    (t.finish w result).Resembles (t'.finish w' result') := by
  have hboundaries := ht.boundaries
  unfold finish
  generalize t.boundaries = boundaries at hboundaries
  generalize t'.boundaries = boundaries' at hboundaries
  cases hboundaries with
  | nil => exact conclude_resembles ht hw hr
  | cons hs houter => exact leaveBoundary_resembles ht hw hs houter hr

/-- The persistent store tells that a key is deleted if there is something to delete. -/
theorem delete_resembles (ht : t.Resembles t') (hw : w.Resembles w') (key : String) :
    ((w.called (.delete key)).emitAll t.span
      (if w.stored.entries.contains key then [.storeDeleted key] else [])).Resembles
    ((w'.called (.delete key)).emitAll t'.span
      (if w'.stored.entries.contains key then [.storeDeleted key] else [])) := by
  rw [hw.keys]
  split
  · exact emit_resembles ht (hw.delete key) _
  · exact hw.delete key

/-- An operation does alike what it does, whatever the values are that it writes. -/
theorem execute_resembles (ht : t.Resembles t') (hw : w.Resembles w')
    (hs : StacksResemble pending pending') {op op' : Operation Program}
    (hop : (Program.step op).Resembles (.step op')) :
    (t.execute w self pending op).Resembles (t'.execute w' self pending' op') := by
  cases hop with
  | read store key =>
    cases store with
    | persistent => exact proceed_resembles ht (hw.get key) hs (.ok (.named _ _))
    | ephemeral => exact proceed_resembles ht hw hs (.ok (.named _ _))
  | write store key value value' =>
    cases store with
    | persistent =>
      exact proceed_resembles ht (emit_resembles ht (hw.set key value value') _) hs (.ok (.same _))
    | ephemeral =>
      exact proceed_resembles ht ((emit_resembles ht hw _).modifyContainer _ _ _ _) hs
        (.ok (.same _))
  | delete store key =>
    cases store with
    | persistent => exact proceed_resembles ht (delete_resembles ht hw key) hs (.ok (.same _))
    | ephemeral =>
      exact proceed_resembles ht ((emit_resembles ht hw _).modifyContainer _ _ _ _) hs
        (.ok (.same _))
  | readForeignAll => exact proceed_resembles ht hw hs (.ok (.foreign _ _))
  | writeForeign key value value' =>
    exact proceed_resembles ht ((emit_resembles ht hw _).modifyContainer _ _ _ _) hs (.ok (.same _))
  | delay duration =>
    refine enter_resembles ht hw ?_
    rw [hw.due_eq]
    exact .delayed _ hs
  | fork h =>
    obtain ⟨hcell, hhandle⟩ := hw.newCell
    have hproceed : (t.proceed w.newCell.1 pending (.ok ⟨.handle, w.newCell.2⟩)).Resembles
        (t'.proceed w'.newCell.1 pending' (.ok ⟨.handle, w'.newCell.2⟩)) := by
      rw [hhandle]
      exact proceed_resembles ht hcell hs (.ok (.same _))
    refine ⟨hproceed.world, hproceed.task, .cons ⟨?_, ?_, .nil, .running h.new⟩ .nil⟩
    · exact congrArg Role.fork hhandle
    · exact congrArg Span.fork ht.span
  | await handle => exact enter_resembles ht (emit_resembles ht hw _) (.awaiting handle hs)
  | recover h =>
    exact ⟨hw, ⟨ht.role, ht.span, .cons hs ht.boundaries, .running h.new⟩, .nil⟩

theorem dispatch_resembles (ht : t.Resembles t') (hw : w.Resembles w')
    (hs : StacksResemble pending pending') {op op' : Operation Program}
    (hop : (Program.step op).Resembles (.step op')) :
    (t.dispatch w self pending op).Resembles (t'.dispatch w' self pending' op') := by
  have hexecute : (t.execute (w.emit t.span (.dispatching op.name)) self pending op).Resembles
      (t'.execute (w'.emit t'.span (.dispatching op.name)) self pending' op') :=
    execute_resembles ht (emit_resembles ht hw _) hs hop
  cases hop <;> exact hexecute

/-- Tasks that resemble each other can step at the same time, and do so alike. -/
theorem Resembles.step? (ht : t.Resembles t') (hw : w.Resembles w') :
    Option.Rel Effect.Resembles (t.step? w self) (t'.step? w' self) := by
  have hphase := ht.phase
  unfold Task.step?
  generalize t.phase = phase at hphase
  generalize t'.phase = phase' at hphase
  cases hphase with
  | running h =>
    cases h with
    | finished h h' hresult =>
      simp only [h, h']
      exact .some (finish_resembles ht hw hresult)
    | execute h h' hop hpending =>
      simp only [h, h']
      exact .some (dispatch_resembles ht hw hpending hop)
  | delayed due hs =>
    cases due with
    | none => exact .none
    | some due =>
      simp only [hw.now]
      split
      · exact .some (proceed_resembles ht hw hs (.ok (.same _)))
      · exact .none
  | hosting due handle result =>
    cases due with
    | none => exact .none
    | some due =>
      simp only [hw.now]
      split
      · cases result <;> exact .some (enter_resembles ht (hw.modifyCell _ _) (.ended _ _))
      · exact .none
  | awaiting handle hs =>
    simp only [hw.cell_eq]
    cases (w.cell handle).outcome? handle with
    | none => exact .none
    | some result =>
      refine .some (proceed_resembles ht hw hs ?_)
      cases result with
      | ok v => exact .ok (.same _)
      | error e => exact .error e
  | ended => exact .none

theorem Resembles.dueOf_eq (ht : t.Resembles t') : Machine.dueOf t' = Machine.dueOf t := by
  have hphase := ht.phase
  unfold Machine.dueOf
  generalize t.phase = phase at hphase
  generalize t'.phase = phase' at hphase
  cases hphase <;> rfl

end Task

namespace Machine
variable {m m' m₁ : Machine r.inMemory}

/-- The machines differ only in stored values and in what is still to be stored. -/
structure Resembles (m m' : Machine r.inMemory) : Prop where
  world : m.world.Resembles m'.world
  tasks : Pointwise (fun _ => Task.Resembles) m.tasks m'.tasks

/-- The same happens, and programs are started that differ only in the values that they store. -/
inductive Happening.Resembles : Happening → Happening → Prop
  | move (a : Move) : Resembles (.move a) (.move a)
  | launch {p p' : Program} (h : p.Resembles p') (container : Nat) :
    Resembles (.launch p container) (.launch p' container)
  | supply (c : Container) : Resembles (.supply c) (.supply c)

namespace Resembles

theorem step (h : m.Resembles m') {i : Nat} (hm : m.step? i = some m₁) :
    ∃ m₁', m'.step? i = some m₁' ∧ m₁.Resembles m₁' := by
  obtain ⟨t, e, he, hs⟩ := step?_stepped hm
  have hlt : i < m'.tasks.size := h.tasks.size ▸ hs.lt
  have ht := h.tasks.rel i t _ hs.task (Array.getElem?_eq_getElem hlt)
  obtain ⟨e', he', heffect⟩ := exists_of_rel_some (ht.step? h.world) he
  obtain ⟨m₁', hm₁', hs'⟩ := stepped_of_task (Array.getElem?_eq_getElem hlt) he'
  refine ⟨m₁', hm₁', by rw [hs.world, hs'.world]; exact heffect.world, ?_⟩
  refine pointwise_stepped h.tasks hs hs' heffect.task heffect.launched.length_eq.symm ?_
  intro n u u' hu hu'
  obtain ⟨hn, rfl⟩ := List.getElem?_eq_some_iff.mp hu
  obtain ⟨hn', rfl⟩ := List.getElem?_eq_some_iff.mp hu'
  exact heffect.launched.get hn hn'

theorem isSome_step? (h : m.Resembles m') {k : Nat} {u u' : Task} (hu : m.tasks[k]? = some u)
    (hu' : m'.tasks[k]? = some u') : (u'.step? m'.world k).isSome = (u.step? m.world k).isSome := by
  have hrel : Option.Rel Effect.Resembles (u.step? m.world k) (u'.step? m'.world k) :=
    (h.tasks.rel k u u' hu hu').step? h.world
  generalize u.step? m.world k = x at hrel
  generalize u'.step? m'.world k = y at hrel
  cases hrel <;> rfl

theorem isQuiet_eq (h : m.Resembles m') : m'.isQuiet = m.isQuiet :=
  isQuiet_congr h.tasks.size fun _ _ _ => h.isSome_step?

theorem nextDue_eq (h : m.Resembles m') : m'.nextDue = m.nextDue :=
  nextDue_congr h.world.now h.tasks fun _ _ _ ht => ht.dueOf_eq

theorem happen {a a' : Happening} (h : m.Resembles m') (ha : a.Resembles a')
    (hm : m.happen? a = some m₁) :
    ∃ m₁', m'.happen? a' = some m₁' ∧ m₁.Resembles m₁' := by
  cases ha with
  | move a =>
    cases a with
    | step i => exact h.step hm
    | tick =>
      obtain ⟨hquiet, due, hdue, rfl⟩ := of_tick hm
      refine ⟨{ m' with world := { m'.world with now := due } }, ?_, ?_⟩
      · simp [happen?, move?, h.isQuiet_eq, hquiet, tick?, h.nextDue_eq, hdue]
      · exact ⟨⟨rfl, h.world.cells, h.world.trace, h.world.keys⟩, h.tasks⟩
  | launch hp container =>
    cases hm
    exact ⟨_, rfl, h.world.emit _ _, h.tasks.push ⟨rfl, rfl, .nil, .running hp.new⟩⟩
  | supply c =>
    cases hm
    exact ⟨_, rfl, ⟨h.world.now, h.world.cells, h.world.trace, h.world.keys⟩, h.tasks⟩

/-- What happens to the one machine can happen to the other. -/
theorem run {as as' : List Happening} (h : m.Resembles m')
    (has : List.Forall₂ Happening.Resembles as as') (hr : Run m as m₁) :
    ∃ m₁', Run m' as' m₁' ∧ m₁.Resembles m₁' := by
  induction hr generalizing m' as' with
  | refl =>
    cases has
    exact ⟨m', .refl, h⟩
  | step hm _ ih =>
    cases has with
    | cons ha has =>
      obtain ⟨m₂, hm₂, h₂⟩ := h.happen ha hm
      obtain ⟨m₁', hr', h₁⟩ := ih h₂ has
      exact ⟨m₁', .step hm₂ hr', h₁⟩

theorem atRest_iff (h : m.Resembles m') : m'.AtRest ↔ m.AtRest := by
  unfold AtRest
  rw [move?_eq_none_iff, move?_eq_none_iff, ← isQuiet_iff, ← isQuiet_iff,
    h.isQuiet_eq, h.nextDue_eq]

end Resembles

theorem resembles_initial (hm : m.Initial) : m.Resembles m := by
  refine ⟨⟨rfl, rfl, rfl, fun _ => rfl⟩, rfl, ?_⟩
  intro i t t' ht ht'
  cases ht.symm.trans ht'
  obtain ⟨hrole, hboundaries, handle, ⟨due, result, hphase⟩, -⟩ := hm.writers i t ht
  refine ⟨rfl, rfl, ?_, ?_⟩
  · rw [hboundaries]
    exact .nil
  · rw [hphase]
    exact .hosting due handle result

/-- The values that programs store are not told: if the same happens, with programs that differ only
in those values, then the same is told at the same times, and neither run ends before the other. -/
theorem stored_values_untold (hm : m.Initial) {as as' : List Happening}
    (has : List.Forall₂ Happening.Resembles as as') (hr : Run m as m₁) :
    ∃ m₂, Run m as' m₂ ∧ m₂.world.trace = m₁.world.trace ∧
      (m₂.AtRest ↔ m₁.AtRest) := by
  obtain ⟨m₂, hr', h⟩ := (resembles_initial hm).run has hr
  exact ⟨m₂, hr', h.world.trace, h.atRest_iff⟩

/-- Stores a secret in a fork, removes it again inside a boundary, and then stores it elsewhere. -/
def keeping (secret : String) : Flow .json :=
  (Flow.fork ((Flow.delay 5).followedBy
    ((Flow.write .persistent "pin" secret).followedBy (Flow.pure .null)))).andThen fun handle =>
  (Flow.await handle).followedBy <|
  (Flow.recover ((Flow.read .persistent "pin").followedBy
    ((Flow.delete .persistent "pin").followedBy
      (Flow.throw (.explicit "forgotten"))))).followedBy <|
  (Flow.writeForeign "note" (.str secret)).followedBy <|
    Flow.readForeignAll.followedBy (Flow.pure .null)

theorem keeping_resembles (secret secret' : String) :
    (keeping secret).program.Resembles (keeping secret').program := by
  have hfork : (Flow.fork ((Flow.delay 5).followedBy
      ((Flow.write .persistent "pin" secret).followedBy (Flow.pure .null)))).program.Resembles
      (Flow.fork ((Flow.delay 5).followedBy
        ((Flow.write .persistent "pin" secret').followedBy (Flow.pure .null)))).program :=
    .fork (Flow.resembles_followedBy (.delay 5)
      (Flow.resembles_followedBy (.write ..) (.done (.same _))))
  refine Flow.resembles_andThen hfork fun handle handle' hhandle => ?_
  cases hhandle
  refine Flow.resembles_followedBy (.await handle) (Flow.resembles_followedBy (.recover ?_) ?_)
  · exact Flow.resembles_followedBy (.read ..) (Flow.resembles_followedBy (.delete ..) (.throw _))
  · exact Flow.resembles_followedBy (.writeForeign ..)
      (Flow.resembles_followedBy .readForeignAll (.done (.same _)))

/-- A machine with one container and something stored persistently. -/
def vault : Machine (Runner.inMemory ⟨⟨.unconfigured .ui, .unconfigured .api,
    .unconfigured .permissions, .unconfigured .storage⟩, .default⟩) :=
  ⟨⟨0, #[.empty], #[], #[], (), (), (), (⟨.ofList [("pin", "0000")]⟩ : MemoryStore), [],
    []⟩, #[]⟩

theorem vault_initial : vault.Initial where
  races := rfl
  cells := by simp [vault]
  writers := by simp [vault]
  single := by simp [vault]

/-- The secret is kept, with the fork and the program that awaits it taking turns. -/
def keepingRun (secret : String) : List Happening :=
  .launch (keeping secret).program 0 :: [Move.step 0, .step 1, .step 0, .tick, .step 1, .step 1,
    .step 1, .step 0, .step 0, .step 0, .step 0, .step 0, .step 0, .step 0, .step 0].map .move

theorem stored_values_untold_keeping : ∃ m₁ m₂, Run vault (keepingRun "1234") m₁ ∧
    Run vault (keepingRun "987654") m₂ ∧ m₂.world.trace = m₁.world.trace ∧
    m₁.world.trace.length = 16 ∧
    (m₁.world.container 0).foreign = .ofList [("note", .str "1234")] ∧
    (m₂.world.container 0).foreign = .ofList [("note", .str "987654")] := by
  have hruns : (vault.follow? (keepingRun "1234")).map (fun m =>
        (m.world.trace.length, (m.world.container 0).foreign)) =
          some (16, .ofList [("note", .str "1234")]) ∧
      (vault.follow? (keepingRun "987654")).map (fun m => (m.world.container 0).foreign) =
        some (.ofList [("note", .str "987654")]) := by
    decide +kernel
  obtain ⟨m₁, h₁, hm₁⟩ := Option.map_eq_some_iff.mp hruns.1
  obtain ⟨m₂, h₂, hm₂⟩ := Option.map_eq_some_iff.mp hruns.2
  obtain ⟨hlength, hforeign⟩ := Prod.mk.inj hm₁
  have hsame : List.Forall₂ Happening.Resembles (keepingRun "1234") (keepingRun "987654") :=
    .cons (.launch (keeping_resembles _ _) 0)
      (List.forall₂_same.mpr (by simp [Happening.Resembles.move]))
  obtain ⟨m₂', hr, htrace, -⟩ :=
    stored_values_untold vault_initial hsame (run_of_follow? h₁)
  have hrest : Run m₂ [] m₂' := (run_of_follow? h₂).rest (by simpa using hr)
  cases hrest
  exact ⟨m₁, m₂, run_of_follow? h₁, hr, htrace, hlength, hforeign, hm₂⟩

end Machine

end Workflow
