import Workflow.Bench
import Workflow.Proofs.Machine.Lone
import Workflow.Proofs.Session

/-! Forking a program and awaiting it against running it.

The forked program walks the same way as the program that is run directly, since both
are alone among tasks that leave the scene alone. What its end leaves in its cell is
what the task that awaits it ends with. -/
namespace Workflow

variable {r : Runner}

/-- An operation of a program that launches nothing and waits for none but the first handles. -/
def Operation.Sequential (handles : Nat) (op : Operation Program) : Prop :=
  op.Solitary ∧ ∀ h, op = .await h → h.index < handles

/-- Forks a program and ends with what it ends with. -/
def Flow.forkAwait (p : Flow .json) : Flow .json := (Flow.fork p).andThen Flow.await

/-- The end of a program that ends with a JSON value. -/
def Verdict.json : Verdict Dyn → Verdict Json
  | .value d => .ofExcept (d.take .json)
  | .fault e => .fault e
  | .panic message => .panic message

def Verdict.isPanic {α : Type} : Verdict α → Bool
  | .panic _ => true
  | _ => false

namespace Machine
variable {m m' n n' : Machine r} {a : Move} {i j j' : Nat} {t : Task} {handles : Nat}
  {cells : Array Cell} {t₀ : Task} {s₀ : Scene r}

/-- What a handle says it says for ever. -/
theorem outcome?_run {as : List Happening} {h : Handle} {result : Except Fault Json}
    (hm : m.Reachable) (hr : Run m as m') (hout : (m.world.cell h).outcome? h = some result) :
    (m'.world.cell h).outcome? h = some result := by
  rw [Cell.outcome?_eq] at hout ⊢
  have hsettled : m.status h ≠ .pending := by
    intro hpending
    rw [status] at hpending
    simp [hpending, Cell.Status.outcome?] at hout
  have hkept := settled_run hm hr hsettled
  rw [status, status] at hkept
  rw [hkept]
  exact hout

/-- How far a task is that awaits a handle and ends with what it says. -/
inductive Awaits (h : Handle) (m : Machine r) : Phase → Prop
  | begins {c : Cursor} (hc : c.advance = .execute (.await h) []) : Awaits h m (.running c)
  | waits : Awaits h m (.awaiting h [])
  | resumed {c : Cursor} {result : Except Fault Json}
    (hc : c.advance = .finished (result.map .json))
    (hout : (m.world.cell h).outcome? h = some result) : Awaits h m (.running c)
  | ended {result : Except Fault Json} (hout : (m.world.cell h).outcome? h = some result) :
    Awaits h m (.ended (.ofExcept (result.map .json)))

theorem Awaits.run {as : List Happening} {h : Handle} {phase : Phase} (ha : Awaits h m phase)
    (hm : m.Reachable) (hr : Run m as m') : Awaits h m' phase := by
  cases ha with
  | begins hc => exact .begins hc
  | waits => exact .waits
  | resumed hc hout => exact .resumed hc (outcome?_run hm hr hout)
  | ended hout => exact .ended (outcome?_run hm hr hout)

/-- The task that awaits a handle goes on to do so. -/
theorem Awaits.step {h : Handle} {e : Effect r} (ha : Awaits h m t.phase) (hb : t.boundaries = [])
    (he : t.step? m.world i = some e) : Awaits h m e.task.phase ∧ e.task.boundaries = [] := by
  cases hp : t.phase with
  | running c =>
    rw [hp] at ha
    cases ha with
    | begins hc =>
      simp only [Task.step?, hp, hc] at he
      cases he
      exact ⟨.waits, hb⟩
    | resumed hc hout =>
      simp only [Task.step?, hp, hc, Task.finish, hb] at he
      cases he
      exact ⟨.ended hout, hb⟩
  | awaiting h' pending =>
    rw [hp] at ha
    cases ha
    simp only [Task.step?, hp] at he
    obtain ⟨result, hresult, rfl⟩ := Option.map_eq_some_iff.mp he
    refine ⟨.resumed ?_ hresult, hb⟩
    cases result with
    | ok v => rfl
    | error e => exact Cursor.advance_throw e []
  | ended v =>
    simp [Task.step?, hp] at he
  | _ =>
    rw [hp] at ha
    cases ha

variable {p : Flow .json} {container : Nat}

theorem advance_forkAwait (p : Flow .json) : (Cursor.new p.forkAwait.program).advance =
    .execute (.fork p.program) [Flow.continuation (a := .handle) Flow.await] :=
  (Cursor.advance_andThen (Flow.fork p) Flow.await []).trans (Cursor.advance_step ..)

/-- The first step of the task that forks. -/
theorem fork_effect {w : World r} {e : Effect r}
    (he : (runner r p.forkAwait.program container).step? w j = some e) :
    e.world.scene = w.scene ∧
      e.task = (runner r p.forkAwait.program container).resumed
        [Flow.continuation (a := .handle) Flow.await]
        (.ok ⟨.handle, ⟨w.cells.size⟩⟩) ∧
      e.launched = [(runner r p.forkAwait.program container).child (.fork ⟨w.cells.size⟩)
        (Span.run r.config.name).fork p.program] := by
  have hadvance := advance_forkAwait p
  simp only [Task.step?, runner, hadvance] at he
  cases he
  exact ⟨rfl, rfl, rfl⟩

/-- Where a machine is that runs `p.forkAwait` and nothing else: the program is still to be forked,
or the forked program is alone and the other task awaits it. -/
inductive Forking (m : Machine r) (p : Flow .json) (container : Nat) (cells : Array Cell)
    (n : Machine r) : Prop
  | before (reachable : n.Reachable)
    (foretold : ∀ h : Handle, h.index < m.world.cells.size →
      n.Foretold h (cells[h.index]?.getD .pending))
    (size : n.tasks.size = m.tasks.size + 1) (handles : n.world.cells.size = m.world.cells.size)
    (scene : n.world.scene = m.world.scene)
    (task : n.tasks[m.tasks.size]? = some (runner r p.forkAwait.program container))
    (others : ∀ i t, n.tasks[i]? = some t → i ≠ m.tasks.size → t.Inert)
  | after {t u : Task} (lone : n.Lone (Operation.Sequential m.world.cells.size) cells
      (runner r p.program container).bare m.world.scene (m.tasks.size + 1))
    (fork : n.tasks[m.tasks.size + 1]? = some u) (role : u.role = .fork ⟨m.world.cells.size⟩)
    (task : n.tasks[m.tasks.size]? = some t) (boundaries : t.boundaries = [])
    (awaits : Awaits ⟨m.world.cells.size⟩ n t.phase)

theorem harmless_await (p : Flow .json) (result : Except Fault Dyn) :
    ((runner r p.forkAwait.program container).resumed
      [Flow.continuation (a := .handle) Flow.await] result).Only
      Operation.Harmless := by
  refine ⟨Cursor.only_resume ?_ result, by simp [runner, Task.resumed]⟩
  refine stackOnly_cons.mpr ⟨Flow.continuation_cases ?_ fun _ => .throw, stackOnly_nil⟩
  intro h
  exact .step ⟨trivial, rfl⟩ (by simp [Operation.programs])

theorem Forking.move (hp : p.program.Only (Operation.Sequential m.world.cells.size))
    (h : Forking m p container cells n) (hm : n.move? a = some n') :
    Forking m p container cells n' := by
  have ha : n.happen? (.move a) = some n' := hm
  cases h with
  | before reachable foretold size handles scene task others =>
    have hf := fit_reachable reachable
    have reachable' := reachable.run (.single ha)
    have foretold' : ∀ h : Handle, h.index < m.world.cells.size →
        n'.Foretold h (cells[h.index]?.getD .pending) :=
      fun h hlt => foretold_happen reachable ha (foretold h hlt)
    cases a with
    | tick =>
      obtain ⟨htasks, hscene, hcells⟩ := tick_eq hm
      exact .before reachable' foretold' (htasks ▸ size) (hcells ▸ handles) (hscene.trans scene)
        (htasks ▸ task) (htasks ▸ others)
    | step k =>
      obtain ⟨t, e, he, hs⟩ := step?_stepped hm
      by_cases hk : k = m.tasks.size
      · subst hk
        cases hs.task.symm.trans task
        obtain ⟨hscene, htask, hlaunched⟩ := fork_effect he
        have hchild :
            n'.tasks[m.tasks.size + 1]? = some ((runner r p.forkAwait.program container).child
            (.fork ⟨n.world.cells.size⟩) (Span.run r.config.name).fork p.program) := by
          have := hs.added (k := 0) (by rw [hlaunched]; rfl)
          rwa [size] at this
        have htask' := hs.self
        rw [htask] at htask'
        have hrole :
            ((runner r p.forkAwait.program container).child (.fork ⟨n.world.cells.size⟩)
            (Span.run r.config.name).fork p.program).role = .fork ⟨m.world.cells.size⟩ := by
          rw [← handles]
          rfl
        refine .after ⟨reachable', fun h hop => foretold' h (hop.2 h rfl), ?_,
          ?_⟩ hchild hrole htask' rfl ?_
        · refine ⟨_, hchild, ⟨Cursor.only_new hp, by simp [Task.child]⟩, ?_⟩
          rw [hs.world, hscene, scene]
          exact .refl
        · intro i u hu hi
          obtain ⟨rfl, rfl⟩ | ⟨hi', hu⟩ | ⟨l, hl, hk⟩ := hs.cases hu
          · rw [htask]
            exact .inr (.inr (harmless_await p _))
          · exact others i u hu hi'
          · have := (List.getElem?_eq_some_iff.mp hk).1
            rw [hlaunched, List.length_singleton] at this
            omega
        · refine .begins ?_
          rw [← handles]
          rfl
      · obtain ⟨hscene, hlaunched, hinert⟩ := (others k t hs.task hk).step? (hf k t hs.task) he
        refine .before reachable' foretold' ?_ ?_ ?_ (hs.other (Ne.symm hk) task) ?_
        · rw [hs.size, hlaunched, size]
          rfl
        · rw [hs.world, (hs.turn.onCells (hf k t hs.task)).size_eq hlaunched, handles]
        · rw [hs.world, hscene, scene]
        · intro i u hu hi
          obtain ⟨rfl, rfl⟩ | ⟨-, hu⟩ | ⟨l, -, hl⟩ := hs.cases hu
          · exact hinert
          · exact others i u hu hi
          · simp [hlaunched] at hl
  | @after t u lone fork role task boundaries awaits =>
    have hlone := lone.move (fun op hop => hop.1) hm
    cases a with
    | tick =>
      obtain ⟨htasks, -⟩ := tick_eq hm
      exact .after hlone (htasks ▸ fork) role (htasks ▸ task) boundaries
        (awaits.run lone.reachable (.single ha))
    | step k =>
      obtain ⟨t', e, he, hs⟩ := step?_stepped hm
      obtain ⟨u', hu', hrole⟩ := hs.role_kept fork
      by_cases hk : k = m.tasks.size
      · subst hk
        cases hs.task.symm.trans task
        obtain ⟨hnext, hb⟩ := awaits.step boundaries he
        exact .after hlone hu' (hrole.trans role) hs.self hb (hnext.run lone.reachable (.single ha))
      · exact .after hlone hu' (hrole.trans role) (hs.other (Ne.symm hk) task) boundaries
          (awaits.run lone.reachable (.single ha))

theorem Forking.moves {as : List Move}
    (hp : p.program.Only (Operation.Sequential m.world.cells.size))
    (h : Forking m p container cells n) (hm : n.Moves as n') :
    Forking m p container cells n' :=
  hm.invariant (fun _ _ _ h ha => h.move hp ha) h

/-- On a machine with nothing but the host, what all handles will say is decided. -/
theorem Calm.exists_cells (hm : m.Reachable) (hcalm : m.Calm) : ∃ cells : Array Cell,
    ∀ h : Handle, h.index < m.world.cells.size →
      m.Foretold h (cells[h.index]?.getD .pending) := by
  obtain ⟨as, n, hmoves, hrest⟩ := m.exists_atRest
  refine ⟨n.world.cells, ?_⟩
  intro h hlt
  obtain ⟨c, hc⟩ := m.exists_promises h
  have hforetold : m.Foretold h c := by
    refine ⟨hlt, ?_, hc⟩
    intro i t ht hr
    rcases hcalm i t ht with hhost | hended
    · simp [hr] at hhost
    · exact hended
  have hcell := (foretold_run hm hmoves hforetold).cell_of_atRest hrest
  rw [World.cell] at hcell
  rw [hcell]
  exact hforetold

theorem forking_launch (hm : m.Reachable) (hcalm : m.Calm)
    (hcells : ∀ h : Handle, h.index < m.world.cells.size →
      m.Foretold h (cells[h.index]?.getD .pending)) :
    Forking m p container cells (m.launch p.forkAwait.program container).1 := by
  refine .before (reachable_launch hm)
    (fun h hlt => foretold_launch hm (hcells h hlt)) ?_ rfl rfl ?_
    (launch_inert hcalm.inert)
  · simp [launch]
  · simp [launch, runner]

/-- Who awaits a handle that says something has ended with it, once the run is over. -/
theorem Awaits.ending? {h : Handle} (ha : Awaits h n t.phase) (ht : n.tasks[j]? = some t)
    (hend : (n.ending? j).isSome ∨ n.AtRest) :
    n.ending? j = ((n.world.cell h).outcome? h).map fun result => .ofExcept (result.map .json) := by
  -- at rest the task cannot step
  have stepless (hnot : n.ending? j = none) : t.step? n.world j = none := by
    rcases hend with hended | hrest
    · simp [hnot] at hended
    · have := (move?_eq_none_iff.mp hrest).1 j
      simpa [step?, ht] using this
  generalize hp : t.phase = phase at ha
  cases ha with
  | begins hc =>
    have hstuck := stepless (by simp [Machine.ending?, ht, hp])
    simp [Task.step?, hp, hc] at hstuck
  | resumed hc hout =>
    have hstuck := stepless (by simp [Machine.ending?, ht, hp])
    simp [Task.step?, hp, hc] at hstuck
  | waits =>
    have hnot : n.ending? j = none := by simp [Machine.ending?, ht, hp]
    have hstuck := stepless hnot
    have hout : (n.world.cell h).outcome? h = none := by simpa [Task.step?, hp] using hstuck
    rw [hnot, hout]
    rfl
  | ended hout =>
    rw [hout]
    exact ending?_eq_some_iff.mpr ⟨t, ht, hp⟩

theorem json_ofExcept (result : Except Fault Json) :
    (Verdict.ofExcept (result.map Dyn.json)).json = .ofExcept result := by
  cases result with
  | ok v => exact congrArg Verdict.ofExcept (Dyn.take_mk .json v)
  | error e => rfl

/-- A handle says something exactly if the forked program behind it has ended. -/
theorem isSome_fork_outcome? {u : Task} {h : Handle} (ho : n.Owned) (hu : n.tasks[j]? = some u)
    (hr : u.role = .fork h) :
    ((n.world.cell h).outcome? h).isSome = (n.ending? j).isSome := by
  have hstatus : (n.world.cell h).status = u.phase.status := fork_status ho hu hr
  rw [Cell.outcome?_eq, hstatus]
  cases hp : u.phase with
  | ended v =>
    rw [ending?_eq_some_iff.mpr ⟨u, hu, hp⟩]
    cases v <;> rfl
  | _ => simp [Machine.ending?, hu, hp, Phase.status, Cell.Status.outcome?]

/-- What the end of a forked program leaves for whoever awaits it. -/
theorem fork_outcome? {u : Task} {h : Handle} (ho : n.Owned) (hu : n.tasks[j]? = some u)
    (hr : u.role = .fork h) (hpanic : ∀ message, n.ending? j ≠ some (.panic message)) :
    ((n.world.cell h).outcome? h).map Verdict.ofExcept = (n.ending? j).map Verdict.json := by
  have hstatus : (n.world.cell h).status = u.phase.status := fork_status ho hu hr
  rw [Cell.outcome?_eq, hstatus]
  cases hp : u.phase with
  | ended v =>
    have hending : n.ending? j = some v := ending?_eq_some_iff.mpr ⟨u, hu, hp⟩
    rw [hending]
    cases v with
    | value d => rfl
    | fault e => rfl
    | panic message => exact absurd hending (hpanic message)
  | _ => simp [Machine.ending?, hu, hp, Phase.status, Cell.Status.outcome?]

/-- When the run of the task that forks and awaits is over, so is that of the forked
program, and they have ended alike. -/
theorem Forking.over (h : Forking m p container cells n)
    (hend : (n.ending? m.tasks.size).isSome ∨ n.AtRest) :
    n.Lone (Operation.Sequential m.world.cells.size) cells (runner r p.program container).bare
        m.world.scene (m.tasks.size + 1) ∧
      ((n.ending? (m.tasks.size + 1)).isSome ∨ n.AtRest) ∧
      ((∀ message, n.ending? (m.tasks.size + 1) ≠ some (.panic message)) →
        (n.ending? m.tasks.size).map Verdict.json =
          (n.ending? (m.tasks.size + 1)).map Verdict.json) := by
  cases h with
  | before reachable foretold size handles scene task others =>
    -- the task can still fork
    exfalso
    have hrunning : n.ending? m.tasks.size = none := by simp [Machine.ending?, task, runner]
    rcases hend with hended | hrest
    · simp [hrunning] at hended
    · have hstuck := (move?_eq_none_iff.mp hrest).1 m.tasks.size
      simp [step?, task, Task.step?, runner, advance_forkAwait] at hstuck
  | @after t u lone fork role task boundaries awaits =>
    have ho := owned_reachable lone.reachable
    have hparent := awaits.ending? task hend
    refine ⟨lone, ?_, ?_⟩
    · rcases hend with hended | hrest
      · left
        rw [← isSome_fork_outcome? ho fork role]
        simpa [hparent] using hended
      · exact .inr hrest
    · intro hpanic
      rw [hparent, ← fork_outcome? ho fork role hpanic, Option.map_map]
      congr 1
      funext result
      exact json_ofExcept result

/-- A program that launches nothing can as well be forked and awaited: when both runs are over, the
results, the containers and all calls are the same. A panic is no result. -/
theorem forkAwait_eq_direct (hm : m.Reachable) (hcalm : m.Calm)
    (hp : p.program.Only (Operation.Sequential m.world.cells.size)) :
    (∀ as n as' n', (m.launch p.program container).1.Moves as n →
      (m.launch p.forkAwait.program container).1.Moves as' n' →
      (n.ending? m.tasks.size).isSome ∨ n.AtRest →
      (n'.ending? m.tasks.size).isSome ∨ n'.AtRest →
      (∀ message, n.ending? m.tasks.size ≠ some (.panic message)) →
      (n'.ending? m.tasks.size).map Verdict.json = (n.ending? m.tasks.size).map Verdict.json ∧
        n'.world.scene = n.world.scene) ∧
    ∀ f : Nat → Machine r, f 0 = (m.launch p.program container).1 ∨
      f 0 = (m.launch p.forkAwait.program container).1 → ¬ Endless f := by
  refine ⟨?_, fun f _ => not_endless f⟩
  obtain ⟨cells, hcells⟩ := hcalm.exists_cells hm
  intro as n as' n' hmoves hmoves' hend hend' hpanic
  have hsolitary (op : Operation Program) (hop : op.Sequential m.world.cells.size) : op.Solitary :=
    hop.1
  have hdirect : n.Lone (Operation.Sequential m.world.cells.size) cells
      (runner r p.program container).bare m.world.scene m.tasks.size :=
    (lone_launch hm hcalm.inert hp fun h hop => hcells h (hop.2 h rfl)).moves hsolitary hmoves
  have hforked : Forking m p container cells n' := (forking_launch hm hcalm hcells).moves hp hmoves'
  obtain ⟨hlone, hover, hsame⟩ := hforked.over hend'
  obtain ⟨hending, hscene⟩ := hdirect.same hlone hsolitary hend hover
  refine ⟨?_, hscene.symm⟩
  rw [hending] at hpanic ⊢
  exact hsame hpanic

/-- Stores something, fails inside a boundary, and waits for a while and then for the host. -/
def patient : Flow .json :=
  (Flow.recover ((Flow.write .persistent "k" "v").followedBy
    (Flow.throw (.explicit "lost")))).andThen
    fun _ => (Flow.delay 7).followedBy (Flow.await ⟨0⟩)

/-- A host with one handle, which it writes at some time. -/
def hosting : Setup := Bench.new.setup .empty [⟨"h", some 5, some (.ok .null)⟩]

/-- Forked or not, the program ends with what the host has written, and has stored the same. -/
theorem forkAwait_eq_direct_patient : ∃ (as as' : List Move) (n n' : Machine hosting.runner),
    (hosting.machine.launch patient.program 0).1.Moves as n ∧
    (hosting.machine.launch patient.forkAwait.program 0).1.Moves as' n' ∧
    (n.ending? 1).isSome ∧ (n'.ending? 1).isSome ∧
    (n'.ending? 1).map Verdict.json = (n.ending? 1).map Verdict.json ∧
    n'.world.scene = n.world.scene := by
  let as : List Move :=
    [.step 1, .step 1, .step 1, .step 1, .tick, .step 0, .tick, .step 1, .step 1,
      .step 1, .step 1]
  let as' : List Move :=
    [.step 1, .step 1, .step 2, .step 2, .step 2, .step 2, .tick, .step 0, .tick,
      .step 2, .step 2, .step 2, .step 2, .step 1, .step 1]
  have hend : ((hosting.machine.launch patient.program 0).1.follow? (as.map .move)).map (fun n =>
      (n.ending? 1).map Verdict.isPanic) = some (some false) := by
    decide +kernel
  have hend' : ((hosting.machine.launch patient.forkAwait.program 0).1.follow? (as'.map .move)).map
      (fun n => (n.ending? 1).isSome) = some true := by
    decide +kernel
  obtain ⟨n, hn, hv⟩ := Option.map_eq_some_iff.mp hend
  obtain ⟨n', hn', hv'⟩ := Option.map_eq_some_iff.mp hend'
  obtain ⟨v, hended, hkind⟩ := Option.map_eq_some_iff.mp hv
  have hpanic (message : String) : n.ending? 1 ≠ some (.panic message) := by
    intro hp
    cases hended.symm.trans hp
    cases hkind
  have hmoves : (hosting.machine.launch patient.program 0).1.Moves as n := run_of_follow? hn
  have hmoves' : (hosting.machine.launch patient.forkAwait.program 0).1.Moves as' n' :=
    run_of_follow? hn'
  have hm : hosting.machine.Reachable := ⟨_, [], Setup.machine_initial _, .refl⟩
  have hcalm : hosting.machine.Calm :=
    fun i t ht => .inl ((Setup.machine_initial _).writers i t ht).1
  have honly : patient.program.Only (Operation.Sequential hosting.machine.world.cells.size) := by
    have hleaf {op : Operation Program} (hop : op.Sequential 1) (hp : op.programs = []) :
        (Program.step op).Only (Operation.Sequential 1) := .step hop (by simp [hp])
    refine Flow.only_andThen (.step ⟨trivial, by simp⟩ ?_) fun _ =>
      Flow.only_andThen (hleaf ⟨trivial, by simp⟩ rfl) fun _ => hleaf ⟨trivial, ?_⟩ rfl
    · intro p hp
      obtain rfl := List.mem_singleton.mp hp
      exact Flow.only_andThen (hleaf ⟨trivial, by simp⟩ rfl) fun _ => .throw
    · intro h hh
      cases hh
      exact Nat.zero_lt_one
  have hsome : (n.ending? 1).isSome := by simp [hended]
  obtain ⟨hsame, hscene⟩ := (forkAwait_eq_direct hm hcalm honly).1 as n as' n' hmoves hmoves'
    (.inl hsome) (.inl hv') hpanic
  exact ⟨as, as', n, n', hmoves, hmoves', hsome, hv', hsame, hscene⟩

end Machine

end Workflow
