import Workflow.Proofs.Machine.Role

/-! The life of a handle: it is pending until the program behind it has
ended, and then it says for ever how.

The write side of a cell belongs to one task, which uses it up in the step in which it ends. -/
namespace Workflow

variable {r : Runner}

namespace Cell

inductive Status where
  | pending
  | filled (result : Except Fault Json)
  | abandoned

/-- How far a cell is, whatever has become of its write side after a result was written. -/
def status (c : Cell) : Status :=
  match c.value, c.held with
  | some result, _ => .filled result
  | none, true => .pending
  | none, false => .abandoned

/-- What waiting for a handle gives. -/
def Status.outcome? (h : Handle) : Status → Option (Except Fault Json)
  | .pending => none
  | .filled result => some result
  | .abandoned => some (.error (.forkAbandoned h.id.text))

variable {c : Cell} {h : Handle} {result : Except Fault Json}

@[simp] theorem status_pending : Cell.pending.status = .pending := rfl

theorem outcome?_eq (h : Handle) (c : Cell) : c.outcome? h = c.status.outcome? h := by
  obtain ⟨value, held⟩ := c
  cases value <;> cases held <;> rfl

theorem glance_eq_some_iff : c.glance = some result ↔ c.status = .filled result := by
  obtain ⟨value, held⟩ := c
  cases value <;> cases held <;> simp [glance, status]

theorem isFilled_iff : c.isFilled = true ↔ ∃ result, c.status = .filled result := by
  obtain ⟨value, held⟩ := c
  cases value <;> cases held <;> simp [isFilled, status]

end Cell

namespace World
variable {w w' : World r} {h h' : Handle}

theorem cell_congr (hc : w'.cells = w.cells) (h : Handle) : w'.cell h = w.cell h := by
  simp [cell, hc]

/-- A fresh cell looks like one that is not there yet. -/
theorem cell_of_push (hc : w'.cells = w.cells.push .pending) (h : Handle) :
    w'.cell h = w.cell h := by
  simp only [cell, hc, Array.getElem?_push]
  split
  next he => simp [he]
  next => rfl

theorem cell_of_modify_self {f : Cell → Cell} (hc : w'.cells = w.cells.modify h.index f)
    (hlt : h.index < w.cells.size) : w'.cell h = f (w.cell h) := by
  simp [cell, hc, hlt, Array.getElem_modify]

theorem cell_of_modify_ne {f : Cell → Cell} (hc : w'.cells = w.cells.modify h.index f)
    (hne : h' ≠ h) : w'.cell h' = w.cell h' := by
  have hi : h.index ≠ h'.index := by
    intro he
    apply hne
    cases h
    cases h'
    simp_all
  simp [cell, hc, Array.getElem?_modify, hi]

end World

/-- What the end of a forked program does to its cell. -/
def Verdict.settle : Verdict Dyn → Cell → Cell
  | .value d => .fill (d.take .json)
  | .fault e => .fill (.error e)
  | .panic _ => .abandon

def Role.settle (v : Verdict Dyn) (cells : Array Cell) : Role → Array Cell
  | .fork h => cells.modify h.index v.settle
  | _ => cells

/-- The cell of a forked program in this phase. -/
def Phase.cell : Phase → Cell
  | .ended v => v.settle .pending
  | _ => .pending

/-- How far a handle is, read off the task behind it. -/
def Phase.status : Phase → Cell.Status
  | .ended (.value d) => .filled (d.take .json)
  | .ended (.fault e) => .filled (.error e)
  | .ended (.panic _) => .abandoned
  | _ => .pending

theorem Phase.status_cell (p : Phase) : p.cell.status = p.status := by
  cases p with
  | ended v => cases v <;> rfl
  | _ => rfl

namespace Task
variable {t u : Task} {w : World r} {self : Nat} {e : Effect r} {h : Handle}

theorem conclude_cells (t : Task) (w : World r) (result : Except Fault Dyn) :
    (t.conclude w result).world.cells = t.role.settle (.ofExcept result) w.cells := by
  unfold conclude Role.settle
  cases t.role with
  | fork h =>
    cases result with
    | error e => rfl
    | ok d =>
      simp only [enter, bind, Except.bind, Verdict.ofExcept, Verdict.settle]
      cases hd : d.take .json <;> rfl
  | run => cases result <;> rfl
  | _ => rfl

theorem crash_cells (t : Task) (w : World r) (self : Nat) (message : String) :
    (t.crash w self message).world.cells = t.role.settle (.panic message) w.cells := by
  unfold crash Role.settle
  cases t.role <;> rfl

/-- What a step does to the cells. -/
inductive CellTurn (t : Task) (w : World r) (e : Effect r) : Prop
  | keeps (he : e.task.hasEnded = false) (hc : e.world.cells = w.cells)
    (hl : ∀ u ∈ e.launched, ∀ h, u.role ≠ .fork h)
  | forks {p : Program} (he : e.task.hasEnded = false) (hc : e.world.cells = w.cells.push .pending)
    (hl : e.launched = [t.child (.fork ⟨w.cells.size⟩) t.span.fork p])
  | ends {v : Verdict Dyn} (ht : e.task = { t with phase := .ended v })
    (hc : e.world.cells = t.role.settle v w.cells) (hl : e.launched = [])
  | writes {h : Handle} {result : Option (Except Fault Json)} (hr : t.role = .host)
    (hw : t.Writes h) (ht : e.task = { t with phase := .ended (.value .unit) })
    (hc : e.world.cells = w.cells.modify h.index (result.elim Cell.abandon Cell.fill))
    (hl : e.launched = [])

theorem Turn.onCells (h : t.Turn w self e) (hf : t.Fits) : t.CellTurn w e := by
  have he := h.not_ended
  cases h with
  | answered hp hc hw hr hop hl =>
    refine .keeps rfl hw.cells ?_
    obtain rfl | ⟨request, rfl⟩ := hl <;> simp [background]
  | @forks c p pending w' hp hc hw =>
    have hh : w'.newCell.2 = ⟨w.cells.size⟩ := by simp [World.newCell, hw.cells]
    exact .forks rfl (by simp [World.newCell, hw.cells]) (by rw [hh])
  | races hp hc hps hw =>
    refine .keeps rfl hw.cells ?_
    intro u hu h
    obtain ⟨k, p, -, rfl⟩ := branches_mem hu
    simp [child]
  | concludes hp hc hb => exact .ends rfl (conclude_cells t w _) rfl
  | crashes hp hw =>
    exact .ends rfl ((crash_cells t _ self _).trans (by rw [hw.cells])) rfl
  | closes hp hw =>
    exact .ends rfl (by simp [Role.settle, hf.closing hp, hw.cells]) rfl
  | settles hp hd =>
    obtain ⟨hr, hw⟩ := hf.host hp
    exact .writes hr hw rfl rfl rfl
  | loses hp hx ha he' hw => exact .keeps he hw.cells (by simp)
  | wins hp hx ha hv hw => exact .keeps rfl hw.cells (by simp)
  | awaited | exhausts => exact .keeps rfl rfl (by simp)
  | sleeps _ _ hw | awaits _ _ hw | enters _ _ hw | opens _ hw =>
    exact .keeps rfl hw.cells (by simp)
  | leaves _ _ _ hw => exact .keeps rfl hw.cells (by simp)
  | wakes _ _ _ hw => exact .keeps rfl hw.cells (by simp)

theorem phase_cell_of_not_ended (h : t.hasEnded = false) : t.phase.cell = .pending := by
  unfold hasEnded at h
  unfold Phase.cell
  split <;> simp_all

/-- The task has the write side of the handle, or had it. -/
def Settles (t : Task) (h : Handle) : Prop := t.role = .fork h ∨ t.Writes h

/-- A step leaves alone the cells to which the task has no write side. -/
theorem CellTurn.cell_eq (ht : t.CellTurn w e) (hn : ¬ t.Settles h) :
    e.world.cell h = w.cell h := by
  cases ht with
  | keeps he hc hl => exact World.cell_congr hc h
  | forks he hc hl => exact World.cell_of_push hc h
  | ends _ hc hl =>
    unfold Role.settle at hc
    split at hc
    next h' hr =>
      apply World.cell_of_modify_ne hc
      rintro rfl
      exact hn (.inl hr)
    next => exact World.cell_congr hc h
  | writes hr hw _ hc hl =>
    apply World.cell_of_modify_ne hc
    rintro rfl
    exact hn (.inr hw)

/-- A task that goes on has not touched any cell. -/
theorem CellTurn.cell_eq_of_not_ended (ht : t.CellTurn w e) (he : e.task.hasEnded = false) :
    e.world.cell h = w.cell h := by
  cases ht with
  | keeps _ hc hl => exact World.cell_congr hc h
  | forks _ hc hl => exact World.cell_of_push hc h
  | ends ht => simp [ht, hasEnded] at he
  | writes _ _ ht => simp [ht, hasEnded] at he

/-- The cell of a forked program is as far as its task is, also after the step. -/
theorem CellTurn.fork_cell (ht : t.CellTurn w e) (hr : t.role = .fork h)
    (hlt : h.index < w.cells.size) (hp : w.cell h = .pending) :
    e.world.cell h = e.task.phase.cell := by
  cases ht with
  | keeps he hc hl => rw [World.cell_congr hc, hp, phase_cell_of_not_ended he]
  | forks he hc hl => rw [World.cell_of_push hc, hp, phase_cell_of_not_ended he]
  | ends ht hc hl =>
    simp only [Role.settle, hr] at hc
    rw [World.cell_of_modify_self hc hlt, hp, ht]
    rfl
  | writes hr' => simp [hr] at hr'

theorem CellTurn.size_le (ht : t.CellTurn w e) : w.cells.size ≤ e.world.cells.size := by
  cases ht with
  | keeps _ hc => simp [hc]
  | forks _ hc => simp [hc]
  | ends _ hc =>
    unfold Role.settle at hc
    split at hc <;> simp [hc]
  | writes _ _ _ hc => simp [hc]

theorem CellTurn.size_eq (ht : t.CellTurn w e) (hl : e.launched = []) :
    e.world.cells.size = w.cells.size := by
  cases ht with
  | keeps _ hc => simp [hc]
  | forks _ _ hl' => simp [hl'] at hl
  | ends _ hc =>
    unfold Role.settle at hc
    split at hc <;> simp [hc]
  | writes _ _ _ hc => simp [hc]

/-- A fork is launched alone, with a fresh handle. -/
theorem CellTurn.fork_launched (ht : t.CellTurn w e) {k : Nat} (hk : e.launched[k]? = some u)
    (hr : u.role = .fork h) :
    k = 0 ∧ h = ⟨w.cells.size⟩ ∧ e.world.cells = w.cells.push .pending := by
  cases ht with
  | keeps _ _ hl => exact absurd hr (hl u (List.mem_of_getElem? hk) h)
  | forks _ hc hl =>
    rw [hl] at hk
    obtain ⟨rfl, rfl⟩ : k = 0 ∧ _ = u := by simpa [List.getElem?_singleton] using hk
    exact ⟨rfl, by simpa [child] using hr.symm, hc⟩
  | ends _ _ hl => simp [hl] at hk
  | writes _ _ _ _ hl => simp [hl] at hk

/-- No step makes a task a writer of a handle of the host. -/
theorem Turn.writes_of (ht : t.Turn w self e) (hw : e.task.Writes h) : t.Writes h := by
  obtain ⟨due, result, hw⟩ := hw
  cases ht with
  | loses => exact ⟨due, result, hw⟩
  | sleeps hp hc hk ha => cases hw; cases ha
  | opens | closes | settles => cases hw
  | _ => cases hw

theorem Turn.settles_of (ht : t.Turn w self e) (hs : e.task.Settles h) : t.Settles h := by
  obtain hs | hs := hs
  · exact .inl (ht.role_eq ▸ hs)
  · exact .inr (ht.writes_of hs)

theorem Turn.launched_settles (ht : t.Turn w self e) (hu : u ∈ e.launched) (hs : u.Settles h) :
    u.role = .fork h := by
  obtain hs | ⟨_, _, hs⟩ := hs
  · exact hs
  · obtain ⟨request, rfl⟩ | ⟨role, span, p, -, rfl⟩ := ht.launched_cases hu <;> cases hs

end Task

namespace Machine
variable {m m' : Machine r} {a : Happening} {i j : Nat} {t u : Task} {h : Handle} {e : Effect r}

/-- Every write side belongs to one task, and the cell is as far as this task is. -/
structure Owned (m : Machine r) : Prop where
  known : ∀ (i : Nat) (t : Task) (h : Handle), m.tasks[i]? = some t → t.Settles h →
    h.index < m.world.cells.size
  single :
    ∀ (i j : Nat) (t u : Task) (h : Handle), m.tasks[i]? = some t → m.tasks[j]? = some u →
    t.Settles h → u.Settles h → i = j
  fork : ∀ (i : Nat) (t : Task) (h : Handle), m.tasks[i]? = some t → t.role = .fork h →
    m.world.cell h = t.phase.cell
  host : ∀ (i : Nat) (t : Task) (h : Handle), m.tasks[i]? = some t → t.Writes h →
    m.world.cell h = .pending

theorem owned_initial (hm : Initial m) : m.Owned := by
  have settles : ∀ (i : Nat) (t : Task) (h : Handle), m.tasks[i]? = some t → t.Settles h →
      t.Writes h := by
    intro i t h ht hs
    obtain hs | hs := hs
    · have hr := (hm.writers i t ht).1
      simp [hs] at hr
    · exact hs
  refine ⟨?_, ?_, ?_, ?_⟩
  · intro i t h ht hs
    obtain ⟨due, result, hp⟩ := settles i t h ht hs
    obtain ⟨-, -, h', ⟨due', result', hp'⟩, hlt⟩ := hm.writers i t ht
    cases hp.symm.trans hp'
    exact hlt
  · intro i j t u h ht hu hs hs'
    exact hm.single i j t u h ht hu (settles i t h ht hs) (settles j u h hu hs')
  · intro i t h ht hr
    have hr' := (hm.writers i t ht).1
    simp [hr] at hr'
  · intro i t h ht hw
    unfold World.cell
    cases hc : m.world.cells[h.index]? with
    | none => rfl
    | some c => exact hm.cells c (Array.mem_of_getElem? hc)

/-- Of the tasks after a step, those that settle a handle did so
before, or are the fork just launched. -/
theorem Stepped.settles (hs : Stepped m i t e m') (hu : m'.tasks[j]? = some u) (hh : u.Settles h) :
    (∃ u₀, m.tasks[j]? = some u₀ ∧ u₀.Settles h) ∨
      ∃ k, j = m.tasks.size + k ∧ e.launched[k]? = some u ∧ u.role = .fork h := by
  obtain ⟨rfl, rfl⟩ | ⟨-, hj⟩ | ⟨k, hj, hk⟩ := hs.cases hu
  · exact .inl ⟨t, hs.task, hs.turn.settles_of hh⟩
  · exact .inl ⟨u, hj, hh⟩
  · exact .inr ⟨k, hj, hk, hs.turn.launched_settles (List.mem_of_getElem? hk) hh⟩

theorem owned_step (hs : Stepped m i t e m') (hf : m.Fit) (ho : m.Owned) : m'.Owned := by
  have hc := hs.turn.onCells (hf i t hs.task)
  have hcell : ∀ h, m'.world.cell h = e.world.cell h := fun h => by rw [hs.world]
  have hle : m.world.cells.size ≤ m'.world.cells.size := hs.world ▸ hc.size_le
  -- another task's cells are not this one's
  have other :
      ∀ (j : Nat) (u : Task) (h : Handle), j ≠ i → m.tasks[j]? = some u → u.Settles h →
      m'.world.cell h = m.world.cell h := by
    intro j u h hj hu hh
    rw [hcell]
    apply hc.cell_eq
    intro ht
    exact hj (ho.single j i u t h hu hs.task hh ht)
  refine ⟨?_, ?_, ?_, ?_⟩
  · intro j u h hu hh
    obtain ⟨u₀, hu₀, hh₀⟩ | ⟨k, -, hk, hr⟩ := hs.settles hu hh
    · exact Nat.lt_of_lt_of_le (ho.known j u₀ h hu₀ hh₀) hle
    · obtain ⟨-, rfl, hp⟩ := hc.fork_launched hk hr
      simp [hs.world, hp]
  · intro j l u v h hu hv hh hh'
    -- the fresh handle is beyond all handles that somebody settled before
    have fresh :
        ∀ (j : Nat) (u : Task) (k : Nat) (v : Task), m.tasks[j]? = some u → u.Settles h →
        e.launched[k]? = some v → v.role = .fork h → False := by
      intro j u k v hu hh hk hr
      have hlt := ho.known j u h hu hh
      obtain ⟨-, rfl, -⟩ := hc.fork_launched hk hr
      exact Nat.lt_irrefl _ hlt
    obtain ⟨u₀, hu₀, hh₀⟩ | ⟨k, hj, hk, hr⟩ := hs.settles hu hh <;>
      obtain ⟨v₀, hv₀, hh₀'⟩ | ⟨k', hl, hk', hr'⟩ := hs.settles hv hh'
    · exact ho.single j l u₀ v₀ h hu₀ hv₀ hh₀ hh₀'
    · exact (fresh j u₀ k' v hu₀ hh₀ hk' hr').elim
    · exact (fresh l v₀ k u hv₀ hh₀' hk hr).elim
    · rw [hj, hl, (hc.fork_launched hk hr).1, (hc.fork_launched hk' hr').1]
  · intro j u h hu hr
    obtain ⟨rfl, rfl⟩ | ⟨hj, hju⟩ | ⟨k, -, hk⟩ := hs.cases hu
    · rw [hs.turn.role_eq] at hr
      have hp := ho.fork j t h hs.task hr
      rw [Task.phase_cell_of_not_ended hs.turn.not_ended] at hp
      rw [hcell]
      exact hc.fork_cell hr (ho.known j t h hs.task (.inl hr)) hp
    · rw [other j u h hj hju (.inl hr)]
      exact ho.fork j u h hju hr
    · obtain ⟨-, rfl, hp⟩ := hc.fork_launched hk hr
      rw [Task.phase_cell_of_not_ended
        (hs.turn.launched_not_ended (List.mem_of_getElem? hk)), hcell,
        World.cell_of_push hp]
      simp [World.cell]
  · intro j u h hu hw
    obtain ⟨rfl, rfl⟩ | ⟨hj, hju⟩ | ⟨k, -, hk⟩ := hs.cases hu
    · have he : e.task.hasEnded = false := by
        obtain ⟨due, result, hp⟩ := hw
        simp [Task.hasEnded, hp]
      rw [hcell, hc.cell_eq_of_not_ended he]
      exact ho.host j t h hs.task (hs.turn.writes_of hw)
    · rw [other j u h hj hju (.inr hw)]
      exact ho.host j u h hju hw
    · have hmem := List.mem_of_getElem? hk
      obtain ⟨due, result, hp⟩ := hw
      obtain ⟨request, rfl⟩ | ⟨role, span, p, -, rfl⟩ :=
        hs.turn.launched_cases hmem <;> cases hp

theorem owned_idle {added : List Task} (hi : Idled m a added m') (ho : m.Owned) : m'.Owned := by
  have hcell : ∀ h, m'.world.cell h = m.world.cell h := World.cell_congr hi.cells
  have old : ∀ (j : Nat) (u : Task) (h : Handle), m'.tasks[j]? = some u → u.Settles h →
      m.tasks[j]? = some u := by
    intro j u h hu hh
    obtain hu | ⟨-, hu⟩ := hi.cases hu
    · exact hu
    · obtain ⟨p, container, -, rfl⟩ := hi.programs u hu
      obtain hh | ⟨_, _, hh⟩ := hh <;> cases hh
  refine ⟨?_, ?_, ?_, ?_⟩
  · intro j u h hu hh
    rw [hi.cells]
    exact ho.known j u h (old j u h hu hh) hh
  · intro j l u v h hu hv hh hh'
    exact ho.single j l u v h (old j u h hu hh) (old l v h hv hh') hh hh'
  · intro j u h hu hr
    rw [hcell]
    exact ho.fork j u h (old j u h hu (.inl hr)) hr
  · intro j u h hu hw
    rw [hcell]
    exact ho.host j u h (old j u h hu (.inr hw)) hw

theorem owned_reachable (hm : m.Reachable) : m.Owned := by
  apply hm.invariant fun _ => owned_initial
  intro m a m' hm ha ho
  cases ha with
  | step hs => exact owned_step hs (fit_reachable hm) ho
  | idle _ hi => exact owned_idle hi ho

def status (m : Machine r) (h : Handle) : Cell.Status := (m.world.cell h).status

/-- Only a step of the task with the write side changes a handle,
and only once: the cell was pending. -/
theorem status_change (ha : Change m a m') (hf : m.Fit) (ho : m.Owned)
    (hne : m'.status h ≠ m.status h) :
    ∃ i t e, a = .move (.step i) ∧ Stepped m i t e m' ∧ t.Settles h ∧
      m.world.cell h = .pending := by
  cases ha with
  | idle _ hi =>
    refine absurd ?_ hne
    rw [status, World.cell_congr hi.cells, status]
  | @step i t e _ hs =>
    by_cases hh : t.Settles h
    · refine ⟨i, t, e, rfl, hs, hh, ?_⟩
      obtain hr | hw := hh
      · rw [ho.fork i t h hs.task hr, Task.phase_cell_of_not_ended hs.turn.not_ended]
      · exact ho.host i t h hs.task hw
    · refine absurd ?_ hne
      rw [status, hs.world, (hs.turn.onCells (hf i t hs.task)).cell_eq hh, status]

theorem settled_run {as : List Happening} (hm : m.Reachable) (hr : Run m as m')
    (hs : m.status h ≠ .pending) : m'.status h = m.status h := by
  induction hr with
  | refl => rfl
  | @step m m₁ m' a as ha hr ih =>
    have hc : m₁.status h = m.status h := by
      refine Classical.byContradiction fun hne => ?_
      obtain ⟨_, _, _, -, -, -, hp⟩ :=
        status_change (happen?_change ha) (fit_reachable hm) (owned_reachable hm) hne
      exact hs (by rw [status, hp, Cell.status_pending])
    exact (ih (hm.run (.single ha)) (hc ▸ hs)).trans hc

theorem fork_status (ho : m.Owned) (ht : m.tasks[i]? = some t) (hr : t.role = .fork h) :
    m.status h = t.phase.status := by
  rw [status, ho.fork i t h ht hr, Phase.status_cell]

end Machine

end Workflow
