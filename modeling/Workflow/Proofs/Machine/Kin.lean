import Workflow.Proofs.Machine.Confine
import Workflow.Proofs.Machine.Mirror

/-! The tasks of one container.

The tasks that work on a container stand in the order in which they were launched, and only their
own steps change them or add to them. If they are local, what they wait for is their own: nobody
else writes their cells or takes part in their races. -/
namespace Workflow

variable {r : Runner}

section
variable {α : Type} {p : α → Bool} {x y : α}

theorem filter_set_of_neg (hx : p x = false) (hy : p y = false) {xs : List α} {i : Nat}
    (hi : xs[i]? = some x) : (xs.set i y).filter p = xs.filter p := by
  induction xs generalizing i with
  | nil => rfl
  | cons z zs ih =>
    cases i with
    | zero =>
      cases hi
      simp [hx, hy]
    | succ i => simp only [List.set_cons_succ, List.filter_cons, ih hi]

/-- An element that stays in a filtered list has its place there. -/
theorem filter_set_of_pos (hx : p x = true) (hy : p y = true) {xs : List α} {i : Nat}
    (hi : xs[i]? = some x) : (xs.filter p)[(xs.take i).countP p]? = some x ∧
      (xs.set i y).filter p = (xs.filter p).set ((xs.take i).countP p) y := by
  induction xs generalizing i with
  | nil => cases hi
  | cons z zs ih =>
    cases i with
    | zero =>
      cases hi
      simp [hx, hy]
    | succ i =>
      obtain ⟨hget, hset⟩ := ih hi
      by_cases hz : p z = true
      · simp [hz, hget, hset]
      · simp [hz, hget, hset]

theorem filterMap_set {β : Type} {f : α → Option β} (hf : f y = f x) {xs : List α} {i : Nat}
    (hi : xs[i]? = some x) : (xs.set i y).filterMap f = xs.filterMap f := by
  induction xs generalizing i with
  | nil => rfl
  | cons z zs ih =>
    cases i with
    | zero =>
      cases hi
      simp only [List.set_cons_zero, List.filterMap_cons, hf]
    | succ i => simp only [List.set_cons_succ, List.filterMap_cons, ih hi]

end

/-- The number of the cell that a forked program writes. -/
def Role.cell? : Role → Option Nat
  | .fork h => some h.index
  | _ => none

/-- The race of a first branch. -/
def Role.heat? : Role → Option Nat
  | .branch race 0 => some race
  | _ => none

namespace Task
variable {t u : Task} {w : World r} {self : Nat} {e : Effect r} {ts us : List Task}

def isOn (k : Nat) (t : Task) : Bool := t.container = k

/-- The cells of forked programs, in the order of their tasks. -/
def cellsOf (ts : List Task) : List Nat := ts.filterMap (·.role.cell?)

/-- The races that take place between tasks, in the order of the first branches. -/
def racesOf (ts : List Task) : List Nat := ts.filterMap (·.role.heat?)

theorem cellsOf_append : cellsOf (ts ++ us) = cellsOf ts ++ cellsOf us := List.filterMap_append

theorem racesOf_append : racesOf (ts ++ us) = racesOf ts ++ racesOf us := List.filterMap_append

theorem mem_cellsOf {i : Nat} : i ∈ cellsOf ts ↔ ∃ u ∈ ts, u.role = .fork ⟨i⟩ := by
  simp only [cellsOf, List.mem_filterMap]
  refine exists_congr fun u => and_congr_right fun _ => ?_
  constructor
  · intro h
    unfold Role.cell? at h
    split at h <;> cases h
    assumption
  · intro h
    rw [h]
    rfl

theorem mem_racesOf {race : Nat} :
    race ∈ racesOf ts ↔ ∃ u ∈ ts, u.role = .branch race 0 := by
  simp only [racesOf, List.mem_filterMap]
  refine exists_congr fun u => and_congr_right fun _ => ?_
  unfold Role.heat?
  split <;> simp_all

theorem cellsOf_set {i : Nat} (ht : ts[i]? = some t) (hr : u.role = t.role) :
    cellsOf (ts.set i u) = cellsOf ts := by
  apply filterMap_set _ ht
  rw [hr]

theorem racesOf_set {i : Nat} (ht : ts[i]? = some t) (hr : u.role = t.role) :
    racesOf (ts.set i u) = racesOf ts := by
  apply filterMap_set _ ht
  rw [hr]

/-- A step adds a cell exactly if it forks a program. -/
theorem CellTurn.cellsOf_launched (h : t.CellTurn w e) :
    (cellsOf e.launched = [] ∧ e.world.cells.size = w.cells.size) ∨
      cellsOf e.launched = [w.cells.size] ∧ e.world.cells.size = w.cells.size + 1 := by
  cases h with
  | keeps _ hc hl =>
    refine .inl ⟨?_, by rw [hc]⟩
    rw [List.eq_nil_iff_forall_not_mem]
    intro i hi
    obtain ⟨u, hu, hr⟩ := mem_cellsOf.mp hi
    exact hl u hu _ hr
  | forks _ hc hl => exact .inr ⟨by rw [hl]; rfl, by simp [hc]⟩
  | ends ht hc hl => exact .inl ⟨by rw [hl]; rfl, (CellTurn.ends ht hc hl).size_eq hl⟩
  | writes hr hw ht hc hl => exact .inl ⟨by rw [hl]; rfl, by simp [hc]⟩

theorem CellTurn.size_launched (h : t.CellTurn w e) :
    e.world.cells.size = w.cells.size + (cellsOf e.launched).length := by
  obtain ⟨hl, hsize⟩ | ⟨hl, hsize⟩ := h.cellsOf_launched <;> rw [hl, hsize] <;> rfl

/-- A step adds a race exactly if it launches a first branch. -/
theorem RaceTurn.racesOf_launched (h : t.RaceTurn w self e) :
    (racesOf e.launched = [] ∧ e.world.races.size = w.races.size) ∨
      racesOf e.launched = [w.races.size] ∧ e.world.races.size = w.races.size + 1 := by
  cases h with
  | keeps _ hr _ hl =>
    refine .inl ⟨?_, by rw [hr]⟩
    rw [List.eq_nil_iff_forall_not_mem]
    intro race hrace
    obtain ⟨u, hu, hrole⟩ := mem_racesOf.mp hrace
    have hb := hl u hu race
    simp [isBranch, hrole] at hb
  | @starts ps _ hps hr _ hl =>
    refine .inr ⟨?_, by simp [hr]⟩
    obtain ⟨p, ps, rfl⟩ := List.exists_cons_of_ne_nil hps
    have hrest : racesOf (t.branches w.races.size 1 ps) = [] := by
      rw [List.eq_nil_iff_forall_not_mem]
      intro race hrace
      obtain ⟨u, hu, hrole⟩ := mem_racesOf.mp hrace
      obtain ⟨n, hn⟩ := List.mem_iff_getElem?.mp hu
      rw [branches_getElem?] at hn
      obtain ⟨q, -, rfl⟩ := Option.map_eq_some_iff.mp hn
      have hindex := (Role.branch.inj hrole).2
      omega
    rw [hl]
    exact congrArg (w.races.size :: ·) hrest
  | looks _ _ _ hr hl => exact .inl ⟨by rw [hl]; rfl, by simp [hr]⟩
  | ends _ hr hl =>
    refine .inl ⟨by rw [hl]; rfl, ?_⟩
    unfold Role.report at hr
    split at hr <;> simp [hr]

theorem RaceTurn.size_launched (h : t.RaceTurn w self e) :
    e.world.races.size = w.races.size + (racesOf e.launched).length := by
  obtain ⟨hl, hsize⟩ | ⟨hl, hsize⟩ := h.racesOf_launched <;> rw [hl, hsize] <;> rfl

/-- A step leaves alone the races in which the task has no part. -/
theorem RaceTurn.race_eq (h : t.RaceTurn w self e) {race : Nat} (hlt : race < w.races.size)
    (hb : t.isBranch race = false) (hp : ∀ pending, t.phase ≠ .racing race pending) :
    e.world.races[race]? = w.races[race]? := by
  cases h with
  | keeps _ hr => rw [hr]
  | starts _ hr => rw [hr, Array.getElem?_push, if_neg (Nat.ne_of_lt hlt)]
  | @looks race' pending _ _ _ _ hphase _ _ hr =>
    rw [hr, Array.getElem?_modify, if_neg]
    rintro rfl
    exact hp pending hphase
  | ends _ hr =>
    unfold Role.report at hr
    split at hr
    next race' index hrole =>
      rw [hr, Array.getElem?_modify, if_neg]
      rintro rfl
      simp [isBranch, hrole] at hb
    next => rw [hr]

end Task

namespace Machine
variable {m m' mₙ : Machine r} {a : Happening} {as : List Happening} {i j k : Nat} {t u : Task}
  {e : Effect r}

/-- The tasks that work on a container, in the order in which they were launched. -/
def kin (m : Machine r) (k : Nat) : List Task := m.tasks.toList.filter (Task.isOn k)

/-- The place of a task among those of its container. -/
def place (m : Machine r) (k i : Nat) : Nat := (m.tasks.toList.take i).countP (Task.isOn k)

/-- The handles of the programs that are forked on a container. -/
def handlesOn (m : Machine r) (k : Nat) : Set Handle := {h | h.index ∈ Task.cellsOf (m.kin k)}

/-- The races between tasks of a container. -/
def racesOn (m : Machine r) (k : Nat) : Set Nat := {race | race ∈ Task.racesOf (m.kin k)}

theorem mem_kin : t ∈ m.kin k ↔ ∃ i : Nat, m.tasks[i]? = some t ∧ t.container = k := by
  rw [kin, List.mem_filter, List.mem_iff_getElem?, Task.isOn, decide_eq_true_eq, exists_and_right]
  simp only [Array.getElem?_toList]

theorem mem_handlesOn {h : Handle} : h ∈ m.handlesOn k ↔
    ∃ (i : Nat) (t : Task), m.tasks[i]? = some t ∧ t.container = k ∧ t.role = .fork h := by
  constructor
  · intro hh
    obtain ⟨t, ht, hr⟩ := Task.mem_cellsOf.mp hh
    obtain ⟨i, hi, hc⟩ := mem_kin.mp ht
    exact ⟨i, t, hi, hc, hr⟩
  · rintro ⟨i, t, hi, hc, hr⟩
    exact Task.mem_cellsOf.mpr ⟨t, mem_kin.mpr ⟨i, hi, hc⟩, hr⟩

theorem mem_racesOn {race : Nat} : race ∈ m.racesOn k ↔
    ∃ (i : Nat) (t : Task), m.tasks[i]? = some t ∧ t.container = k ∧
      t.role = .branch race 0 := by
  constructor
  · intro hr
    obtain ⟨t, ht, hr⟩ := Task.mem_racesOf.mp hr
    obtain ⟨i, hi, hc⟩ := mem_kin.mp ht
    exact ⟨i, t, hi, hc, hr⟩
  · rintro ⟨i, t, hi, hc, hr⟩
    exact Task.mem_racesOf.mpr ⟨t, mem_kin.mpr ⟨i, hi, hc⟩, hr⟩

/-- A step of a task of the container changes it where it stands, and adds what it launches. -/
theorem Stepped.kin_self (hs : Stepped m i t e m') (ht : t.container = k) :
    (m.kin k)[m.place k i]? = some t ∧
    m'.kin k = (m.kin k).set (m.place k i) e.task ++ e.launched := by
  have hi : m.tasks.toList[i]? = some t := by rw [Array.getElem?_toList, hs.task]
  have hon : Task.isOn k t = true := decide_eq_true ht
  have hon' : Task.isOn k e.task = true := decide_eq_true (hs.turn.container_eq.trans ht)
  have hlaunched : e.launched.filter (Task.isOn k) = e.launched :=
    List.filter_eq_self.mpr fun u hu => decide_eq_true ((hs.turn.launched_container hu).trans ht)
  obtain ⟨hget, hset⟩ := filter_set_of_pos hon hon' hi
  refine ⟨hget, ?_⟩
  rw [kin, hs.tasks, List.filter_append, hset, hlaunched]
  rfl

/-- A step of another task leaves the tasks of the container alone. -/
theorem Stepped.kin_other (hs : Stepped m i t e m') (ht : t.container ≠ k) :
    m'.kin k = m.kin k := by
  have hi : m.tasks.toList[i]? = some t := by rw [Array.getElem?_toList, hs.task]
  have hoff : Task.isOn k t = false := decide_eq_false ht
  have hoff' : Task.isOn k e.task = false := decide_eq_false (hs.turn.container_eq.symm ▸ ht)
  have hlaunched : e.launched.filter (Task.isOn k) = [] := by
    rw [List.filter_eq_nil_iff]
    intro u hu hon
    exact ht ((hs.turn.launched_container hu).symm.trans (of_decide_eq_true hon))
  rw [kin, hs.tasks, List.filter_append, filter_set_of_neg hoff hoff' hi, hlaunched,
    List.append_nil]
  rfl

theorem Idled.kin {added : List Task} (hi : Idled m a added m') (hl : ∀ p, a ≠ .launch p k) :
    m'.kin k = m.kin k := by
  have hadded : added.filter (Task.isOn k) = [] := by
    rw [List.filter_eq_nil_iff]
    intro u hu hon
    obtain ⟨p, container, ha, rfl⟩ := hi.programs u hu
    obtain rfl : container = k := of_decide_eq_true hon
    exact hl p ha
  rw [Machine.kin, hi.tasks, List.filter_append, hadded, List.append_nil]
  rfl

/-- The tasks of the container are local, know only handles and races of their own, and nobody else
takes part in their races. -/
structure Secluded (m : Machine r) (k : Nat) : Prop where
  kin : ∀ (i : Nat) (t : Task), m.tasks[i]? = some t → t.container = k →
    t.role.OfProgram ∧ t.Local (m.handlesOn k) (m.racesOn k)
  branch :
    ∀ (i : Nat) (t : Task) (race : Nat), m.tasks[i]? = some t → t.isBranch race = true →
    race ∈ m.racesOn k → t.container = k
  racing :
    ∀ (i : Nat) (t : Task) (race : Nat) (pending : List Continuation), m.tasks[i]? = some t →
    t.phase = .racing race pending → race ∈ m.racesOn k → t.container = k
  cells : (Task.cellsOf (m.kin k)).Pairwise (· < ·)
  races : (Task.racesOf (m.kin k)).Pairwise (· < ·)

theorem handlesOn_lt (ho : m.Owned) {h : Handle} (hh : h ∈ m.handlesOn k) :
    h.index < m.world.cells.size := by
  obtain ⟨i, t, ht, -, hr⟩ := mem_handlesOn.mp hh
  exact ho.known i t h ht (.inl hr)

theorem racesOn_lt (hl : m.Ledger) {race : Nat} (hr : race ∈ m.racesOn k) :
    race < m.world.races.size := by
  obtain ⟨i, t, ht, -, hrole⟩ := mem_racesOn.mp hr
  exact hl.branch i t race ht (Task.isBranch_iff.mpr ⟨0, hrole⟩)

/-- Nobody has dropped the write side of a cell of local tasks. -/
theorem Secluded.held (hm : m.Secluded k) (ho : m.Owned) {h : Handle} (hh : h ∈ m.handlesOn k) :
    (m.world.cell h).status ≠ .abandoned := by
  obtain ⟨i, t, ht, hc, hr⟩ := mem_handlesOn.mp hh
  obtain ⟨-, hlocal⟩ := hm.kin i t ht hc
  have hwaits := hlocal.waits
  rw [ho.fork i t h ht hr, Phase.status_cell]
  generalize t.phase = phase at hwaits
  cases hwaits with
  | ended result => cases result <;> exact nofun
  | _ => exact nofun

/-- The sets of handles and races grow by what a task of the container launches. -/
theorem Stepped.handlesOn_self (hs : Stepped m i t e m') (ht : t.container = k) :
    Task.cellsOf (m'.kin k) = Task.cellsOf (m.kin k) ++ Task.cellsOf e.launched ∧
      m'.handlesOn k = m.handlesOn k ∪ e.forked := by
  obtain ⟨hget, hkin⟩ := hs.kin_self ht
  have hcells : Task.cellsOf (m'.kin k) = Task.cellsOf (m.kin k) ++ Task.cellsOf e.launched := by
    rw [hkin, Task.cellsOf_append, Task.cellsOf_set hget hs.turn.role_eq]
  refine ⟨hcells, ?_⟩
  ext h
  simp only [handlesOn, hcells, Set.mem_union, Effect.forked]
  exact List.mem_append.trans (or_congr_right Task.mem_cellsOf)

theorem Stepped.racesOn_self (hs : Stepped m i t e m') (ht : t.container = k) :
    Task.racesOf (m'.kin k) = Task.racesOf (m.kin k) ++ Task.racesOf e.launched ∧
      m'.racesOn k = m.racesOn k ∪ e.raced := by
  obtain ⟨hget, hkin⟩ := hs.kin_self ht
  have hraces : Task.racesOf (m'.kin k) = Task.racesOf (m.kin k) ++ Task.racesOf e.launched := by
    rw [hkin, Task.racesOf_append, Task.racesOf_set hget hs.turn.role_eq]
  refine ⟨hraces, ?_⟩
  ext race
  simp only [racesOn, hraces, Set.mem_union, Effect.raced]
  exact List.mem_append.trans (or_congr_right Task.mem_racesOf)

theorem kin_congr (h : m'.kin k = m.kin k) :
    m'.handlesOn k = m.handlesOn k ∧ m'.racesOn k = m.racesOn k := by
  simp only [handlesOn, racesOn, h, and_self]

/-- A race on the container was there before, or a task of the container has just started it. -/
theorem Stepped.racesOn_cases (hs : Stepped m i t e m') (hf : m.Fit) {race : Nat}
    (hr : race ∈ m'.racesOn k) :
    race ∈ m.racesOn k ∨ t.container = k ∧ race = m.world.races.size := by
  by_cases ht : t.container = k
  · rw [(hs.racesOn_self ht).2] at hr
    obtain hr | ⟨u, hu, hrole⟩ := hr
    · exact .inl hr
    · have hturn := hs.turn.onRaces (hf i t hs.task)
      exact .inr ⟨ht, (hturn.launched_branch hu (Task.isBranch_iff.mpr ⟨0, hrole⟩)).1⟩
  · rw [(kin_congr (hs.kin_other ht)).2] at hr
    exact .inl hr

/-- A step of a local task keeps it local, and so is what it launches. -/
theorem Secluded.kin_step (h : m.Secluded k) (he : t.step? m.world i = some e)
    (hs : Stepped m i t e m') (hu : m'.tasks[j]? = some u) (huk : u.container = k) :
    u.role.OfProgram ∧ u.Local (m'.handlesOn k) (m'.racesOn k) := by
  by_cases ht : t.container = k
  · rw [(hs.handlesOn_self ht).2, (hs.racesOn_self ht).2]
    obtain ⟨hrole, hlocal⟩ := h.kin i t hs.task ht
    obtain ⟨-, rfl⟩ | ⟨-, hu⟩ | ⟨n, -, hn⟩ := hs.cases hu
    · exact ⟨hs.turn.role_eq ▸ hrole, hlocal.step? he⟩
    · obtain ⟨hrole, hlocal⟩ := h.kin j u hu huk
      exact ⟨hrole, hlocal.mono Set.subset_union_left Set.subset_union_left⟩
    · have hmem := List.mem_of_getElem? hn
      have hlocal' := hlocal.launched he hmem
      refine ⟨?_, hlocal'.mono Set.subset_union_left Set.subset_union_left⟩
      obtain ⟨request, rfl⟩ | ⟨role, span, p, hrole, rfl⟩ := hs.turn.launched_cases hmem
      · exact (nomatch hlocal'.waits)
      · exact hrole
  · obtain ⟨hhandles, hraces⟩ := kin_congr (hs.kin_other ht)
    rw [hhandles, hraces]
    obtain ⟨-, rfl⟩ | ⟨-, hu⟩ | ⟨n, -, hn⟩ := hs.cases hu
    · exact absurd (hs.turn.container_eq.symm.trans huk) ht
    · exact h.kin j u hu huk
    · exact absurd ((hs.turn.launched_container (List.mem_of_getElem? hn)).symm.trans huk) ht

theorem Secluded.cells_step (h : m.Secluded k) (hf : m.Fit) (ho : m.Owned)
    (hs : Stepped m i t e m') :
    (Task.cellsOf (m'.kin k)).Pairwise (· < ·) := by
  by_cases ht : t.container = k
  · rw [(hs.handlesOn_self ht).1]
    obtain ⟨hcells, -⟩ | ⟨hcells, -⟩ := (hs.turn.onCells (hf i t hs.task)).cellsOf_launched
    · rw [hcells, List.append_nil]
      exact h.cells
    · rw [hcells, List.pairwise_append]
      refine ⟨h.cells, List.pairwise_singleton _ _, ?_⟩
      intro x hx y hy
      obtain rfl := List.mem_singleton.mp hy
      exact handlesOn_lt (h := ⟨x⟩) ho hx
  · rw [hs.kin_other ht]
    exact h.cells

theorem Secluded.races_step (h : m.Secluded k) (hf : m.Fit) (hl : m.Ledger)
    (hs : Stepped m i t e m') : (Task.racesOf (m'.kin k)).Pairwise (· < ·) := by
  by_cases ht : t.container = k
  · rw [(hs.racesOn_self ht).1]
    obtain ⟨hraces, -⟩ | ⟨hraces, -⟩ := (hs.turn.onRaces (hf i t hs.task)).racesOf_launched
    · rw [hraces, List.append_nil]
      exact h.races
    · rw [hraces, List.pairwise_append]
      refine ⟨h.races, List.pairwise_singleton _ _, ?_⟩
      intro x hx y hy
      obtain rfl := List.mem_singleton.mp hy
      exact racesOn_lt hl hx
  · rw [hs.kin_other ht]
    exact h.races

theorem Secluded.step (h : m.Secluded k) (hm : m.Reachable) (he : t.step? m.world i = some e)
    (hs : Stepped m i t e m') : m'.Secluded k := by
  have hf := fit_reachable hm
  have ho := owned_reachable hm
  have hl := ledger_reachable hm
  have hturn := hs.turn.onRaces (hf i t hs.task)
  refine ⟨fun j u => h.kin_step he hs, ?_, ?_, h.cells_step hf ho hs, h.races_step hf hl hs⟩
  · intro j u race hu hb hr
    obtain ⟨-, rfl⟩ | ⟨-, hu⟩ | ⟨n, -, hn⟩ := hs.cases hu
    · rw [hs.turn.container_eq]
      obtain hr | ⟨ht, -⟩ := hs.racesOn_cases hf hr
      · exact h.branch i t race hs.task (Task.isBranch_congr hs.turn.role_eq race ▸ hb) hr
      · exact ht
    · obtain hr | ⟨-, rfl⟩ := hs.racesOn_cases hf hr
      · exact h.branch j u race hu hb hr
      · exact absurd (hl.branch j u _ hu hb) (Nat.lt_irrefl _)
    · have hmem := List.mem_of_getElem? hn
      rw [hs.turn.launched_container hmem]
      obtain hr | ⟨ht, -⟩ := hs.racesOn_cases hf hr
      · have hlt := racesOn_lt hl hr
        have heq := (hturn.launched_branch hmem hb).1
        omega
      · exact ht
  · intro j u race pending hu hp hr
    obtain hu₀ | ⟨rfl, rfl, -⟩ := hs.racing_cases hf hu hp
    · obtain hr | ⟨-, rfl⟩ := hs.racesOn_cases hf hr
      · exact h.racing j u race pending hu₀ hp hr
      · exact absurd (hl.racing j u _ pending hu₀ hp) (Nat.lt_irrefl _)
    · cases hs.self.symm.trans hu
      rw [hs.turn.container_eq]
      obtain hr | ⟨ht, -⟩ := hs.racesOn_cases hf hr
      · exact absurd (racesOn_lt hl hr) (Nat.lt_irrefl _)
      · exact ht

theorem Secluded.idle {added : List Task} (h : m.Secluded k) (hi : Idled m a added m')
    (hl : ∀ p, a ≠ .launch p k) : m'.Secluded k := by
  have hkin := hi.kin hl
  obtain ⟨hhandles, hraces⟩ := kin_congr hkin
  refine ⟨?_, ?_, ?_, by rw [hkin]; exact h.cells, by rw [hkin]; exact h.races⟩
  · intro j u hu huk
    rw [hhandles, hraces]
    obtain hu | ⟨-, hu⟩ := hi.cases hu
    · exact h.kin j u hu huk
    · obtain ⟨p, container, rfl, rfl⟩ := hi.programs u hu
      obtain rfl : container = k := huk
      exact absurd rfl (hl p)
  · intro j u race hu hb hr
    rw [hraces] at hr
    obtain hu | ⟨-, hu⟩ := hi.cases hu
    · exact h.branch j u race hu hb hr
    · obtain ⟨p, container, -, rfl⟩ := hi.programs u hu
      cases hb
  · intro j u race pending hu hp hr
    rw [hraces] at hr
    obtain hu | ⟨-, hu⟩ := hi.cases hu
    · exact h.racing j u race pending hu hp hr
    · obtain ⟨p, container, -, rfl⟩ := hi.programs u hu
      cases hp

theorem Secluded.happen (h : m.Secluded k) (hm : m.Reachable) (ha : m.happen? a = some m')
    (hl : ∀ p, a ≠ .launch p k) : m'.Secluded k := by
  rcases step_or_idle a with ⟨i, rfl⟩ | hn
  · obtain ⟨t, e, he, hs⟩ := step?_stepped ha
    exact h.step hm he hs
  · cases happen?_change ha with
    | step => exact absurd rfl (hn _)
    | idle _ hi => exact h.idle hi hl

end Machine

end Workflow
