import Mathlib.Logic.Equiv.Basic
import Workflow.Proofs.Machine.Kin

/-! Runs do not notice each other.

The tasks of a run on a container of its own are followed in a machine where
nothing else runs. Every step that one of them takes is taken there too, and the
clock moves there when their time comes. -/
namespace Workflow

variable {r : Runner}

/-- Distinct things are taken to as many others, one by one, by a permutation. -/
theorem exists_perm_map_eq {α : Type} [DecidableEq α] {xs ys : List α} (hxs : xs.Nodup)
    (hys : ys.Nodup) (hlength : xs.length = ys.length) :
    ∃ ρ : Equiv.Perm α, xs.map ρ = ys := by
  induction xs generalizing ys with
  | nil => exact ⟨Equiv.refl α, (List.length_eq_zero_iff.mp hlength.symm).symm⟩
  | cons x xs ih =>
    cases ys with
    | nil => cases hlength
    | cons y ys =>
      obtain ⟨hx, hxs⟩ := List.nodup_cons.mp hxs
      obtain ⟨hy, hys⟩ := List.nodup_cons.mp hys
      obtain ⟨ρ, hρ⟩ := ih hxs hys (Nat.succ.inj hlength)
      refine ⟨ρ.trans (Equiv.swap (ρ x) y), ?_⟩
      rw [List.map_cons, Equiv.trans_apply, Equiv.swap_apply_left, ← hρ]
      congr 1
      apply List.map_congr_left
      intro z hz
      rw [Equiv.trans_apply, Equiv.swap_apply_of_ne_of_ne]
      · intro heq
        exact hx (ρ.injective heq ▸ hz)
      · intro heq
        rw [← hρ] at hy
        exact hy (heq ▸ List.mem_map_of_mem hz)

namespace Machine
variable {m m' mₙ n : Machine r} {a : Happening} {as : List Happening} {i j k : Nat} {t u : Task}
  {e : Effect r}

/-- The cells and the races of some tasks have the numbers that they get
one after the other in the machine. -/
structure Numbered (v : Relabeling) (n : Machine r) (ts : List Task) : Prop where
  cells : ∀ (i c : Nat), (Task.cellsOf ts)[i]? = some c → v.handle c = n.world.cells.size + i
  races :
    ∀ (i race : Nat), (Task.racesOf ts)[i]? = some race → v.race race = n.world.races.size + i

/-- The other machine waits for the time of a task. -/
structure Lags (v : Relabeling) (k : Nat) (m n : Machine r) : Prop where
  now : n.world.now ≤ v.time m.world.now
  quiet : n.isQuiet = true
  due : ∀ t ∈ m.kin k, ∀ due, dueOf t = some due → m.world.now < due

/-- The second machine holds the tasks of a container of the first one and nothing else. -/
structure Mirrored (v : Relabeling) (k : Nat) (n₀ m n : Machine r) : Prop where
  tasks : n.tasks.toList = (m.kin k).map v.task
  world : m.world.Mirrors v k (m.handlesOn k) (m.racesOn k) n.world
  cells : n.world.cells.size = n₀.world.cells.size + (Task.cellsOf (m.kin k)).length
  races : n.world.races.size = n₀.world.races.size + (Task.racesOf (m.kin k)).length
  since : v.since ≤ m.world.now
  clock : n.world.now = v.time m.world.now ∨ Lags v k m n

variable {v : Relabeling} {n₀ : Machine r}

theorem Numbered.restrict {ts us : List Task} (h : Numbered v n us)
    (hc : Task.cellsOf ts <+: Task.cellsOf us) (hr : Task.racesOf ts <+: Task.racesOf us) :
    Numbered v n ts := by
  obtain ⟨cs, hcs⟩ := hc
  obtain ⟨rs, hrs⟩ := hr
  constructor
  · intro i c hi
    apply h.cells
    rw [← hcs, List.getElem?_append_left (List.getElem?_eq_some_iff.mp hi).1, hi]
  · intro i race hi
    apply h.races
    rw [← hrs, List.getElem?_append_left (List.getElem?_eq_some_iff.mp hi).1, hi]

theorem cellsOf_map (v : Relabeling) (ts : List Task) :
    Task.cellsOf (ts.map v.task) = (Task.cellsOf ts).map v.handle := by
  have hrole (role : Role) : (v.role role).cell? = role.cell?.map v.handle := by
    cases role <;> rfl
  simp only [Task.cellsOf, List.filterMap_map, List.map_filterMap, ← hrole]
  rfl

theorem racesOf_map (v : Relabeling) (ts : List Task) :
    Task.racesOf (ts.map v.task) = (Task.racesOf ts).map v.race := by
  have hrole (role : Role) : (v.role role).heat? = role.heat?.map v.race := by
    cases role with
    | branch race index => cases index <;> rfl
    | _ => rfl
  simp only [Task.racesOf, List.filterMap_map, List.map_filterMap, ← hrole]
  rfl

/-- Whether a task of the container can step is the same in both
machines, if its time comes in both. -/
theorem Mirrored.isSome_step? (h : Mirrored v k n₀ m n) (hk : m.Secluded k) (ho : m.Owned)
    (ht : m.tasks[i]? = some t) (htk : t.container = k)
    (hdue : ∀ due, dueOf t = some due → (v.time due ≤ n.world.now ↔ due ≤ m.world.now))
    (j : Nat) :
    ((v.task t).step? n.world j).isSome = (t.step? m.world i).isSome := by
  subst htk
  obtain ⟨-, hlocal⟩ := hk.kin i t ht rfl
  exact hlocal.isSome_step? h.world (fun h hh => hk.held ho hh) hdue i j

/-- A task of the container stands in the other machine at its place. -/
theorem Mirrored.task (h : Mirrored v k n₀ m n) (hs : Stepped m i t e m') (ht : t.container = k) :
    n.tasks[m.place k i]? = some (v.task t) := by
  rw [← Array.getElem?_toList, h.tasks, List.getElem?_map, (hs.kin_self ht).1]
  rfl

/-- As long as the other machine waits, no task of the container can step. -/
theorem Mirrored.synced (h : Mirrored v k n₀ m n) (hk : m.Secluded k) (ho : m.Owned)
    (hs : Stepped m i t e m') (he : t.step? m.world i = some e) (ht : t.container = k) :
    n.world.now = v.time m.world.now := by
  refine h.clock.resolve_right ?_
  intro hlags
  have hdue (due : Nat) (hd : dueOf t = some due) :
      v.time due ≤ n.world.now ↔ due ≤ m.world.now := by
    have hlt := hlags.due t (mem_kin.mpr ⟨i, hs.task, ht⟩) due hd
    have hnow := hlags.now
    have hsince := h.since
    unfold Relabeling.time at hnow ⊢
    omega
  have hsome := h.isSome_step? hk ho hs.task ht hdue (m.place k i)
  rw [he, Option.isSome_some] at hsome
  obtain ⟨e', he'⟩ := Option.isSome_iff_exists.mp hsome
  obtain ⟨n', hn', -⟩ := stepped_of_task (h.task hs ht) he'
  rw [isQuiet_iff.mp hlags.quiet] at hn'
  cases hn'

/-- A forked program gets the number in the other machine that it should have. -/
theorem Mirrored.next_cell (h : Mirrored v k n₀ m n) (hf : m.Fit) (hs : Stepped m i t e m')
    (ht : t.container = k) (hnum : Numbered v n₀ (m'.kin k)) (hne : e.forked.Nonempty) :
    v.handle m.world.cells.size = n.world.cells.size := by
  obtain ⟨handle, hforked⟩ := hne
  have hmem := Task.mem_cellsOf.mpr hforked
  obtain ⟨hcells, -⟩ | ⟨hcells, -⟩ := (hs.turn.onCells (hf i t hs.task)).cellsOf_launched
  · rw [hcells] at hmem
    cases hmem
  · rw [h.cells]
    apply hnum.cells
    rw [(hs.handlesOn_self ht).1, hcells, List.getElem?_concat_length]

theorem Mirrored.next_race (h : Mirrored v k n₀ m n) (hf : m.Fit) (hs : Stepped m i t e m')
    (ht : t.container = k) (hnum : Numbered v n₀ (m'.kin k)) (hne : e.raced.Nonempty) :
    v.race m.world.races.size = n.world.races.size := by
  obtain ⟨race, hraced⟩ := hne
  have hmem := Task.mem_racesOf.mpr hraced
  obtain ⟨hraces, -⟩ | ⟨hraces, -⟩ := (hs.turn.onRaces (hf i t hs.task)).racesOf_launched
  · rw [hraces] at hmem
    cases hmem
  · rw [h.races]
    apply hnum.races
    rw [(hs.racesOn_self ht).1, hraces, List.getElem?_concat_length]

/-- What a local task becomes in the other machine fits there. -/
theorem fits_relabeled (hrole : t.role.OfProgram) {handles : Set Handle} {races : Set Nat}
    (hlocal : t.Local handles races) : (v.task t).Fits := by
  apply Task.fits_of_program
  · unfold Relabeling.task Relabeling.role
    cases hr : t.role <;> rw [hr] at hrole <;> exact hrole
  · have hwaits := hlocal.waits
    unfold Relabeling.task
    generalize t.phase = phase at hwaits
    cases hwaits with
    | sleeping => rfl
    | _ => trivial

/-- A step of a task of the container is taken in the other machine too. -/
theorem Mirrored.step_self (h : Mirrored v k n₀ m n) (hm : m.Reachable) (hk : m.Secluded k)
    (hs : Stepped m i t e m') (he : t.step? m.world i = some e) (ht : t.container = k)
    (hnum : Numbered v n₀ (m'.kin k)) :
    ∃ n', n.step? (m.place k i) = some n' ∧ Mirrored v k n₀ m' n' := by
  have hf := fit_reachable hm
  have ho := owned_reachable hm
  obtain ⟨hrole, hlocal⟩ := hk.kin i t hs.task ht
  have hnow := h.synced hk ho hs he ht
  subst ht
  obtain ⟨e', he', heffect⟩ := hlocal.mirrors h.world hnow h.since
    (fun _ hh => hk.held ho hh) he (h.next_cell hf hs rfl hnum) (h.next_race hf hs rfl hnum)
    (m.place t.container i)
  obtain ⟨n', hn', hs'⟩ := stepped_of_task (h.task hs rfl) he'
  have hfits := fits_relabeled (v := v) hrole hlocal
  obtain ⟨hcells, hhandles⟩ := hs.handlesOn_self rfl
  obtain ⟨hraces, hracesOn⟩ := hs.racesOn_self rfl
  refine ⟨n', hn', ?_, ?_, ?_, ?_, ?_, ?_⟩
  · rw [hs'.tasks, h.tasks, (hs.kin_self rfl).2, heffect.task, heffect.launched, List.map_append,
      List.map_set]
  · rw [hs.world, hs'.world, hhandles, hracesOn]
    exact heffect.world
  · rw [hs'.world, (hs'.turn.onCells hfits).size_launched, heffect.launched, cellsOf_map,
      List.length_map, h.cells, hcells, List.length_append, Nat.add_assoc]
  · rw [hs'.world, (hs'.turn.onRaces hfits).size_launched, heffect.launched, racesOf_map,
      List.length_map, h.races, hraces, List.length_append, Nat.add_assoc]
  · rw [hs.world, hs.turn.now_eq]
    exact h.since
  · left
    rw [hs.world, hs'.world, hs.turn.now_eq, hs'.turn.now_eq, hnow]

/-- What leaves the container, its cells, its races and the clock alone
goes unnoticed in the other machine. -/
theorem Mirrored.unnoticed (h : Mirrored v k n₀ m n) (hkin : m'.kin k = m.kin k)
    (hnow : m'.world.now = m.world.now) (hc : m'.world.containers[k]? = m.world.containers[k]?)
    (hcells : ∀ handle ∈ m.handlesOn k,
      m'.world.cells[handle.index]? = m.world.cells[handle.index]?)
    (hraces : ∀ race ∈ m.racesOn k, m'.world.races[race]? = m.world.races[race]?) :
    Mirrored v k n₀ m' n := by
  obtain ⟨hhandles, hracesOn⟩ := kin_congr hkin
  refine ⟨?_, ?_, ?_, ?_, ?_, ?_⟩
  · rw [hkin, h.tasks]
  · rw [hhandles, hracesOn]
    exact h.world.left hc hcells hraces
  · rw [hkin, h.cells]
  · rw [hkin, h.races]
  · rw [hnow]
    exact h.since
  · rw [hnow]
    refine h.clock.imp_right fun hlags => ⟨?_, hlags.quiet, ?_⟩
    · rw [hnow]
      exact hlags.now
    · rw [hkin, hnow]
      exact hlags.due

/-- A step of another task goes unnoticed. -/
theorem Mirrored.step_other (h : Mirrored v k n₀ m n) (hm : m.Reachable) (hk : m.Secluded k)
    (hs : Stepped m i t e m') (he : t.step? m.world i = some e) (ht : t.container ≠ k) :
    Mirrored v k n₀ m' n := by
  have hf := fit_reachable hm
  have ho := owned_reachable hm
  have hl := ledger_reachable hm
  have hcellTurn := hs.turn.onCells (hf i t hs.task)
  refine h.unnoticed (hs.kin_other ht) (by rw [hs.world, hs.turn.now_eq]) ?_ ?_ ?_
  · have hcontainers : e.world.containers = _ := congrArg Scene.containers (Task.step?_scene he)
    rw [hs.world, hcontainers, Scene.after_containers]
    cases t.phase.deed?.bind Deed.update? with
    | none => rfl
    | some u => exact (Array.getElem?_modify ..).trans (if_neg ht)
  · intro handle hh
    have hlt := handlesOn_lt ho hh
    have hsettles : ¬ t.Settles handle := by
      obtain ⟨j, u, hu, huk, hrole⟩ := mem_handlesOn.mp hh
      intro hsettles
      obtain rfl := ho.single i j t u handle hs.task hu hsettles (.inl hrole)
      cases hs.task.symm.trans hu
      exact ht huk
    have hcell := hcellTurn.cell_eq hsettles
    have hlt' := Nat.lt_of_lt_of_le hlt hcellTurn.size_le
    rw [hs.world]
    simpa [World.cell, hlt, hlt'] using hcell
  · intro race hr
    rw [hs.world]
    apply (hs.turn.onRaces (hf i t hs.task)).race_eq (racesOn_lt hl hr)
    · rw [Bool.eq_false_iff]
      intro hb
      exact ht (hk.branch i t race hs.task hb hr)
    · intro pending hp
      exact ht (hk.racing i t race pending hs.task hp hr)

theorem dueOf_relabeled (v : Relabeling) (t : Task) : dueOf (v.task t) = (dueOf t).map v.time := by
  unfold dueOf Relabeling.task Relabeling.phase
  cases t.phase <;> rfl

theorem step?_eq_none_of_quiet (hq : m.isQuiet = true) (ht : m.tasks[i]? = some t) :
    t.step? m.world i = none := by
  cases he : t.step? m.world i with
  | none => rfl
  | some e =>
    obtain ⟨m', hm', -⟩ := stepped_of_task ht he
    cases (isQuiet_iff.mp hq i).symm.trans hm'

/-- If no task can step, nobody sleeps for a time that has come. -/
theorem now_lt_of_quiet (hq : m.isQuiet = true) (ht : m.tasks[i]? = some t) {due : Nat}
    (hd : dueOf t = some due) : m.world.now < due := by
  have hstep := step?_eq_none_of_quiet hq ht
  unfold dueOf at hd
  split at hd
  next alarm pending hp =>
    subst hd
    simp only [Task.step?, hp] at hstep
    split at hstep
    · cases hstep
    next hlt => exact Nat.lt_of_not_le hlt
  next => cases hd

/-- If no task can step, none can in the other machine. -/
theorem Mirrored.quiet (h : Mirrored v k n₀ m n) (hm : m.Reachable) (hk : m.Secluded k)
    (hq : m.isQuiet = true) : n.isQuiet = true := by
  obtain hnow | hlags := h.clock
  · rw [isQuiet_iff]
    intro j
    cases hu : n.tasks[j]? with
    | none => simp only [step?, hu]
    | some u =>
      have hmem : u ∈ n.tasks.toList := Array.mem_toList_iff.mpr (Array.mem_of_getElem? hu)
      rw [h.tasks] at hmem
      obtain ⟨t, ht, rfl⟩ := List.mem_map.mp hmem
      obtain ⟨i, hi, htk⟩ := mem_kin.mp ht
      have hdue (due : Nat) (_ : dueOf t = some due) :
          v.time due ≤ n.world.now ↔ due ≤ m.world.now := by
        rw [hnow]
        exact Relabeling.time_le_iff h.since due
      have hsome := h.isSome_step? hk (owned_reachable hm) hi htk hdue j
      rw [step?_eq_none_of_quiet hq hi, Option.isSome_none, Option.isSome_eq_false_iff,
        Option.isNone_iff_eq_none] at hsome
      simp only [step?, hu, hsome, Option.map_none]
  · exact hlags.quiet

/-- The clock moves on in the other machine exactly if the time of
a task of the container has come. -/
theorem Mirrored.tick (h : Mirrored v k n₀ m n) (hm : m.Reachable) (hk : m.Secluded k)
    (ha : m.move? .tick = some m') :
    Mirrored v k n₀ m' n ∨ ∃ n', n.move? .tick = some n' ∧ Mirrored v k n₀ m' n' := by
  obtain ⟨hq, due, hd, rfl⟩ := of_tick ha
  obtain ⟨hlt, -, hmin⟩ := nextDue_eq_some_iff.mp hd
  have hsince := h.since
  have hquiet := h.quiet hm hk hq
  have hnow : n.world.now ≤ v.time m.world.now := by
    obtain hnow | hlags := h.clock
    · exact Nat.le_of_eq hnow
    · exact hlags.now
  -- all that the tasks of the container sleep for is still to come
  have hkin (t : Task) (ht : t ∈ m.kin k) (d : Nat) (hd : dueOf t = some d) : due ≤ d := by
    obtain ⟨i, hi, -⟩ := mem_kin.mp ht
    exact hmin t (List.mem_filter.mp ht).1 d hd (now_lt_of_quiet hq hi hd)
  by_cases hex : ∃ t ∈ m.kin k, dueOf t = some due
  · right
    obtain ⟨t, ht, hdt⟩ := hex
    have hnext : n.nextDue = some (v.time due) := by
      rw [nextDue_eq_some_iff, h.tasks]
      refine ⟨?_, ⟨v.task t, List.mem_map_of_mem ht, by rw [dueOf_relabeled, hdt]; rfl⟩, ?_⟩
      · unfold Relabeling.time at hnow ⊢
        omega
      · intro u hu d hd _
        obtain ⟨t', ht', rfl⟩ := List.mem_map.mp hu
        rw [dueOf_relabeled] at hd
        obtain ⟨d', hd', rfl⟩ := Option.map_eq_some_iff.mp hd
        have hle := hkin t' ht' d' hd'
        unfold Relabeling.time
        omega
    refine ⟨{ n with world := { n.world with now := v.time due } }, ?_, ?_⟩
    · simp only [move?, hquiet, if_true, tick?, hnext, Option.map_some]
    · exact ⟨h.tasks, ⟨h.world.container, h.world.cells, h.world.races⟩, h.cells, h.races,
        Nat.le_of_lt (Nat.lt_of_le_of_lt hsince hlt), .inl rfl⟩
  · left
    refine ⟨h.tasks, ⟨h.world.container, h.world.cells, h.world.races⟩, h.cells, h.races,
      Nat.le_of_lt (Nat.lt_of_le_of_lt hsince hlt), .inr ⟨?_, hquiet, ?_⟩⟩
    · unfold Relabeling.time at hnow ⊢
      dsimp only
      omega
    · intro t ht d hdt
      have hle := hkin t ht d hdt
      have hne : d ≠ due := by
        rintro rfl
        exact hex ⟨t, ht, hdt⟩
      dsimp only
      omega

/-- The task, if it works on the container. -/
def onlyOn (k : Nat) (t : Task) : Option Task := if t.container = k then some t else none

/-- The place of the task that steps, if it works on the container. -/
def placeOn? (m : Machine r) (k : Nat) : Happening → Option Nat
  | .move (.step i) => (m.tasks[i]?.bind (onlyOn k)).map fun _ => m.place k i
  | _ => none

/-- In which order the tasks of a container step in a run, each called by its place among them. -/
def orderOn (m : Machine r) (k : Nat) : List Happening → List Nat
  | [] => []
  | a :: as =>
    match m.happen? a with
    | some m' => (m.placeOn? k a).toList ++ m'.orderOn k as
    | none => []

/-- The task that steps in a move. -/
def stepping? : Move → Option Nat
  | .step i => some i
  | .tick => none

/-- By moves of its own the other machine comes to hold the tasks of the container again. In doing
so its tasks step in this order, and these are the tasks that step. -/
def KeepsUp (v : Relabeling) (k : Nat) (n₀ m n : Machine r) (order : List Nat)
    (ts : List Task) : Prop :=
  ∃ (moves : List Move) (n' : Machine r), Run n (moves.map .move) n' ∧
    Mirrored v k n₀ m n' ∧
    moves.filterMap stepping? = order ∧ n.journal some (moves.map .move) = ts.map v.task

theorem Mirrored.keepsUp (h : Mirrored v k n₀ m n) : KeepsUp v k n₀ m n [] [] :=
  ⟨[], n, .refl, h, rfl, rfl⟩

/-- Whatever happens, the other machine keeps up. -/
theorem Mirrored.happen (h : Mirrored v k n₀ m n) (hm : m.Reachable) (hk : m.Secluded k)
    (ha : m.happen? a = some m') (hl : ∀ p, a ≠ .launch p k)
    (hnum : Numbered v n₀ (m'.kin k)) :
    KeepsUp v k n₀ m' n (m.placeOn? k a).toList (m.note? (onlyOn k) a).toList := by
  cases a with
  | move a =>
    cases a with
    | step i =>
      obtain ⟨t, e, he, hs⟩ := step?_stepped ha
      by_cases ht : t.container = k
      · obtain ⟨n', hn', h'⟩ := h.step_self hm hk hs he ht hnum
        have hon : m.tasks[i]?.bind (onlyOn k) = some t := by
          simp only [hs.task, Option.bind_some, onlyOn, ht, if_true]
        have hhappen : n.happen? (.move (.step (m.place k i))) = some n' := hn'
        refine ⟨[.step (m.place k i)], n', .single hn', h', ?_, ?_⟩
        · simp only [placeOn?, hon]
          rfl
        · simp only [List.map_cons, List.map_nil, journal, hhappen, note?, h.task hs ht, hon,
            Option.bind_some, List.append_nil, Option.toList_some]
      · have hoff : m.tasks[i]?.bind (onlyOn k) = none := by
          simp only [hs.task, Option.bind_some, onlyOn, ht, if_false]
        simp only [placeOn?, note?, hoff]
        exact (h.step_other hm hk hs he ht).keepsUp
    | tick =>
      obtain h' | ⟨n', hn', h'⟩ := h.tick hm hk ha
      · exact h'.keepsUp
      · have hhappen : n.happen? (.move .tick) = some n' := hn'
        refine ⟨[.tick], n', .single hn', h', rfl, ?_⟩
        simp only [List.map_cons, List.map_nil, journal, hhappen, note?, Option.toList_none,
          List.append_nil]
  | launch p container =>
    cases ha
    have hkin : (m.launch p container).1.kin k = m.kin k := by
      cases happen?_change (a := .launch p container) (m := m) rfl with
      | idle _ hi => exact hi.kin hl
    exact (h.unnoticed hkin rfl rfl (fun _ _ => rfl) (fun _ _ => rfl)).keepsUp
  | supply c =>
    cases ha
    have hcontainer : (m.world.containers.push c)[k]? = m.world.containers[k]? :=
      (Array.getElem?_push ..).trans (if_neg (Nat.ne_of_lt h.world.container.1))
    have h' : Mirrored v k n₀ ⟨(m.world.newContainer c).1, m.tasks⟩ n :=
      h.unnoticed rfl rfl hcontainer (fun _ _ => rfl) (fun _ _ => rfl)
    exact h'.keepsUp

/-- The cells and the races of the container only become more. -/
theorem Run.kin_grows (h : Run m as mₙ) (hl : ∀ p, .launch p k ∉ as) :
    Task.cellsOf (m.kin k) <+: Task.cellsOf (mₙ.kin k) ∧
      Task.racesOf (m.kin k) <+: Task.racesOf (mₙ.kin k) := by
  induction h with
  | refl => exact ⟨List.prefix_rfl, List.prefix_rfl⟩
  | @step m m₁ mₙ a as ha _ ih =>
    simp only [List.mem_cons, not_or] at hl
    obtain ⟨hcells, hraces⟩ := ih fun p => (hl p).2
    cases happen?_change ha with
    | @step i t e _ hs =>
      by_cases ht : t.container = k
      · rw [(hs.handlesOn_self ht).1] at hcells
        rw [(hs.racesOn_self ht).1] at hraces
        exact ⟨(List.prefix_append _ _).trans hcells, (List.prefix_append _ _).trans hraces⟩
      · rw [hs.kin_other ht] at hcells hraces
        exact ⟨hcells, hraces⟩
    | idle _ hi =>
      rw [hi.kin fun p hp => (hl p).1 hp.symm] at hcells hraces
      exact ⟨hcells, hraces⟩

/-- The other machine keeps up with a whole run. -/
theorem Mirrored.run (h : Mirrored v k n₀ m n) (hm : m.Reachable) (hk : m.Secluded k)
    (hrun : Run m as mₙ) (hl : ∀ p, .launch p k ∉ as) (hnum : Numbered v n₀ (mₙ.kin k)) :
    KeepsUp v k n₀ mₙ n (m.orderOn k as) (m.journal (onlyOn k) as) := by
  induction hrun generalizing n with
  | refl => exact h.keepsUp
  | @step m m₁ mₙ a as ha hrest ih =>
    simp only [List.mem_cons, not_or] at hl
    have hl' (p : Program) : a ≠ .launch p k := fun hp => (hl p).1 hp.symm
    obtain ⟨hcells, hraces⟩ := hrest.kin_grows fun p => (hl p).2
    obtain ⟨bs, n₁, hbs, h₁, hplace, hnote⟩ :=
      h.happen hm hk ha hl' (hnum.restrict hcells hraces)
    obtain ⟨cs, nₙ, hcs, hₙ, horder, hjournal⟩ :=
      ih h₁ (hm.run (.single ha)) (hk.happen hm ha hl') (fun p => (hl p).2) hnum
    refine ⟨bs ++ cs, nₙ, ?_, hₙ, ?_, ?_⟩
    · rw [List.map_append]
      exact hbs.trans hcs
    · rw [List.filterMap_append, hplace, horder]
      simp only [orderOn, ha]
    · rw [List.map_append, journal_append hbs, hnote, hjournal]
      simp only [journal, ha, List.map_append]

/-- Moves without steps are the clock's. -/
theorem Run.ticks {moves : List Move} {n' : Machine r} (h : Run n (moves.map .move) n')
    (hs : moves.filterMap stepping? = []) :
    n.journal some (moves.map .move) = [] ∧ n'.tasks = n.tasks ∧
      n'.world.containers = n.world.containers := by
  induction moves generalizing n with
  | nil =>
    cases h
    exact ⟨rfl, rfl, rfl⟩
  | cons move moves ih =>
    cases move with
    | step i => cases hs
    | tick =>
      rw [List.map_cons] at h ⊢
      cases h with
      | step ha hrest =>
        obtain ⟨-, due, -, rfl⟩ := of_tick ha
        obtain ⟨hjournal, htasks, hcontainers⟩ := ih hrest hs
        refine ⟨?_, htasks, hcontainers⟩
        simp only [journal, ha, note?, hjournal, Option.toList_none, List.append_nil]

/-- The order of the steps decides what the tasks do: the clock moves by itself. -/
theorem Run.same_order {moves moves' : List Move} {n₁ n₂ : Machine r}
    (h : Run n (moves.map .move) n₁) (h' : Run n (moves'.map .move) n₂)
    (hs : moves'.filterMap stepping? = moves.filterMap stepping?) :
    n.journal some (moves'.map .move) = n.journal some (moves.map .move) ∧
    n₂.tasks = n₁.tasks ∧
      n₂.world.containers = n₁.world.containers := by
  induction moves generalizing n moves' with
  | nil =>
    cases h
    exact h'.ticks hs
  | cons move moves ih =>
    cases moves' with
    | nil =>
      cases h'
      obtain ⟨hjournal, htasks, hcontainers⟩ := h.ticks hs.symm
      exact ⟨hjournal.symm, htasks.symm, hcontainers.symm⟩
    | cons move' moves' =>
      rw [List.map_cons] at h h'
      cases h with
      | @step _ m₁ _ _ _ ha hrest =>
        cases h' with
        | @step _ m₂ _ _ _ ha' hrest' =>
          -- either both are the clock's or both are steps, and then of the same task
          have hsame : move' = move ∧ moves'.filterMap stepping? = moves.filterMap stepping? := by
            cases move with
            | tick =>
              cases move' with
              | tick => exact ⟨rfl, hs⟩
              | step i => cases (isQuiet_iff.mp (of_tick ha).1 i).symm.trans ha'
            | step i =>
              cases move' with
              | tick => cases (isQuiet_iff.mp (of_tick ha').1 i).symm.trans ha
              | step j =>
                obtain ⟨rfl, htail⟩ := List.cons.inj hs
                exact ⟨rfl, htail⟩
          obtain ⟨rfl, htail⟩ := hsame
          cases ha.symm.trans ha'
          obtain ⟨hjournal, htasks, hcontainers⟩ := ih hrest hrest' htail
          refine ⟨?_, htasks, hcontainers⟩
          simp only [List.map_cons, journal, ha, hjournal]

theorem Secluded.run (h : m.Secluded k) (hm : m.Reachable) (hrun : Run m as mₙ)
    (hl : ∀ p, .launch p k ∉ as) : mₙ.Secluded k := by
  induction hrun with
  | refl => exact h
  | @step m m₁ mₙ a as ha _ ih =>
    simp only [List.mem_cons, not_or] at hl
    exact ih (h.happen hm ha fun p hp => (hl p).1 hp.symm) (hm.run (.single ha)) fun p => (hl p).2

/-- Names for all that a run has on its container can be chosen such that in the other machine they
are those that come next. -/
theorem Secluded.exists_numbered (h : m.Secluded k) (n : Machine r) (container since start : Nat) :
    ∃ v : Relabeling, v.container = container ∧ v.since = since ∧ v.start = start ∧
      Numbered v n (m.kin k) := by
  have numbers (xs : List Nat) (hxs : xs.Pairwise (· < ·)) (b : Nat) :
      ∃ ρ : Equiv.Perm Nat, ∀ i x, xs[i]? = some x → ρ x = b + i := by
    have hrange : (List.range' b xs.length).Nodup := List.nodup_range' _ (by omega)
    obtain ⟨ρ, hρ⟩ := exists_perm_map_eq (hxs.imp Nat.ne_of_lt) hrange List.length_range'.symm
    refine ⟨ρ, ?_⟩
    intro i x hi
    have hlt := (List.getElem?_eq_some_iff.mp hi).1
    have hget : (xs.map ρ)[i]? = (List.range' b xs.length)[i]? := by rw [hρ]
    rw [List.getElem?_map, hi, List.getElem?_range' hlt, Nat.one_mul] at hget
    exact Option.some.inj hget
  obtain ⟨handle, hhandle⟩ := numbers _ h.cells n.world.cells.size
  obtain ⟨race, hrace⟩ := numbers _ h.races n.world.races.size
  exact ⟨⟨handle, race, container, since, start⟩, rfl, rfl, rfl, hhandle, hrace⟩

section
variable {q : Program}

/-- What the host does to start a program on a container of its own. -/
def starting (m : Machine r) (q : Program) : List Happening :=
  [.supply .empty, .launch q m.world.containers.size]

/-- The machine after a program was started on a container of its own. -/
def begun (m : Machine r) (q : Program) : Machine r :=
  (Machine.launch ⟨(m.world.newContainer .empty).1, m.tasks⟩ q m.world.containers.size).1

theorem run_begun (m : Machine r) (q : Program) : Run m (m.starting q) (m.begun q) :=
  .step rfl (.single rfl)

/-- Nobody works yet on the container that the host makes next. -/
def Vacant (m : Machine r) : Prop := ∀ j, ¬m.WorksOn j m.world.containers.size

theorem kin_begun (hm : m.Vacant) (q : Program) :
    (m.begun q).kin m.world.containers.size = [runner r q m.world.containers.size] := by
  have hnone : m.tasks.toList.filter (Task.isOn m.world.containers.size) = [] := by
    rw [List.filter_eq_nil_iff]
    intro t ht hon
    obtain ⟨i, hi⟩ := List.mem_iff_getElem?.mp ht
    rw [Array.getElem?_toList] at hi
    exact hm i ⟨t, hi, of_decide_eq_true hon⟩
  have htasks :
      (m.begun q).tasks.toList = m.tasks.toList ++ [runner r q m.world.containers.size] := by
    simp [begun, launch, runner]
  rw [kin, htasks, List.filter_append, hnone]
  simp [Task.isOn, runner]

theorem secluded_begun (hm : m.Vacant) (hq : q.Only Operation.IsLocal) (hs : q.Scoped ∅) :
    (m.begun q).Secluded m.world.containers.size := by
  have hkin := kin_begun hm q
  have hraces : (m.begun q).racesOn m.world.containers.size = ∅ := by
    simp only [racesOn, hkin]
    exact Set.eq_empty_of_forall_notMem fun _ hr => List.not_mem_nil hr
  refine ⟨?_, ?_, ?_, by rw [hkin]; exact List.Pairwise.nil,
    by rw [hkin]; exact List.Pairwise.nil⟩
  · intro i t ht htk
    have hmem := mem_kin.mpr ⟨i, ht, htk⟩
    rw [hkin] at hmem
    obtain rfl := List.mem_singleton.mp hmem
    refine ⟨trivial, ⟨Cursor.only_new hq, List.forall_mem_nil _⟩, ?_, .running _⟩
    exact Task.Scoped.mono ⟨Cursor.scoped_new hs, List.forall_mem_nil _⟩ (Set.empty_subset _)
  · intro i t race _ _ hr
    rw [hraces] at hr
    exact hr.elim
  · intro i t race pending _ _ hr
    rw [hraces] at hr
    exact hr.elim

/-- A program that is started alone is the one that is started among others. -/
theorem mirrored_begun (hm : m.Vacant) (hn : n.tasks = #[]) {v : Relabeling}
    (hc : v.container = n.world.containers.size) (hsince : v.since = m.world.now)
    (hstart : v.start = n.world.now) (q : Program) :
    Mirrored v m.world.containers.size n (m.begun q) (n.begun (q.renumber v.handle)) := by
  have hkin := kin_begun hm q
  refine ⟨?_, ⟨?_, ?_, ?_⟩, ?_, ?_, ?_, ?_⟩
  · rw [hkin, List.map_singleton]
    simp [begun, launch, hn, runner, Relabeling.task, Relabeling.role, Relabeling.phase, hc,
      Translation.cursor_new, Program.renumber, Relabeling.translation]
  · simp [begun, launch, World.newContainer, World.emit, hc]
  · intro handle hh
    simp only [handlesOn, hkin] at hh
    cases hh
  · intro race hr
    simp only [racesOn, hkin] at hr
    cases hr
  · rw [hkin]
    rfl
  · rw [hkin]
    rfl
  · exact Nat.le_of_eq hsince
  · left
    have hnow : (m.begun q).world.now = m.world.now := rfl
    rw [hnow, Relabeling.time, hsince, hstart, Nat.sub_self, Nat.zero_add]
    rfl

/-- If nobody works on it before, the new container belongs to the
program and to what descends from it. -/
theorem worksOn_iff_mem_lineage (hm : m.Vacant) (q : Program) (h : Run (m.begun q) as mₙ)
    (hl : ∀ p, .launch p m.world.containers.size ∉ as) (j : Nat) :
    mₙ.WorksOn j m.world.containers.size ↔ j ∈ (m.begun q).lineage [m.tasks.size] as := by
  have hself : (m.begun q).tasks[m.tasks.size]? = some (runner r q m.world.containers.size) := by
    simp [begun, launch, runner]
  constructor
  · refine fun hj => mem_lineage ?_ h hl hj
    rintro i ⟨t, ht, htk⟩
    have htasks : (m.begun q).tasks = m.tasks.push (runner r q m.world.containers.size) := rfl
    rw [htasks, Array.getElem?_push] at ht
    split at ht
    next hi => exact List.mem_singleton.mpr hi
    next => exact absurd ⟨t, ht, htk⟩ (hm i)
  · refine lineage_worksOn ?_ h
    intro i hi
    obtain rfl := List.mem_singleton.mp hi
    exact ⟨_, hself, rfl⟩

/-- The program runs alone in the machine, and its tasks step in this order. -/
structure RunsAlone (n : Machine r) (q : Program) (order : List Nat) (moves : List Move)
    (nₙ : Machine r) : Prop where
  run : Run n (n.starting q ++ moves.map .move) nₙ
  order : moves.filterMap stepping? = order

/-- Runs do not notice each other: a run and its descendants work on the run's own container, and
go their way as if nothing else had ever run, up to the numbers of handles, races and containers
and the time of the start. -/
theorem run_isolation :
    (∀ (m mₙ : Machine r) (p : Program) (k : Nat) (as : List Happening),
      Run m (.launch p k :: as) mₙ → ∀ j ∈ (m.launch p k).1.lineage [m.tasks.size] as,
        mₙ.WorksOn j k ∧ mₙ.Confined j k) ∧
    ∀ (m mₙ n : Machine r) (q : Program) (as : List Happening), m.Reachable → m.Vacant →
      q.Only Operation.IsLocal → q.Scoped ∅ →
      (∀ p, .launch p m.world.containers.size ∉ as) →
      Run m (m.starting q ++ as) mₙ → n.tasks = #[] →
      (∀ j, mₙ.WorksOn j m.world.containers.size ↔
        j ∈ (m.begun q).lineage [m.tasks.size] as) ∧
      ∃ v : Relabeling, v.container = n.world.containers.size ∧ v.since = m.world.now ∧
        v.start = n.world.now ∧
        (∃ moves nₙ, n.RunsAlone (q.renumber v.handle)
          ((m.begun q).orderOn m.world.containers.size as)
          moves nₙ) ∧
        ∀ moves nₙ, n.RunsAlone (q.renumber v.handle)
          ((m.begun q).orderOn m.world.containers.size as)
            moves nₙ →
          (n.begun (q.renumber v.handle)).journal some (moves.map .move) =
            ((m.begun q).journal (onlyOn m.world.containers.size) as).map v.task ∧
          nₙ.tasks.toList = (mₙ.kin m.world.containers.size).map v.task ∧
          nₙ.world.container n.world.containers.size =
            mₙ.world.container m.world.containers.size := by
  constructor
  · intro m mₙ p k as hrun j hj
    cases hrun with
    | step ha hrest =>
      cases ha
      have hself : ∀ i ∈ [m.tasks.size], (m.launch p k).1.WorksOn i k := by
        intro i hi
        obtain rfl := List.mem_singleton.mp hi
        exact ⟨runner r p k, by simp [launch, runner], rfl⟩
      obtain ⟨t, ht, rfl⟩ := lineage_worksOn hself hrest hj
      exact ⟨⟨t, ht, rfl⟩, confined_of_task ht⟩
  · intro m mₙ n q as hm hvacant hlocal hscoped hl hrun hn
    have hrest := (run_begun m q).rest hrun
    have hreachable := hm.run (run_begun m q)
    have hsecluded := secluded_begun hvacant hlocal hscoped
    refine ⟨worksOn_iff_mem_lineage hvacant q hrest hl, ?_⟩
    obtain ⟨v, hc, hsince, hstart, hnum⟩ :=
      (hsecluded.run hreachable hrest hl).exists_numbered n
        n.world.containers.size m.world.now n.world.now
    have hmirrored := mirrored_begun hvacant hn hc hsince hstart q
    obtain ⟨moves, nₙ, hmoves, hₙ, horder, hjournal⟩ :=
      hmirrored.run hreachable hsecluded hrest hl hnum
    refine ⟨v, hc, hsince, hstart, ⟨moves, nₙ, (run_begun n _).trans hmoves, horder⟩, ?_⟩
    intro moves' nₙ' halone
    have hmoves' := (run_begun n _).rest halone.run
    obtain ⟨hjournal', htasks', hcontainers'⟩ :=
      hmoves.same_order hmoves' (halone.order.trans horder.symm)
    refine ⟨hjournal'.trans hjournal, ?_, ?_⟩
    · rw [htasks']
      exact hₙ.tasks
    · rw [← hₙ.world.container_eq, World.container, hcontainers', ← hc]
      rfl

end

def writeLater (value : String) : Flow .json :=
  (Flow.delay 5).followedBy ((Flow.write .ephemeral "k" value).followedBy
    (Flow.pure (a := .json) .null))

/-- Ends at once and leaves a fork behind. -/
def departing : Flow .json := (Flow.fork (writeLater "p")).followedBy (Flow.pure (a := .json) .null)

/-- Reads what its fork has written. -/
def arriving : Flow (.option .text) :=
  (Flow.fork (writeLater "q")).andThen fun h => (Flow.await h).followedBy (Flow.read .ephemeral "k")

theorem arriving_only : arriving.program.Only Operation.IsLocal := by
  have hlater : (writeLater "q").program.Only Operation.IsLocal :=
    Flow.only_andThen (.step trivial nofun) fun _ =>
      Flow.only_andThen (.step trivial nofun) fun _ => .done
  refine Flow.only_andThen (.step trivial ?_) fun h =>
    Flow.only_andThen (.step trivial nofun) fun _ => .step trivial nofun
  simpa [Operation.programs] using hlater

theorem arriving_scoped : arriving.program.Scoped ∅ := by
  have hlater : (writeLater "q").program.Scoped ∅ :=
    Flow.scoped_andThen (.step (Set.empty_subset _) nofun) fun _ =>
      Flow.scoped_andThen (.step (Set.empty_subset _) nofun) fun _ => .done (Set.empty_subset _)
  exact Flow.scoped_andThen (Flow.scoped_fork hlater) fun h =>
    Flow.scoped_andThen (Flow.scoped_await (.inr rfl)) fun _ => .step (Set.empty_subset _) nofun

theorem arriving_renumber (ρ : Equiv.Perm Nat) :
    arriving.program.renumber ρ = arriving.program := by
  have hlater : (writeLater "q").program.renumber ρ = (writeLater "q").program :=
    Flow.renumber_andThen rfl fun _ => Flow.renumber_andThen rfl fun _ => rfl
  exact Flow.renumber_andThen (Flow.renumber_fork hlater) fun h =>
    Flow.renumber_andThen (Flow.renumber_await h) fun _ => rfl

/-- A fork is left from an earlier run and writes the same key, after the later run has written it
and before it reads it. The later run goes on as if it were the only one. -/
theorem run_isolation_departing :
    ∃ (as bs : List Happening) (m mₙ : Machine (Bench.new.setup .empty []).runner),
      Run (Bench.new.setup .empty []).machine as m ∧ m.world.containers.size = 2 ∧
      m.ending? 1 = none ∧
      Run m (m.starting arriving.program ++ bs) mₙ ∧ (mₙ.ending? 2).isSome ∧
      (mₙ.world.container 1).getNamed "k" = some "p" ∧
      ∃ (v : Relabeling) (moves : List Move) (n : Machine (Bench.new.setup .empty []).runner),
        (Bench.new.setup .empty []).machine.RunsAlone arriving.program
          [0, 0, 1, 1, 1, 1, 0, 0, 0] moves n ∧
        n.tasks.toList = (mₙ.kin 2).map v.task ∧
        (n.world.container 1).getNamed "k" = some "q" := by
  let as : List Happening := [.supply .empty, .launch departing.program 1] ++
    [0, 0, 1].map (.move <| .step ·)
  let bs : List Happening := [2, 2, 3].map (.move <| .step ·) ++ .move .tick ::
    [3, 3, 1, 1, 1, 3, 2, 2, 2].map (.move <| .step ·)
  have hend : ((Bench.new.setup .empty []).machine.follow? as).bind (fun m =>
      (m.follow? (m.starting arriving.program ++ bs)).map fun mₙ =>
        ((m.world.containers.size, (m.ending? 1).isNone, m.tasks.toList.all (·.container = 1),
          (m.begun arriving.program).orderOn m.world.containers.size bs),
          (mₙ.ending? 2).isSome, (mₙ.world.container 1).getNamed "k",
            (mₙ.world.container 2).getNamed "k")) =
        some ((2, true, true, [0, 0, 1, 1, 1, 1, 0, 0, 0]), true, some "p", some "q") := by
    decide +kernel
  obtain ⟨m, hm, hrest⟩ := Option.bind_eq_some_iff.mp hend
  obtain ⟨mₙ, hmₙ, heq⟩ := Option.map_eq_some_iff.mp hrest
  simp only [Prod.mk.injEq] at heq
  obtain ⟨⟨hsize, hleft, hon, horder⟩, hended, hother, hown⟩ := heq
  have hvacant : m.Vacant := by
    rintro j ⟨t, ht, htk⟩
    have hmem : t ∈ m.tasks.toList := Array.mem_toList_iff.mpr (Array.mem_of_getElem? ht)
    have hone := of_decide_eq_true (List.all_eq_true.mp hon t hmem)
    omega
  have hlaunch : ∀ p, .launch p m.world.containers.size ∉ bs := by simp [bs]
  have hrun := run_of_follow? hmₙ
  obtain ⟨-, v, -, -, -, ⟨moves, n, halone⟩, hsame⟩ :=
    run_isolation.2 m mₙ (Bench.new.setup .empty []).machine
      arriving.program bs (reachable_of_follow? hm) hvacant arriving_only arriving_scoped
        hlaunch hrun rfl
  obtain ⟨-, htasks, hcontainer⟩ := hsame moves n halone
  rw [arriving_renumber, horder] at halone
  rw [hsize] at htasks hcontainer
  exact ⟨as, bs, m, mₙ, run_of_follow? hm, hsize, Option.isNone_iff_eq_none.mp hleft, hrun,
    hended, hother, v, moves, n, halone, htasks, by rw [← hown, ← hcontainer]; rfl⟩

end Machine

end Workflow
