import Workflow.Proofs.Machine.Role

/-! The books of a race: every branch arrives exactly once, in the step in which it ends. -/
namespace Workflow

variable {r : Runner}

/-- How a race sees the end of a branch that is task number `self`. -/
def Verdict.join (self : Nat) : Verdict Dyn → Verdict Json
  | .value d => .ofExcept (d.take .json)
  | .fault e => .fault e
  | .panic message => .panic ("task " ++ toString self ++ " panicked with message " ++
      Text.quoted message)

/-- One more arrival. -/
def Race.receive (a : Arrival) (x : Race) : Race := { x with arrivals := x.arrivals ++ [a] }

/-- What the end of a task does to the races. -/
def Role.report (self : Nat) (v : Verdict Dyn) (races : Array Race) : Role → Array Race
  | .branch race index => races.modify race (.receive ⟨index, v.join self⟩)
  | _ => races

namespace Task
variable {t u : Task} {w : World r} {self : Nat} {e : Effect r}

/-- The task is a branch of the race. -/
def isBranch (race : Nat) (t : Task) : Bool :=
  match t.role with
  | .branch race' _ => race' = race
  | _ => false

theorem isBranch_iff {race : Nat} :
    t.isBranch race = true ↔ ∃ index, t.role = .branch race index := by
  unfold isBranch
  split <;> simp_all

theorem conclude_races (t : Task) (w : World r) (self : Nat) (result : Except Fault Dyn) :
    (t.conclude w result).world.races = t.role.report self (.ofExcept result) w.races := by
  unfold conclude Role.report
  cases t.role with
  | branch race index => cases result <;> rfl
  | run => cases result <;> rfl
  | fork h =>
    simp only [enter]
    cases result >>= Dyn.take .json <;> rfl
  | _ => rfl

theorem crash_races (t : Task) (w : World r) (self : Nat) (message : String) :
    (t.crash w self message).world.races = t.role.report self (.panic message) w.races := by
  unfold crash Role.report
  cases t.role <;> rfl

/-- Executing a race launches its branches and waits for them. -/
theorem dispatch_race {ps : List Program} (hps : ps ≠ []) (t : Task) (w : World r) (self : Nat)
    (pending : List Continuation) : t.dispatch w self pending (.race ps) =
      ⟨((w.emit t.span (.dispatching (Operation.race ps).name)).newRace ps.length).1,
        { t with phase := .racing w.races.size pending }, t.branches w.races.size 0 ps⟩ := by
  cases ps with
  | nil => exact absurd rfl hps
  | cons p ps => rfl

/-- What a step does to the races. -/
inductive RaceTurn (t : Task) (w : World r) (self : Nat) (e : Effect r) : Prop
  | keeps (he : e.task.hasEnded = false) (hr : e.world.races = w.races)
    (hp : ∀ race pending, e.task.phase ≠ .racing race pending)
    (hl : ∀ u ∈ e.launched, ∀ race, u.isBranch race = false)
  | starts {ps : List Program} {pending : List Continuation} (hps : ps ≠ [])
    (hr : e.world.races = w.races.push ⟨ps.length, 0, .emptyRace, []⟩)
    (ht : e.task = { t with phase := .racing w.races.size pending })
    (hl : e.launched = t.branches w.races.size 0 ps)
  | looks {race : Nat} {pending : List Continuation} {x : Race} {a : Arrival}
    {rest : List Arrival} {fault : Fault} (hp : t.phase = .racing race pending)
    (hx : w.races[race]? = some x) (ha : x.arrivals = a :: rest)
    (hr : e.world.races = w.races.modify race fun _ => ⟨x.total, x.seen + 1, fault, rest⟩)
    (hl : e.launched = [])
    (ho : (∃ v, a.ending = .value v ∧ e.task = t.resumed pending (.ok (.json v))) ∨
      a.fault? = some fault ∧ e.task = t)
  | ends {v : Verdict Dyn} (ht : e.task = { t with phase := .ended v })
    (hr : e.world.races = t.role.report self v w.races) (hl : e.launched = [])

theorem isBranch_congr (h : u.role = t.role) (race : Nat) : u.isBranch race = t.isBranch race := by
  simp [isBranch, h]

theorem countP_branches (t : Task) (race race' index : Nat) (ps : List Program) :
    (t.branches race' index ps).countP (isBranch race) = if race' = race then ps.length else 0 := by
  induction ps generalizing index with
  | nil => simp [branches]
  | cons p ps ih =>
    simp only [branches, List.countP_cons, ih, isBranch, child]
    by_cases h : race' = race <;> simp [h]

theorem isBranch_background (t : Task) (request : String) (race : Nat) :
    (t.background request).isBranch race = false := rfl

theorem Turn.onRaces (h : t.Turn w self e) (hf : t.Fits) : t.RaceTurn w self e := by
  cases h with
  | answered hp hc hw hr hop hl =>
    refine .keeps rfl hw.races nofun ?_
    obtain rfl | ⟨request, rfl⟩ := hl <;> simp [isBranch_background]
  | forks hp hc hw => exact .keeps rfl hw.races nofun (by simp [isBranch, child])
  | @races c ps pending w' hp hc hps hw =>
    have hn : (w'.newRace ps.length).2 = w.races.size := by simp [World.newRace, hw.races]
    exact .starts hps (by simp [World.newRace, hw.races]) (by rw [hn]) (by rw [hn])
  | concludes hp hc hb => exact .ends rfl (conclude_races t w self _) rfl
  | crashes hp hw => exact .ends rfl ((crash_races t _ self _).trans (by rw [hw.races])) rfl
  | closes hp hw =>
    exact .ends rfl (by simp [Role.report, hf.closing hp, hw.races]) rfl
  | settles hp hd =>
    exact .ends rfl (by simp [Role.report, (hf.host hp).1, World.modifyCell]) rfl
  | wins hp hx ha hv hw => exact .looks hp hx ha hw.races rfl (.inl ⟨_, hv, rfl⟩)
  | loses hp hx ha he hw => exact .looks hp hx ha hw.races rfl (.inr ⟨he, rfl⟩)
  | awaited | exhausts => exact .keeps rfl rfl nofun (by simp)
  | sleeps _ _ hw | awaits _ _ hw | enters _ _ hw => exact .keeps rfl hw.races nofun (by simp)
  | opens _ hw => exact .keeps rfl hw.races nofun (by simp)
  | leaves _ _ _ hw => exact .keeps rfl hw.races nofun (by simp)
  | wakes _ _ _ hw => exact .keeps rfl hw.races nofun (by simp)

/-- What who waits for a race can do: go on with a success, drop a
failure, or go on with the last failure. -/
theorem Turn.of_racing (h : t.Turn w self e) {race : Nat} {pending : List Continuation} {x : Race}
    (hp : t.phase = .racing race pending) (hx : w.races[race]? = some x) :
    (∃ a rest v, x.arrivals = a :: rest ∧ a.ending = .value v ∧
      e.task = t.resumed pending (.ok (.json v))) ∨
    (∃ a rest fault, x.arrivals = a :: rest ∧ a.fault? = some fault ∧ e.task = t ∧
      e.world.races[race]? = some ⟨x.total, x.seen + 1, fault, rest⟩) ∨
    x.arrivals = [] ∧ x.total ≤ x.seen ∧ e.task = t.resumed pending (.error x.lastFault) := by
  cases h with
  | wins hp' hx' ha hv hw =>
    cases hp.symm.trans hp'
    cases hx.symm.trans hx'
    exact .inl ⟨_, _, _, ha, hv, rfl⟩
  | loses hp' hx' ha he hw =>
    cases hp.symm.trans hp'
    cases hx.symm.trans hx'
    refine .inr (.inl ⟨_, _, _, ha, he, rfl, ?_⟩)
    simp [hw.races, World.setRace, Array.getElem?_modify, hx]
  | exhausts hp' hx' ha hs =>
    cases hp.symm.trans hp'
    cases hx.symm.trans hx'
    exact .inr (.inr ⟨ha, hs, rfl⟩)
  | crashes hf => simp [Fragile, hp] at hf
  | closes hf => simp [hp] at hf
  | _ => simp_all

section
variable {race : Nat} {pending : List Continuation} {x : Race}

theorem RaceTurn.size_le (h : t.RaceTurn w self e) : w.races.size ≤ e.world.races.size := by
  cases h with
  | keeps _ hr => simp [hr]
  | starts _ hr => simp [hr]
  | looks _ _ _ hr => simp [hr]
  | ends _ hr =>
    unfold Role.report at hr
    split at hr <;> simp [hr]

/-- Branches are launched by the step that starts their race. -/
theorem RaceTurn.launched_branch (h : t.RaceTurn w self e) (hu : u ∈ e.launched)
    (hb : u.isBranch race = true) : race = w.races.size ∧ race < e.world.races.size := by
  cases h with
  | keeps _ _ _ hl => simp [hl u hu race] at hb
  | starts _ hr _ hl =>
    rw [hl] at hu
    obtain ⟨k, p, -, rfl⟩ := branches_mem hu
    obtain ⟨_, hb⟩ := isBranch_iff.mp hb
    cases hb
    simp [hr]
  | looks _ _ _ _ hl => simp [hl] at hu
  | ends _ _ hl => simp [hl] at hu

/-- A race that is there gets no more branches. -/
theorem RaceTurn.countP_launched (h : t.RaceTurn w self e) (hx : w.races[race]? = some x) :
    e.launched.countP (isBranch race) = 0 := by
  rw [List.countP_eq_zero]
  intro u hu hb
  have hlt := (Array.getElem?_eq_some_iff.mp hx).1
  have heq := (h.launched_branch hu hb).1
  omega

/-- A task comes to a race only by starting it, and is then as it was until it leaves the race. -/
theorem RaceTurn.racing (h : t.RaceTurn w self e) (hp : e.task.phase = .racing race pending) :
    e.task = t ∨ race = w.races.size ∧ race < e.world.races.size := by
  cases h with
  | keeps _ _ hn => exact absurd hp (hn race pending)
  | starts _ hr ht =>
    rw [ht] at hp
    cases hp
    exact .inr ⟨rfl, by simp [hr]⟩
  | looks _ _ _ _ _ ho =>
    obtain ⟨v, -, ht⟩ | ⟨-, ht⟩ := ho
    · rw [ht] at hp
      cases hp
    · exact .inl ht
  | ends ht =>
    rw [ht] at hp
    cases hp

/-- Who looks at an arrival does not end by it. -/
theorem not_ended_of_look {a : Arrival} {fault : Fault} (hn : t.hasEnded = false)
    (ho : (∃ v, a.ending = .value v ∧ e.task = t.resumed pending (.ok (.json v))) ∨
      a.fault? = some fault ∧ e.task = t) : e.task.hasEnded = false := by
  obtain ⟨v, -, ht⟩ | ⟨-, ht⟩ := ho <;> rw [ht]
  · rfl
  · exact hn

/-- What a step does to a race that is there. -/
inductive BookTurn (t : Task) (race : Nat) (x : Race) (self : Nat) (e : Effect r) : Prop
  /-- One of its branches ends and arrives. -/
  | arrives {index : Nat} {v : Verdict Dyn} (hr : t.role = .branch race index)
    (ht : e.task = { t with phase := .ended v })
    (hx : e.world.races[race]? = some (x.receive ⟨index, v.join self⟩))
  /-- Who waits for it looks at the next arrival. -/
  | looks {pending : List Continuation} {a : Arrival} {rest : List Arrival} {fault : Fault}
    (hp : t.phase = .racing race pending) (ha : x.arrivals = a :: rest)
    (hx : e.world.races[race]? = some ⟨x.total, x.seen + 1, fault, rest⟩)
    (ho : (∃ v, a.ending = .value v ∧ e.task = t.resumed pending (.ok (.json v))) ∨
      a.fault? = some fault ∧ e.task = t)
  | keeps (hx : e.world.races[race]? = some x)
    (he : t.isBranch race = true → e.task.hasEnded = false)

theorem RaceTurn.onBooks (h : t.RaceTurn w self e) (hn : t.hasEnded = false)
    (hx : w.races[race]? = some x) : t.BookTurn race x self e := by
  cases h with
  | keeps he hr => exact .keeps (hr ▸ hx) fun _ => he
  | starts _ hr ht =>
    have hne : race ≠ w.races.size := Nat.ne_of_lt (Array.getElem?_eq_some_iff.mp hx).1
    exact .keeps (by rw [hr, Array.getElem?_push, if_neg hne, hx]) fun _ => by simp [ht, hasEnded]
  | @looks race' pending y a rest fault hp hy ha hr _ ho =>
    by_cases hrace : race' = race
    · subst hrace
      cases hx.symm.trans hy
      exact .looks hp ha (by simp [hr, Array.getElem?_modify, hx]) ho
    · exact .keeps (by rw [hr, Array.getElem?_modify, if_neg hrace, hx]) fun _ =>
        not_ended_of_look hn ho
  | ends ht hr =>
    unfold Role.report at hr
    split at hr
    next race' index hrole =>
      by_cases hrace : race' = race
      · subst hrace
        exact .arrives hrole ht (by simp [hr, Array.getElem?_modify, hx])
      · refine .keeps (by rw [hr, Array.getElem?_modify, if_neg hrace, hx]) fun hb => ?_
        simp [isBranch, hrole, hrace] at hb
    next hnot =>
      refine .keeps (hr ▸ hx) fun hb => ?_
      obtain ⟨index, hrole⟩ := isBranch_iff.mp hb
      exact absurd hrole (hnot race index)

/-- The books with which a race starts. -/
theorem RaceTurn.fresh (h : t.RaceTurn w self e) (hn : w.races[race]? = none)
    (hx : e.world.races[race]? = some x) :
    race = w.races.size ∧ e.task.hasEnded = false ∧ ∃ ps pending,
      x = ⟨ps.length, 0, .emptyRace, []⟩ ∧
      e.task = { t with phase := .racing race pending } ∧
      e.launched = t.branches race 0 ps := by
  cases h with
  | keeps _ hr => simp [hr, hn] at hx
  | @starts ps pending _ hr ht hl =>
    rw [hr, Array.getElem?_push] at hx
    split at hx
    next heq =>
      cases hx
      exact ⟨heq, by simp [ht, hasEnded], ps, pending, rfl, heq ▸ ht, heq ▸ hl⟩
    next => simp [hn] at hx
  | looks _ _ _ hr => simp [hr, Array.getElem?_modify, hn] at hx
  | ends _ hr =>
    unfold Role.report at hr
    split at hr <;> simp [hr, Array.getElem?_modify, hn] at hx

/-- What a step does to the books of a race that was there, in numbers. -/
theorem BookTurn.count (h : t.BookTurn race x self e) (hn : t.hasEnded = false) {y : Race}
    (hy : e.world.races[race]? = some y) :
    y.total = x.total ∧ y.seen + y.arrivals.length =
      x.seen + x.arrivals.length + if t.isBranch race && e.task.hasEnded then 1 else 0 := by
  cases h with
  | arrives hr ht hx =>
    cases hy.symm.trans hx
    have hb : t.isBranch race = true := isBranch_iff.mpr ⟨_, hr⟩
    refine ⟨rfl, ?_⟩
    simp [Race.receive, hb, ht, hasEnded]
    omega
  | looks hp ha hx ho =>
    cases hy.symm.trans hx
    refine ⟨rfl, ?_⟩
    simp [not_ended_of_look hn ho, ha]
    omega
  | keeps hx he =>
    cases hy.symm.trans hx
    refine ⟨rfl, ?_⟩
    cases hb : t.isBranch race <;> simp [*]

end

end Task

namespace Machine
variable {m m' : Machine r} {a : Happening} {i : Nat} {t : Task} {e : Effect r}
  {race : Nat} {x : Race}

/-- How many branches of the race were launched. -/
def launched (m : Machine r) (race : Nat) : Nat := m.tasks.toList.countP (Task.isBranch race)

/-- How many branches of the race have ended. -/
def arrived (m : Machine r) (race : Nat) : Nat :=
  m.tasks.toList.countP fun t => t.isBranch race && t.hasEnded

/-- Every race that somebody takes part in is there, and its books are right. -/
structure Ledger (m : Machine r) : Prop where
  branch :
    ∀ (i : Nat) (t : Task) (race : Nat), m.tasks[i]? = some t → t.isBranch race = true →
    race < m.world.races.size
  racing : ∀ (i : Nat) (t : Task) (race : Nat) (pending : List Continuation),
    m.tasks[i]? = some t → t.phase = .racing race pending → race < m.world.races.size
  total : ∀ (race : Nat) (x : Race), m.world.races[race]? = some x → x.total = m.launched race
  count : ∀ (race : Nat) (x : Race), m.world.races[race]? = some x →
    x.seen + x.arrivals.length = m.arrived race

/-- A step moves one task from one class to another and adds the launched ones. -/
theorem Stepped.countP (hs : Stepped m i t e m') (p : Task → Bool) :
    m'.tasks.toList.countP p + (if p t then 1 else 0) =
      m.tasks.toList.countP p + (if p e.task then 1 else 0) + e.launched.countP p := by
  have hlt : i < m.tasks.toList.length := by simpa using hs.lt
  have ht : m.tasks.toList[i] = t := by
    have := hs.task
    rw [← Array.getElem?_toList, List.getElem?_eq_getElem hlt] at this
    exact Option.some.inj this
  have hle : (if p m.tasks.toList[i] = true then 1 else 0) ≤ m.tasks.toList.countP p :=
    List.boole_getElem_le_countP hlt
  rw [hs.tasks, List.countP_append, List.countP_set hlt, ht]
  rw [ht] at hle
  omega

theorem Stepped.launched_eq (hs : Stepped m i t e m') (race : Nat) :
    m'.launched race = m.launched race + e.launched.countP (Task.isBranch race) := by
  have h := hs.countP (Task.isBranch race)
  rw [Task.isBranch_congr hs.turn.role_eq] at h
  unfold launched
  omega

/-- A branch counts as arrived from the step on in which it ends. -/
theorem Stepped.arrived_eq (hs : Stepped m i t e m') (race : Nat) :
    m'.arrived race = m.arrived race + if t.isBranch race && e.task.hasEnded then 1 else 0 := by
  have h := hs.countP fun t => t.isBranch race && t.hasEnded
  have hl : e.launched.countP (fun t => t.isBranch race && t.hasEnded) = 0 := by
    rw [List.countP_eq_zero]
    intro u hu
    simp [hs.turn.launched_not_ended hu]
  rw [Task.isBranch_congr hs.turn.role_eq, hl] at h
  simpa [arrived, hs.turn.not_ended] using h

/-- Who races after a step did so before, or starts a race that was not there. -/
theorem Stepped.racing_cases (hs : Stepped m i t e m') (hf : m.Fit) {j : Nat} {u : Task}
    {pending : List Continuation} (hu : m'.tasks[j]? = some u)
    (hp : u.phase = .racing race pending) :
    m.tasks[j]? = some u ∨
    j = i ∧ race = m.world.races.size ∧ race < m'.world.races.size := by
  have hr := hs.turn.onRaces (hf i t hs.task)
  obtain ⟨rfl, rfl⟩ | ⟨-, hju⟩ | ⟨k, -, hk⟩ := hs.cases hu
  · obtain ht | ⟨rfl, hlt⟩ := hr.racing hp
    · exact .inl (ht ▸ hs.task)
    · exact .inr ⟨rfl, rfl, hs.world ▸ hlt⟩
  · exact .inl hju
  · have hmem := List.mem_of_getElem? hk
    obtain ⟨request, rfl⟩ | ⟨role, span, p, -, rfl⟩ :=
      hs.turn.launched_cases hmem <;> cases hp

/-- A branch after a step was one before, or is launched for a race that was not there. -/
theorem Stepped.branch_cases (hs : Stepped m i t e m') (hf : m.Fit) {j : Nat} {u : Task}
    (hu : m'.tasks[j]? = some u) (hb : u.isBranch race = true) :
    (∃ u₀, m.tasks[j]? = some u₀ ∧ u₀.role = u.role) ∨
      m.tasks.size ≤ j ∧ race = m.world.races.size ∧ race < m'.world.races.size := by
  have hr := hs.turn.onRaces (hf i t hs.task)
  obtain ⟨rfl, rfl⟩ | ⟨-, hju⟩ | ⟨k, rfl, hk⟩ := hs.cases hu
  · exact .inl ⟨t, hs.task, hs.turn.role_eq.symm⟩
  · exact .inl ⟨u, hju, rfl⟩
  · obtain ⟨rfl, hlt⟩ := hr.launched_branch (List.mem_of_getElem? hk) hb
    exact .inr ⟨Nat.le_add_right _ k, rfl, hs.world ▸ hlt⟩

theorem ledger_initial (h : Initial m) : m.Ledger := by
  have hrole : ∀ (i : Nat) (t : Task), m.tasks[i]? = some t → t.role = .host :=
    fun i t ht => (h.writers i t ht).1
  refine ⟨?_, ?_, ?_, ?_⟩
  · intro i t race ht hb
    simp [Task.isBranch, hrole i t ht] at hb
  · intro i t race pending ht hp
    obtain ⟨-, -, _, ⟨_, _, hw⟩, -⟩ := h.writers i t ht
    cases hp.symm.trans hw
  · intro race x hx
    simp [h.races] at hx
  · intro race x hx
    simp [h.races] at hx

/-- A race that nobody takes part in has no branches. -/
theorem Ledger.launched_eq_zero (hl : m.Ledger) (h : m.world.races.size ≤ race) :
    m.launched race = 0 := by
  rw [launched, List.countP_eq_zero]
  intro t ht hb
  obtain ⟨i, hi⟩ := List.mem_iff_getElem?.mp ht
  have := hl.branch i t race (by simpa using hi) hb
  omega

theorem arrived_le_launched (m : Machine r) (race : Nat) : m.arrived race ≤ m.launched race := by
  apply List.countP_mono_left
  simp +contextual

/-- All branches have arrived exactly if all have ended. -/
theorem arrived_eq_launched_iff :
    m.arrived race = m.launched race ↔
      ∀ (j : Nat) (u : Task), m.tasks[j]? = some u → u.isBranch race = true →
        u.hasEnded = true := by
  have hcount : m.arrived race =
      (m.tasks.toList.filter (Task.isBranch race)).countP Task.hasEnded := by
    rw [List.countP_filter, arrived]
    simp only [Bool.and_comm]
  have hlength : m.launched race = (m.tasks.toList.filter (Task.isBranch race)).length :=
    List.countP_eq_length_filter
  rw [hcount, hlength, List.countP_eq_length]
  constructor
  · intro h j u hu hb
    exact h u (List.mem_filter.mpr ⟨List.mem_of_getElem? (by simpa using hu), hb⟩)
  · intro h u hu
    obtain ⟨hmem, hb⟩ := List.mem_filter.mp hu
    obtain ⟨j, hj⟩ := List.mem_iff_getElem?.mp hmem
    exact h j u (by simpa using hj) hb

/-- While not all branches have arrived, one of them has not ended. -/
theorem Ledger.exists_running (hl : m.Ledger) (hx : m.world.races[race]? = some x)
    (h : x.seen + x.arrivals.length < x.total) :
    ∃ (j : Nat) (u : Task), m.tasks[j]? = some u ∧ u.isBranch race = true ∧
      u.hasEnded = false := by
  rw [hl.total race x hx, hl.count race x hx] at h
  refine Classical.byContradiction fun hnone => Nat.ne_of_lt h (arrived_eq_launched_iff.mpr ?_)
  intro j u hu hb
  cases he : u.hasEnded with
  | true => rfl
  | false => exact absurd ⟨j, u, hu, hb, he⟩ hnone

theorem ledger_step (hs : Stepped m i t e m') (hf : m.Fit) (hl : m.Ledger) : m'.Ledger := by
  have hr := hs.turn.onRaces (hf i t hs.task)
  have hle : m.world.races.size ≤ m'.world.races.size := hs.world ▸ hr.size_le
  refine ⟨?_, ?_, ?_, ?_⟩
  · intro j u race hu hb
    obtain ⟨u₀, hu₀, hrole⟩ | ⟨-, -, hlt⟩ := hs.branch_cases hf hu hb
    · exact Nat.lt_of_lt_of_le
        (hl.branch j u₀ race hu₀ (Task.isBranch_congr hrole race ▸ hb)) hle
    · exact hlt
  · intro j u race pending hu hp
    obtain hu | ⟨-, -, hlt⟩ := hs.racing_cases hf hu hp
    · exact Nat.lt_of_lt_of_le (hl.racing j u race pending hu hp) hle
    · exact hlt
  · intro race y hy
    rw [hs.launched_eq]
    rw [hs.world] at hy
    cases hx : m.world.races[race]? with
    | some x =>
      rw [((hr.onBooks hs.turn.not_ended hx).count hs.turn.not_ended hy).1, hl.total race x hx,
        hr.countP_launched hx, Nat.add_zero]
    | none =>
      obtain ⟨rfl, -, ps, pending, rfl, -, hlaunched⟩ := hr.fresh hx hy
      simp [hlaunched, Task.countP_branches, hl.launched_eq_zero (Nat.le_refl _)]
  · intro race y hy
    rw [hs.arrived_eq]
    rw [hs.world] at hy
    cases hx : m.world.races[race]? with
    | some x =>
      rw [((hr.onBooks hs.turn.not_ended hx).count hs.turn.not_ended hy).2, hl.count race x hx]
    | none =>
      obtain ⟨rfl, he, ps, pending, rfl, -, -⟩ := hr.fresh hx hy
      have h0 := hl.launched_eq_zero (Nat.le_refl m.world.races.size)
      have hle := m.arrived_le_launched m.world.races.size
      simp [he]
      omega

theorem ledger_idle {added : List Task} (hi : Idled m a added m') (hl : m.Ledger) : m'.Ledger := by
  have hnew : ∀ u ∈ added, ∀ race, u.isBranch race = false := by
    intro u hu race
    obtain ⟨p, container, -, rfl⟩ := hi.programs u hu
    rfl
  refine ⟨?_, ?_, ?_, ?_⟩
  · intro j u race hu hb
    rw [hi.races]
    obtain hu | ⟨-, hu⟩ := hi.cases hu
    · exact hl.branch j u race hu hb
    · simp [hnew u hu race] at hb
  · intro j u race pending hu hp
    rw [hi.races]
    obtain hu | ⟨-, hu⟩ := hi.cases hu
    · exact hl.racing j u race pending hu hp
    · obtain ⟨p, container, -, rfl⟩ := hi.programs u hu
      cases hp
  · intro race x hx
    have hz : added.countP (Task.isBranch race) = 0 := by
      rw [List.countP_eq_zero]
      intro u hu
      simp [hnew u hu race]
    rw [launched, hi.tasks, List.countP_append, hz]
    exact hl.total race x (hi.races ▸ hx)
  · intro race x hx
    have hz : added.countP (fun t => t.isBranch race && t.hasEnded) = 0 := by
      rw [List.countP_eq_zero]
      intro u hu
      simp [hnew u hu race]
    rw [arrived, hi.tasks, List.countP_append, hz]
    exact hl.count race x (hi.races ▸ hx)

theorem ledger_reachable (hm : m.Reachable) : m.Ledger := by
  apply hm.invariant fun _ => ledger_initial
  intro m a m' hm ha hl
  cases ha with
  | step hs => exact ledger_step hs (fit_reachable hm) hl
  | idle _ hi => exact ledger_idle hi hl

end Machine

end Workflow
