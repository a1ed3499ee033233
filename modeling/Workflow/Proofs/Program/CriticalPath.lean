import Mathlib.Data.List.Nodup
import Workflow.Proofs.Machine.Boundary
import Workflow.Proofs.Program.Scope

/-! When a program ends, read off the program alone.

A program of delays, forks, awaits, races and recoveries takes no time but that of its delays, and
how long it waits is known once it is known when its forks and branches end. `Program.criticalPath`
adds this up along the program.

The rule numbers the handles as the program itself forks, and a machine numbers them as all programs
on it fork. So the rule is for programs that do nothing with a handle but await it. `Program.Timed`
compares a program under both numberings. -/
namespace Workflow

/-- How a program that ends with a JSON value ends, and at which instant. -/
structure Ending where
  outcome : Except Fault Json
  instant : Nat

def Ending.succeeds (x : Ending) : Bool := x.outcome.isOk

/-- A race ends as its earliest success does or, if all branches
fail, as the latest failure does. -/
inductive RaceEnds (xs : List Ending) (y : Ending) : Prop
  | won (hy : y ∈ xs) (hok : y.succeeds = true)
    (hfirst : ∀ x ∈ xs, x.succeeds = true → y.instant ≤ x.instant)
  | lost (hy : y ∈ xs) (hfail : ∀ x ∈ xs, x.succeeds = false)
    (hlast : ∀ x ∈ xs, x.instant ≤ y.instant)

/-- The end of a race; a race without branches has none. -/
def raceEnding? (xs : List Ending) : Option Ending :=
  ((xs.filter Ending.succeeds).minOn? Ending.instant).or (xs.maxOn? Ending.instant)

section
variable {xs : List Ending} {y z : Ending}

theorem RaceEnds.mem (h : RaceEnds xs y) : y ∈ xs := by
  cases h with
  | won hy => exact hy
  | lost hy => exact hy

/-- If no two branches end at the same instant, a race ends in one way only. -/
theorem RaceEnds.unique (hties : (xs.map Ending.instant).Nodup) (hy : RaceEnds xs y)
    (hz : RaceEnds xs z) :
    y = z := by
  apply List.inj_on_of_nodup_map hties hy.mem hz.mem
  cases hy with
  | won hy hok hfirst =>
    cases hz with
    | won hz hok' hfirst' => exact Nat.le_antisymm (hfirst z hz hok') (hfirst' y hy hok)
    | lost _ hfail => simp [hfail y hy] at hok
  | lost hy hfail hlast =>
    cases hz with
    | won hz hok => simp [hfail z hz] at hok
    | lost hz _ hlast' => exact Nat.le_antisymm (hlast' y hy) (hlast z hz)

theorem raceEnds_of_eq_some (h : raceEnding? xs = some y) : RaceEnds xs y := by
  obtain hmin | ⟨hnone, hmax⟩ := Option.or_eq_some_iff.mp h
  · obtain ⟨hy, hok⟩ := List.mem_filter.mp (List.minOn?_mem hmin)
    refine .won hy hok fun x hx hxok => ?_
    have hle :=
      List.apply_minOn_le_of_mem (f := Ending.instant) (List.mem_filter.mpr ⟨hx, hxok⟩)
    rwa [List.minOn_eq_of_minOn?_eq_some hmin] at hle
  · have hempty : xs.filter Ending.succeeds = [] := by
      refine Classical.byContradiction fun hne => ?_
      have hsome := (List.isSome_minOn?_iff (f := Ending.instant)).mpr hne
      simp [hnone] at hsome
    refine .lost (List.maxOn?_mem hmax) ?_ fun x hx => ?_
    · simpa using List.filter_eq_nil_iff.mp hempty
    · have hle := List.le_apply_maxOn_of_mem (f := Ending.instant) hx
      rwa [List.maxOn_eq_of_maxOn?_eq_some hmax] at hle

theorem exists_raceEnding? (h : xs ≠ []) : ∃ y, raceEnding? xs = some y := by
  obtain ⟨x, hx⟩ := List.exists_mem_of_ne_nil xs h
  refine Option.isSome_iff_exists.mp ?_
  rw [raceEnding?, Option.isSome_or, List.isSome_maxOn?_of_mem hx, Bool.or_true]

end

/-- Where a program has got to: with which result and when, how the forks end that are in reach, and
whether the branches of every race on the way end at instants of their own. -/
structure Path where
  result : Except Fault Dyn
  instant : Nat
  forks : List Ending
  untied : Bool

namespace Path

def ending (x : Path) : Ending := ⟨x.result >>= Dyn.take .json, x.instant⟩

/-- Goes on with a value; a failure ends the path. -/
def andThen (x : Path) (next : Dyn → List Ending → Nat → Path) : Path :=
  match x.result with
  | .ok v =>
    let y := next v x.forks x.instant
    { y with untied := x.untied && y.untied }
  | .error _ => x

variable {x : Path} {next : Dyn → List Ending → Nat → Path}

theorem andThen_ok {v : Dyn} (h : x.result = .ok v) :
    x.andThen next =
      { next v x.forks x.instant with
        untied := x.untied && (next v x.forks x.instant).untied } := by
  simp only [andThen, h]

theorem andThen_error {e : Fault} (h : x.result = .error e) : x.andThen next = x := by
  simp only [andThen, h]

theorem untied_of_andThen (h : (x.andThen next).untied = true) : x.untied = true := by
  cases hr : x.result with
  | ok v =>
    rw [andThen_ok hr] at h
    exact (Bool.and_eq_true_iff.mp h).1
  | error e => rwa [andThen_error hr] at h

end Path

namespace Program

mutual

/-- The path of a program that starts at the instant `t` and can
reach forks that end as `forks` says. -/
def criticalPath : Program → (forks : List Ending) → (t : Nat) → Path
  | .done v, forks, t => ⟨.ok v, t, forks, true⟩
  | .throw e, forks, t => ⟨.error e, t, forks, true⟩
  | .step op, forks, t => operationPath op forks t
  | .bind p k, forks, t =>
    (p.criticalPath forks t).andThen fun v forks t => (k v).criticalPath forks t

/-- The rule for each operation. A path with an operation of another sort is not untied. -/
def operationPath : Operation Program → (forks : List Ending) → (t : Nat) → Path
  | .delay duration, forks, t => ⟨.ok .unit, t + duration, forks, true⟩
  | .fork p, forks, t =>
    let x := p.criticalPath forks t
    ⟨.ok ⟨.handle, ⟨forks.length⟩⟩, t, forks ++ [x.ending], x.untied⟩
  | .await h, forks, t =>
    match forks[h.index]? with
    | some x => ⟨x.outcome.map .json, max t x.instant, forks, true⟩
    | none => ⟨.ok .unit, t, forks, false⟩
  | .race ps, forks, t =>
    let xs := branchPaths ps forks t
    let endings := xs.map Path.ending
    let untied := xs.all (·.untied) && decide (endings.map Ending.instant).Nodup
    match raceEnding? endings with
    | some y => ⟨y.outcome.map .json, y.instant, forks, untied⟩
    | none => ⟨.error .emptyRace, t, forks, untied⟩
  | .recover p, forks, t =>
    let x := p.criticalPath forks t
    ⟨boundaryAnswer x.result, x.instant, forks, x.untied⟩
  | _, forks, t => ⟨.ok .unit, t, forks, false⟩

def branchPaths : List Program → (forks : List Ending) → (t : Nat) → List Path
  | [], _, _ => []
  | p :: ps, forks, t => p.criticalPath forks t :: branchPaths ps forks t

end

theorem branchPaths_eq_map (ps : List Program) (forks : List Ending) (t : Nat) :
    branchPaths ps forks t = ps.map fun p => p.criticalPath forks t := by
  induction ps with
  | nil => rfl
  | cons p ps ih => rw [branchPaths, ih, List.map_cons]

/-- A race ends as one of its branches does, and its path is untied
only if those of its branches are. -/
theorem race_criticalPath {ps : List Program} (hps : ps ≠ []) (forks : List Ending) (t : Nat) :
    let xs := ps.map fun p => (p.criticalPath forks t).ending
    let x := (Program.step (.race ps)).criticalPath forks t
    ∃ y, RaceEnds xs y ∧ x = ⟨y.outcome.map .json, y.instant, forks, x.untied⟩ ∧
      (x.untied = true →
        (xs.map Ending.instant).Nodup ∧
          ∀ p ∈ ps, (p.criticalPath forks t).untied = true) := by
  intro xs x
  have hxs : (branchPaths ps forks t).map Path.ending = xs := by
    rw [branchPaths_eq_map, List.map_map]
    rfl
  have hne : xs ≠ [] := by simpa [xs] using hps
  obtain ⟨y, hy⟩ := exists_raceEnding? hne
  have hx : x = ⟨y.outcome.map .json, y.instant, forks,
      (branchPaths ps forks t).all (·.untied) && decide (xs.map Ending.instant).Nodup⟩ := by
    simp only [x, criticalPath, operationPath, hxs, hy]
  refine ⟨y, raceEnds_of_eq_some hy, by rw [hx], ?_⟩
  rw [hx, Bool.and_eq_true_iff, branchPaths_eq_map, List.all_map, List.all_eq_true,
    decide_eq_true_iff]
  exact fun ⟨hall, hties⟩ => ⟨hties, hall⟩

end Program

/-- The data is the same, but for handles, which `R` relates. -/
def Kind.Corresponds (R : Handle → Handle → Prop) :
    (kind : Kind) → kind.Carrier → kind.Carrier → Prop
  | .handle, h, h' => R h h'
  | .option kind, v, v' => Option.Rel (kind.Corresponds R) v v'
  | .list kind, vs, vs' => List.Forall₂ (kind.Corresponds R) vs vs'
  | .pair a b, v, v' => a.Corresponds R v.1 v'.1 ∧ b.Corresponds R v.2 v'.2
  | .either a b, v, v' => Sum.LiftRel (a.Corresponds R) (b.Corresponds R) v v'
  | .attempt kind, .ok v, .ok v' => kind.Corresponds R v v'
  | .attempt _, .error e, .error e' => e = e'
  | .attempt _, _, _ => False
  | _, v, v' => v = v'

variable {R : Handle → Handle → Prop}

/-- Data without handles is the same. -/
theorem Kind.corresponds_iff_eq {kind : Kind} (h : kind.isPlain = true) {v v' : kind.Carrier} :
    kind.Corresponds R v v' ↔ v = v' := by
  induction kind with
  | handle => cases h
  | option kind ih =>
    constructor
    · rintro (hx | _)
      · exact congrArg some ((ih h).mp hx)
      · rfl
    · rintro rfl
      cases v with
      | none => exact .none
      | some x => exact .some ((ih h).mpr rfl)
  | list kind ih =>
    have heq : kind.Corresponds R = Eq := funext fun _ => funext fun _ => propext (ih h)
    rw [Corresponds, heq, List.forall₂_eq_eq_eq]
    exact Iff.rfl
  | attempt kind ih =>
    cases v with
    | ok x =>
      cases v' with
      | ok x' => exact (ih h).trans ⟨congrArg Except.ok, Except.ok.inj⟩
      | error e' => exact ⟨False.elim, fun he => by cases he⟩
    | error e =>
      cases v' with
      | ok x' => exact ⟨False.elim, fun he => by cases he⟩
      | error e' => exact ⟨congrArg Except.error, Except.error.inj⟩
  | pair a b iha ihb =>
    obtain ⟨ha, hb⟩ : a.isPlain = true ∧ b.isPlain = true := by simpa [isPlain] using h
    rw [Corresponds, iha ha, ihb hb]
    exact Prod.ext_iff.symm
  | either a b iha ihb =>
    obtain ⟨ha, hb⟩ : a.isPlain = true ∧ b.isPlain = true := by simpa [isPlain] using h
    constructor
    · rintro (hx | hx)
      · exact congrArg Sum.inl ((iha ha).mp hx)
      · exact congrArg Sum.inr ((ihb hb).mp hx)
    · rintro rfl
      cases v with
      | inl x => exact .inl ((iha ha).mpr rfl)
      | inr x => exact .inr ((ihb hb).mpr rfl)
  | _ => rfl

/-- The results are of one kind and the same, but for handles. -/
inductive Dyn.Corresponds (R : Handle → Handle → Prop) : Dyn → Dyn → Prop
  | mk {kind : Kind} {v v' : kind.Carrier} (h : kind.Corresponds R v v') :
    Corresponds R ⟨kind, v⟩ ⟨kind, v'⟩

namespace Dyn

theorem corresponds_of_isPlain {v : Dyn} (h : v.kind.isPlain = true) : v.Corresponds R v :=
  .mk ((Kind.corresponds_iff_eq h).mpr rfl)

theorem Corresponds.take_cases {v v' : Dyn} (h : v.Corresponds R v') (kind : Kind) :
    (∃ x x', v.take kind = .ok x ∧ v'.take kind = .ok x' ∧ kind.Corresponds R x x') ∨
      ∃ e, v.take kind = .error e ∧ v'.take kind = .error e := by
  obtain @⟨kind', x, x', h⟩ := h
  by_cases hk : kind' = kind
  · subst hk
    exact .inl ⟨x, x', take_mk _ _, take_mk _ _, h⟩
  · exact .inr ⟨_, dif_neg hk, dif_neg hk⟩

end Dyn

/-- The programs end in the same way, but for the handles in a value. -/
inductive ResultsCorrespond (R : Handle → Handle → Prop) :
    Except Fault Dyn → Except Fault Dyn → Prop
  | ok {v v' : Dyn} (h : v.Corresponds R v') : ResultsCorrespond R (.ok v) (.ok v')
  | error (e : Fault) : ResultsCorrespond R (.error e) (.error e)

namespace ResultsCorrespond

theorem take_eq {result result' : Except Fault Dyn} (h : ResultsCorrespond R result result')
    (kind : Kind) (hk : kind.isPlain = true) :
    (result >>= Dyn.take kind) = result' >>= Dyn.take kind := by
  cases h with
  | error e => rfl
  | ok h =>
    obtain ⟨x, x', hx, hx', hxx⟩ | ⟨e, he, he'⟩ := h.take_cases kind
    · obtain rfl := (Kind.corresponds_iff_eq hk).mp hxx
      exact hx.trans hx'.symm
    · exact he.trans he'.symm

theorem json (outcome : Except Fault Json) :
    ResultsCorrespond R (outcome.map .json) (outcome.map .json) := by
  cases outcome with
  | ok v => exact .ok (Dyn.corresponds_of_isPlain rfl)
  | error e => exact .error e

/-- No handle gets out of a boundary. -/
theorem boundaryAnswer {S : Handle → Handle → Prop} {result result' : Except Fault Dyn}
    (h : ResultsCorrespond S result result') :
    ResultsCorrespond R (boundaryAnswer result) (boundaryAnswer result') := by
  unfold Workflow.boundaryAnswer
  rw [h.take_eq .outcome rfl]
  cases result' >>= Dyn.take .outcome with
  | error e => exact .ok (Dyn.corresponds_of_isPlain rfl)
  | ok outcome =>
    cases outcome with
    | succeed v => exact .ok (Dyn.corresponds_of_isPlain rfl)
    | fail message => exact .error _

end ResultsCorrespond

/-- Two forms of one program that consists of delays, forks, awaits, races, recoveries,
values and failures. It awaits handles that are in reach, which are those that `R`
relates, and does nothing else with them. -/
inductive Program.Timed : (R : Handle → Handle → Prop) → Program → Program → Prop
  | done {R : Handle → Handle → Prop} {v v' : Dyn} (h : v.Corresponds R v') :
    Timed R (.done v) (.done v')
  | throw {R : Handle → Handle → Prop} (e : Fault) : Timed R (.throw e) (.throw e)
  | delay {R : Handle → Handle → Prop} (duration : Nat) :
    Timed R (.step (.delay duration)) (.step (.delay duration))
  | fork {R : Handle → Handle → Prop} {p p' : Program} (h : Timed R p p') :
    Timed R (.step (.fork p)) (.step (.fork p'))
  | await {R : Handle → Handle → Prop} {h h' : Handle} (hh : R h h') :
    Timed R (.step (.await h)) (.step (.await h'))
  | race {R : Handle → Handle → Prop} {ps ps' : List Program} (hps : ps ≠ [])
    (hlen : ps'.length = ps.length)
    (h : ∀ (i : Nat) (p p' : Program), ps[i]? = some p → ps'[i]? = some p' → Timed R p p') :
    Timed R (.step (.race ps)) (.step (.race ps'))
  | recover {R : Handle → Handle → Prop} {p p' : Program} (h : Timed R p p') :
    Timed R (.step (.recover p)) (.step (.recover p'))
  /-- What goes on can reach more handles. -/
  | bind {R : Handle → Handle → Prop} {p p' : Program} {k k' : Continuation} (h : Timed R p p')
    (hk : ∀ (S : Handle → Handle → Prop)
      (v v' : Dyn), (∀ h h', R h h' → S h h') → v.Corresponds S v' →
      Timed S (k v) (k' v')) :
    Timed R (.bind p k) (.bind p' k')

/-- The program consists of delays, forks, awaits of its own forks, races of
branches, recoveries, values and failures. -/
def Program.IsTimed (p : Program) : Prop := Timed (fun _ _ => False) p p

namespace Flow
variable {a b : Kind}

theorem timed_andThen {f f' : Flow a} {next next' : a.Carrier → Flow b}
    (hf : f.program.Timed R f'.program)
    (hn : ∀ (S : Handle → Handle → Prop) x x', (∀ h h', R h h' → S h h') →
      a.Corresponds S x x' → (next x).program.Timed S (next' x').program) :
    (f.andThen next).program.Timed R (f'.andThen next').program := by
  have hk (S : Handle → Handle → Prop) (v v' : Dyn) (hS : ∀ h h', R h h' → S h h')
      (hv : v.Corresponds S v') : (continuation next v).Timed S (continuation next' v') := by
    unfold continuation
    obtain ⟨x, x', hx, hx', hxx⟩ | ⟨e, he, he'⟩ := hv.take_cases a
    · rw [hx, hx']
      exact hn S x x' hS hxx
    · rw [he, he']
      exact .throw e
  obtain ⟨p⟩ := f
  obtain ⟨p'⟩ := f'
  cases hf with
  | done hv => exact hk R _ _ (fun _ _ h => h) hv
  | throw e => exact .throw e
  | delay duration => exact .bind (.delay duration) hk
  | fork h => exact .bind (.fork h) hk
  | await hh => exact .bind (.await hh) hk
  | race hps hlen h => exact .bind (.race hps hlen h) hk
  | recover h => exact .bind (.recover h) hk
  | bind h hk' => exact .bind (.bind h hk') hk

theorem timed_followedBy {f f' : Flow a} {next next' : Flow b} (hf : f.program.Timed R f'.program)
    (hn : ∀ S : Handle → Handle → Prop, (∀ h h', R h h' → S h h') →
      next.program.Timed S next'.program) :
    (f.followedBy next).program.Timed R (f'.followedBy next').program :=
  timed_andThen hf fun S _ _ hS _ => hn S hS

end Flow

end Workflow
