import Workflow.Proofs.Machine.Course
import Workflow.Proofs.Machine.RaceOutcome
import Workflow.Proofs.Program.CriticalPath

/-! Waiting for what is known to come.

If it is known how and when the program behind a handle ends in a course, it is known when its
result reaches a task that awaits the handle. In the same way the ends of all branches tell when a
race is resolved, and with what. -/
namespace Workflow

variable {r : Runner}

theorem Verdict.join_ofExcept (self : Nat) (result : Except Fault Dyn) :
    (Verdict.ofExcept result).join self = .ofExcept (result >>= Dyn.take .json) := by
  cases result <;> rfl

namespace Machine

/-- A branch that has just ended in a step is in its last phase. -/
theorem of_completed {m : Machine r} {a : Happening} {race : Nat} {b : Completion}
    (h : completed race a m = some b) :
    ∃ i t v, a = .move (.step i) ∧ m.tasks[i]? = some t ∧ t.role = .branch race b.branch ∧
      t.phase = .ended v ∧ b.ending = v.join i ∧ b.time = m.world.now := by
  unfold completed at h
  split at h
  next i =>
    obtain ⟨t, ht, hb⟩ := Option.bind_eq_some_iff.mp h
    unfold Task.completion? at hb
    split at hb
    next race' index v hr hp =>
      split at hb
      next hrace =>
        cases hb
        subst hrace
        exact ⟨i, t, v, rfl, ht, hr, hp, rfl, rfl⟩
      next => cases hb
    next => cases hb
  next => cases h

end Machine

namespace Course

open Machine

variable (E : Course r)

/-- The program of task `i` ends as `x` says. -/
def Finishes (i : Nat) (x : Ending) : Prop :=
  ∃ result, E.EndsAt i (.ofExcept result) x.instant ∧ x.outcome = result >>= Dyn.take .json

/-- From moment `n` on there is a task behind the handle, and its program ends as `x` says. -/
def Foretells (n : Nat) (h : Handle) (x : Ending) : Prop :=
  ∃ i t, (E.state n).tasks[i]? = some t ∧ t.role = .fork h ∧ E.Finishes i x

variable {E} {n k j : Nat} {t : Task} {h : Handle} {x y : Ending} {pending : List Continuation}

namespace Foretells

theorem mono (hx : E.Foretells n h x) (hle : n ≤ k) (hk : k ≤ E.length) :
    E.Foretells k h x := by
  obtain ⟨i, t, ht, hr, hf⟩ := hx
  obtain ⟨as, hrun⟩ := exists_run hle hk
  obtain ⟨boundaries, phase, ht'⟩ := same_run hrun ht
  exact ⟨i, _, ht', hr, hf⟩

/-- The handle is pending until the instant at which the program behind it
ends, and says its outcome after it. -/
theorem cases (hx : E.Foretells n h x) (hn : n ≤ E.length) :
    ((E.state n).status h = .pending ∧ E.now n ≤ x.instant) ∨
      ((E.state n).status h = .filled x.outcome ∧ x.instant ≤ E.now n) := by
  obtain ⟨i, t, ht, hr, result, hend, hout⟩ := hx
  have howned := owned_reachable (reachable hn)
  obtain ⟨hnone, hnow⟩ | ⟨hsome, hnow⟩ := hend.cases hn
  · left
    refine ⟨?_, hnow⟩
    rw [fork_status howned ht hr]
    cases hp : t.phase with
    | ended v => simp [ending?_eq_some_iff.mpr ⟨t, ht, hp⟩] at hnone
    | _ => rfl
  · right
    obtain ⟨u, hu, hp⟩ := ending?_eq_some_iff.mp hsome
    cases ht.symm.trans hu
    exact ⟨(fork_status_filled_iff howned ht hr).mpr ⟨result, hp, hout⟩, hnow⟩

theorem at_rest (hx : E.Foretells n h x) (hn : n ≤ E.length) :
    (E.state E.length).status h = .filled x.outcome := by
  have hx' := hx.mono hn (Nat.le_refl _)
  obtain ⟨i, t, ht, hr, result, hend, hout⟩ := hx'
  obtain ⟨u, hu, hp⟩ := ending?_eq_some_iff.mp hend.at_rest
  cases ht.symm.trans hu
  exact (fork_status_filled_iff (owned_reachable (reachable (Nat.le_refl _))) ht hr).mpr
    ⟨result, hp, hout⟩

end Foretells

/-- Whoever awaits a handle goes on at the instant at which the program
behind it ends, and at once if it has. -/
theorem awaits (hn : n ≤ E.length) (ht : (E.state n).tasks[j]? = some t)
    (hp : t.phase = .awaiting h pending) (hx : E.Foretells n h x) :
    ∃ k, n ≤ k ∧ k < E.length ∧ E.now (k + 1) = max (E.now n) x.instant ∧
      (E.state (k + 1)).tasks[j]? = some (t.resumed pending (x.outcome.map .json)) := by
  have hcan {k : Nat} (ht : (E.state k).tasks[j]? = some t) {outcome : Except Fault Json}
      (hs : (E.state k).status h = .filled outcome) : (E.state k).step? j ≠ none := by
    simp [step?_awaiting ht hp, hs, Cell.Status.outcome?]
  have htick (k : Nat) (hle : n ≤ k) (hk : k < E.length) (ht : (E.state k).tasks[j]? = some t)
      (htick : (E.state k).move? .tick = some (E.state (k + 1))) :
      E.now (k + 1) ≤ max (E.now n) x.instant := by
    obtain ⟨hpending, -⟩ | ⟨hfilled, -⟩ :=
      (hx.mono hle (Nat.le_of_lt hk)).cases (Nat.le_of_lt hk)
    · obtain ⟨-, hnow⟩ | ⟨hfilled, -⟩ := (hx.mono (Nat.le_succ_of_le hle) hk).cases hk
      · exact Nat.le_trans hnow (Nat.le_max_right _ _)
      · cases hfilled.symm.trans ((status_of_tick htick h).trans hpending)
    · exact absurd (step?_of_tick htick j) (hcan ht hfilled)
  obtain ⟨k, e, hle, hk, hnow, he, hs⟩ := acts hn ht (Nat.le_max_left _ _) htick
    fun ht => hcan ht (hx.at_rest hn)
  have hnow' := now_of_stepped hs
  have hstart := now_le hle (Nat.le_of_lt hk)
  obtain ⟨outcome, hout, rfl⟩ :
      ∃ outcome, ((E.state k).status h).outcome? h = some outcome ∧
      t.proceed (E.state k).world pending (outcome.map .json) = e := by
    simpa [Task.step?, hp, Cell.outcome?_eq, status] using he
  obtain ⟨hpending, -⟩ | ⟨hfilled, hpast⟩ :=
    (hx.mono hle (Nat.le_of_lt hk)).cases (Nat.le_of_lt hk)
  · simp [hpending, Cell.Status.outcome?] at hout
  · rw [hfilled, Cell.Status.outcome?, Option.some.injEq] at hout
    subst hout
    exact ⟨k, hle, hk, by omega, hs.self⟩

section Race
variable {c : Contest} {xs : List Ending} {history : List Completion} {i : Nat}

variable (E c xs) in
/-- Every branch of the contest ends as `xs` says. -/
structure Branches : Prop where
  total : xs.length = c.total
  finishes : ∀ (i : Nat) (x : Ending), xs[i]? = some x → E.Finishes (c.first + i) x

/-- This is what a history tells of a branch that ends as `x` says. -/
def Reports (b : Completion) (x : Ending) : Prop :=
  b.ending = .ofExcept x.outcome ∧ b.time = x.instant

variable (E c xs) in
/-- The history of the contest at moment `k` tells of its branches what `xs` says. -/
structure Chronicle (k : Nat) (history : List Completion) : Prop where
  record : c.Record (E.state k) history
  reports : ∀ b ∈ history, ∃ x, xs[b.branch]? = some x ∧ Reports b x

/-- A branch that ends does so at its instant. -/
theorem reports_completed (hx : E.Branches c xs) (hk : k < E.length)
    (hseated : c.Seated (E.state (k + 1))) {b : Completion}
    (hb : completed c.race (E.happening k) (E.state (k + 1)) = some b) :
    ∃ x, xs[b.branch]? = some x ∧ Reports b x := by
  obtain ⟨i, t, v, ha, ht, hrole, hp, hending, htime⟩ := of_completed hb
  obtain ⟨rfl, hlt⟩ := hseated.placed i t _ ht hrole
  have hbx := List.getElem?_eq_getElem (hx.total.symm ▸ hlt : b.branch < xs.length)
  obtain ⟨result, hend, hout⟩ := hx.finishes b.branch _ hbx
  have hnext := E.next k hk
  rw [ha] at hnext
  obtain ⟨u, e, -, hs⟩ := step?_stepped hnext
  have hnow := now_of_stepped hs
  obtain ⟨-, hbefore⟩ | ⟨hsome, -⟩ := hend.cases (Nat.le_of_lt hk)
  · obtain ⟨hnone, -⟩ | ⟨hsome, hafter⟩ := hend.cases (k := k + 1) hk
    · simp [ending?_eq_some_iff.mpr ⟨t, ht, hp⟩] at hnone
    · cases hsome.symm.trans (ending?_eq_some_iff.mpr ⟨t, ht, hp⟩)
      refine ⟨_, hbx,
        hending.trans ((Verdict.join_ofExcept _ result).trans (congrArg _ hout.symm)), ?_⟩
      exact htime.trans (Nat.le_antisymm (Nat.le_trans (Nat.le_of_eq hnow) hbefore) hafter)
  · simp [hs.ending?_eq_none] at hsome

theorem exists_chronicle (hx : E.Branches c xs) (hrec : c.Record (E.state n) []) (hle : n ≤ k)
    (hk : k ≤ E.length) : ∃ history, E.Chronicle c xs k history := by
  induction k, hle using Nat.le_induction with
  | base => exact ⟨[], hrec, by simp⟩
  | succ k hle ih =>
    obtain ⟨history, hr, hreports⟩ := ih (Nat.le_of_succ_le hk)
    have hr' := Contest.record_change (happen?_change (E.next k hk))
      (fit_reachable (reachable (Nat.le_of_succ_le hk))) hr
    refine ⟨_, hr', List.forall_mem_append.mpr ⟨hreports, fun b hb => ?_⟩⟩
    exact reports_completed hx hk hr'.seated (Option.mem_toList.mp hb)

namespace Chronicle

/-- The history tells of a branch, or the branch is still to end. -/
theorem cases (h : E.Chronicle c xs k history) (hx : E.Branches c xs) (hk : k ≤ E.length)
    (hix : xs[i]? = some x) :
    (∃ b ∈ history, Reports b x) ∨
    ((E.state k).ending? (c.first + i) = none ∧ E.now k ≤ x.instant) := by
  obtain ⟨result, hend, -⟩ := hx.finishes i x hix
  obtain hnone | ⟨hsome, -⟩ := hend.cases hk
  · exact .inr hnone
  · have hlt : i < c.total := hx.total ▸ (List.getElem?_eq_some_iff.mp hix).1
    obtain ⟨b, hb, rfl, -⟩ := h.record.told.told i _ hlt hsome
    obtain ⟨x', hx', hreports⟩ := h.reports b hb
    cases hix.symm.trans hx'
    exact .inl ⟨b, hb, hreports⟩

end Chronicle

theorem Reports.value?_eq {b : Completion} (h : Reports b x) : b.value?.isSome = x.succeeds := by
  unfold Arrival.value? Ending.succeeds
  rw [h.1]
  cases x.outcome <;> rfl

theorem Reports.outcome_of_value? {b : Completion} {v : Json} (h : Reports b x)
    (hv : b.value? = some v) :
    x.outcome = .ok v := by
  unfold Arrival.value? at hv
  rw [h.1] at hv
  cases ho : x.outcome <;> simp_all [Verdict.ofExcept]

theorem Reports.outcome_of_fault? {b : Completion} {e : Fault} (h : Reports b x)
    (he : b.fault? = some e) :
    x.outcome = .error e := by
  unfold Arrival.fault? at he
  rw [h.1] at he
  cases ho : x.outcome <;> simp_all [Verdict.ofExcept]

/-- What a race goes by is its earliest success, or its latest failure. -/
theorem raceEnds_of_decides (hx : E.Branches c xs) (hk : k ≤ E.length)
    (h : E.Chronicle c xs k history) {result : Except Fault Json}
    (hd : Decides c.total history result) :
    ∃ y, RaceEnds xs y ∧ y.outcome = result ∧ y.instant ≤ E.now k := by
  have hsorted := h.record.told.sorted
  have hpast := h.record.told.past
  cases hd with
  | @won before after b v hb hv =>
    obtain ⟨y, hy, hbreports⟩ := h.reports b (by simp)
    have hbnow : y.instant ≤ E.now k := hbreports.2 ▸ hpast b (by simp)
    have hout := hbreports.outcome_of_value? hv
    refine ⟨y, .won (List.mem_of_getElem? hy) (by rw [← hbreports.value?_eq, hv]; rfl) ?_,
      hout, hbnow⟩
    intro x hmem hok
    obtain ⟨i, hix⟩ := List.mem_iff_getElem?.mp hmem
    obtain ⟨d, hd, hreports⟩ | ⟨-, hlater⟩ := h.cases hx hk hix
    · rw [← hreports.value?_eq] at hok
      rw [← hbreports.2, ← hreports.2]
      -- a success is not among the failures before the first one
      rcases List.mem_append.mp hd with hd | hd
      · simp [hb d hd] at hok
      · rcases List.mem_cons.mp hd with rfl | hd
        · exact Nat.le_refl _
        · exact (List.pairwise_cons.mp (List.pairwise_append.mp hsorted).2.1).1 d hd
    · exact Nat.le_trans hbnow hlater
  | @lost before b e hb he hl =>
    obtain ⟨y, hy, hbreports⟩ := h.reports b (by simp)
    have hout := hbreports.outcome_of_fault? he
    have hall : ∀ x ∈ xs, ∃ d ∈ before ++ [b], Reports d x := by
      intro x hmem
      obtain ⟨i, hix⟩ := List.mem_iff_getElem?.mp hmem
      obtain htold | ⟨hnone, -⟩ := h.cases hx hk hix
      · exact htold
      · have hlt : i < c.total := hx.total ▸ (List.getElem?_eq_some_iff.mp hix).1
        obtain ⟨v, hv⟩ :=
          Contest.all_ended (ledger_reachable (reachable hk)) h.record (.lost hb he hl) hlt
        simp [hnone] at hv
    refine ⟨y, .lost (List.mem_of_getElem? hy) ?_ ?_, hout, hbreports.2 ▸ hpast b (by simp)⟩
    · intro x hmem
      obtain ⟨d, hd, hreports⟩ := hall x hmem
      rw [← hreports.value?_eq]
      rcases List.mem_append.mp hd with hd | hd
      · simp [hb d hd]
      · obtain rfl := List.mem_singleton.mp hd
        simp [Arrival.value?_eq_none_iff.mpr ⟨e, he⟩]
    · intro x hmem
      obtain ⟨d, hd, hreports⟩ := hall x hmem
      rw [← hbreports.2, ← hreports.2]
      rcases List.mem_append.mp hd with hd | hd
      · exact (List.pairwise_append.mp hsorted).2.2 d hd b (by simp)
      · obtain rfl := List.mem_singleton.mp hd
        exact Nat.le_refl _

/-- As long as who waits for a race cannot step, a branch is
still to end that the race waits for. -/
theorem exists_open_branch (hx : E.Branches c xs) (hk : k ≤ E.length)
    (h : E.Chronicle c xs k history) (hy : RaceEnds xs y)
    (ht : (E.state k).tasks[c.racer]? = some c.task) (hstep : (E.state k).step? c.racer = none) :
    ∃ i x, xs[i]? = some x ∧ (E.state k).ending? (c.first + i) = none ∧
      x.instant ≤ y.instant := by
  have hundecided (result : Except Fault Json) (hd : Decides c.total history result) : False := by
    obtain ⟨e, m', hm', -⟩ := Contest.racer_can_step h.record ht hd
    simp [hstep] at hm'
  cases hy with
  | won hmem hok =>
    obtain ⟨i, hix⟩ := List.mem_iff_getElem?.mp hmem
    obtain ⟨b, hb, hreports⟩ | ⟨hnone, -⟩ := h.cases hx hk hix
    · obtain ⟨v, hd⟩ := Decides.exists_ok_iff.mpr ⟨b, hb, hreports.value?_eq.trans hok⟩
      exact (hundecided _ hd).elim
    · exact ⟨i, y, hix, hnone, Nat.le_refl _⟩
  | lost hmem hfail hlast =>
    refine Classical.byContradiction fun hopen => ?_
    have hended (i : Nat) (x : Ending) (hix : xs[i]? = some x) :
        (E.state k).ending? (c.first + i) ≠ none :=
      fun hnone => hopen ⟨i, x, hix, hnone, hlast x (List.mem_of_getElem? hix)⟩
    have hlen : history.length = c.total := by
      obtain ⟨hlen, hlaunched⟩ := h.record.length_eq (ledger_reachable (reachable hk))
      rw [hlen, ← hlaunched]
      refine arrived_eq_launched_iff.mpr fun j u hu hbranch => ?_
      obtain ⟨i, hrole⟩ := Task.isBranch_iff.mp hbranch
      obtain ⟨rfl, hlt⟩ := h.record.seated.placed j u i hu hrole
      have hix := List.getElem?_eq_getElem (hx.total.symm ▸ hlt : i < xs.length)
      obtain ⟨v, hv⟩ := Option.ne_none_iff_exists'.mp (hended i _ hix)
      obtain ⟨u', hu', hp⟩ := ending?_eq_some_iff.mp hv
      cases hu.symm.trans hu'
      exact Task.hasEnded_iff.mpr ⟨v, hp⟩
    have hnone : ∀ b ∈ history, b.value? = none := by
      intro b hb
      obtain ⟨x, hbx, hreports⟩ := h.reports b hb
      have := hreports.value?_eq.trans (hfail x (List.mem_of_getElem? hbx))
      simpa using this
    obtain ⟨e, hd⟩ := (Decides.exists_error_iff c.pos).mpr ⟨hlen, hnone⟩
    exact hundecided _ hd

/-- Whoever waits for a race looks at it again before the clock passes the end of the race. -/
theorem racer_acts (hx : E.Branches c xs) (hy : RaceEnds xs y) (hrec : c.Record (E.state n) [])
    (hle : n ≤ k) (hk : k ≤ E.length) (ht : (E.state k).tasks[c.racer]? = some c.task)
    (hnow : E.now k ≤ y.instant) :
    ∃ l e, k ≤ l ∧ l < E.length ∧ E.now l ≤ y.instant ∧
      Stepped (E.state l) c.racer c.task e (E.state (l + 1)) := by
  have hopen (l : Nat) (hkl : k ≤ l) (hl : l ≤ E.length)
      (ht : (E.state l).tasks[c.racer]? = some c.task)
      (hstep : (E.state l).step? c.racer = none) : ∃ j v instant, E.EndsAt j v instant ∧
        (E.state l).ending? j = none ∧ instant ≤ y.instant := by
    obtain ⟨history, h⟩ := exists_chronicle hx hrec (Nat.le_trans hle hkl) hl
    obtain ⟨i, x, hix, hnone, hle⟩ := exists_open_branch hx hl h hy ht hstep
    obtain ⟨result, hend, -⟩ := hx.finishes i x hix
    exact ⟨_, _, _, hend, hnone, hle⟩
  have htick (l : Nat) (hkl : k ≤ l) (hl : l < E.length)
      (ht : (E.state l).tasks[c.racer]? = some c.task)
      (htick : (E.state l).move? .tick = some (E.state (l + 1))) : E.now (l + 1) ≤ y.instant := by
    obtain ⟨j, v, instant, hend, hnone, hle⟩ :=
      hopen l hkl (Nat.le_of_lt hl) ht (step?_of_tick htick _)
    exact Nat.le_trans (hend.tick_le hl htick hnone) hle
  have hrest (ht : (E.state E.length).tasks[c.racer]? = some c.task) :
      (E.state E.length).step? c.racer ≠ none := by
    intro hstep
    obtain ⟨j, v, instant, hend, hnone, -⟩ := hopen _ hk (Nat.le_refl _) ht hstep
    simp [hend.at_rest] at hnone
  obtain ⟨l, e, hkl, hl, hnow, -, hs⟩ := acts hk ht hnow htick hrest
  exact ⟨l, e, hkl, hl, hnow, hs⟩

/-- Whoever waits for a race goes on at the instant at which its earliest success ends or, if all
branches fail, at which the latest failure does. -/
theorem resolves (hx : E.Branches c xs) (hties : (xs.map Ending.instant).Nodup) (hy : RaceEnds xs y)
    (hrec : c.Record (E.state n) []) (hle : n ≤ k) (hk : k ≤ E.length)
    (ht : (E.state k).tasks[c.racer]? = some c.task) (hnow : E.now k ≤ y.instant) :
    ∃ l, k ≤ l ∧ l < E.length ∧ E.now (l + 1) = y.instant ∧
      (E.state (l + 1)).tasks[c.racer]? =
        some (c.task.resumed c.pending (y.outcome.map .json)) := by
  induction hd : E.length - k using Nat.strongRecOn generalizing k with
  | ind d ih =>
    obtain ⟨l, e, hkl, hl, hnow, hs⟩ := racer_acts hx hy hrec hle hk ht hnow
    have hnow' := now_of_stepped hs
    obtain ⟨history, h⟩ := exists_chronicle hx hrec (Nat.le_trans hle hkl) (Nat.le_of_lt hl)
    obtain ⟨htask, -⟩ | ⟨result, htask, hdec⟩ :=
      Contest.racer_step hs (ledger_reachable (reachable (Nat.le_of_lt hl))) h.record
    · -- it has looked at a failure and waits on
      obtain ⟨l', hle', hl'⟩ :=
        ih (E.length - (l + 1)) (by omega) (by omega) hl (htask ▸ hs.self)
          (hnow' ▸ hnow) rfl
      exact ⟨l', by omega, hl'⟩
    · obtain ⟨z, hz, rfl, hpast⟩ := raceEnds_of_decides hx (Nat.le_of_lt hl) h hdec
      obtain rfl := hy.unique hties hz
      exact ⟨l, hkl, hl, by omega, htask ▸ hs.self⟩

/-- A race does not end before it starts. -/
theorem now_le_raceEnd (hx : E.Branches c xs) (hy : RaceEnds xs y) (hn : n ≤ E.length)
    (hrec : c.Record (E.state n) []) : E.now n ≤ y.instant := by
  obtain ⟨i, hix⟩ := List.mem_iff_getElem?.mp hy.mem
  obtain ⟨b, hb, -⟩ | ⟨-, hle⟩ := Chronicle.cases ⟨hrec, by simp⟩ hx hn hix
  · cases hb
  · exact hle

theorem starts {d : Cursor} {ps : List Program} (hn : n ≤ E.length)
    (ht : (E.state n).tasks[j]? = some t) (hp : t.phase = .running d)
    (hd : d.advance = .execute (.race ps) pending) (hps : ps ≠ []) :
    ∃ k, n ≤ k ∧ k < E.length ∧ E.now (k + 1) = E.now n ∧
      (Contest.start (E.state k) j t pending ps hps).Record (E.state (k + 1)) [] ∧
      (E.state (k + 1)).tasks[j]? = some (Contest.start (E.state k) j t pending ps hps).task ∧
      ∀ (i : Nat) (p : Program), ps[i]? = some p →
        (E.state (k + 1)).tasks[(E.state k).tasks.size + i]? =
        some (t.child (.branch (E.state k).world.races.size i) (t.span.branch i) p) := by
  obtain ⟨k, hle, hk, hnow, hs⟩ := executes hn ht hp hd
  rw [Task.dispatch_race hps] at hs
  refine ⟨k, hle, hk, (now_of_stepped hs).trans hnow,
    Contest.start_record (reachable (Nat.le_of_lt hk)) hs hps rfl rfl rfl, hs.self, ?_⟩
  intro i p hp
  apply hs.added
  rw [Task.branches_getElem?, hp, Nat.zero_add]
  rfl

end Race

end Course

end Workflow
