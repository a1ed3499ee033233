import Workflow.Proofs.Machine.Await
import Workflow.Proofs.Machine.Rest

/-! Runs that come to rest, moment by moment.

The clock moves only when no task can step. So a task that can step does so before the clock moves,
and one that waits for an instant to come does so at that instant, whatever the others do. -/
namespace Workflow

variable {r : Runner}

namespace Machine
variable {m m' : Machine r} {a : Happening} {j : Nat} {t : Task}

/-- Only the clock moves the clock. -/
theorem now_eq_of_ne_tick (h : m.happen? a = some m') (ha : a ≠ .move .tick) :
    m'.world.now = m.world.now := by
  cases a with
  | move a =>
    cases a with
    | step i =>
      obtain ⟨t, e, -, hs⟩ := step?_stepped h
      rw [hs.world, hs.turn.now_eq]
    | tick => exact absurd rfl ha
  | launch p container =>
    cases h
    rfl
  | supply c =>
    cases h
    rfl

theorem step?_of_tick (h : m.move? .tick = some m') (j : Nat) : m.step? j = none :=
  isQuiet_iff.mp (of_tick h).1 j

theorem ending?_of_tick (h : m.move? .tick = some m') (j : Nat) : m'.ending? j = m.ending? j := by
  obtain ⟨-, due, -, rfl⟩ := of_tick h
  rfl

theorem status_of_tick (h : m.move? .tick = some m') (handle : Handle) :
    m'.status handle = m.status handle := by
  obtain ⟨-, due, -, rfl⟩ := of_tick h
  rfl

section Sleeping
variable {due : Nat} {alarm : Alarm} {pending : List Continuation}

theorem step?_sleeping (ht : m.tasks[j]? = some t)
    (hp : t.phase = .sleeping (some due) alarm pending) (h : m.step? j = none) :
    m.world.now < due := by
  refine Nat.lt_of_not_le fun hd => ?_
  simp [step?, ht, Task.step?, hp, hd] at h

/-- The clock does not pass the time for which a task sleeps. -/
theorem tick_le_due (h : m.move? .tick = some m') (ht : m.tasks[j]? = some t)
    (hp : t.phase = .sleeping (some due) alarm pending) : m'.world.now ≤ due := by
  have hlt := step?_sleeping ht hp (step?_of_tick h j)
  obtain ⟨-, d, hd, rfl⟩ := of_tick h
  have hmem : t ∈ m.tasks.toList := Array.mem_toList_iff.mpr (Array.mem_of_getElem? ht)
  exact (nextDue_eq_some_iff.mp hd).2.2 t hmem due (by simp [dueOf, hp]) hlt

/-- Whoever sleeps for a time sleeps until then, and wakes at that time and at no other. -/
theorem sleeper_run {as : List Happening} (h : Run m as m') (ht : m.tasks[j]? = some t)
    (hp : t.phase = .sleeping (some due) alarm pending) (hd : m.world.now ≤ due) :
    (m'.tasks[j]? = some t ∧ m'.world.now ≤ due) ∨
      ∃ before after m₁ m₂, as = before ++ .move (.step j) :: after ∧ Run m before m₁ ∧
        m₁.tasks[j]? = some t ∧ m₁.world.now = due ∧ m₁.step? j = some m₂ ∧
        Run m₂ after m' := by
  induction h with
  | refl => exact .inl ⟨ht, hd⟩
  | @step m m₁ m' a as ha hr ih =>
    by_cases hj : a = .move (.step j)
    · subst hj
      have hdue : due ≤ m.world.now := by
        refine Nat.le_of_not_lt fun hlt => ?_
        have hstep : m.step? j = some m₁ := ha
        simp [step?, ht, Task.step?, hp, Nat.not_le.mpr hlt] at hstep
      exact .inr ⟨[], as, m, m₁, rfl, .refl, ht, Nat.le_antisymm hd hdue, ha, hr⟩
    · have hd₁ : m₁.world.now ≤ due := by
        by_cases htick : a = .move .tick
        · subst htick
          exact tick_le_due ha ht hp
        · rwa [now_eq_of_ne_tick ha htick]
      obtain h | ⟨before, after, m₂, m₃, rfl, hb, h₂⟩ := ih (task_kept ha ht hj) hd₁
      · exact .inl h
      · exact .inr ⟨a :: before, after, m₂, m₃, rfl, .step ha hb, h₂⟩

end Sleeping

end Machine

/-- A run that comes to rest, with what happens at each moment. -/
structure Course (r : Runner) where
  length : Nat
  state : Nat → Machine r
  happening : Nat → Machine.Happening
  start : (state 0).Reachable
  next : ∀ n < length, (state n).happen? (happening n) = some (state (n + 1))
  rest : (state length).AtRest

namespace Course

open Machine

variable (E : Course r)

def now (n : Nat) : Nat := (E.state n).world.now

/-- The course with one happening before it. -/
def cons {m : Machine r} {a : Happening} (hm : m.Reachable) (ha : m.happen? a = some (E.state 0)) :
    Course r where
  length := E.length + 1
  state
    | 0 => m
    | n + 1 => E.state n
  happening
    | 0 => a
    | n + 1 => E.happening n
  start := hm
  next
    | 0, _ => ha
    | n + 1, hn => E.next n (Nat.lt_of_succ_lt_succ hn)
  rest := E.rest

variable {E} {n k j bound : Nat} {t : Task} {v : Verdict Dyn} {c : Cursor}
  {pending : List Continuation}

theorem exists_course {m m' : Machine r} {as : List Happening} (hm : m.Reachable) (h : Run m as m')
    (hrest : m'.AtRest) : ∃ E : Course r, E.state 0 = m ∧ E.state E.length = m' := by
  induction h with
  | @refl m => exact ⟨⟨0, fun _ => m, fun _ => .move .tick, hm, nofun, hrest⟩, rfl, rfl⟩
  | @step m m₁ m' a as ha _ ih =>
    obtain ⟨E, rfl, hend⟩ := ih (hm.run (.single ha)) hrest
    exact ⟨E.cons hm ha, rfl, hend⟩

/-- A run that goes on until it comes to rest passes through where it was before. -/
theorem exists_course_through {m m₁ m' : Machine r} {as bs : List Happening} (hm : m.Reachable)
    (h : Run m as m₁) (h' : Run m₁ bs m') (hrest : m'.AtRest) :
    ∃ (E : Course r) (k : Nat),
      k ≤ E.length ∧ E.state 0 = m ∧ E.state k = m₁ ∧ E.state E.length = m' := by
  induction h with
  | refl =>
    obtain ⟨E, hstart, hend⟩ := exists_course hm h' hrest
    exact ⟨E, 0, Nat.zero_le _, hstart, hstart, hend⟩
  | step ha _ ih =>
    obtain ⟨E, k, hk, rfl, hthrough, hend⟩ := ih (hm.run (.single ha)) h'
    exact ⟨E.cons hm ha, k + 1, Nat.succ_le_succ hk, rfl, hthrough, hend⟩

theorem exists_run (h : n ≤ k) (hk : k ≤ E.length) :
    ∃ as, Run (E.state n) as (E.state k) := by
  induction k, h using Nat.le_induction with
  | base => exact ⟨[], .refl⟩
  | succ k _ ih =>
    obtain ⟨as, hr⟩ := ih (by omega)
    exact ⟨as ++ [E.happening k], hr.trans (.single (E.next k (by omega)))⟩

theorem reachable (hn : n ≤ E.length) : (E.state n).Reachable := by
  obtain ⟨as, hr⟩ := exists_run (Nat.zero_le n) hn
  exact E.start.run hr

theorem now_le (h : n ≤ k) (hk : k ≤ E.length) : E.now n ≤ E.now k := by
  induction k, h using Nat.le_induction with
  | base => exact Nat.le_refl _
  | succ k _ ih =>
    exact Nat.le_trans (ih (by omega)) (now_le_of_change (happen?_change (E.next k (by omega))))

/-- Steps take no time. -/
theorem now_of_stepped {e : Effect r} (hs : Stepped (E.state n) j t e (E.state (n + 1))) :
    E.now (n + 1) = E.now n := by
  rw [now, hs.world, hs.turn.now_eq, now]

theorem ending?_kept (h : n ≤ k) (hk : k ≤ E.length) (hv : (E.state n).ending? j = some v) :
    (E.state k).ending? j = some v := by
  obtain ⟨as, hr⟩ := exists_run h hk
  exact ending?_run hr hv

/-- A task that does not wait for ever takes a step, and by an instant
that the clock does not pass before. -/
theorem acts (hn : n ≤ E.length) (ht : (E.state n).tasks[j]? = some t) (hb : E.now n ≤ bound)
    (htick : ∀ k, n ≤ k → k < E.length → (E.state k).tasks[j]? = some t →
      (E.state k).move? .tick = some (E.state (k + 1)) → E.now (k + 1) ≤ bound)
    (hrest : (E.state E.length).tasks[j]? = some t → (E.state E.length).step? j ≠ none) :
    ∃ k e, n ≤ k ∧ k < E.length ∧ E.now k ≤ bound ∧
      t.step? (E.state k).world j = some e ∧ Stepped (E.state k) j t e (E.state (k + 1)) := by
  induction hd : E.length - n generalizing n with
  | zero =>
    obtain rfl : n = E.length := by omega
    exact absurd (E.rest (.step j)) (hrest ht)
  | succ d ih =>
    have hlt : n < E.length := by omega
    have ha := E.next n hlt
    by_cases hj : E.happening n = .move (.step j)
    · rw [hj] at ha
      obtain ⟨u, e, he, hs⟩ := step?_stepped ha
      cases ht.symm.trans hs.task
      exact ⟨n, e, Nat.le_refl n, hlt, hb, he, hs⟩
    · have hb' : E.now (n + 1) ≤ bound := by
        by_cases hclock : E.happening n = .move .tick
        · rw [hclock] at ha
          exact htick n (Nat.le_refl n) hlt ht ha
        · rwa [now, now_eq_of_ne_tick ha hclock]
      obtain ⟨k, e, hle, hk⟩ := ih hlt (task_kept ha ht hj) hb'
        (fun k hle => htick k (Nat.le_of_succ_le hle)) (by omega)
      exact ⟨k, e, Nat.le_of_succ_le hle, hk⟩

section Steps
variable {op : Operation Program} {result : Except Fault Dyn}

/-- A task that can step does so at once. -/
theorem acts_at_once (hn : n ≤ E.length) (ht : (E.state n).tasks[j]? = some t)
    (hcan : ∀ m : Machine r, m.tasks[j]? = some t → m.step? j ≠ none) :
    ∃ k e, n ≤ k ∧ k < E.length ∧ E.now k = E.now n ∧
      t.step? (E.state k).world j = some e ∧ Stepped (E.state k) j t e (E.state (k + 1)) := by
  obtain ⟨k, e, hle, hk, hnow, he⟩ := acts hn ht (Nat.le_refl _)
    (fun k _ _ ht htick => absurd (step?_of_tick htick j) (hcan _ ht)) (hcan _)
  exact ⟨k, e, hle, hk, Nat.le_antisymm hnow (now_le hle (Nat.le_of_lt hk)), he⟩

theorem executes (hn : n ≤ E.length) (ht : (E.state n).tasks[j]? = some t)
    (hp : t.phase = .running c) (hc : c.advance = .execute op pending) :
    ∃ k, n ≤ k ∧ k < E.length ∧ E.now k = E.now n ∧
      Stepped (E.state k) j t (t.dispatch (E.state k).world j pending op) (E.state (k + 1)) := by
  have hcan (m : Machine r) (ht : m.tasks[j]? = some t) : m.step? j ≠ none := by
    obtain ⟨m', hm, -⟩ := stepped_dispatch ht hp hc
    simp [hm]
  obtain ⟨k, e, hle, hk, hnow, he, hs⟩ := acts_at_once hn ht hcan
  simp only [Task.step?, hp, hc, Option.some.injEq] at he
  exact ⟨k, hle, hk, hnow, he ▸ hs⟩

theorem finishes (hn : n ≤ E.length) (ht : (E.state n).tasks[j]? = some t)
    (hp : t.phase = .running c) (hc : c.advance = .finished result) :
    ∃ k, n ≤ k ∧ k < E.length ∧ E.now k = E.now n ∧
      Stepped (E.state k) j t (t.finish (E.state k).world result) (E.state (k + 1)) := by
  have hcan (m : Machine r) (ht : m.tasks[j]? = some t) : m.step? j ≠ none := by
    obtain ⟨m', hm, -⟩ := stepped_finish ht hp hc
    simp [hm]
  obtain ⟨k, e, hle, hk, hnow, he, hs⟩ := acts_at_once hn ht hcan
  simp only [Task.step?, hp, hc, Option.some.injEq] at he
  exact ⟨k, hle, hk, hnow, he ▸ hs⟩

/-- Whoever sleeps for an instant wakes at it. -/
theorem wakes {due : Nat} {alarm : Alarm} (hn : n ≤ E.length)
    (ht : (E.state n).tasks[j]? = some t) (hp : t.phase = .sleeping (some due) alarm pending)
    (hd : E.now n ≤ due) :
    ∃ k, n ≤ k ∧ k < E.length ∧ E.now k = due ∧
      Stepped (E.state k) j t (t.wake (E.state k).world j pending alarm) (E.state (k + 1)) := by
  have hrest (ht : (E.state E.length).tasks[j]? = some t) :
      (E.state E.length).step? j ≠ none := by
    intro hnone
    have hlt := step?_sleeping ht hp hnone
    have hdue : dueOf t = some due := by simp [dueOf, hp]
    have hle := due_le_now_of_nextDue_eq_none (move?_eq_none_iff.mp E.rest).2 ht hdue
    omega
  obtain ⟨k, e, hle, hk, hnow, he, hs⟩ := acts hn ht hd
    (fun k _ _ ht htick => tick_le_due htick ht hp) hrest
  simp only [Task.step?, hp] at he
  split at he
  next hdue =>
    cases he
    exact ⟨k, hle, hk, Nat.le_antisymm hnow hdue, hs⟩
  next => cases he

end Steps

variable (E) in
/-- Task `j` ends with `v` in a step at this instant. -/
def EndsAt (j : Nat) (v : Verdict Dyn) (instant : Nat) : Prop :=
  ∃ n < E.length, (E.state n).ending? j = none ∧ (E.state (n + 1)).ending? j = some v ∧
    E.now n = instant ∧ E.now (n + 1) = instant

/-- Before the instant at which it ends a task has not ended, and after it has. -/
theorem EndsAt.cases {instant : Nat} (h : E.EndsAt j v instant) (hk : k ≤ E.length) :
    ((E.state k).ending? j = none ∧ E.now k ≤ instant) ∨
      ((E.state k).ending? j = some v ∧ instant ≤ E.now k) := by
  obtain ⟨n, hn, hnone, hsome, hnow, hnow'⟩ := h
  by_cases hkn : k ≤ n
  · left
    refine ⟨Option.eq_none_iff_forall_ne_some.mpr fun v' hv' => ?_,
      hnow ▸ now_le hkn (Nat.le_of_lt hn)⟩
    simp [ending?_kept hkn (Nat.le_of_lt hn) hv'] at hnone
  · right
    exact ⟨ending?_kept (by omega) hk hsome, hnow' ▸ now_le (by omega) hk⟩

/-- The clock does not pass the instant at which a task ends. -/
theorem EndsAt.tick_le {instant : Nat} (h : E.EndsAt j v instant) (hk : k < E.length)
    (htick : (E.state k).move? .tick = some (E.state (k + 1)))
    (hnone : (E.state k).ending? j = none) :
    E.now (k + 1) ≤ instant := by
  obtain ⟨-, hnow⟩ | ⟨hsome, -⟩ := h.cases (k := k + 1) hk
  · exact hnow
  · simp [ending?_of_tick htick, hnone] at hsome

theorem EndsAt.at_rest {instant : Nat} (h : E.EndsAt j v instant) :
    (E.state E.length).ending? j = some v := by
  obtain ⟨n, hn, -, hsome, -⟩ := h
  exact ending?_kept hn (Nat.le_refl _) hsome

/-- A task ends in the step in which its program has ended with nothing around it any more. -/
theorem endsAt_of_finished {result : Except Fault Dyn} (hn : n ≤ E.length)
    (ht : (E.state n).tasks[j]? = some t) (hp : t.phase = .running c) (hb : t.boundaries = [])
    (hc : c.advance = .finished result) : E.EndsAt j (.ofExcept result) (E.now n) := by
  obtain ⟨k, -, hk, hnow, hs⟩ := finishes hn ht hp hc
  refine ⟨k, hk, hs.ending?_eq_none, ?_, hnow, (now_of_stepped hs).trans hnow⟩
  refine ending?_eq_some_iff.mpr ⟨_, hs.self, ?_⟩
  simp [Task.finish, hb, Task.conclude, Task.enter]

end Course

end Workflow
