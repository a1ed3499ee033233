import Workflow.Bench
import Workflow.Program.Flow
import Workflow.Proofs.Machine.Handle
import Workflow.Proofs.Session

/-! Waiting for a handle, at any time and any number of times. -/
namespace Workflow

variable {r : Runner}

namespace Machine
variable {m m' : Machine r} {as : List Happening} {i j : Nat} {t : Task} {h : Handle} {c : Cursor}
  {pending : List Continuation}

/-- Forking hands out a fresh handle, behind which a task runs the program. -/
theorem fork_step {p : Program} (ht : m.tasks[i]? = some t) (hp : t.phase = .running c)
    (hc : c.advance = .execute (.fork p) pending) :
    ∃ m' h u, m.step? i = some m' ∧
      m'.tasks[i]? = some (t.resumed pending (.ok ⟨.handle, h⟩)) ∧
      m'.tasks[m.tasks.size]? = some u ∧ u.role = .fork h ∧ u.phase = .running (.new p) ∧
      m'.status h = .pending := by
  have he : t.step? m.world i = some (t.dispatch m.world i pending (.fork p)) := by
    simp [Task.step?, hp, hc]
  obtain ⟨m', hm, hs⟩ := stepped_of_task ht he
  refine ⟨m', (m.world.emit t.span (.dispatching "fork")).newCell.2, _, hm, hs.self,
    hs.added (k := 0) rfl, rfl, rfl, ?_⟩
  rw [status, hs.world, World.cell_of_push (w := m.world) rfl]
  simp [World.cell, World.newCell, World.emit]

/-- Awaiting suspends the task at the handle, whatever has become of it. -/
theorem await_step (ht : m.tasks[j]? = some t) (hp : t.phase = .running c)
    (hc : c.advance = .execute (.await h) pending) :
    ∃ m', m.step? j = some m' ∧
      m'.tasks[j]? = some { t with phase := .awaiting h pending } := by
  have he : t.step? m.world j = some (t.dispatch m.world j pending (.await h)) := by
    simp [Task.step?, hp, hc]
  obtain ⟨m', hm, hs⟩ := stepped_of_task ht he
  exact ⟨m', hm, hs.self⟩

/-- A task that waits for a handle steps exactly when the handle is settled, with what it says. -/
theorem step?_awaiting (ht : m.tasks[j]? = some t) (hp : t.phase = .awaiting h pending) :
    m.step? j = ((m.status h).outcome? h).map fun result =>
      ⟨m.world, m.tasks.set! j (t.resumed pending (result.map .json))⟩ := by
  simp only [step?, ht, Task.step?, hp, Cell.outcome?_eq, Option.map_map]
  rfl

/-- Whoever waits goes on waiting, or is resumed once with what the handle then says for ever. -/
theorem await_run (hm : m.Reachable) (ht : m.tasks[j]? = some t)
    (hp : t.phase = .awaiting h pending) (hr : Run m as m') :
    m'.tasks[j]? = some t ∨ ∃ before after m₁ m₂ result,
      as = before ++ .move (.step j) :: after ∧ Run m before m₁ ∧ m₁.tasks[j]? = some t ∧
      m₁.step? j = some m₂ ∧ m₂.tasks[j]? = some (t.resumed pending (result.map .json)) ∧
      Run m₂ after m' ∧ (m'.status h).outcome? h = some result := by
  obtain h | ⟨before, after, m₁, m₂, has, hb, ht₁, hs, ha⟩ := hr.task_cases ht
  · exact .inl h
  right
  have hs' := hs
  rw [step?_awaiting ht₁ hp] at hs'
  obtain ⟨result, ho, hm₂⟩ := Option.map_eq_some_iff.mp hs'
  have hlt := (Array.getElem?_eq_some_iff.mp ht₁).1
  have hne : m₁.status h ≠ .pending := by
    intro hpend
    simp [hpend, Cell.Status.outcome?] at ho
  refine ⟨before, after, m₁, m₂, result, has, hb, ht₁, hs, ?_, ha, ?_⟩
  · simp [← hm₂, hlt]
  · rw [settled_run (hm.run hb) (.step (a := .move (.step j)) hs ha) hne, ho]

theorem fork_status_filled_iff (ho : m.Owned) (ht : m.tasks[i]? = some t) (hr : t.role = .fork h)
    {result : Except Fault Json} :
    m.status h = .filled result ↔
      ∃ d, t.phase = .ended (.ofExcept d) ∧ result = (d >>= Dyn.take .json) := by
  rw [fork_status ho ht hr]
  constructor
  · intro hs
    unfold Phase.status at hs
    split at hs <;> cases hs
    next d hp => exact ⟨.ok d, hp, rfl⟩
    next e hp => exact ⟨.error e, hp, rfl⟩
  · rintro ⟨d, hp, rfl⟩
    cases d <;> rw [hp] <;> rfl

theorem fork_status_abandoned_iff (ho : m.Owned) (ht : m.tasks[i]? = some t)
    (hr : t.role = .fork h) :
    m.status h = .abandoned ↔ ∃ message, t.phase = .ended (.panic message) := by
  rw [fork_status ho ht hr]
  constructor
  · intro hs
    unfold Phase.status at hs
    split at hs <;> cases hs
    next message hp => exact ⟨message, hp⟩
  · rintro ⟨message, hp⟩
    rw [hp]
    rfl

/-- A handle is settled in the very step in which the program behind it ends. -/
theorem fork_settled {a : Happening} (hm : m.Reachable) (ht : m.tasks[i]? = some t)
    (hr : t.role = .fork h) (ha : m.happen? a = some m') (hne : m'.status h ≠ m.status h) :
    a = .move (.step i) ∧
      ((∃ c d, t.phase = .running c ∧ c.advance = .finished d ∧ t.boundaries = [] ∧
          m'.status h = .filled (d >>= Dyn.take .json)) ∨
        (∃ message, m'.ending? i = some (.panic message)) ∧ m'.status h = .abandoned) := by
  have hf := fit_reachable hm
  have ho := owned_reachable hm
  have ho' := owned_reachable (hm.run (.single ha))
  obtain ⟨k, u, e, rfl, hs, hh, hp⟩ := status_change (happen?_change ha) hf ho hne
  obtain rfl := ho.single i k t u h ht hs.task (.inl hr) hh
  cases ht.symm.trans hs.task
  refine ⟨rfl, ?_⟩
  have hr' : e.task.role = .fork h := hs.turn.role_eq.trans hr
  have hst := fork_status ho' hs.self hr'
  have hend : e.task.phase.status ≠ .pending := by
    rw [← hst]
    simpa [status, hp] using hne
  cases hv : e.task.phase with
  | ended v =>
    have hrp : t.role.OfProgram := by simp [hr, Role.OfProgram]
    obtain ⟨c, d, hrun, hc, hb, rfl⟩ | ⟨message, rfl⟩ :=
      hs.turn.program_ends (hf i t ht) hrp hv
    · left
      exact ⟨c, d, hrun, hc, hb, (fork_status_filled_iff ho' hs.self hr').mpr ⟨d, hv, rfl⟩⟩
    · right
      refine ⟨⟨message, ?_⟩, (fork_status_abandoned_iff ho' hs.self hr').mpr
        ⟨message, hv⟩⟩
      simp [ending?, hs.self, hv]
  | _ => simp [hv, Phase.status] at hend

/-- A handle is pending until the task that its fork launched has ended, and settled for good from
that very step on. Whoever awaits it resumes exactly then, with the result or with a failure that
names it. -/
theorem handle_lifecycle (hm : m.Reachable) (h : Handle) :
    (∀ i t c p pending, m.tasks[i]? = some t → t.phase = .running c →
      c.advance = .execute (.fork p) pending →
      ∃ m' h u, m.step? i = some m' ∧
        m'.tasks[i]? = some (t.resumed pending (.ok ⟨.handle, h⟩)) ∧
        m'.tasks[m.tasks.size]? = some u ∧ u.role = .fork h ∧ u.phase = .running (.new p) ∧
        m'.status h = .pending) ∧
    (∀ as m', Run m as m' → m.status h = .pending ∨ m'.status h = m.status h) ∧
    (∀ i t, m.tasks[i]? = some t → t.role = .fork h →
      (∀ result, m.status h = .filled result ↔
        ∃ d, t.phase = .ended (.ofExcept d) ∧ result = (d >>= Dyn.take .json)) ∧
      (m.status h = .abandoned ↔ ∃ message, t.phase = .ended (.panic message)) ∧
      ∀ a m', m.happen? a = some m' → m'.status h ≠ m.status h →
        a = .move (.step i) ∧
          ((∃ c d, t.phase = .running c ∧ c.advance = .finished d ∧ t.boundaries = [] ∧
              m'.status h = .filled (d >>= Dyn.take .json)) ∨
            (∃ message, m'.ending? i = some (.panic message)) ∧ m'.status h = .abandoned)) ∧
    (∀ j t c pending, m.tasks[j]? = some t → t.phase = .running c →
      c.advance = .execute (.await h) pending →
      ∃ m', m.step? j = some m' ∧
        m'.tasks[j]? = some { t with phase := .awaiting h pending }) ∧
    (∀ j t pending, m.tasks[j]? = some t → t.phase = .awaiting h pending →
      (m.status h = .pending → m.step? j = none) ∧
      (∀ result, m.status h = .filled result →
        ∃ m', m.step? j = some m' ∧
          m'.tasks[j]? = some (t.resumed pending (result.map .json))) ∧
      (m.status h = .abandoned →
        ∃ m', m.step? j = some m' ∧
          m'.tasks[j]? = some (t.resumed pending (.error (.forkAbandoned h.id.text)))) ∧
      ∀ as m', Run m as m' → m'.tasks[j]? = some t ∨ ∃ before after m₁ m₂ result,
        as = before ++ .move (.step j) :: after ∧ Run m before m₁ ∧
        m₁.tasks[j]? = some t ∧ m₁.step? j = some m₂ ∧
        m₂.tasks[j]? = some (t.resumed pending (result.map .json)) ∧
        Run m₂ after m' ∧ (m'.status h).outcome? h = some result) ∧
    ((m.world.cell h).isFilled = true ↔ ∃ result, m.status h = .filled result) ∧
    (∀ result, (m.world.cell h).glance = some result ↔ m.status h = .filled result) := by
  have ho := owned_reachable hm
  refine ⟨?_, ?_, ?_, ?_, ?_, Cell.isFilled_iff, fun result => Cell.glance_eq_some_iff⟩
  · intro i t c p pending ht hp hc
    exact fork_step ht hp hc
  · intro as m' hr
    by_cases hs : m.status h = .pending
    · exact .inl hs
    · exact .inr (settled_run hm hr hs)
  · intro i t ht hr
    refine ⟨fun result => fork_status_filled_iff ho ht hr,
      fork_status_abandoned_iff ho ht hr, ?_⟩
    intro a m' ha hne
    exact fork_settled hm ht hr ha hne
  · intro j t c pending ht hp hc
    exact await_step ht hp hc
  · intro j t pending ht hp
    have hstep := step?_awaiting ht hp
    have hlt := (Array.getElem?_eq_some_iff.mp ht).1
    refine ⟨?_, ?_, ?_, fun as m' hr => await_run hm ht hp hr⟩
    · intro hs
      simp [hstep, hs, Cell.Status.outcome?]
    · intro result hs
      refine ⟨_, by rw [hstep, hs]; rfl, ?_⟩
      simp [hlt]
    · intro hs
      refine ⟨_, by rw [hstep, hs]; rfl, ?_⟩
      simp [hlt, Except.map]

/-- A program that forks another and awaits it: when the fork has ended, the
waiting task is resumed with its value. -/
theorem handle_lifecycle_forked : ∃ m : Machine (Bench.new.setup .empty []).runner,
    m.Reachable ∧ m.status ⟨0⟩ = .filled (.ok .null) ∧
      ∃ t pending m', m.tasks[0]? = some t ∧ t.phase = .awaiting ⟨0⟩ pending ∧
        m.step? 0 = some m' ∧ m'.tasks[0]? = some (t.resumed pending (.ok (.json .null))) := by
  let p := ((Flow.fork (Flow.pure (a := .json) Json.null)).andThen Flow.await).program
  let as : List Happening := [.launch p 0, .move (.step 0), .move (.step 0), .move (.step 1)]
  obtain ⟨m, hm, hs, t, pending, ht, hp⟩ :
      ∃ m, (Bench.new.setup .empty []).machine.follow? as = some m ∧
      m.status ⟨0⟩ = .filled (.ok .null) ∧ ∃ t pending, m.tasks[0]? = some t ∧
        t.phase = .awaiting ⟨0⟩ pending :=
    ⟨_, rfl, rfl, _, _, rfl, rfl⟩
  have hr := reachable_of_follow? hm
  obtain ⟨-, -, -, -, hawait, -, -⟩ := handle_lifecycle hr ⟨0⟩
  obtain ⟨-, hfilled, -, -⟩ := hawait 0 t pending ht hp
  obtain ⟨m', hstep, ht'⟩ := hfilled _ hs
  exact ⟨m, hr, hs, t, pending, m', ht, hp, hstep, ht'⟩

end Machine

end Workflow
