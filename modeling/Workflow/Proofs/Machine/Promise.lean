import Workflow.Proofs.Machine.Handle
import Workflow.Proofs.Machine.Rest

/-! What a handle of the host will say.

It is decided before anybody waits for it: the host writes a handle at the time and with the result
that were fixed at the beginning, or it never does. -/
namespace Workflow

variable {r : Runner}

namespace Task
variable {t : Task} {w : World r} {self : Nat} {e : Effect r} {h : Handle}
  {result : Option (Except Fault Json)}

/-- The task will write the handle of the host, or drop its write side. -/
def Promises (t : Task) (h : Handle) (result : Option (Except Fault Json)) : Prop :=
  ∃ due, t.phase = .sleeping (some due) (.host h result) []

theorem Promises.writes (ht : t.Promises h result) : t.Writes h := by
  obtain ⟨due, hp⟩ := ht
  exact ⟨some due, result, hp⟩

/-- A promise is kept in one step. -/
theorem Promises.step? (ht : t.Promises h result) (he : t.step? w self = some e) :
    e = ⟨w.modifyCell h (result.elim Cell.abandon Cell.fill),
      { t with phase := .ended (.value .unit) }, []⟩ := by
  obtain ⟨due, hp⟩ := ht
  simp only [Task.step?, hp] at he
  split at he <;> cases he
  cases result <;> rfl

/-- A writer that steps has promised to. -/
theorem Writes.promises (hw : t.Writes h) (he : t.step? w self = some e) :
    ∃ result, t.Promises h result := by
  obtain ⟨due, result, hp⟩ := hw
  cases due with
  | none => simp [Task.step?, hp] at he
  | some due => exact ⟨result, due, hp⟩

end Task

namespace Machine
variable {m m' : Machine r} {a : Happening} {i j : Nat} {t u : Task} {e : Effect r} {h : Handle}
  {c : Cell}

/-- What the cell of the handle will be when all promises are kept. -/
inductive Promises (m : Machine r) (h : Handle) : Cell → Prop
  | written {i : Nat} {t : Task} {result : Option (Except Fault Json)}
    (ht : m.tasks[i]? = some t) (hp : t.Promises h result) :
    Promises m h (result.elim Cell.abandon Cell.fill .pending)
  | final (hn : ∀ (i : Nat) (t : Task) result, m.tasks[i]? = some t → ¬ t.Promises h result) :
    Promises m h (m.world.cell h)

theorem exists_promises (m : Machine r) (h : Handle) : ∃ c, m.Promises h c := by
  by_cases hn : ∀ (i : Nat) (t : Task) result, m.tasks[i]? = some t → ¬ t.Promises h result
  · exact ⟨_, .final hn⟩
  · simp only [not_forall, not_not] at hn
    obtain ⟨i, t, result, ht, hp⟩ := hn
    exact ⟨_, .written ht hp⟩

/-- Who promises after a step did so before, and did not step. -/
theorem Stepped.promised (hs : Stepped m i t e m') (he : t.step? m.world i = some e)
    {result : Option (Except Fault Json)} (hu : m'.tasks[j]? = some u) (hp : u.Promises h result) :
    j ≠ i ∧ m.tasks[j]? = some u := by
  obtain ⟨rfl, rfl⟩ | hother | ⟨k, -, hk⟩ := hs.cases hu
  · obtain ⟨result', hp'⟩ := (hs.turn.writes_of hp.writes).promises he
    obtain ⟨due, hp⟩ := hp
    rw [hp'.step? he] at hp
    cases hp
  · exact hother
  · obtain ⟨due, hp⟩ := hp
    obtain ⟨request, rfl⟩ | ⟨role, span, p, -, rfl⟩ :=
      hs.turn.launched_cases (List.mem_of_getElem? hk) <;> cases hp

theorem promises_step (hs : Stepped m i t e m') (he : t.step? m.world i = some e) (hf : m.Fit)
    (ho : m.Owned) (hrole : t.role ≠ .fork h) (hp : m.Promises h c) : m'.Promises h c := by
  by_cases hw : t.Writes h
  · obtain ⟨result, ht⟩ := hw.promises he
    have hcell : m'.world.cell h = result.elim Cell.abandon Cell.fill .pending := by
      have hlt := ho.known i t h hs.task (.inr hw)
      rw [hs.world, ht.step? he, World.cell_of_modify_self rfl hlt, ho.host i t h hs.task hw]
    cases hp with
    | @written i' t' result' ht' hp' =>
      obtain rfl := ho.single i i' t t' h hs.task ht' (.inr hw) (.inr hp'.writes)
      cases hs.task.symm.trans ht'
      obtain ⟨due, hphase⟩ := ht
      obtain ⟨due', hphase'⟩ := hp'
      cases hphase.symm.trans hphase'
      rw [← hcell]
      refine .final fun j u result'' hu hpu => ?_
      obtain ⟨hj, hu'⟩ := hs.promised he hu hpu
      exact hj (ho.single j i u t h hu' hs.task (.inr hpu.writes) (.inr hw))
    | final hn => exact absurd ht (hn i t result hs.task)
  · have hsettles : ¬ t.Settles h := fun hh => hh.elim hrole hw
    have hcell : m'.world.cell h = m.world.cell h := by
      rw [hs.world, (hs.turn.onCells (hf i t hs.task)).cell_eq hsettles]
    cases hp with
    | @written i' t' result' ht' hp' =>
      refine .written (hs.other ?_ ht') hp'
      rintro rfl
      cases hs.task.symm.trans ht'
      exact hw hp'.writes
    | final hn =>
      rw [← hcell]
      exact .final fun j u result hu hpu => hn j u result (hs.promised he hu hpu).2 hpu

/-- Nobody but the host has a say in what the handle will be, and that is decided. -/
structure Foretold (m : Machine r) (h : Handle) (c : Cell) : Prop where
  known : h.index < m.world.cells.size
  forked : ∀ (i : Nat) (t : Task), m.tasks[i]? = some t → t.role = .fork h → t.hasEnded = true
  promise : m.Promises h c

theorem foretold_step (hs : Stepped m i t e m') (he : t.step? m.world i = some e) (hf : m.Fit)
    (ho : m.Owned) (h' : m.Foretold h c) : m'.Foretold h c := by
  have hcells := hs.turn.onCells (hf i t hs.task)
  have hrole : t.role ≠ .fork h := by
    intro hr
    have := h'.forked i t hs.task hr
    simp [hs.turn.not_ended] at this
  refine ⟨?_, ?_, promises_step hs he hf ho hrole h'.promise⟩
  · rw [hs.world]
    exact Nat.lt_of_lt_of_le h'.known hcells.size_le
  · intro j u hu hr
    obtain ⟨rfl, rfl⟩ | ⟨-, hu⟩ | ⟨k, -, hk⟩ := hs.cases hu
    · exact absurd (hs.turn.role_eq ▸ hr) hrole
    · exact h'.forked j u hu hr
    · obtain ⟨-, rfl, -⟩ := hcells.fork_launched hk hr
      exact absurd h'.known (Nat.lt_irrefl _)

theorem foretold_idle {added : List Task} (hi : Idled m a added m') (h' : m.Foretold h c) :
    m'.Foretold h c := by
  have runs : ∀ u ∈ added, u.role = .run ∧ ∀ result, ¬ u.Promises h result := by
    intro u hu
    obtain ⟨p, container, -, rfl⟩ := hi.programs u hu
    exact ⟨rfl, fun result ⟨due, hp⟩ => by cases hp⟩
  have hcell : m'.world.cell h = m.world.cell h := World.cell_congr hi.cells h
  refine ⟨hi.cells ▸ h'.known, ?_, ?_⟩
  · intro j u hu hr
    obtain hu | ⟨-, hu⟩ := hi.cases hu
    · exact h'.forked j u hu hr
    · simp [(runs u hu).1] at hr
  · cases h'.promise with
    | written ht hp => exact .written (hi.keeps ht) hp
    | final hn =>
      rw [← hcell]
      refine .final fun j u result hu => ?_
      obtain hu | ⟨-, hu⟩ := hi.cases hu
      · exact hn j u result hu
      · exact (runs u hu).2 result

theorem foretold_happen (hm : m.Reachable) (ha : m.happen? a = some m') (h' : m.Foretold h c) :
    m'.Foretold h c := by
  have hf := fit_reachable hm
  have ho := owned_reachable hm
  cases happen?_change ha with
  | idle _ hi => exact foretold_idle hi h'
  | step =>
    obtain ⟨t, e, he, hs⟩ := step?_stepped ha
    exact foretold_step hs he hf ho h'

theorem foretold_run {as : List Happening} (hm : m.Reachable) (hr : Run m as m')
    (h' : m.Foretold h c) : m'.Foretold h c := by
  induction hr with
  | refl => exact h'
  | step ha _ ih => exact ih (hm.run (.single ha)) (foretold_happen hm ha h')

/-- A handle that says something says what was foretold. -/
theorem Foretold.cell_of_settled (h' : m.Foretold h c) (ho : m.Owned)
    (hne : m.world.cell h ≠ .pending) : m.world.cell h = c := by
  cases h'.promise with
  | written ht hp => exact absurd (ho.host _ _ h ht hp.writes) hne
  | final => rfl

/-- When nothing can proceed, all promises are kept. -/
theorem Foretold.cell_of_atRest (h' : m.Foretold h c) (hrest : m.AtRest) : m.world.cell h = c := by
  obtain ⟨hquiet, hdue⟩ := move?_eq_none_iff.mp hrest
  cases h'.promise with
  | @written i t result ht hp =>
    obtain ⟨due, hp⟩ := hp
    have hle : due ≤ m.world.now := due_le_now_of_nextDue_eq_none hdue ht (by simp [dueOf, hp])
    have hstep := hquiet i
    simp [step?, ht, Task.step?, hp, hle] at hstep
  | final => rfl

end Machine

end Workflow
