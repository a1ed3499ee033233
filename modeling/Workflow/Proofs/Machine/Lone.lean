import Workflow.Proofs.Machine.Promise
import Workflow.Proofs.Machine.Solo

/-! A task among tasks that leave the scene alone.

A task that involves no others comes its way on a machine, whatever the others are, as
long as they do to the scene only what does not matter for it. If all others are inert,
nothing is done to the scene but by it. -/
namespace Workflow

variable {r : Runner} {allowed : Operation Program → Prop}

namespace Machine
variable {m m' : Machine r} {a : Move} {j : Nat} {cells : Array Cell}
  {R : Scene r → Scene r → Prop} {t₀ : Task} {s₀ : Scene r}

/-- Task `j` has come its way from a moment at which it was `t₀` on the scene `s₀`. -/
def Tracks (allowed : Operation Program → Prop) (cells : Array Cell)
    (R : Scene r → Scene r → Prop) (t₀ : Task) (s₀ : Scene r) (m : Machine r)
    (j : Nat) : Prop :=
  ∃ t, m.tasks[j]? = some t ∧ t.Only allowed ∧ Trail cells R t₀ s₀ t.bare m.world.scene

/-- The handle for which task `j` waits says what the cells hold, as soon as it says something. -/
def Agrees (m : Machine r) (cells : Array Cell) (j : Nat) : Prop :=
  ∀ t h pending result, m.tasks[j]? = some t → t.phase = .awaiting h pending →
    (m.world.cell h).outcome? h = some result →
    (cells[h.index]?.getD .pending).outcome? h = some result

theorem tick_eq (h : m.move? .tick = some m') :
    m'.tasks = m.tasks ∧ m'.world.scene = m.world.scene ∧ m'.world.cells = m.world.cells := by
  obtain ⟨-, due, -, rfl⟩ := of_tick h
  exact ⟨rfl, rfl, rfl⟩

theorem Tracks.move (h : m.Tracks allowed cells R t₀ s₀ j) (hm : m.move? a = some m')
    (ha : ∀ op, allowed op → op.Solitary) (hcells : m.Agrees cells j)
    (hother : ∀ i, a = .step i → i ≠ j → R m.world.scene m'.world.scene) :
    m'.Tracks allowed cells R t₀ s₀ j := by
  obtain ⟨t, ht, honly, htrail⟩ := h
  cases a with
  | tick =>
    obtain ⟨htasks, hscene, -⟩ := tick_eq hm
    rw [Tracks, htasks, hscene]
    exact ⟨t, ht, honly, htrail⟩
  | step i =>
    obtain ⟨u, e, he, hs⟩ := step?_stepped hm
    by_cases hij : i = j
    · subst hij
      cases hs.task.symm.trans ht
      refine ⟨e.task, hs.self, Task.only_step? he honly, htrail.trans (.own ?_ .refl)⟩
      rw [hs.world]
      exact Task.solo?_of_step? he honly ha fun handle pending result hp =>
        hcells t handle pending result ht hp
    · exact ⟨t, hs.other (Ne.symm hij) ht, honly,
        htrail.trans (.other (hother i rfl hij) .refl)⟩

/-- A task whose handles are foretold waits for what the cells hold. -/
theorem Tracks.agrees (h : m.Tracks allowed cells R t₀ s₀ j) (ho : m.Owned)
    (hc : ∀ handle, allowed (.await handle) →
      m.Foretold handle (cells[handle.index]?.getD .pending)) : m.Agrees cells j := by
  obtain ⟨t, ht, honly, -⟩ := h
  intro t' handle pending result ht' hp hresult
  cases ht.symm.trans ht'
  have hphase := honly.phase
  rw [hp] at hphase
  have hne : m.world.cell handle ≠ .pending := by
    intro hpending
    simp [hpending, Cell.outcome?, Cell.pending] at hresult
  rw [← (hc handle hphase.1).cell_of_settled ho hne]
  exact hresult

/-- A task that has ended, or that nothing can wake any more, has come to the end of its way. -/
theorem Tracks.stuck (h : m.Tracks allowed cells R t₀ s₀ j)
    (ha : ∀ op, allowed op → op.Solitary)
    (hc : ∀ handle, allowed (.await handle) →
      m.Foretold handle (cells[handle.index]?.getD .pending))
    (hend : (m.ending? j).isSome ∨ m.AtRest) :
    ∃ t, m.tasks[j]? = some t ∧ Trail cells R t₀ s₀ t.bare m.world.scene ∧
      t.bare.solo? cells m.world.scene = none := by
  obtain ⟨t, ht, honly, htrail⟩ := h
  refine ⟨t, ht, htrail, ?_⟩
  rcases hend with hended | hrest
  · obtain ⟨v, hv⟩ := Option.isSome_iff_exists.mp hended
    obtain ⟨u, hu, hp⟩ := ending?_eq_some_iff.mp hv
    cases ht.symm.trans hu
    simp [Task.solo?, Task.step?, Task.bare, hp, Phase.untimed]
  · obtain ⟨hquiet, hdue⟩ := move?_eq_none_iff.mp hrest
    have hstep : t.step? m.world j = none := by
      have := hquiet j
      simpa [step?, ht] using this
    refine Task.solo?_eq_none hstep honly ha
      (fun due => due_le_now_of_nextDue_eq_none hdue ht) ?_ m.world.scene
    intro handle pending hp hnone
    have hphase := honly.phase
    rw [hp] at hphase
    rw [← (hc handle hphase.1).cell_of_atRest hrest]
    exact hnone

end Machine

/-- The operation does nothing to the scene and launches nothing. -/
def Operation.Harmless (op : Operation Program) : Prop := op.Solitary ∧ op.deed? = none

/-- The task does nothing to the scene any more: it writes a handle of the host, it has ended, or it
runs a program that is harmless. -/
def Task.Inert (t : Task) : Prop :=
  t.role = .host ∨ t.hasEnded = true ∨ t.Only Operation.Harmless

theorem Task.Only.deed?_eq_none {t : Task} (ht : t.Only Operation.Harmless) :
    t.phase.deed? = none := by
  refine Option.eq_none_iff_forall_ne_some.mpr fun d hd => ?_
  obtain ⟨op, ⟨-, hnone⟩, hdeed | ⟨call, hcall, -⟩⟩ := ht.deed? hd
  · cases hnone.symm.trans hdeed
  · cases hnone.symm.trans (Operation.deed?_of_call? hcall)

theorem Task.Only.step?_harmless {t : Task} {w : World r} {self : Nat} {e : Effect r}
    (ht : t.Only Operation.Harmless) (he : t.step? w self = some e) :
    e.world.scene = w.scene ∧ e.launched = [] ∧ e.task.Only Operation.Harmless := by
  refine ⟨?_, launched_eq_nil he ht fun op h => h.1, only_step? he ht⟩
  rw [step?_scene he, ht.deed?_eq_none]
  rfl

/-- A step of an inert task leaves the scene alone and the task inert. -/
theorem Task.Inert.step? {t : Task} {w : World r} {self : Nat} {e : Effect r} (ht : t.Inert)
    (hf : t.Fits) (he : t.step? w self = some e) :
    e.world.scene = w.scene ∧ e.launched = [] ∧ e.task.Inert := by
  have hrunning := (step?_turn he).not_ended
  obtain hr | hended | honly := ht
  · obtain ⟨h, hw⟩ : ∃ h, t.Writes h := by
      simp only [Fits, hr, hrunning] at hf
      simpa using hf
    obtain ⟨result, hp⟩ := hw.promises he
    rw [hp.step? he]
    exact ⟨rfl, rfl, .inl hr⟩
  · simp [hrunning] at hended
  · obtain ⟨hscene, hlaunched, hkept⟩ := honly.step?_harmless he
    exact ⟨hscene, hlaunched, .inr (.inr hkept)⟩

namespace Machine
variable {m m' n n' : Machine r} {a : Move} {i j j' : Nat} {t : Task}
  {cells : Array Cell} {t₀ : Task}
  {s₀ : Scene r} {p : Program} {container : Nat}

/-- Task `j` runs a program of allowed operations, and nobody else touches the scene. -/
structure Lone (allowed : Operation Program → Prop) (cells : Array Cell) (t₀ : Task)
    (s₀ : Scene r) (j : Nat) (m : Machine r) : Prop where
  reachable : m.Reachable
  foretold : ∀ h : Handle, allowed (.await h) → m.Foretold h (cells[h.index]?.getD .pending)
  tracks : m.Tracks allowed cells Eq t₀ s₀ j
  others : ∀ (i : Nat) (t : Task), m.tasks[i]? = some t → i ≠ j → t.Inert

theorem Lone.move (h : m.Lone allowed cells t₀ s₀ j)
    (hsolitary : ∀ op, allowed op → op.Solitary) (hm : m.move? a = some m') :
    m'.Lone allowed cells t₀ s₀ j := by
  have ha : m.happen? (.move a) = some m' := hm
  have hf := fit_reachable h.reachable
  have hagrees := h.tracks.agrees (owned_reachable h.reachable) h.foretold
  -- a step of another task is one of an inert one
  have hother : ∀ i, a = .step i → i ≠ j → m.world.scene = m'.world.scene := by
    rintro i rfl hij
    obtain ⟨t, e, he, hs⟩ := step?_stepped hm
    rw [hs.world]
    exact ((h.others i t hs.task hij).step? (hf i t hs.task) he).1.symm
  refine ⟨h.reachable.run (.single ha), ?_, h.tracks.move hm hsolitary hagrees hother, ?_⟩
  · intro handle hop
    exact foretold_happen h.reachable ha (h.foretold handle hop)
  · intro i u hu hij
    cases a with
    | tick =>
      rw [(tick_eq hm).1] at hu
      exact h.others i u hu hij
    | step k =>
      obtain ⟨t, e, he, hs⟩ := step?_stepped hm
      by_cases hk : k = j
      · subst hk
        obtain ⟨t', ht', honly, -⟩ := h.tracks
        cases hs.task.symm.trans ht'
        have hlaunched := Task.launched_eq_nil he honly hsolitary
        obtain ⟨rfl, -⟩ | ⟨-, hu⟩ | ⟨l, -, hl⟩ := hs.cases hu
        · exact absurd rfl hij
        · exact h.others i u hu hij
        · simp [hlaunched] at hl
      · obtain ⟨-, hlaunched, hinert⟩ := (h.others k t hs.task hk).step? (hf k t hs.task) he
        obtain ⟨rfl, rfl⟩ | ⟨-, hu⟩ | ⟨l, -, hl⟩ := hs.cases hu
        · exact hinert
        · exact h.others i u hu hij
        · simp [hlaunched] at hl

theorem Lone.moves {as : List Move} (h : m.Lone allowed cells t₀ s₀ j)
    (hsolitary : ∀ op, allowed op → op.Solitary) (hm : m.Moves as m') :
    m'.Lone allowed cells t₀ s₀ j :=
  hm.invariant (fun _ _ _ h ha => h.move hsolitary ha) h

/-- Two tasks that began alike, each alone, have come to the same end on the same scene. -/
theorem Lone.same (h : n.Lone allowed cells t₀ s₀ j) (h' : n'.Lone allowed cells t₀ s₀ j')
    (hsolitary : ∀ op, allowed op → op.Solitary) (hend : (n.ending? j).isSome ∨ n.AtRest)
    (hend' : (n'.ending? j').isSome ∨ n'.AtRest) :
    n.ending? j = n'.ending? j' ∧ n.world.scene = n'.world.scene := by
  obtain ⟨t, ht, htrail, hnone⟩ := h.tracks.stuck hsolitary h.foretold hend
  obtain ⟨t', ht', htrail', hnone'⟩ := h'.tracks.stuck hsolitary h'.foretold hend'
  obtain ⟨hbare, hscene⟩ :=
    Trail.unique Trail.unaffected_eq trivial rfl htrail hnone htrail' hnone'
  refine ⟨?_, hscene⟩
  apply Option.ext
  intro v
  rw [ending?_eq_some_iff, ending?_eq_some_iff]
  simp only [ht, ht', Option.some.injEq, exists_eq_left']
  exact Task.bare_ended_iff.symm.trans (hbare ▸ Task.bare_ended_iff)

theorem launch_inert (hinert : ∀ (i : Nat) (t : Task), m.tasks[i]? = some t → t.Inert) (i : Nat)
    (t : Task) (ht : (m.launch p container).1.tasks[i]? = some t) (hi : i ≠ m.tasks.size) :
    t.Inert := by
  simp only [launch, Array.getElem?_push, hi, if_false] at ht
  exact hinert i t ht

theorem reachable_launch (hm : m.Reachable) : (m.launch p container).1.Reachable :=
  hm.run (.single (a := .launch p container) rfl)

theorem foretold_launch {h : Handle} {c : Cell} (hm : m.Reachable) (hc : m.Foretold h c) :
    (m.launch p container).1.Foretold h c :=
  foretold_happen (a := .launch p container) hm rfl hc

/-- A program that is started where all tasks are inert is alone. -/
theorem lone_launch (hm : m.Reachable)
    (hinert : ∀ (i : Nat) (t : Task), m.tasks[i]? = some t → t.Inert) (hp : p.Only allowed)
    (hcells : ∀ h : Handle, allowed (.await h) → m.Foretold h (cells[h.index]?.getD .pending)) :
    (m.launch p container).1.Lone allowed cells (runner r p container).bare m.world.scene
      m.tasks.size := by
  have htask : (m.launch p container).1.tasks[m.tasks.size]? = some (runner r p container) := by
    simp [launch, runner]
  refine ⟨reachable_launch hm, fun h hop => foretold_launch hm (hcells h hop), ?_,
    launch_inert hinert⟩
  exact ⟨_, htask, ⟨Cursor.only_new hp, by simp [runner]⟩, .refl⟩

/-- Only the host still has something to do. -/
def Calm (m : Machine r) : Prop :=
  ∀ (i : Nat) (t : Task), m.tasks[i]? = some t → t.role = .host ∨ t.hasEnded = true

theorem Calm.inert (hcalm : m.Calm) (i : Nat) (t : Task) (ht : m.tasks[i]? = some t) : t.Inert := by
  rcases hcalm i t ht with hhost | hended
  · exact .inl hhost
  · exact .inr (.inl hended)

end Machine

end Workflow
