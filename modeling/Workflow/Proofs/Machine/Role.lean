import Workflow.Proofs.Machine.Run

/-! What a task was launched for decides what it can wait for and what its end does. -/
namespace Workflow

variable {r : Runner}

/-- A phase of a task that runs a program. -/
def Phase.OfProgram : Phase → Prop
  | .opening _ => False
  | .sleeping _ alarm _ => alarm.kind?.isSome
  | _ => True

/-- The task was launched to run a program. -/
def Role.OfProgram : Role → Prop
  | .background | .host => False
  | _ => True

namespace Task

theorem hasEnded_iff {t : Task} : t.hasEnded = true ↔ ∃ v, t.phase = .ended v := by
  unfold hasEnded
  split <;> simp_all

/-- The phase fits what the task was launched for. -/
def Fits (t : Task) : Prop :=
  match t.role with
  | .background => (∃ request, t.phase = .opening request) ∨
      (∃ due request, t.phase = .sleeping due (.background request) []) ∨ t.hasEnded
  | .host => (∃ h, t.Writes h) ∨ t.hasEnded
  | _ => t.phase.OfProgram

section
variable {t : Task}

theorem fits_of_program (hr : t.role.OfProgram) (hp : t.phase.OfProgram) : t.Fits := by
  unfold Fits
  split <;> simp_all [Role.OfProgram]

theorem fits_of_ended {v : Verdict Dyn} (h : t.phase = .ended v) : t.Fits := by
  unfold Fits
  split <;> simp [hasEnded, h, Phase.OfProgram]

theorem Fits.role (hf : t.Fits) (hp : t.phase.OfProgram) (he : t.hasEnded = false) :
    t.role.OfProgram := by
  unfold Fits at hf
  split at hf
  · obtain ⟨_, h⟩ | ⟨_, _, h⟩ | h := hf
    · simp [h, Phase.OfProgram] at hp
    · simp [h, Phase.OfProgram, Alarm.kind?] at hp
    · simp [h] at he
  · obtain ⟨_, _, _, h⟩ | h := hf
    · simp [h, Phase.OfProgram, Alarm.kind?] at hp
    · simp [h] at he
  · unfold Role.OfProgram
    split <;> simp_all

/-- Only a task in the background opens an interaction or waits for one. -/
theorem Fits.background (hf : t.Fits) (hp : (∃ request, t.phase = .opening request) ∨
    ∃ due request pending, t.phase = .sleeping due (.background request) pending) :
    t.role = .background := by
  unfold Fits at hf
  split at hf
  · assumption
  · obtain ⟨_, h⟩ | ⟨_, _, _, h⟩ := hp <;> simp [h, Writes, hasEnded] at hf
  · obtain ⟨_, h⟩ | ⟨_, _, _, h⟩ := hp <;> simp [h, Phase.OfProgram, Alarm.kind?] at hf

/-- Who closes an interaction in the background is in the background. -/
theorem Fits.closing (hf : t.Fits) (hp : (∃ request, t.phase = .opening request) ∨
    ∃ due request pending, t.phase = .sleeping (some due) (.background request) pending) :
    t.role = .background := by
  obtain hp | ⟨due, request, pending, hp⟩ := hp
  · exact hf.background (.inl hp)
  · exact hf.background (.inr ⟨_, request, pending, hp⟩)

/-- Only the host writes handles of the host. -/
theorem Fits.host (hf : t.Fits) {due : Option Nat} {h : Handle}
    {result : Option (Except Fault Json)} {pending : List Continuation}
    (hp : t.phase = .sleeping due (.host h result) pending) : t.role = .host ∧ t.Writes h := by
  unfold Fits at hf
  split at hf
  · simp [hp, hasEnded] at hf
  next hr =>
    refine ⟨hr, ?_⟩
    obtain ⟨_, _, _, hw⟩ | hw := hf
    · cases hp.symm.trans hw
      exact ⟨due, result, hp⟩
    · simp [hasEnded, hp] at hw
  · simp [hp, Phase.OfProgram, Alarm.kind?] at hf

end

variable {t u : Task} {w : World r} {self : Nat} {e : Effect r}

theorem conclude_now (t : Task) (w : World r) (result : Except Fault Dyn) :
    (t.conclude w result).world.now = w.now := by
  unfold conclude
  cases t.role with
  | run => cases result <;> rfl
  | fork h =>
    simp only [enter]
    cases result >>= Dyn.take .json <;> rfl
  | _ => rfl

theorem crash_now (t : Task) (w : World r) (self : Nat) (message : String) :
    (t.crash w self message).world.now = w.now := by
  unfold crash
  cases t.role <;> rfl

theorem Turn.role_eq (h : t.Turn w self e) : e.task.role = t.role := by
  cases h <;> rfl

/-- A step changes nothing of the task itself but its boundaries and its phase. -/
theorem Turn.same (h : t.Turn w self e) :
    ∃ boundaries phase, e.task = { t with boundaries := boundaries, phase := phase } := by
  cases h <;> exact ⟨_, _, rfl⟩

/-- Steps take no time. -/
theorem Turn.now_eq (h : t.Turn w self e) : e.world.now = w.now := by
  cases h with
  | concludes hp hc hb => exact conclude_now t w _
  | crashes hp hw => exact (crash_now t _ self _).trans hw.now
  | settles | awaited | exhausts => rfl
  | answered _ _ hw | sleeps _ _ hw | awaits _ _ hw | forks _ _ hw | enters _ _ hw => exact hw.now
  | races _ _ _ hw | leaves _ _ _ hw | wakes _ _ _ hw => exact hw.now
  | wins _ _ _ _ hw | loses _ _ _ _ hw => exact hw.now
  | opens _ hw | closes _ hw => exact hw.now

theorem Turn.not_ended (h : t.Turn w self e) : t.hasEnded = false := by
  have hf : t.Fragile → t.hasEnded = false := by
    rintro (⟨c, hp⟩ | ⟨due, alarm, pending, hp⟩ | ⟨request, hp⟩) <;> simp [hasEnded, hp]
  cases h with
  | crashes hp hw => exact hf hp
  | closes hp hw => rcases hp with ⟨_, hp⟩ | ⟨_, _, _, hp⟩ <;> simp [hasEnded, hp]
  | _ => simp [hasEnded, *]

/-- The branches of a race are numbered in the order of their programs. -/
theorem branches_getElem? (t : Task) (race index : Nat) (ps : List Program) (k : Nat) :
    (t.branches race index ps)[k]? = ps[k]?.map fun p =>
      t.child (.branch race (index + k)) (t.span.branch (index + k)) p := by
  induction ps generalizing index k with
  | nil => simp [branches]
  | cons p ps ih =>
    cases k with
    | zero => simp [branches]
    | succ k => simp [branches, ih, Nat.add_assoc, Nat.add_comm 1 k]

theorem branches_mem {race index : Nat} {ps : List Program} (hu : u ∈ t.branches race index ps) :
    ∃ k p, p ∈ ps ∧ u = t.child (.branch race k) (t.span.branch k) p := by
  obtain ⟨k, hk⟩ := List.mem_iff_getElem?.mp hu
  rw [branches_getElem?] at hk
  obtain ⟨p, hp, rfl⟩ := Option.map_eq_some_iff.mp hk
  exact ⟨index + k, p, List.mem_of_getElem? hp, rfl⟩

/-- What is launched is an interaction in the background, or a program from its beginning. -/
theorem Turn.launched_cases (h : t.Turn w self e) (hu : u ∈ e.launched) :
    (∃ request, u = t.background request) ∨
      ∃ role span p, role.OfProgram ∧ u = t.child role span p := by
  cases h with
  | answered hp hc hw hr hop hl =>
    obtain rfl | ⟨request, rfl⟩ := hl
    · cases hu
    · exact .inl ⟨request, by simpa using hu⟩
  | forks hp hc hw =>
    obtain rfl := List.mem_singleton.mp hu
    exact .inr ⟨.fork _, _, _, trivial, rfl⟩
  | races hp hc hps hw =>
    obtain ⟨k, p, -, rfl⟩ := branches_mem hu
    exact .inr ⟨.branch _ k, _, p, trivial, rfl⟩
  | _ => cases hu

theorem Turn.launched_not_ended (h : t.Turn w self e) (hu : u ∈ e.launched) :
    u.hasEnded = false := by
  obtain ⟨request, rfl⟩ | ⟨role, span, p, -, rfl⟩ := h.launched_cases hu <;> rfl

theorem Turn.launched_fits (h : t.Turn w self e) (hu : u ∈ e.launched) : u.Fits := by
  obtain ⟨request, rfl⟩ | ⟨role, span, p, hr, rfl⟩ := h.launched_cases hu
  · exact .inl ⟨request, rfl⟩
  · exact fits_of_program hr trivial

theorem Turn.fits (h : t.Turn w self e) (hf : t.Fits) : e.task.Fits := by
  have he := h.not_ended
  cases h with
  | concludes | crashes | closes | settles => exact fits_of_ended rfl
  | opens hp hw =>
    have hr := hf.background (.inl ⟨_, hp⟩)
    simp only [Fits, hr]
    exact .inr (.inl ⟨_, _, rfl⟩)
  | loses => exact hf
  | wakes hp hd ha =>
    refine fits_of_program (hf.role ?_ he) trivial
    simp [hp, Phase.OfProgram, ha]
  | sleeps hp hc hw ha =>
    refine fits_of_program (hf.role (by simp [hp, Phase.OfProgram]) he) ?_
    simp [Phase.OfProgram, ha]
  | _ => exact fits_of_program (hf.role (by simp [Phase.OfProgram, *]) he) trivial

/-- A program's task ends when its program has, with nothing around it any more, or by a panic. -/
theorem Turn.program_ends (h : t.Turn w self e) (hf : t.Fits) (hr : t.role.OfProgram)
    {v : Verdict Dyn} (he : e.task.phase = .ended v) :
    (∃ c d, t.phase = .running c ∧ c.advance = .finished d ∧ t.boundaries = [] ∧
      v = .ofExcept d) ∨
      ∃ message, v = .panic message := by
  cases h with
  | concludes hp hc hb =>
    cases he
    exact .inl ⟨_, _, hp, hc, hb, rfl⟩
  | crashes hp hw =>
    cases he
    exact .inr ⟨_, rfl⟩
  | closes hp hw => simp [hf.closing hp, Role.OfProgram] at hr
  | settles hp hd => simp [(hf.host hp).1, Role.OfProgram] at hr
  | loses hp => cases hp.symm.trans he
  | _ => cases he

end Task

namespace Machine

variable {m m' : Machine r} {a : Happening} {i j : Nat} {t u : Task} {e : Effect r}

/-- Tasks keep what they were launched for. -/
theorem Stepped.role_kept (hs : Stepped m i t e m') (hu : m.tasks[j]? = some u) :
    ∃ u', m'.tasks[j]? = some u' ∧ u'.role = u.role := by
  by_cases hj : j = i
  · subst hj
    cases hs.task.symm.trans hu
    exact ⟨e.task, hs.self, hs.turn.role_eq⟩
  · exact ⟨u, hs.other hj hu, rfl⟩

theorem ending?_eq_some_iff {v : Verdict Dyn} :
    m.ending? i = some v ↔ ∃ t, m.tasks[i]? = some t ∧ t.phase = .ended v := by
  unfold ending?
  split
  next t ht => split <;> simp_all
  next ht => simp [ht]

theorem now_le_of_change (h : Change m a m') : m.world.now ≤ m'.world.now := by
  cases h with
  | step hs => exact Nat.le_of_eq (by rw [hs.world, hs.turn.now_eq])
  | idle _ hi => exact hi.now

theorem Stepped.ending?_eq_none (hs : Stepped m i t e m') : m.ending? i = none := by
  refine Option.eq_none_iff_forall_ne_some.mpr fun v hv => ?_
  obtain ⟨u, hu, hp⟩ := ending?_eq_some_iff.mp hv
  cases hs.task.symm.trans hu
  have := hs.turn.not_ended
  simp [Task.hasEnded, hp] at this

/-- What has ended is not touched any more. -/
theorem ending?_of_change {v : Verdict Dyn} (h : Change m a m') (hv : m.ending? j = some v) :
    m'.ending? j = some v := by
  obtain ⟨u, hu, hp⟩ := ending?_eq_some_iff.mp hv
  refine ending?_eq_some_iff.mpr ⟨u, ?_, hp⟩
  cases h with
  | step hs =>
    refine hs.other ?_ hu
    rintro rfl
    simp [hs.ending?_eq_none] at hv
  | idle _ hi => exact hi.keeps hu

theorem ending?_run {as : List Happening} {v : Verdict Dyn} (h : Run m as m')
    (hv : m.ending? j = some v) : m'.ending? j = some v := by
  induction h with
  | refl => exact hv
  | step ha _ ih => exact ih (ending?_of_change (happen?_change ha) hv)

/-- A task stays what it is, where it is. -/
theorem same_run {as : List Happening} (h : Run m as m') (ht : m.tasks[j]? = some t) :
    ∃ boundaries phase,
      m'.tasks[j]? = some { t with boundaries := boundaries, phase := phase } := by
  induction h generalizing t with
  | refl => exact ⟨_, _, ht⟩
  | step ha _ ih =>
    cases happen?_change ha with
    | @step i _ e _ hs =>
      by_cases hj : j = i
      · subst hj
        cases hs.task.symm.trans ht
        obtain ⟨_, _, he⟩ := hs.turn.same
        obtain ⟨boundaries, phase, hu⟩ := ih (he ▸ hs.self)
        exact ⟨boundaries, phase, hu⟩
      · exact ih (hs.other hj ht)
    | idle _ hi => exact ih (hi.keeps ht)

/-- Every task is in a phase that fits its role. -/
def Fit (m : Machine r) : Prop := ∀ (i : Nat) (t : Task), m.tasks[i]? = some t → t.Fits

theorem fit_initial (h : Initial m) : m.Fit := by
  intro i t ht
  obtain ⟨hr, -, h, hw, -⟩ := h.writers i t ht
  simp only [Task.Fits, hr]
  exact .inl ⟨h, hw⟩

theorem fit_change (h : Change m a m') (hm : m.Fit) : m'.Fit := by
  intro j u hu
  cases h with
  | step hs =>
    obtain ⟨rfl, rfl⟩ | ⟨-, hu⟩ | ⟨k, -, hu⟩ := hs.cases hu
    · exact hs.turn.fits (hm _ _ hs.task)
    · exact hm j u hu
    · exact hs.turn.launched_fits (List.mem_of_getElem? hu)
  | idle _ hi =>
    obtain hu | ⟨-, hu⟩ := hi.cases hu
    · exact hm j u hu
    · obtain ⟨p, container, -, rfl⟩ := hi.programs u hu
      exact Task.fits_of_program trivial trivial

theorem fit_reachable (h : m.Reachable) : m.Fit :=
  h.invariant (fun _ => fit_initial) fun _ _ _ _ => fit_change

end Machine

end Workflow
