import Workflow.Bench
import Workflow.Proofs.Machine.Handle
import Workflow.Proofs.Machine.Race
import Workflow.Proofs.Machine.Rest
import Workflow.Proofs.Session

/-! Tasks do not wait for each other in a circle.

The tasks of scoped programs can be ranked so that a task knows only handles of lower tasks and
races only lower ones. A launched task is put right below the one that launches it: above all that
its parent knew, and below whatever waits for the parent. -/
namespace Workflow

variable {r : Runner} {known known' : Set Handle} {pending : List Continuation}

def Phase.Scoped (known : Set Handle) : Phase → Prop
  | .running c => c.Scoped known
  | .sleeping _ _ pending | .racing _ pending => StackScoped known pending
  | .awaiting h pending => h ∈ known ∧ StackScoped known pending
  | .opening _ | .ended _ => True

/-- The handles of the programs that a step forks. -/
def Effect.forked (e : Effect r) : Set Handle := {h | ∃ u ∈ e.launched, u.role = .fork h}

theorem OfKind.handles_subset {kind : Kind} {result : Except Fault Dyn} (h : OfKind kind result)
    (hk : kind.isPlain = true) (v : Dyn) (hv : result = .ok v) : v.handles ⊆ known := by
  have hkind := h v hv
  rw [Dyn.handles_of_isPlain (hkind ▸ hk)]
  exact Set.empty_subset known

theorem Alarm.kind?_isPlain {alarm : Alarm} {kind : Kind} (h : alarm.kind? = some kind) :
    kind.isPlain = true := by
  cases alarm with
  | delay | external => cases h; rfl
  | call c =>
    cases h
    cases c with
    | permissions c => cases c <;> rfl
    | storage c => cases c <;> rfl
    | _ => rfl
  | background | host => cases h

namespace Task

/-- All that the task still has to do is scoped. -/
structure Scoped (known : Set Handle) (t : Task) : Prop where
  phase : t.phase.Scoped known
  boundaries : ∀ b ∈ t.boundaries, StackScoped known b

variable {t u : Task} {w : World r} {self : Nat} {e : Effect r}

theorem Scoped.mono (h : t.Scoped known) (hk : known ⊆ known') : t.Scoped known' := by
  refine ⟨?_, fun b hb => (h.boundaries b hb).mono hk⟩
  have hp := h.phase
  cases hph : t.phase <;> simp only [hph, Phase.Scoped] at hp ⊢
  case running c => exact hp.mono hk
  case sleeping | racing => exact hp.mono hk
  case awaiting => exact ⟨hk hp.1, hp.2.mono hk⟩

theorem Scoped.running (h : t.Scoped known) {c : Cursor} (hp : t.phase = .running c) :
    c.Scoped known := by
  have := h.phase
  rwa [hp] at this

theorem Scoped.resumed (h : t.Scoped known) (hp : StackScoped known pending)
    {result : Except Fault Dyn} (hr : ∀ v, result = .ok v → v.handles ⊆ known) :
    (t.resumed pending result).Scoped known :=
  ⟨Cursor.scoped_resume hp hr, h.boundaries⟩

theorem scoped_child {p : Program} (h : p.Scoped known) (role : Role) (span : Span) :
    (t.child role span p).Scoped known :=
  ⟨Cursor.scoped_new h, by simp [child]⟩

/-- What a step launches knows what the task knew. -/
theorem Turn.launched_scoped (h : t.Turn w self e) (hs : t.Scoped known) (hu : u ∈ e.launched) :
    u.Scoped known := by
  cases h with
  | answered hp hc hw hr hop hl =>
    obtain rfl | ⟨request, rfl⟩ := hl
    · cases hu
    · obtain rfl := List.mem_singleton.mp hu
      exact ⟨trivial, by simp [background]⟩
  | forks hp hc hw =>
    obtain ⟨-, hps, -⟩ := (hs.running hp).advance hc
    obtain rfl := List.mem_singleton.mp hu
    exact scoped_child (hps _ (by simp [Operation.programs])) _ _
  | races hp hc _ hw =>
    obtain ⟨-, hps, -⟩ := (hs.running hp).advance hc
    obtain ⟨k, p, hmem, rfl⟩ := branches_mem hu
    exact scoped_child (hps p hmem) _ _
  | _ => cases hu

/-- A step tells a task nothing but the handle of what it forks. -/
theorem Turn.scoped (h : t.Turn w self e) (hs : t.Scoped known) :
    e.task.Scoped (known ∪ e.forked) := by
  have weaken : e.task.Scoped known → e.task.Scoped (known ∪ e.forked) :=
    fun h => h.mono Set.subset_union_left
  have hphase := hs.phase
  cases h with
  | answered hp hc hw hr hop hl =>
    obtain ⟨-, -, hst⟩ := (hs.running hp).advance hc
    exact weaken (hs.resumed hst (hr.handles_subset (Operation.result_isPlain hop)))
  | sleeps hp hc =>
    obtain ⟨-, -, hst⟩ := (hs.running hp).advance hc
    exact weaken ⟨hst, hs.boundaries⟩
  | awaits hp hc =>
    obtain ⟨ha, -, hst⟩ := (hs.running hp).advance hc
    exact weaken ⟨⟨ha rfl, hst⟩, hs.boundaries⟩
  | forks hp hc =>
    obtain ⟨-, -, hst⟩ := (hs.running hp).advance hc
    refine (hs.mono Set.subset_union_left).resumed (hst.mono Set.subset_union_left) ?_
    intro v hv h hh
    cases hv
    obtain rfl : h = _ := hh
    exact .inr ⟨_, List.mem_singleton.mpr rfl, rfl⟩
  | races hp hc =>
    obtain ⟨-, -, hst⟩ := (hs.running hp).advance hc
    exact weaken ⟨hst, hs.boundaries⟩
  | enters hp hc =>
    obtain ⟨-, hps, hst⟩ := (hs.running hp).advance hc
    exact weaken ⟨Cursor.scoped_new (hps _ (by simp [Operation.programs])),
      List.forall_mem_cons.mpr ⟨hst, hs.boundaries⟩⟩
  | leaves hp hc hb hw hr =>
    have hbs := hs.boundaries
    rw [hb, List.forall_mem_cons] at hbs
    exact weaken ⟨Cursor.scoped_resume hbs.1 (hr.handles_subset rfl), hbs.2⟩
  | wakes hp hd ha hw hr =>
    rw [hp] at hphase
    exact weaken (hs.resumed hphase (hr.handles_subset (Alarm.kind?_isPlain ha)))
  | awaited hp hc =>
    rw [hp] at hphase
    exact weaken (hs.resumed hphase.2 ((ofKind_json _).handles_subset rfl))
  | wins hp =>
    rw [hp] at hphase
    exact weaken (hs.resumed hphase ((ofKind_ok (k := .json) _).handles_subset rfl))
  | exhausts hp =>
    rw [hp] at hphase
    refine weaken (hs.resumed hphase ?_)
    intro v hv
    cases hv
  | loses => exact weaken hs
  | opens => exact weaken ⟨stackScoped_nil, hs.boundaries⟩
  | concludes | crashes | closes | settles => exact weaken ⟨trivial, hs.boundaries⟩

/-- What a task that cannot step waits for. -/
inductive Blocked (t : Task) (w : World r) : Prop
  | ended (he : t.hasEnded = true)
  | asleep {due : Option Nat} {alarm : Alarm} {pending : List Continuation}
    (hp : t.phase = .sleeping due alarm pending) (hd : ∀ d, due = some d → w.now < d)
  | awaiting {h : Handle} {pending : List Continuation} (hp : t.phase = .awaiting h pending)
    (hc : (w.cell h).status = .pending)
  | racing {race : Nat} {pending : List Continuation} (hp : t.phase = .racing race pending)
    (hx : ∀ x, w.races[race]? = some x → x.seen + x.arrivals.length < x.total)

theorem blocked_of_step?_eq_none (h : t.step? w self = none) : t.Blocked w := by
  unfold step? at h
  split at h
  next c hp => split at h <;> cases h
  next alarm pending hp => exact .asleep hp nofun
  next due alarm pending hp =>
    split at h
    · cases h
    next hd =>
      refine .asleep hp ?_
      rintro d ⟨⟩
      exact Nat.lt_of_not_le hd
  next handle pending hp =>
    rw [Option.map_eq_none_iff, Cell.outcome?_eq] at h
    refine .awaiting hp ?_
    cases hc : (w.cell handle).status with
    | pending => rfl
    | filled | abandoned => simp [hc, Cell.Status.outcome?] at h
  next race pending hp =>
    refine .racing hp ?_
    intro x hx
    rw [hx] at h
    simp only at h
    split at h
    · cases h
    next ha =>
      split at h
      next hlt => simpa [ha] using hlt
      next => cases h
  next request hp => cases h
  next v hp => exact .ended (by simp [hasEnded, hp])

theorem status_ne_pending (h : t.hasEnded = true) : t.phase.status ≠ .pending := by
  obtain ⟨v, hp⟩ := hasEnded_iff.mp h
  cases v <;> simp [hp, Phase.status]

end Task

namespace Machine
variable {m m' : Machine r} {a : Happening} {i j : Nat} {t u : Task} {e : Effect r}
  {rank : Nat → Nat}

/-- The handles of the forked programs that rank below a task. -/
def below (m : Machine r) (rank : Nat → Nat) (i : Nat) : Set Handle :=
  {h | ∃ (j : Nat) (u : Task), m.tasks[j]? = some u ∧ u.role = .fork h ∧ rank j < rank i}

/-- Everybody knows and races lower tasks only. -/
structure Ordered (m : Machine r) (rank : Nat → Nat) : Prop where
  knows : ∀ (i : Nat) (t : Task), m.tasks[i]? = some t → t.Scoped (m.below rank i)
  racing : ∀ (i j : Nat) (t u : Task) (race : Nat) (pending : List Continuation),
    m.tasks[i]? = some t → t.phase = .racing race pending → m.tasks[j]? = some u →
    u.isBranch race = true → rank j < rank i

/-- The ranks after task `i` of `n` tasks has launched others: these take its place, and it moves up
together with all that were not below it. -/
def insertBelow (rank : Nat → Nat) (i n j : Nat) : Nat :=
  if j < n then if rank i ≤ rank j then rank j + 1 else rank j else rank i

section
variable {n k : Nat}

theorem insertBelow_lt (hj : j < n) (hk : k < n) (h : rank j < rank k) :
    insertBelow rank i n j < insertBelow rank i n k := by
  simp only [insertBelow, hj, hk]
  grind

theorem insertBelow_new_lt_self (hi : i < n) (hj : n ≤ j) :
    insertBelow rank i n j < insertBelow rank i n i := by
  simp [insertBelow, hi, Nat.not_lt.mpr hj]

theorem insertBelow_lt_new (hj : j < n) (hk : n ≤ k) (h : rank j < rank i) :
    insertBelow rank i n j < insertBelow rank i n k := by
  simp [insertBelow, hj, Nat.not_lt.mpr hk, Nat.not_le.mpr h, h]

end

section
variable (hs : Stepped m i t e m')
include hs

theorem Stepped.below_kept (hj : j < m.tasks.size) :
    m.below rank j ⊆ m'.below (insertBelow rank i m.tasks.size) j := by
  rintro h ⟨k, u, hu, hr, hlt⟩
  obtain ⟨u', hu', hr'⟩ := hs.role_kept hu
  have hk := (Array.getElem?_eq_some_iff.mp hu).1
  exact ⟨k, u', hu', hr'.trans hr, insertBelow_lt hk hj hlt⟩

theorem Stepped.forked_below :
    e.forked ⊆ m'.below (insertBelow rank i m.tasks.size) i := by
  rintro h ⟨u, hu, hr⟩
  obtain ⟨k, hk⟩ := List.mem_iff_getElem?.mp hu
  exact ⟨_, u, hs.added hk, hr, insertBelow_new_lt_self hs.lt (Nat.le_add_right _ k)⟩

theorem Stepped.below_launched (hj : m.tasks.size ≤ j) :
    m.below rank i ⊆ m'.below (insertBelow rank i m.tasks.size) j := by
  rintro h ⟨k, u, hu, hr, hlt⟩
  obtain ⟨u', hu', hr'⟩ := hs.role_kept hu
  have hk := (Array.getElem?_eq_some_iff.mp hu).1
  exact ⟨k, u', hu', hr'.trans hr, insertBelow_lt_new hk hj hlt⟩

theorem ordered_step (hf : m.Fit) (hl : m.Ledger) (ho : m.Ordered rank) :
    m'.Ordered (insertBelow rank i m.tasks.size) := by
  have ht := ho.knows i t hs.task
  refine ⟨?_, ?_⟩
  · intro j u hu
    obtain ⟨rfl, rfl⟩ | ⟨-, hju⟩ | ⟨k, rfl, hk⟩ := hs.cases hu
    · exact (hs.turn.scoped ht).mono (Set.union_subset (hs.below_kept hs.lt) hs.forked_below)
    · have hj := (Array.getElem?_eq_some_iff.mp hju).1
      exact (ho.knows j u hju).mono (hs.below_kept hj)
    · have hlaunched := hs.turn.launched_scoped ht (List.mem_of_getElem? hk)
      exact hlaunched.mono (hs.below_launched (Nat.le_add_right _ k))
  · intro j l u v race pending hu hp hv hb
    obtain hju | ⟨rfl, rfl, -⟩ := hs.racing_cases hf hu hp <;>
      obtain ⟨v₀, hv₀, hrole⟩ | ⟨hnew, hrace, -⟩ := hs.branch_cases hf hv hb
    · have hj := (Array.getElem?_eq_some_iff.mp hju).1
      have hlt := (Array.getElem?_eq_some_iff.mp hv₀).1
      rw [← Task.isBranch_congr hrole] at hb
      exact insertBelow_lt hlt hj (ho.racing j l u v₀ race pending hju hp hv₀ hb)
    · exact absurd hrace (Nat.ne_of_lt (hl.racing j u race pending hju hp))
    · rw [← Task.isBranch_congr hrole] at hb
      exact absurd (hl.branch l v₀ _ hv₀ hb) (Nat.lt_irrefl _)
    · exact insertBelow_new_lt_self hs.lt hnew

end

theorem ordered_initial (hm : Initial m) : m.Ordered rank := by
  refine ⟨?_, ?_⟩
  · intro i t ht
    obtain ⟨-, hb, _, ⟨_, _, hp⟩, -⟩ := hm.writers i t ht
    exact ⟨by simp [hp, Phase.Scoped, stackScoped_nil], by simp [hb]⟩
  · intro i j t u race pending ht hp
    obtain ⟨-, -, _, ⟨_, _, hp'⟩, -⟩ := hm.writers i t ht
    cases hp.symm.trans hp'

/-- A program that the host starts knows no handle, so it may have any rank. -/
theorem ordered_idle {added : List Task} (hi : Idled m a added m')
    (hs : ∀ p container, a = .launch p container → p.Scoped ∅) (ho : m.Ordered rank) :
    m'.Ordered rank := by
  have hbelow (j : Nat) : m.below rank j ⊆ m'.below rank j := by
    rintro h ⟨k, u, hu, hr, hlt⟩
    exact ⟨k, u, hi.keeps hu, hr, hlt⟩
  refine ⟨?_, ?_⟩
  · intro j u hu
    obtain hu | ⟨-, hu⟩ := hi.cases hu
    · exact (ho.knows j u hu).mono (hbelow j)
    · obtain ⟨p, container, ha, rfl⟩ := hi.programs u hu
      exact ⟨Cursor.scoped_new ((hs p container ha).mono (Set.empty_subset _)),
        by simp [runner]⟩
  · intro j l u v race pending hu hp hv hb
    obtain hu | ⟨-, hu⟩ := hi.cases hu
    · obtain hv | ⟨-, hv⟩ := hi.cases hv
      · exact ho.racing j l u v race pending hu hp hv hb
      · obtain ⟨p, container, -, rfl⟩ := hi.programs v hv
        cases hb
    · obtain ⟨p, container, -, rfl⟩ := hi.programs u hu
      cases hp

theorem ordered_run {as : List Happening} (hm : m.Reachable) (hr : Run m as m')
    (hs : ∀ p container, .launch p container ∈ as → p.Scoped ∅)
    (ho : ∃ rank, m.Ordered rank) :
    ∃ rank, m'.Ordered rank := by
  induction hr with
  | refl => exact ho
  | @step m m₁ m' a as ha hr ih =>
    obtain ⟨rank, ho⟩ := ho
    refine ih (hm.run (.single ha)) (fun p c h => hs p c (List.mem_cons_of_mem a h)) ?_
    cases happen?_change ha with
    | step h => exact ⟨_, ordered_step h (fit_reachable hm) (ledger_reachable hm) ho⟩
    | idle _ hi => exact ⟨rank, ordered_idle hi (fun p c h => hs p c (by simp [h])) ho⟩

/-- Every call to a collaborator and every action of the host for which a
program sleeps returns at some time. -/
def AllReturn (m : Machine r) : Prop :=
  ∀ (i : Nat) (t : Task) (alarm : Alarm) (pending : List Continuation), m.tasks[i]? = some t →
    t.phase = .sleeping none alarm pending → t.role = .host

/-- Among tasks that are ordered, the lowest that has not ended can step or has a timer. -/
theorem ended_of_stuck (howned : m.Owned) (hledger : m.Ledger) (ho : m.Ordered rank)
    (hret : m.AllReturn) (hq : ∀ i, m.step? i = none) (hd : m.nextDue = none)
    (ht : m.tasks[i]? = some t) (hrole : t.role ≠ .host) : t.hasEnded = true := by
  induction hn : rank i using Nat.strong_induction_on generalizing i t with
  | h n lower =>
    subst hn
    have hstep : t.step? m.world i = none := by
      have := hq i
      simpa [step?, ht] using this
    cases Task.blocked_of_step?_eq_none hstep with
    | ended he => exact he
    | @asleep due alarm pending hp hlt =>
      cases due with
      | none => exact absurd (hret i t alarm pending ht hp) hrole
      | some d =>
        have hdue : dueOf t = some d := by simp [dueOf, hp]
        have hle := due_le_now_of_nextDue_eq_none hd ht hdue
        exact absurd (hlt d rfl) (Nat.not_lt.mpr hle)
    | @awaiting h pending hp hc =>
      have hphase := (ho.knows i t ht).phase
      rw [hp] at hphase
      obtain ⟨j, u, hu, hr, hlt⟩ := hphase.1
      have hended := lower (rank j) hlt hu (by simp [hr]) rfl
      have hst : m.status h = u.phase.status := fork_status howned hu hr
      exact absurd (hst.symm.trans hc) (Task.status_ne_pending hended)
    | @racing race pending hp hx =>
      have hrace := hledger.racing i t race pending ht hp
      have hget := Array.getElem?_eq_getElem hrace
      obtain ⟨j, u, hu, hb, hne⟩ := hledger.exists_running hget (hx _ hget)
      have hlt := ho.racing i j t u race pending ht hp hu hb
      obtain ⟨index, hr⟩ := Task.isBranch_iff.mp hb
      have hended := lower (rank j) hlt hu (by simp [hr]) rfl
      simp [hne] at hended

/-- No deadlock among scoped programs, whatever the order of steps, if what they call returns. Where
no task can step and no timer is pending, all have ended; as long as one has not, something can
happen; and that cannot go on for ever. -/
theorem no_deadlock {m₀ : Machine r} {as : List Happening} (hm : Initial m₀)
    (hr : Run m₀ as m) (hs : ∀ p container, .launch p container ∈ as → p.Scoped ∅)
    (hret : m.AllReturn) :
    ((∀ i, m.step? i = none) → m.nextDue = none →
      ∀ (i : Nat) (t : Task), m.tasks[i]? = some t → t.role ≠ .host →
        ∃ v, t.phase = .ended v) ∧
    (∀ (i : Nat) (t : Task), m.tasks[i]? = some t → t.role ≠ .host → t.hasEnded = false →
      ∃ a m', m.move? a = some m') ∧
    ∀ f : Nat → Machine r, f 0 = m → ¬ Endless f := by
  have hm' : m.Reachable := ⟨m₀, as, hm, hr⟩
  obtain ⟨rank, ho⟩ :=
    ordered_run ⟨m₀, [], hm, .refl⟩ hr hs ⟨fun _ => 0, ordered_initial hm⟩
  have stuck : (∀ i, m.step? i = none) → m.nextDue = none →
      ∀ (i : Nat) (t : Task), m.tasks[i]? = some t → t.role ≠ .host → t.hasEnded = true :=
    fun hq hd i t ht => ended_of_stuck (owned_reachable hm') (ledger_reachable hm') ho hret hq hd ht
  refine ⟨?_, ?_, fun f _ => not_endless f⟩
  · intro hq hd i t ht hrole
    exact Task.hasEnded_iff.mp (stuck hq hd i t ht hrole)
  · intro i t ht hrole hne
    by_contra hnone
    have hmove (a : Move) : m.move? a = none :=
      Option.eq_none_iff_forall_ne_some.mpr fun m' h => hnone ⟨a, m', h⟩
    obtain ⟨hq, hd⟩ := move?_eq_none_iff.mp hmove
    have hended := stuck hq hd i t ht hrole
    simp [hne] at hended

/-- Two forks, the second of which awaits the first, and a race between branches that await them. -/
def crossing : Flow .json :=
  (Flow.fork ((Flow.delay 5).followedBy (Flow.pure (a := .json) Json.null))).andThen fun h =>
    (Flow.fork (Flow.await h)).andThen fun h' => Flow.race [Flow.await h', Flow.await h]

theorem crossing_scoped : crossing.program.Scoped ∅ := by
  refine Flow.scoped_andThen (Flow.scoped_fork ?_) fun h =>
    Flow.scoped_andThen (Flow.scoped_fork (Flow.scoped_await (.inr rfl))) fun h' => ?_
  · exact Flow.scoped_andThen (.step (Set.empty_subset _) nofun) fun _ =>
      .done (Set.empty_subset _)
  · apply Flow.scoped_race
    rw [List.forall_mem_cons, List.forall_mem_singleton]
    exact ⟨Flow.scoped_await (.inr rfl), Flow.scoped_await (.inl (.inr rfl))⟩

/-- Five tasks, of which four wait for each other at some time: the machine
comes to rest when all have ended. -/
theorem no_deadlock_crossing :
    ∃ (as : List Happening) (m : Machine (Bench.new.setup .empty []).runner),
    Run (Bench.new.setup .empty []).machine as m ∧ .launch crossing.program 0 ∈ as ∧
      m.tasks.size = 5 ∧ (∀ i, m.step? i = none) ∧ m.nextDue = none ∧
      ∀ (i : Nat) (t : Task), m.tasks[i]? = some t → t.role ≠ .host →
        ∃ v, t.phase = .ended v := by
  -- all wait until the clock moves; then both branches arrive at the same time
  let as : List Happening := .launch crossing.program 0 ::
    ([0, 0, 0, 1, 2, 3, 4].map (.move <| .step ·) ++ .move .tick ::
      [1, 1, 4, 4, 0, 2, 2, 3, 3, 0].map (.move <| .step ·))
  have hend : ((Bench.new.setup .empty []).machine.follow? as).map (fun m =>
      (m.tasks.size, m.isQuiet, m.nextDue, m.tasks.toList.all Task.hasEnded)) =
        some (5, true, none, true) := by
    decide +kernel
  obtain ⟨m, hm, heq⟩ := Option.map_eq_some_iff.mp hend
  obtain ⟨hsize, hquiet, hdue, hdone⟩ : m.tasks.size = 5 ∧ m.isQuiet = true ∧
      m.nextDue = none ∧ m.tasks.toList.all Task.hasEnded = true := by
    simpa only [Prod.mk.injEq] using heq
  have hr := run_of_follow? hm
  have hs : ∀ p container, .launch p container ∈ as → p.Scoped ∅ := by
    intro p container h
    obtain ⟨rfl, -⟩ : p = crossing.program ∧ container = 0 := by simpa [as] using h
    exact crossing_scoped
  have hret : m.AllReturn := by
    intro i t alarm pending ht hp
    have hmem : t ∈ m.tasks.toList := Array.mem_toList_iff.mpr (Array.mem_of_getElem? ht)
    have hended := List.all_eq_true.mp hdone t hmem
    simp [Task.hasEnded, hp] at hended
  have hq := isQuiet_iff.mp hquiet
  refine ⟨as, m, hr, by simp [as], hsize, hq, hdue, ?_⟩
  exact (no_deadlock (Setup.machine_initial _) hr hs hret).1 hq hdue

end Machine

end Workflow
