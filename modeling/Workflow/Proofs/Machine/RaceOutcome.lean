import Workflow.Bench
import Workflow.Proofs.Machine.RaceHistory
import Workflow.Proofs.Session

/-! How a race ends.

Who waits for a race is resumed once, with what the history of the race has decided until then. -/
namespace Workflow

variable {r : Runner}

namespace Contest

open Machine

variable {c : Contest} {m m' : Machine r} {i : Nat} {t : Task} {e : Effect r}
  {history : List Completion}

/-- Who waits looks at one more failure, or resumes with what the history has decided. -/
theorem racer_step (hs : Stepped m c.racer c.task e m') (hl : m.Ledger) (hr : c.Record m history) :
    (e.task = c.task ∧ ∃ x x', m.world.races[c.race]? = some x ∧
      m'.world.races[c.race]? = some x' ∧
      x'.arrivals.length < x.arrivals.length) ∨ ∃ result : Except Fault Json,
      e.task = c.task.resumed c.pending (result.map .json) ∧ Decides c.total history result := by
  have hle := hr.length_le hl
  obtain ⟨x, seen, rest, hb, rfl⟩ := hr.booked
  obtain ⟨hfail, hlast⟩ := hb.waiting hs.task
  have harr := hb.arrivals
  obtain ⟨a, arrivals, v, ha, hv, ht⟩ | ⟨a, arrivals, fault, ha, -, ht, hx⟩ |
      ⟨ha, hseen, ht⟩ :=
    hs.turn.of_racing c.waits hb.race
  · rw [ha] at harr
    obtain ⟨b, rest', rfl, rfl, -⟩ := List.map_eq_cons_iff.mp harr.symm
    exact .inr ⟨.ok v, ht, .won hfail (by simp [Arrival.value?, hv])⟩
  · exact .inl ⟨ht, x, _, hb.race, hs.world ▸ hx, by simp [ha]⟩
  · -- nothing is before the race any more, so it has looked at all branches
    rw [ha] at harr
    obtain rfl := List.map_eq_nil_iff.mp harr.symm
    rw [hb.total, hb.looked] at hseen
    rw [List.append_nil] at hle ⊢
    have hlen : seen.length = c.total := Nat.le_antisymm hle hseen
    have hne : seen ≠ [] := by
      rintro rfl
      exact Nat.ne_of_gt c.pos hlen.symm
    exact .inr ⟨.error (lastFault seen), hlast ▸ ht, .error_of hne hfail hlen⟩

/-- Who waits for a race goes on waiting, or is resumed once, with what
the history until then has decided. -/
theorem race_run {as : List Happening} (hm : m.Reachable) (h : Run m as m')
    (hr : c.Record m history) (ht : m.tasks[c.racer]? = some c.task) :
    m'.tasks[c.racer]? = some c.task ∨
      ∃ before after m₁ m₂, ∃ result : Except Fault Json,
        as = before ++ .move (.step c.racer) :: after ∧ Run m before m₁ ∧
        m₁.tasks[c.racer]? = some c.task ∧ m₁.step? c.racer = some m₂ ∧
        m₂.tasks[c.racer]? = some (c.task.resumed c.pending (result.map .json)) ∧
        Run m₂ after m' ∧ Decides c.total (history ++ completions c.race m before) result := by
  induction h generalizing history with
  | refl => exact .inl ht
  | @step m m₁ m' a as ha hrun ih =>
    have hchange := happen?_change ha
    have hr₁ := record_change hchange (fit_reachable hm) hr
    by_cases ht₁ : m₁.tasks[c.racer]? = some c.task
    · obtain hwait | ⟨before, after, m₂, m₃, result, rfl, hb, h₂, h₃, hres,
          hafter, hdec⟩ :=
        ih (hm.run (.single ha)) hr₁ ht₁
      · exact .inl hwait
      · refine .inr ⟨a :: before, after, m₂, m₃, result, rfl, .step ha hb, h₂, h₃,
          hres, hafter, ?_⟩
        rwa [completions_cons ha, ← List.append_assoc]
    · right
      cases hchange with
      | idle _ hi => exact absurd (hi.keeps ht) ht₁
      | @step i t e _ hs =>
        by_cases hi : i = c.racer
        · subst hi
          cases hs.task.symm.trans ht
          obtain ⟨htask, -⟩ | ⟨result, htask, hdec⟩ :=
            racer_step hs (ledger_reachable hm) hr
          · exact absurd (htask ▸ hs.self) ht₁
          · refine ⟨[], as, m, m₁, result, rfl, .refl, ht, ha, htask ▸ hs.self, hrun, ?_⟩
            simpa [completions] using hdec
        · exact absurd (hs.other (Ne.symm hi) ht) ht₁

/-- Once the race is decided, who waits for it can step. -/
theorem racer_can_step {result : Except Fault Json} (hr : c.Record m history)
    (ht : m.tasks[c.racer]? = some c.task) (hd : Decides c.total history result) :
    ∃ e m', m.step? c.racer = some m' ∧ Stepped m c.racer c.task e m' := by
  obtain ⟨x, seen, rest, hb, rfl⟩ := hr.booked
  obtain ⟨e, he⟩ : ∃ e, c.task.step? m.world c.racer = some e := by
    simp only [Task.step?, c.waits, hb.race, hb.arrivals]
    cases rest with
    | cons b rest => exact ⟨_, rfl⟩
    | nil =>
      -- all branches that have ended have failed, so this is decided only if none is left
      rw [List.append_nil] at hd
      have hfind := List.findSome?_eq_none_iff.mpr (hb.waiting ht).1
      cases result with
      | ok v => simp [Decides.ok_iff.mp hd] at hfind
      | error e => simp [hb.looked, hb.total, hd.of_error.2.1]
  obtain ⟨m', hm', hs⟩ := stepped_of_task ht he
  exact ⟨e, m', hm', hs⟩

/-- Once the race is decided, nobody else has to do anything for it to be resolved. -/
theorem resolves {result : Except Fault Json} (hm : m.Reachable) (hr : c.Record m history)
    (ht : m.tasks[c.racer]? = some c.task) (hd : Decides c.total history result) :
    ∃ n m', Run m (List.replicate n (.move (.step c.racer))) m' ∧
      m'.tasks[c.racer]? = some (c.task.resumed c.pending (result.map .json)) := by
  obtain ⟨x, seen, rest, hb, -⟩ := hr.booked
  have hx := hb.race
  clear hb
  induction hn : x.arrivals.length using Nat.strongRecOn generalizing m x with
  | ind n ih =>
    subst hn
    obtain ⟨e, m₁, hm₁, hs⟩ := racer_can_step hr ht hd
    have ha : m.happen? (.move (.step c.racer)) = some m₁ := hm₁
    obtain ⟨htask, y, x₁, hy, hx₁, hlt⟩ | ⟨result', htask, hd'⟩ :=
      racer_step hs (ledger_reachable hm) hr
    · cases hx.symm.trans hy
      have hnone : e.task.completion? c.race c.racer m₁.world.now = none := by
        apply Task.completion?_eq_none
        intro _
        simp [htask, Task.hasEnded, c.waits]
      have hr₁ := record_change (.step hs) (fit_reachable hm) hr
      rw [hs.completed_eq, hnone, Option.toList_none, List.append_nil] at hr₁
      obtain ⟨n, m', hrun, hres⟩ :=
        ih _ hlt (hm.run (.single ha)) hr₁ (htask ▸ hs.self) x₁ hx₁ rfl
      exact ⟨n + 1, m', .step ha hrun, hres⟩
    · cases hd.unique hd'
      exact ⟨1, m₁, .single ha, htask ▸ hs.self⟩

/-- If all have failed, all have ended. -/
theorem all_ended {fault : Fault} (hl : m.Ledger) (hr : c.Record m history)
    (hd : Decides c.total history (.error fault)) {k : Nat} (hk : k < c.total) :
    ∃ v, m.ending? (c.first + k) = some v := by
  obtain ⟨hlen, hlaunched⟩ := hr.length_eq hl
  rw [hd.of_error.2.1, ← hlaunched] at hlen
  obtain ⟨u, hu, hrole⟩ := hr.seated.present k hk
  have he := arrived_eq_launched_iff.mp hlen.symm _ u hu (Task.isBranch_iff.mpr ⟨k, hrole⟩)
  obtain ⟨v, hp⟩ := Task.hasEnded_iff.mp he
  exact ⟨v, ending?_eq_some_iff.mpr ⟨u, hu, hp⟩⟩

/-- The failure of a race without branches comes only from a branch that has failed so itself. -/
theorem emptyRace_of_branch (hr : c.Record m history)
    (hd : Decides c.total history (.error .emptyRace)) :
    ∃ k < c.total, m.ending? (c.first + k) = some (.fault .emptyRace) := by
  cases hd with
  | @lost before b _ _ hfault _ =>
    obtain ⟨hlt, v, hv, hend⟩ := hr.told.ended b (by simp)
    have hb : b.ending = .fault .emptyRace := by
      unfold Arrival.fault? at hfault
      split at hfault <;> simp_all
    rw [Verdict.join_eq_emptyRace (hend.symm.trans hb)] at hv
    exact ⟨b.branch, hlt, hv⟩

/-- The contest that task `i` starts when it executes a race. -/
def start (m : Machine r) (i : Nat) (t : Task) (pending : List Continuation) (ps : List Program)
    (h : ps ≠ []) : Contest where
  race := m.world.races.size
  racer := i
  task := { t with phase := .racing m.world.races.size pending }
  pending := pending
  waits := rfl
  first := m.tasks.size
  total := ps.length
  pos := List.length_pos_iff.mpr h

section
variable {k : Cursor} {ps : List Program} {pending : List Continuation}

/-- Starting a race launches its branches and waits for them. -/
theorem start_step (ht : m.tasks[i]? = some t) (hp : t.phase = .running k)
    (hk : k.advance = .execute (.race ps) pending) (hps : ps ≠ []) :
    ∃ e m', m.step? i = some m' ∧ Stepped m i t e m' ∧
      e.task = (start m i t pending ps hps).task ∧
      e.launched = t.branches m.world.races.size 0 ps ∧
      e.world.races = m.world.races.push ⟨ps.length, 0, .emptyRace, []⟩ := by
  have he : t.step? m.world i = some (t.dispatch m.world i pending (.race ps)) := by
    simp [Task.step?, hp, hk]
  obtain ⟨m', hm', hs⟩ := stepped_of_task ht he
  refine ⟨_, m', hm', hs, ?_⟩
  cases ps with
  | nil => exact absurd rfl hps
  | cons p ps => exact ⟨rfl, rfl, rfl⟩

theorem start_record (hm : m.Reachable) (hs : Stepped m i t e m') (hps : ps ≠ [])
    (htask : e.task = (start m i t pending ps hps).task)
    (hl : e.launched = t.branches m.world.races.size 0 ps)
    (hr : e.world.races = m.world.races.push ⟨ps.length, 0, .emptyRace, []⟩) :
    (start m i t pending ps hps).Record m' [] := by
  have hledger := ledger_reachable hm
  have hf := fit_reachable hm
  have hrace : m'.world.races[m.world.races.size]? = some ⟨ps.length, 0, .emptyRace, []⟩ := by
    simp [hs.world, hr]
  -- the branches are exactly what was launched
  have hadded (j : Nat) (p : Program) (hj : ps[j]? = some p) : m'.tasks[m.tasks.size + j]? =
      some (t.child (.branch m.world.races.size j) (t.span.branch j) p) := by
    apply hs.added
    simp [hl, Task.branches_getElem?, hj]
  refine ⟨⟨?_, ?_, ?_, ?_⟩, ⟨by simp, ?_, by simp, by simp, by simp⟩,
    ⟨ps.length, 0, .emptyRace, []⟩, [], [], ⟨hrace, rfl, rfl, rfl, ?_⟩, rfl⟩
  · exact (Array.getElem?_eq_some_iff.mp hrace).1
  · intro j u pending' hu hp
    obtain hju | ⟨rfl, -, -⟩ := hs.racing_cases hf hu hp
    · exact absurd (hledger.racing j u _ pending' hju hp) (Nat.lt_irrefl _)
    · rfl
  · intro j u k hu hrole
    -- nobody was a branch of this race before
    have hnew (j : Nat) (u : Task) (hu : m.tasks[j]? = some u)
        (hrole : u.role = .branch m.world.races.size k) : False :=
      Nat.lt_irrefl _ (hledger.branch j u _ hu (Task.isBranch_iff.mpr ⟨k, hrole⟩))
    obtain ⟨rfl, rfl⟩ | ⟨-, hju⟩ | ⟨k', rfl, hk'⟩ := hs.cases hu
    · exact (hnew j t hs.task (hs.turn.role_eq ▸ hrole)).elim
    · exact (hnew j u hju hrole).elim
    · rw [hl, Task.branches_getElem?, Nat.zero_add] at hk'
      obtain ⟨p, hp, rfl⟩ := Option.map_eq_some_iff.mp hk'
      cases hrole
      exact ⟨rfl, (List.getElem?_eq_some_iff.mp hp).1⟩
  · intro k hk
    exact ⟨_, hadded k _ (List.getElem?_eq_getElem hk), rfl⟩
  · intro k v hk hv
    obtain ⟨u, hu, hp⟩ := ending?_eq_some_iff.mp hv
    cases (hadded k _ (List.getElem?_eq_getElem hk)).symm.trans hu
    cases hp
  · exact fun _ => ⟨by simp, rfl⟩

end

end Contest

namespace Machine
variable {m : Machine r} {i : Nat} {t : Task} {k : Cursor} {ps : List Program}
  {pending : List Continuation}

/-- A race goes by the order in which its branches end: the first success decides it, or else their
failures once all have ended. What is decided stays decided, and the waiting task resolves it. -/
theorem race_outcome (hm : m.Reachable) (ht : m.tasks[i]? = some t) (hp : t.phase = .running k)
    (hk : k.advance = .execute (.race ps) pending) (hps : ps ≠ []) :
    let c := Contest.start m i t pending ps hps
    ∃ m₁, m.step? i = some m₁ ∧ m₁.tasks[i]? = some c.task ∧
      (∀ (n : Nat) (p : Program), ps[n]? = some p →
        m₁.tasks[c.first + n]? = some (t.child (.branch c.race n) (t.span.branch n) p)) ∧
      ∀ as m', Run m₁ as m' →
        c.Told m' (completions c.race m₁ as) ∧
        (m'.tasks[i]? = some c.task ∨
          ∃ before after m₂ m₃, ∃ result : Except Fault Json,
            as = before ++ .move (.step i) :: after ∧ Run m₁ before m₂ ∧
            m₂.tasks[i]? = some c.task ∧ m₂.step? i = some m₃ ∧
            m₃.tasks[i]? = some (t.resumed pending (result.map .json)) ∧ Run m₃ after m' ∧
            Decides ps.length (completions c.race m₁ before) result ∧
            Decides ps.length (completions c.race m₁ as) result) ∧
        (∀ result : Except Fault Json, Decides ps.length (completions c.race m₁ as) result →
          m'.tasks[i]? = some c.task →
          ∃ n m'', Run m' (List.replicate n (.move (.step i))) m'' ∧
            m''.tasks[i]? = some (t.resumed pending (result.map .json))) ∧
        ((∃ v, Decides ps.length (completions c.race m₁ as) (.ok v)) ↔
          ∃ b ∈ completions c.race m₁ as, b.value?.isSome) ∧
        (∀ b ∈ completions c.race m₁ as, ∀ v, b.value? = some v →
          (∀ d ∈ completions c.race m₁ as, d ≠ b → d.value?.isSome →
            b.time < d.time) →
          Decides ps.length (completions c.race m₁ as) (.ok v)) ∧
        ((∃ fault, Decides ps.length (completions c.race m₁ as) (.error fault)) ↔
          (completions c.race m₁ as).length = ps.length ∧
            ∀ b ∈ completions c.race m₁ as, b.value? = none) ∧
        (∀ fault, Decides ps.length (completions c.race m₁ as) (.error fault) →
          ∀ n < ps.length, ∃ v, m'.ending? (c.first + n) = some v) ∧
        (Decides ps.length (completions c.race m₁ as) (.error .emptyRace) →
          ∃ n < ps.length, m'.ending? (c.first + n) = some (.fault .emptyRace)) := by
  intro c
  obtain ⟨e, m₁, hm₁, hs, htask, hl, hr⟩ := Contest.start_step ht hp hk hps
  have hrec := Contest.start_record hm hs hps htask hl hr
  have hreach : m₁.Reachable := hm.run (.single (a := .move (.step i)) hm₁)
  have ht₁ : m₁.tasks[i]? = some c.task := htask ▸ hs.self
  refine ⟨m₁, hm₁, ht₁, ?_, ?_⟩
  · intro n p hn
    apply hs.added
    simp [hl, Task.branches_getElem?, hn, c, Contest.start]
  · intro as m' hrun
    have hrec' : c.Record m' (completions c.race m₁ as) := Contest.record_run hreach hrun hrec
    have hledger := ledger_reachable (hreach.run hrun)
    refine ⟨hrec'.told, ?_, ?_, Decides.exists_ok_iff, ?_,
      Decides.exists_error_iff c.pos, ?_, ?_⟩
    · obtain hwait | ⟨before, after, m₂, m₃, result, rfl, hb, h₂, h₃, hres,
          hafter, hdec⟩ :=
        Contest.race_run hreach hrun hrec ht₁
      · exact .inl hwait
      · refine .inr ⟨before, after, m₂, m₃, result, rfl, hb, h₂, h₃, hres,
          hafter, hdec, ?_⟩
        have hle := hrec'.length_le hledger
        rw [completions_append hb] at hle ⊢
        exact hdec.append hle
    · exact fun result hdec hwait => Contest.resolves (hreach.run hrun) hrec' hwait hdec
    · exact fun b hb v hv hfirst => .of_earliest hrec'.told.sorted hb hv hfirst
    · exact fun fault hdec n hn => Contest.all_ended hledger hrec' hdec hn
    · exact Contest.emptyRace_of_branch hrec'

/-- A branch that fails at once, one that panics, and a slow one. -/
def threeBranches : List Program :=
  [(Flow.throw (.explicit "no") : Flow .json).program,
    (Flow.runExternal ⟨.ms 3, .panic "oh"⟩).program,
    ((Flow.delay 5).followedBy (Flow.pure (a := .json) Json.null)).program]

/-- The slow branch wins against two that fail earlier. -/
theorem race_outcome_three :
    ∃ m m₁ : Machine (Bench.new.setup .empty []).runner, m.Reachable ∧
    m.step? 0 = some m₁ ∧ ∃ as m₂ m₃ t, Run m₁ as m₂ ∧ m₂.step? 0 = some m₃ ∧
      Decides 3 (completions 0 m₁ as) (.ok .null) ∧
      m₃.tasks[0]? = some (Task.resumed t [] (.ok (.json .null))) := by
  let m := ((Bench.new.setup .empty []).machine.launch (.step (.race threeBranches)) 0).1
  have hm : m.Reachable := ⟨_, [.launch _ 0], Setup.machine_initial _, .single rfl⟩
  obtain ⟨m₁, hm₁, -, -, hruns⟩ :=
    race_outcome hm (i := 0) (t := runner _ _ 0) rfl rfl rfl (by simp [threeBranches])
  let as : List Happening := ([1, 2, 3, 0].map (.move <| .step ·) ++ .move .tick ::
    [2, 0].map (.move <| .step ·)) ++ .move .tick :: [3, 3, 0, 0].map (.move <| .step ·)
  have hend : ((m.step? 0).bind fun m₁ => (m₁.follow? as).map fun m' =>
      ((m'.ending? 0).isSome, (completions 0 m₁ as).findSome? (·.value?))) =
        some (true, some .null) := by
    decide +kernel
  rw [hm₁, Option.bind_some] at hend
  obtain ⟨m', hm', heq⟩ := Option.map_eq_some_iff.mp hend
  obtain ⟨hended, hvalue⟩ := Prod.mk.inj heq
  obtain ⟨-, hcases, -⟩ := hruns as m' (run_of_follow? hm')
  obtain hwait | ⟨before, after, m₂, m₃, result, -, hb, -, h₃, hres, -, hdec,
    hall⟩ := hcases
  · simp [ending?, hwait, Contest.start] at hended
  · cases hall.unique (Decides.ok_iff.mpr hvalue)
    exact ⟨m, m₁, hm, hm₁, before, m₂, m₃, _, hb, h₃, hdec, hres⟩

end Machine

end Workflow
