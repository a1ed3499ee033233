import Workflow.Proofs.Machine.Forecast

/-! Programs end on their critical path.

Whatever else runs and in whatever order, a task gets through its program in the time that
the critical path of the program says. This goes by induction on the program, for a course
that comes to rest: the ends of forks and branches are then known when they are launched,
and so is how long each wait takes. -/
namespace Workflow

variable {r : Runner}

/-- Task `j` is `t` about to walk on from `c`. -/
def Machine.Executes (m : Machine r) (j : Nat) (t : Task) (c : Cursor) : Prop :=
  ∃ c', m.tasks[j]? = some { t with phase := .running c' } ∧ c'.advance = c.advance

namespace Machine
variable {m : Machine r} {j : Nat} {t : Task} {c c' : Cursor}

theorem Executes.of_advance (h : m.Executes j t c) (hc : c.advance = c'.advance) :
    m.Executes j t c' := by
  obtain ⟨d, hd, hadvance⟩ := h
  exact ⟨d, hd, hadvance.trans hc⟩

end Machine

namespace Course

open Machine

variable (E : Course r)

/-- The handles in reach at moment `n` are those of programs that end as `forks` says. -/
def Foreseen (n : Nat) (R : Handle → Handle → Prop) (forks : List Ending) : Prop :=
  ∀ h h', R h h' → ∃ x, forks[h'.index]? = some x ∧ E.Foretells n h x

/-- From moment `n` on, task `j` gets to where the path has got to,
and goes on with what is pending. -/
def Reaches (n j : Nat) (t : Task) (pending : List Continuation) (R : Handle → Handle → Prop)
    (x : Path) : Prop :=
  ∃ k S result, n ≤ k ∧ k ≤ E.length ∧ E.now k = x.instant ∧
    (E.state k).Executes j t (.resume pending result) ∧ ResultsCorrespond S result x.result ∧
    (∀ h h', R h h' → S h h') ∧ E.Foreseen k S x.forks

/-- A task that executes `p` gets through it on the path of `p'`. -/
def KeepsTime (R : Handle → Handle → Prop) (p p' : Program) : Prop :=
  ∀ n j t pending forks, n ≤ E.length → (E.state n).Executes j t ⟨p, pending⟩ →
    E.Foreseen n R forks →
    (p'.criticalPath forks (E.now n)).untied = true →
    E.Reaches n j t pending R (p'.criticalPath forks (E.now n))

variable {E} {n k j : Nat} {t : Task} {R : Handle → Handle → Prop} {forks : List Ending}
  {pending : List Continuation} {p p' : Program}

theorem Foreseen.mono (h : E.Foreseen n R forks) (hle : n ≤ k) (hk : k ≤ E.length) :
    E.Foreseen k R forks := by
  intro a a' ha
  obtain ⟨x, hx, hforetells⟩ := h a a' ha
  exact ⟨x, hx, hforetells.mono hle hk⟩

/-- A task that runs a program and nothing else ends when the program does. -/
theorem KeepsTime.finishes (h : E.KeepsTime R p p') (hn : n ≤ E.length)
    (ht : (E.state n).tasks[j]? = some t) (hp : t.phase = .running (.new p))
    (hb : t.boundaries = []) (hforks : E.Foreseen n R forks)
    (huntied : (p'.criticalPath forks (E.now n)).untied = true) :
    ∃ S result, E.EndsAt j (.ofExcept result) (p'.criticalPath forks (E.now n)).instant ∧
      ResultsCorrespond S result (p'.criticalPath forks (E.now n)).result := by
  have hexec : (E.state n).Executes j t ⟨p, []⟩ := ⟨.new p, by rw [ht, ← hp], rfl⟩
  obtain ⟨k, S, result, -, hk, hnow, ⟨c, hc, hadvance⟩, hresult, -, -⟩ :=
    h n j t [] forks hn hexec hforks huntied
  refine ⟨S, result, ?_, hresult⟩
  rw [← hnow]
  exact endsAt_of_finished hk hc rfl hb (hadvance.trans (Task.advance_resume_nil result))

theorem KeepsTime.ending (h : E.KeepsTime R p p') (hn : n ≤ E.length)
    (ht : (E.state n).tasks[j]? = some t) (hp : t.phase = .running (.new p))
    (hb : t.boundaries = []) (hforks : E.Foreseen n R forks)
    (huntied : (p'.criticalPath forks (E.now n)).untied = true) :
    E.Finishes j (p'.criticalPath forks (E.now n)).ending := by
  obtain ⟨S, result, hend, hresult⟩ := h.finishes hn ht hp hb hforks huntied
  exact ⟨result, hend, (hresult.take_eq .json rfl).symm⟩

theorem keepsTime_done {v v' : Dyn} (h : v.Corresponds R v') :
    E.KeepsTime R (.done v) (.done v') := by
  intro n j t pending forks hn hexec hforks _
  exact ⟨n, R, .ok v, Nat.le_refl n, hn, rfl, hexec, .ok h, fun _ _ h => h, hforks⟩

theorem keepsTime_throw (e : Fault) : E.KeepsTime R (.throw e) (.throw e) := by
  intro n j t pending forks hn hexec hforks _
  have hexec' : (E.state n).Executes j t (.resume pending (.error e)) :=
    hexec.of_advance ((Cursor.advance_throw e pending).trans (Cursor.advance_throw e []).symm)
  exact ⟨n, R, .error e, Nat.le_refl n, hn, rfl, hexec', .error e, fun _ _ h => h, hforks⟩

theorem keepsTime_bind {k k' : Continuation} (h : E.KeepsTime R p p')
    (hk : ∀ (S : Handle → Handle → Prop) (v v' : Dyn), (∀ h h', R h h' → S h h') →
      v.Corresponds S v' → E.KeepsTime S (k v) (k' v')) :
    E.KeepsTime R (.bind p k) (.bind p' k') := by
  intro n j t pending forks hn hexec hforks huntied
  rw [Program.criticalPath] at huntied ⊢
  obtain ⟨l, S, result, hnl, hl, hnow, hexec', hresult, hS, hforks'⟩ :=
    h n j t (k :: pending) forks hn (hexec.of_advance (Cursor.advance_bind p k pending)) hforks
      (Path.untied_of_andThen huntied)
  generalize p'.criticalPath forks (E.now n) = x at *
  obtain ⟨x, instant, forks', untied⟩ := x
  obtain rfl : E.now l = instant := hnow
  cases hresult with
  | error e => exact ⟨l, S, .error e, hnl, hl, rfl, hexec', .error e, hS, hforks'⟩
  | @ok v v' hv =>
    rw [Path.andThen_ok rfl] at huntied ⊢
    obtain ⟨l', S', result, hle, hl', hnow', hexec'', hresult, hS', hforks''⟩ :=
      hk S v v' hS hv l j t pending forks' hl
        (hexec'.of_advance (Cursor.advance_done_cons v k pending)) hforks'
        (Bool.and_eq_true_iff.mp huntied).2
    exact ⟨l', S', result, Nat.le_trans hnl hle, hl', hnow', hexec'', hresult,
      fun a a' ha => hS' a a' (hS a a' ha), hforks''⟩

theorem keepsTime_delay (duration : Nat) :
    E.KeepsTime R (.step (.delay duration)) (.step (.delay duration)) := by
  rintro n j t pending forks hn ⟨c, hc, hadvance⟩ hforks -
  rw [Cursor.advance_step] at hadvance
  obtain ⟨k, hle, hk, hnow, hs⟩ := executes hn hc rfl hadvance
  have hasleep : (E.state (k + 1)).tasks[j]? =
      some { t with phase := .sleeping (some (E.now k + duration)) .delay pending } := hs.self
  obtain ⟨l, hkl, hl, hdue, hs'⟩ := wakes hk hasleep rfl
    (Nat.le_add_right_of_le (Nat.le_of_eq (now_of_stepped hs)))
  rw [hnow] at hdue
  exact ⟨l + 1, R, .ok .unit, by omega, hl, (now_of_stepped hs').trans hdue,
    ⟨_, hs'.self, rfl⟩, .ok (Dyn.corresponds_of_isPlain rfl), fun _ _ h => h,
    hforks.mono (by omega) hl⟩

theorem keepsTime_fork (h : E.KeepsTime R p p') :
    E.KeepsTime R (.step (.fork p)) (.step (.fork p')) := by
  rintro n j t pending forks hn ⟨c, hc, hadvance⟩ hforks huntied
  rw [Cursor.advance_step] at hadvance
  obtain ⟨k, hle, hk, hnow, hs⟩ := executes hn hc rfl hadvance
  have hnow' : E.now (k + 1) = E.now n := (now_of_stepped hs).trans hnow
  have hforks' := hforks.mono (k := k + 1) (by omega) hk
  -- the program forked is task number `size`, and its handle is the next one
  let handle : Handle := ⟨(E.state k).world.cells.size⟩
  have hchild := hs.added (k := 0) rfl
  have hend := h.ending (j := (E.state k).tasks.size + 0) hk hchild rfl rfl hforks'
    (hnow'.symm ▸ huntied)
  let S (a a' : Handle) : Prop := R a a' ∨ a = handle ∧ a' = ⟨forks.length⟩
  refine ⟨k + 1, S, .ok ⟨.handle, handle⟩, by omega, hk, hnow',
    ⟨_, hs.self, rfl⟩, ?_, ?_, ?_⟩
  · have hfresh : S handle ⟨forks.length⟩ := .inr ⟨rfl, rfl⟩
    exact .ok (.mk hfresh)
  · exact fun _ _ ha => .inl ha
  · rintro a a' (ha | ⟨rfl, rfl⟩)
    · obtain ⟨x, hx, hforetells⟩ := hforks' a a' ha
      exact ⟨x, (List.getElem?_append_left (List.getElem?_eq_some_iff.mp hx).1).trans hx,
        hforetells⟩
    · rw [hnow'] at hend
      exact ⟨_, List.getElem?_concat_length, _, _, hchild, rfl, hend⟩

theorem keepsTime_await {h h' : Handle} (hh : R h h') :
    E.KeepsTime R (.step (.await h)) (.step (.await h')) := by
  rintro n j t pending forks hn ⟨c, hc, hadvance⟩ hforks -
  rw [Cursor.advance_step] at hadvance
  obtain ⟨x, hx, hforetells⟩ := hforks h h' hh
  have hpath : (Program.step (.await h')).criticalPath forks (E.now n) =
      ⟨x.outcome.map .json, max (E.now n) x.instant, forks, true⟩ := by
    simp only [Program.criticalPath, Program.operationPath, hx]
  rw [hpath]
  obtain ⟨k, hle, hk, hnow, hs⟩ := executes hn hc rfl hadvance
  have hnow' : E.now (k + 1) = E.now n := (now_of_stepped hs).trans hnow
  obtain ⟨l, hkl, hl, hend, ht⟩ :=
    awaits (n := k + 1) hk hs.self rfl (hforetells.mono (by omega) hk)
  exact ⟨l + 1, R, x.outcome.map .json, by omega, hl, hnow' ▸ hend, ⟨_, ht, rfl⟩,
    .json x.outcome, fun _ _ ha => ha, hforks.mono (by omega) hl⟩

/-- A program inside a boundary that has ended is left at once. -/
theorem leaves {c : Cursor} {outer : List (List Continuation)} {result : Except Fault Dyn}
    (hn : n ≤ E.length) (ht : (E.state n).tasks[j]? = some t) (hp : t.phase = .running c)
    (hb : t.boundaries = pending :: outer) (hc : c.advance = .finished result) :
    ∃ k, n ≤ k ∧ k < E.length ∧ E.now (k + 1) = E.now n ∧ (E.state (k + 1)).tasks[j]? =
      some ({ t with boundaries := outer }.resumed pending (boundaryAnswer result)) := by
  obtain ⟨k, hle, hk, hnow, hs⟩ := finishes hn ht hp hc
  obtain ⟨w, -, heq⟩ := t.leaveBoundary_eq (E.state k).world pending outer result
  have hself := hs.self
  simp only [Task.finish, hb, heq] at hself
  exact ⟨k, hle, hk, (now_of_stepped hs).trans hnow, hself⟩

theorem keepsTime_recover (h : E.KeepsTime R p p') :
    E.KeepsTime R (.step (.recover p)) (.step (.recover p')) := by
  rintro n j t pending forks hn ⟨c, hc, hadvance⟩ hforks huntied
  rw [Cursor.advance_step] at hadvance
  obtain ⟨k, hle, hk, hnow, hs⟩ := executes hn hc rfl hadvance
  have hnow' : E.now (k + 1) = E.now n := (now_of_stepped hs).trans hnow
  have hforks' := hforks.mono (k := k + 1) (by omega) hk
  obtain ⟨l, S, result, hkl, hl, hend, ⟨d, hd, hfinished⟩, hresult, -, -⟩ :=
    h (k + 1) j { t with boundaries := pending :: t.boundaries } [] forks hk
      ⟨_, hs.self, rfl⟩ hforks'
      (hnow'.symm ▸ huntied)
  obtain ⟨l', hll', hl', hleft, ht⟩ :=
    leaves hl hd rfl rfl (hfinished.trans (Task.advance_resume_nil result))
  rw [hnow'] at hend hresult
  exact ⟨l' + 1, R, boundaryAnswer result, by omega, hl', hleft.trans hend, ⟨_, ht, rfl⟩,
    hresult.boundaryAnswer, fun _ _ ha => ha, hforks.mono (by omega) hl'⟩

theorem keepsTime_race {ps ps' : List Program} (hps : ps ≠ []) (hlen : ps'.length = ps.length)
    (h : ∀ (i : Nat) (p p' : Program), ps[i]? = some p → ps'[i]? = some p' →
      E.KeepsTime R p p') :
    E.KeepsTime R (.step (.race ps)) (.step (.race ps')) := by
  rintro n j t pending forks hn ⟨c, hc, hadvance⟩ hforks huntied
  rw [Cursor.advance_step] at hadvance
  have hps' : ps' ≠ [] := List.ne_nil_of_length_pos (hlen ▸ List.length_pos_iff.mpr hps)
  obtain ⟨y, hy, hpath, hties⟩ := Program.race_criticalPath hps' forks (E.now n)
  obtain ⟨hties, hbranches⟩ := hties huntied
  obtain ⟨k, hle, hk, hnow, hrec, ht, hadded⟩ := starts hn hc rfl hadvance hps
  have hforks' := hforks.mono (k := k + 1) (by omega) hk
  have hfinish : E.Branches (.start (E.state k) j { t with phase := .running c } pending ps hps)
      (ps'.map fun p => (p.criticalPath forks (E.now n)).ending) := by
    refine ⟨(List.length_map ..).trans hlen, fun i x hx => ?_⟩
    rw [List.getElem?_map] at hx
    obtain ⟨p', hp', rfl⟩ := Option.map_eq_some_iff.mp hx
    have hp :=
      List.getElem?_eq_getElem (hlen ▸ (List.getElem?_eq_some_iff.mp hp').1 : i < ps.length)
    rw [← hnow]
    exact (h i _ p' hp hp').ending hk (hadded i _ hp) rfl rfl hforks'
      (hnow.symm ▸ hbranches p' (List.mem_of_getElem? hp'))
  obtain ⟨l, hkl, hl, hend, ht'⟩ := resolves hfinish hties hy hrec (Nat.le_refl _) hk ht
    (now_le_raceEnd hfinish hy hk hrec)
  rw [hpath]
  exact ⟨l + 1, R, y.outcome.map .json, by omega, hl, hend, ⟨_, ht', rfl⟩, .json y.outcome,
    fun _ _ ha => ha, hforks.mono (by omega) hl⟩

/-- Programs of delays, forks, awaits, races and recoveries keep their time. -/
theorem keepsTime (h : p.Timed R p') : E.KeepsTime R p p' := by
  induction h with
  | done h => exact keepsTime_done h
  | throw e => exact keepsTime_throw e
  | delay duration => exact keepsTime_delay duration
  | fork _ ih => exact keepsTime_fork ih
  | await hh => exact keepsTime_await hh
  | race hps hlen _ ih => exact keepsTime_race hps hlen ih
  | recover _ ih => exact keepsTime_recover ih
  | bind _ _ ih ihk => exact keepsTime_bind ih ihk

/-- A program that the host starts ends at the end of its path. -/
theorem launched_ends {m : Machine r} {container : Nat} (hp : p.IsTimed)
    (hstart : E.state 0 = (m.launch p container).1)
    (huntied : (p.criticalPath [] m.world.now).untied = true) :
    ∃ S result, E.EndsAt m.tasks.size (.ofExcept result)
      (p.criticalPath [] m.world.now).instant ∧
      ResultsCorrespond S result (p.criticalPath [] m.world.now).result := by
  have hnow : E.now 0 = m.world.now := by rw [now, hstart]; rfl
  have ht : (E.state 0).tasks[m.tasks.size]? = some (runner r p container) := by
    rw [hstart]
    exact Array.getElem?_push_size
  rw [← hnow] at huntied ⊢
  exact (keepsTime hp).finishes (Nat.zero_le _) ht rfl rfl (fun _ _ h => h.elim) huntied

end Course

namespace Machine
variable {m m' : Machine r} {p : Program} {container : Nat} {as : List Happening}

/-- Until the end of its path a program has not ended, and after it
has, in the way that the path says. -/
theorem launched_cases (hm : m.Reachable) (hrun : Run m (.launch p container :: as) m')
    (hp : p.IsTimed) (huntied : (p.criticalPath [] m.world.now).untied = true) :
    (m'.ending? m.tasks.size = none ∧
      m'.world.now ≤ (p.criticalPath [] m.world.now).instant) ∨
      ∃ result, m'.ending? m.tasks.size = some (.ofExcept result) ∧
        (p.criticalPath [] m.world.now).instant ≤ m'.world.now ∧
        ∀ kind : Kind, kind.isPlain = true →
          (result >>= Dyn.take kind) = (p.criticalPath [] m.world.now).result >>=
            Dyn.take kind := by
  obtain ⟨moves, m'', hmoves, hrest⟩ := exists_atRest m'
  cases hrun with
  | step ha hrun =>
    obtain ⟨E, k, hk, hstart, rfl, -⟩ :=
      Course.exists_course_through (hm.run (.single ha)) hrun hmoves hrest
    obtain ⟨S, result, hend, hresult⟩ :=
      Course.launched_ends hp (hstart.trans (Option.some.inj ha).symm) huntied
    obtain h | ⟨hsome, hnow⟩ := hend.cases hk
    · exact .inl h
    · exact .inr ⟨result, hsome, hnow, fun kind hkind => hresult.take_eq kind hkind⟩

/-- The clock stands still while a task ends. -/
theorem now_eq_of_ends {a : Happening} {j : Nat} {v : Verdict Dyn} (ha : m.happen? a = some m')
    (hnone : m.ending? j = none) (hsome : m'.ending? j = some v) : m'.world.now = m.world.now := by
  apply now_eq_of_ne_tick ha
  rintro rfl
  simp [ending?_of_tick ha, hnone] at hsome

/-- Waiting adds up along the critical path only. Whatever else runs on the machine and in whatever
order tasks step, a program of delays, forks, awaits, races and recoveries ends at the instant and
with the result that the path says. -/
theorem ends_on_critical_path (hm : m.Reachable) (hrun : Run m (.launch p container :: as) m')
    (hp : p.IsTimed) (huntied : (p.criticalPath [] m.world.now).untied = true) :
    let x := p.criticalPath [] m.world.now
    ((m'.ending? m.tasks.size = none ∧ m'.world.now ≤ x.instant) ∨
      ∃ result, m'.ending? m.tasks.size = some (.ofExcept result) ∧
        x.instant ≤ m'.world.now ∧
        ∀ kind : Kind, kind.isPlain = true →
          (result >>= Dyn.take kind) = x.result >>= Dyn.take kind) ∧
    (∀ a m'', m'.happen? a = some m'' → m'.ending? m.tasks.size = none →
      m''.ending? m.tasks.size ≠ none →
      m'.world.now = x.instant ∧ m''.world.now = x.instant) ∧
    (m'.AtRest → m'.ending? m.tasks.size ≠ none) ∧
    (∃ moves m'', m'.Moves moves m'' ∧ m''.AtRest) ∧
    ∀ (i : Nat) (t : Task) (due : Nat) (alarm : Alarm) (pending : List Continuation),
      m'.tasks[i]? = some t → t.phase = .sleeping (some due) alarm pending →
      m'.world.now ≤ due →
      ∀ bs m'', Run m' bs m'' → (m''.tasks[i]? = some t ∧ m''.world.now ≤ due) ∨
        ∃ before after m₁ m₂, bs = before ++ .move (.step i) :: after ∧
          Run m' before m₁ ∧
          m₁.tasks[i]? = some t ∧ m₁.world.now = due ∧ m₁.step? i = some m₂ ∧
          Run m₂ after m'' := by
  intro x
  have hcases := launched_cases hm hrun hp huntied
  refine ⟨hcases, ?_, ?_, exists_atRest m', fun i t due alarm pending ht hphase hd bs m'' hbs =>
    sleeper_run hbs ht hphase hd⟩
  · intro a m'' ha hnone hsome
    obtain ⟨v, hv⟩ := Option.ne_none_iff_exists'.mp hsome
    have hnow := now_eq_of_ends ha hnone hv
    have hrun' : Run m (.launch p container :: (as ++ [a])) m'' := hrun.trans (.single ha)
    obtain ⟨-, hbefore⟩ | ⟨result, hended, -⟩ := hcases
    · obtain ⟨hopen, -⟩ | ⟨result, -, hafter, -⟩ := launched_cases hm hrun' hp huntied
      · exact absurd hopen hsome
      · have heq : m'.world.now = x.instant := Nat.le_antisymm hbefore (hnow ▸ hafter)
        exact ⟨heq, hnow.trans heq⟩
    · simp [hnone] at hended
  · intro hrest
    cases hrun with
    | step ha hrun =>
      obtain ⟨E, hstart, rfl⟩ := Course.exists_course (hm.run (.single ha)) hrun hrest
      obtain ⟨S, result, hend, -⟩ :=
        Course.launched_ends hp (hstart.trans (Option.some.inj ha).symm) huntied
      simp [hend.at_rest]

/-- Forks a slow program, recovers from a failure, lets two branches race of which the first to end
fails, and awaits the slow program. -/
def forkAndRace : Flow .json :=
  (Flow.fork ((Flow.delay 7).followedBy (Flow.pure (a := .json) Json.null))).andThen fun h =>
    (Flow.recover ((Flow.delay 2).followedBy (Flow.throw (.explicit "no")))).followedBy
      ((Flow.race [(Flow.delay 1).followedBy (Flow.throw (.explicit "early")),
        (Flow.delay 4).followedBy (Flow.pure (a := .json) Json.null)]).followedBy (Flow.await h))

theorem forkAndRace_isTimed : forkAndRace.program.IsTimed := by
  have hnull (R : Handle → Handle → Prop) :
      (Flow.pure (a := .json) Json.null).program.Timed R
        (Flow.pure (a := .json) Json.null).program :=
    .done (Dyn.corresponds_of_isPlain rfl)
  refine Flow.timed_andThen (.fork ?_) fun R h h' _ hh => ?_
  · exact Flow.timed_followedBy (.delay 7) fun S _ => hnull S
  refine Flow.timed_followedBy (.recover ?_) fun S hS => ?_
  · exact Flow.timed_followedBy (.delay 2) fun _ _ => .throw _
  refine Flow.timed_followedBy (.race (by simp) rfl ?_) fun S' hS' => .await (hS' _ _ (hS _ _ hh))
  intro i p p' hp hp'
  cases hp.symm.trans hp'
  match i with
  | 0 =>
    cases hp
    exact Flow.timed_followedBy (.delay 1) fun _ _ => .throw _
  | 1 =>
    cases hp
    exact Flow.timed_followedBy (.delay 4) fun S _ => hnull S

/-- The race is won at 6, before the fork has ended, so the program ends with the fork, at 7. -/
theorem ends_on_critical_path_forkAndRace :
    ∃ m m' m'' : Machine (Bench.new.setup .empty []).runner,
    m.Reachable ∧ m.world.now = 0 ∧ (∃ as, Run m (.launch forkAndRace.program 0 :: as) m') ∧
      m'.step? 0 = some m'' ∧ m'.ending? 0 = none ∧ m''.ending? 0 ≠ none ∧
      m''.world.now = 7 := by
  let steps (is : List Nat) : List Happening := is.map (.move <| .step ·)
  let as : List Happening :=
    steps [0, 0, 0, 1] ++ .move .tick :: steps [0, 0, 0, 2, 3] ++ .move .tick ::
      steps [2, 2, 0] ++ .move .tick :: steps [3, 3, 0, 0] ++ .move .tick :: steps [1, 1, 0]
  let m := (Bench.new.setup .empty []).machine
  have hend : ((m.follow? (.launch forkAndRace.program 0 :: as)).bind fun m' =>
      (m'.step? 0).map fun m'' => ((m'.ending? 0).isNone, (m''.ending? 0).isNone)) =
          some (true, false) := by
    decide +kernel
  obtain ⟨m', hm', hstep⟩ := Option.bind_eq_some_iff.mp hend
  obtain ⟨m'', hm'', heq⟩ := Option.map_eq_some_iff.mp hstep
  obtain ⟨hnone, hsome⟩ := Prod.mk.inj heq
  have hm : m.Reachable := ⟨m, [], Setup.machine_initial _, .refl⟩
  have hrun := run_of_follow? hm'
  have huntied : (forkAndRace.program.criticalPath [] m.world.now).untied = true := by
    decide +kernel
  have hinstant : (forkAndRace.program.criticalPath [] m.world.now).instant = 7 := by decide +kernel
  obtain ⟨-, hexact, -⟩ := ends_on_critical_path hm hrun forkAndRace_isTimed huntied
  have hopen : m'.ending? 0 = none := Option.isNone_iff_eq_none.mp hnone
  have hended : m''.ending? 0 ≠ none := fun h => by simp [h] at hsome
  exact ⟨m, m', m'', hm, rfl, ⟨as, hrun⟩, hm'', hopen, hended,
    (hexact (.move (.step 0)) m'' hm'' hopen hended).2.trans hinstant⟩

end Machine

end Workflow
