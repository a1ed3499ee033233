import Workflow.Proofs.Machine.Race

/-! The history of a race.

`completions` tells of the branches of a race in the order in which they have ended. A race is
decided by this history alone, and `Contest.Record` ties the history to the machine. -/
namespace Workflow

variable {r : Runner}

/-- The end of a branch as its race sees it, and when. -/
structure Completion extends Arrival where
  time : Nat

/-- The value with which a branch has succeeded. -/
def Arrival.value? (a : Arrival) : Option Json :=
  match a.ending with
  | .value v => some v
  | _ => none

theorem Arrival.value?_eq_none_iff {a : Arrival} :
    a.value? = none ↔ ∃ e, a.fault? = some e := by
  unfold value? fault?
  cases a.ending <;> simp

theorem Verdict.join_eq_emptyRace {v : Verdict Dyn} {self : Nat}
    (h : v.join self = .fault .emptyRace) : v = .fault .emptyRace := by
  cases v with
  | value d =>
    simp only [join, Dyn.take] at h
    split at h <;> cases h
  | fault e =>
    cases h
    rfl
  | panic message => cases h

/-- What the branches that have ended decide about a race of `total` branches. -/
inductive Decides (total : Nat) : List Completion → Except Fault Json → Prop
  /-- The first success wins, whatever ends after it. -/
  | won {before after : List Completion} {c : Completion} {v : Json}
    (hb : ∀ b ∈ before, b.value? = none) (hv : c.value? = some v) :
    Decides total (before ++ c :: after) (.ok v)
  /-- If all have failed, the last one tells why. -/
  | lost {before : List Completion} {c : Completion} {e : Fault}
    (hb : ∀ b ∈ before, b.value? = none) (hc : c.fault? = some e)
    (hl : (before ++ [c]).length = total) : Decides total (before ++ [c]) (.error e)

/-- The failure that a race keeps while it looks at failures. -/
def lastFault (history : List Completion) : Fault :=
  history.foldl (fun e c => c.fault?.getD e) .emptyRace

theorem lastFault_concat (history : List Completion) (c : Completion) :
    lastFault (history ++ [c]) = c.fault?.getD (lastFault history) := by
  simp [lastFault]

namespace Decides
variable {total : Nat} {history more : List Completion}
  {result result' : Except Fault Json} {v : Json}
  {e : Fault}

theorem ok_iff : Decides total history (.ok v) ↔ history.findSome? (·.value?) = some v := by
  rw [List.findSome?_eq_some_iff]
  constructor
  · rintro ⟨hb, hv⟩
    exact ⟨_, _, _, rfl, hv, hb⟩
  · rintro ⟨before, c, after, rfl, hv, hb⟩
    exact .won hb hv

theorem of_error (h : Decides total history (.error e)) :
    (∀ b ∈ history, b.value? = none) ∧ history.length = total ∧ lastFault history = e := by
  cases h with
  | lost hb hc hl =>
    refine ⟨?_, hl, by simp [lastFault_concat, hc]⟩
    rw [List.forall_mem_append, List.forall_mem_singleton]
    exact ⟨hb, Arrival.value?_eq_none_iff.mpr ⟨_, hc⟩⟩

theorem error_of (hne : history ≠ []) (hb : ∀ b ∈ history, b.value? = none)
    (hl : history.length = total) : Decides total history (.error (lastFault history)) := by
  rw [← List.dropLast_concat_getLast hne] at hb hl ⊢
  rw [List.forall_mem_append, List.forall_mem_singleton] at hb
  obtain ⟨e, he⟩ := Arrival.value?_eq_none_iff.mp hb.2
  rw [lastFault_concat, he]
  exact .lost hb.1 he hl

/-- A race is won exactly if some branch has succeeded. -/
theorem exists_ok_iff :
    (∃ v, Decides total history (.ok v)) ↔ ∃ b ∈ history, b.value?.isSome := by
  simp only [ok_iff]
  rw [← Option.isSome_iff_exists, List.findSome?_isSome_iff]

/-- A race is lost exactly if all branches have failed. -/
theorem exists_error_iff (hpos : 0 < total) :
    (∃ e, Decides total history (.error e)) ↔
      history.length = total ∧ ∀ b ∈ history, b.value? = none := by
  constructor
  · rintro ⟨e, h⟩
    exact ⟨h.of_error.2.1, h.of_error.1⟩
  · rintro ⟨hl, hb⟩
    have hne : history ≠ [] := List.length_pos_iff.mp (hl ▸ hpos)
    exact ⟨_, error_of hne hb hl⟩

theorem unique (h : Decides total history result) (h' : Decides total history result') :
    result = result' := by
  have clash {v : Json} {e : Fault} (ho : Decides total history (.ok v))
      (he : Decides total history (.error e)) : False := by
    have := List.findSome?_eq_none_iff.mpr he.of_error.1
    simp [ok_iff.mp ho] at this
  cases result with
  | ok v =>
    cases result' with
    | ok v' => exact congrArg _ (Option.some.inj ((ok_iff.mp h).symm.trans (ok_iff.mp h')))
    | error e' => exact (clash h h').elim
  | error e =>
    cases result' with
    | ok v' => exact (clash h' h).elim
    | error e' => rw [← h.of_error.2.2, h'.of_error.2.2]

/-- A success is final, and so is the failure of all. -/
theorem append (h : Decides total history result) (hl : (history ++ more).length ≤ total) :
    Decides total (history ++ more) result := by
  cases h with
  | won hb hv =>
    rw [List.append_assoc, List.cons_append]
    exact .won hb hv
  | lost hb hc hlen =>
    obtain rfl : more = [] := by
      rw [List.length_append, hlen] at hl
      exact List.length_eq_zero_iff.mp (by omega)
    rw [List.append_nil]
    exact .lost hb hc hlen

/-- A success that comes before every other one in time wins. -/
theorem of_earliest {c : Completion} (hs : history.Pairwise (·.time ≤ ·.time))
    (hc : c ∈ history) (hv : c.value? = some v)
    (hfirst : ∀ d ∈ history, d ≠ c → d.value?.isSome → c.time < d.time) :
    Decides total history (.ok v) := by
  cases hfind : history.findSome? (·.value?) with
  | none => simp [List.findSome?_eq_none_iff.mp hfind c hc] at hv
  | some v' =>
    obtain ⟨before, d, after, rfl, hd, hb⟩ := List.findSome?_eq_some_iff.mp hfind
    by_cases hdc : d = c
    · subst hdc
      exact .won hb hv
    · -- then `c` ends after `d`, which is a success too
      have hlt := hfirst d (by simp) hdc (by simp [hd])
      have hafter : c ∈ after := by
        rcases List.mem_append.mp hc with hmem | hmem
        · simp [hb c hmem] at hv
        · exact (List.mem_cons.mp hmem).resolve_left (Ne.symm hdc)
      have hle := (List.pairwise_cons.mp (List.pairwise_append.mp hs).2.1).1 c hafter
      omega

end Decides

/-- How the task has ended, if it is a branch of the race and has. -/
def Task.completion? (race self now : Nat) (t : Task) : Option Completion :=
  match t.role, t.phase with
  | .branch race' index, .ended v =>
    if race' = race then some { branch := index, ending := v.join self, time := now } else none
  | _, _ => none

theorem Task.completion?_of_ended {t : Task} {race index : Nat} {v : Verdict Dyn} (self now : Nat)
    (hr : t.role = .branch race index) (hp : t.phase = .ended v) :
    t.completion? race self now = some { branch := index, ending := v.join self, time := now } := by
  simp [completion?, hr, hp]

theorem Task.completion?_eq_none {t : Task} {race : Nat} (self now : Nat)
    (h : t.isBranch race = true → t.hasEnded = false) : t.completion? race self now = none := by
  unfold completion?
  split
  next race' index v hr hp =>
    rw [if_neg]
    rintro rfl
    simp [isBranch, hr, hasEnded, hp] at h
  next => rfl

namespace Machine
variable {m m' m'' : Machine r} {a : Happening} {as bs : List Happening}
  {i j race : Nat} {t u : Task}
  {e : Effect r}

/-- The branch of the race that has ended by what has just happened. -/
def completed (race : Nat) (a : Happening) (m : Machine r) : Option Completion :=
  match a with
  | .move (.step i) => m.tasks[i]?.bind (Task.completion? race i m.world.now)
  | _ => none

/-- The branches of the race that end during a run, the earliest first. -/
def completions (race : Nat) (m : Machine r) : List Happening → List Completion
  | [] => []
  | a :: as =>
    match m.happen? a with
    | some m' => (completed race a m').toList ++ completions race m' as
    | none => []

theorem completions_cons (ha : m.happen? a = some m') :
    completions race m (a :: as) = (completed race a m').toList ++ completions race m' as := by
  simp [completions, ha]

theorem completions_append (h : Run m as m') :
    completions race m (as ++ bs) = completions race m as ++ completions race m' bs := by
  induction h with
  | refl => rfl
  | step ha _ ih =>
    rw [List.cons_append, completions_cons ha, completions_cons ha, ih, List.append_assoc]

theorem Stepped.completed_eq (hs : Stepped m i t e m') (race : Nat) :
    completed race (.move (.step i)) m' = e.task.completion? race i m'.world.now := by
  simp [completed, hs.self]

theorem completed_of_idle (ha : ∀ i, a ≠ .move (.step i)) : completed race a m = none := by
  unfold completed
  split
  next i => exact absurd rfl (ha i)
  next => rfl

theorem Stepped.ending?_other {v : Verdict Dyn} (hs : Stepped m i t e m') (hj : j ≠ i)
    (hlt : j < m.tasks.size) (hv : m'.ending? j = some v) : m.ending? j = some v := by
  obtain ⟨u, hu, hp⟩ := ending?_eq_some_iff.mp hv
  obtain ⟨rfl, -⟩ | ⟨-, hju⟩ | ⟨k, rfl, -⟩ := hs.cases hu
  · exact absurd rfl hj
  · exact ending?_eq_some_iff.mpr ⟨u, hju, hp⟩
  · omega

end Machine

/-- A race, who waits for it, and its branches, which are the tasks from `first` on. -/
structure Contest where
  race : Nat
  racer : Nat
  task : Task
  pending : List Continuation
  waits : task.phase = .racing race pending
  first : Nat
  total : Nat
  pos : 0 < total

namespace Contest

open Machine

/-- The branches are in their places, and nobody else waits for the race. -/
structure Seated (c : Contest) (m : Machine r) : Prop where
  known : c.race < m.world.races.size
  only : ∀ (j : Nat) (u : Task) (pending : List Continuation), m.tasks[j]? = some u →
    u.phase = .racing c.race pending → j = c.racer
  placed :
    ∀ (j : Nat) (u : Task) (k : Nat), m.tasks[j]? = some u → u.role = .branch c.race k →
    j = c.first + k ∧ k < c.total
  present : ∀ k < c.total, ∃ u, m.tasks[c.first + k]? = some u ∧ u.role = .branch c.race k

/-- The history tells of all branches that have ended, of each once, in order of time. -/
structure Told (c : Contest) (m : Machine r) (history : List Completion) : Prop where
  ended :
    ∀ b ∈ history, b.branch < c.total ∧ ∃ v, m.ending? (c.first + b.branch) = some v ∧
    b.ending = v.join (c.first + b.branch)
  told : ∀ (k : Nat) (v : Verdict Dyn), k < c.total → m.ending? (c.first + k) = some v →
    ∃ b ∈ history, b.branch = k ∧ b.ending = v.join (c.first + k)
  nodup : (history.map (·.branch)).Nodup
  sorted : history.Pairwise (·.time ≤ ·.time)
  past : ∀ b ∈ history, b.time ≤ m.world.now

/-- The race has looked at `seen`, and `rest` is still before it. Who waits for it has seen failures
only, and keeps the last one. -/
structure Booked (c : Contest) (m : Machine r) (x : Race) (seen rest : List Completion) : Prop where
  race : m.world.races[c.race]? = some x
  total : x.total = c.total
  looked : x.seen = seen.length
  arrivals : x.arrivals = rest.map (·.toArrival)
  waiting : m.tasks[c.racer]? = some c.task →
    (∀ b ∈ seen, b.value? = none) ∧ x.lastFault = lastFault seen

variable {c : Contest} {m m' : Machine r} {a : Happening} {i : Nat} {t : Task} {e : Effect r}
  {history seen rest : List Completion} {x : Race}

theorem seated_step (hs : Stepped m i t e m') (hf : m.Fit) (hc : c.Seated m) : c.Seated m' := by
  have hr := hs.turn.onRaces (hf i t hs.task)
  refine ⟨?_, ?_, ?_, ?_⟩
  · rw [hs.world]
    exact Nat.lt_of_lt_of_le hc.known hr.size_le
  · intro j u pending hu hp
    obtain hju | ⟨-, hrace, -⟩ := hs.racing_cases hf hu hp
    · exact hc.only j u pending hju hp
    · exact absurd hrace (Nat.ne_of_lt hc.known)
  · intro j u k hu hrole
    obtain ⟨u₀, hu₀, hrole₀⟩ | ⟨-, hrace, -⟩ :=
      hs.branch_cases hf hu (Task.isBranch_iff.mpr ⟨k, hrole⟩)
    · exact hc.placed j u₀ k hu₀ (hrole₀.trans hrole)
    · exact absurd hrace (Nat.ne_of_lt hc.known)
  · intro k hk
    obtain ⟨u, hu, hrole⟩ := hc.present k hk
    obtain ⟨u', hu', hrole'⟩ := hs.role_kept hu
    exact ⟨u', hu', hrole'.trans hrole⟩

theorem seated_idle {added : List Task} (hi : Idled m a added m') (hc : c.Seated m) :
    c.Seated m' := by
  refine ⟨?_, ?_, ?_, ?_⟩
  · rw [hi.races]
    exact hc.known
  · intro j u pending hu hp
    obtain hu | ⟨-, hu⟩ := hi.cases hu
    · exact hc.only j u pending hu hp
    · obtain ⟨p, container, -, rfl⟩ := hi.programs u hu
      cases hp
  · intro j u k hu hrole
    obtain hu | ⟨-, hu⟩ := hi.cases hu
    · exact hc.placed j u k hu hrole
    · obtain ⟨p, container, -, rfl⟩ := hi.programs u hu
      cases hrole
  · intro k hk
    obtain ⟨u, hu, hrole⟩ := hc.present k hk
    exact ⟨u, hi.keeps hu, hrole⟩

theorem Seated.first_lt (hc : c.Seated m) {k : Nat} (hk : k < c.total) :
    c.first + k < m.tasks.size := by
  obtain ⟨u, hu, -⟩ := hc.present k hk
  exact (Array.getElem?_eq_some_iff.mp hu).1

/-- The history grows by the branch that ends in a step. -/
theorem told_arrives (hs : Stepped m i t e m') (hc : c.Seated m) (hh : c.Told m history) {k : Nat}
    {v : Verdict Dyn} (hrole : t.role = .branch c.race k) (hp : e.task.phase = .ended v) :
    c.Told m' (history ++ [{ branch := k, ending := v.join i, time := m'.world.now }]) := by
  have hchange : Change m (.move (.step i)) m' := .step hs
  obtain ⟨rfl, hk⟩ := hc.placed i t k hs.task hrole
  have hnow := now_le_of_change hchange
  have hv : m'.ending? (c.first + k) = some v := ending?_eq_some_iff.mpr ⟨e.task, hs.self, hp⟩
  refine ⟨?_, ?_, ?_, ?_, ?_⟩
  · rw [List.forall_mem_append, List.forall_mem_singleton]
    refine ⟨?_, hk, v, hv, rfl⟩
    intro b hb
    obtain ⟨hlt, v', hv', he⟩ := hh.ended b hb
    exact ⟨hlt, v', ending?_of_change hchange hv', he⟩
  · intro k' v' hk' hv'
    by_cases heq : k' = k
    · subst heq
      cases hv.symm.trans hv'
      exact ⟨_, List.mem_append_right _ (List.mem_singleton.mpr rfl), rfl, rfl⟩
    · have hold := hs.ending?_other (by omega) (hc.first_lt hk') hv'
      obtain ⟨b, hb, hbranch, hend⟩ := hh.told k' v' hk' hold
      exact ⟨b, by simp [hb], hbranch, hend⟩
  · rw [List.map_append, List.nodup_append]
    refine ⟨hh.nodup, by simp, ?_⟩
    -- a branch that the history tells of has ended, and this one had not
    rintro _ hmem _ hk' rfl
    obtain ⟨b, hb, rfl⟩ := List.mem_map.mp hmem
    obtain ⟨-, v', hv', -⟩ := hh.ended b hb
    obtain rfl : b.branch = k := by simpa using hk'
    simp [hs.ending?_eq_none] at hv'
  · rw [List.pairwise_append]
    refine ⟨hh.sorted, by simp, ?_⟩
    intro b hb d hd
    obtain rfl := List.mem_singleton.mp hd
    exact Nat.le_trans (hh.past b hb) hnow
  · rw [List.forall_mem_append, List.forall_mem_singleton]
    exact ⟨fun b hb => Nat.le_trans (hh.past b hb) hnow, Nat.le_refl _⟩

/-- As long as no branch ends, the history stays as it is. -/
theorem told_keeps (hchange : Change m a m') (hh : c.Told m history)
    (hold : ∀ (k : Nat) (v : Verdict Dyn), k < c.total → m'.ending? (c.first + k) = some v →
      m.ending? (c.first + k) = some v) : c.Told m' history := by
  refine ⟨?_, ?_, hh.nodup, hh.sorted, ?_⟩
  · intro b hb
    obtain ⟨hlt, v, hv, he⟩ := hh.ended b hb
    exact ⟨hlt, v, ending?_of_change hchange hv, he⟩
  · intro k v hk hv
    exact hh.told k v hk (hold k v hk hv)
  · exact fun b hb => Nat.le_trans (hh.past b hb) (now_le_of_change hchange)

theorem told_change (h : Change m a m') (hc : c.Seated m) (hh : c.Told m history) :
    c.Told m' (history ++ (completed c.race a m').toList) := by
  cases h with
  | idle ha hi =>
    rw [completed_of_idle ha, Option.toList_none, List.append_nil]
    refine told_keeps (.idle ha hi) hh ?_
    intro k v hk hv
    obtain ⟨u, hu, hp⟩ := ending?_eq_some_iff.mp hv
    obtain hu | ⟨hle, -⟩ := hi.cases hu
    · exact ending?_eq_some_iff.mpr ⟨u, hu, hp⟩
    · have := hc.first_lt hk
      omega
  | @step i t e _ hs =>
    rw [hs.completed_eq]
    by_cases hend : t.isBranch c.race = true ∧ e.task.hasEnded = true
    · obtain ⟨k, hrole⟩ := Task.isBranch_iff.mp hend.1
      obtain ⟨v, hp⟩ := Task.hasEnded_iff.mp hend.2
      rw [Task.completion?_of_ended _ _ (hs.turn.role_eq.trans hrole) hp]
      exact told_arrives hs hc hh hrole hp
    · have hnone : e.task.isBranch c.race = true → e.task.hasEnded = false := by
        rw [Task.isBranch_congr hs.turn.role_eq]
        simpa using hend
      rw [Task.completion?_eq_none _ _ hnone, Option.toList_none, List.append_nil]
      refine told_keeps (.step hs) hh ?_
      intro k v hk hv
      refine hs.ending?_other ?_ (hc.first_lt hk) hv
      rintro rfl
      obtain ⟨u, hu, hrole⟩ := hc.present k hk
      cases hs.task.symm.trans hu
      obtain ⟨u, hu, hp⟩ := ending?_eq_some_iff.mp hv
      cases hs.self.symm.trans hu
      exact hend ⟨Task.isBranch_iff.mpr ⟨k, hrole⟩, Task.hasEnded_iff.mpr ⟨v, hp⟩⟩

theorem booked_step (hs : Stepped m i t e m') (hf : m.Fit) (hc : c.Seated m)
    (hb : c.Booked m x seen rest) : ∃ x' seen' rest', c.Booked m' x' seen' rest' ∧
      seen' ++ rest' = seen ++ rest ++ (completed c.race (.move (.step i)) m').toList := by
  -- who waits after the step has waited before it
  have hstill : m'.tasks[c.racer]? = some c.task → m.tasks[c.racer]? = some c.task := by
    intro h
    obtain h | ⟨-, hrace, -⟩ := hs.racing_cases hf h c.waits
    · exact h
    · exact absurd hrace (Nat.ne_of_lt hc.known)
  have hnot := hs.turn.not_ended
  rw [hs.completed_eq]
  cases (hs.turn.onRaces (hf i t hs.task)).onBooks hnot hb.race with
  | @arrives k v hrole ht hx =>
    rw [Task.completion?_of_ended _ _ (hs.turn.role_eq.trans hrole) (by rw [ht])]
    refine ⟨x.receive ⟨k, v.join i⟩, seen, rest ++ [_],
      ⟨hs.world ▸ hx, hb.total, hb.looked, ?_, ?_⟩, (List.append_assoc _ _ _).symm⟩
    · simp [Race.receive, hb.arrivals]
    · exact fun h => hb.waiting (hstill h)
  | @looks pending a arrivals fault hp ha hx ho =>
    rw [Task.completion?_eq_none _ _ fun _ => Task.not_ended_of_look hnot ho, Option.toList_none,
      List.append_nil]
    have hi := hc.only i t pending hs.task hp
    subst hi
    have harr := hb.arrivals
    rw [ha] at harr
    obtain ⟨b, rest', rfl, rfl, rfl⟩ := List.map_eq_cons_iff.mp harr.symm
    refine ⟨⟨x.total, x.seen + 1, fault, _⟩, seen ++ [b], rest',
      ⟨hs.world ▸ hx, hb.total, by simp [hb.looked], rfl, ?_⟩, by simp⟩
    intro h
    obtain ⟨hfail, hlast⟩ := hb.waiting (hstill h)
    have hself : e.task = c.task := Option.some.inj (hs.self.symm.trans h)
    obtain ⟨v, -, ht⟩ | ⟨hfault, -⟩ := ho
    · have hw := c.waits
      rw [← hself, ht] at hw
      cases hw
    · refine ⟨?_, by simp [lastFault_concat, hfault]⟩
      rw [List.forall_mem_append, List.forall_mem_singleton]
      exact ⟨hfail, Arrival.value?_eq_none_iff.mpr ⟨fault, hfault⟩⟩
  | keeps hx he =>
    rw [← Task.isBranch_congr hs.turn.role_eq] at he
    rw [Task.completion?_eq_none _ _ he, Option.toList_none, List.append_nil]
    exact ⟨x, seen, rest, ⟨hs.world ▸ hx, hb.total, hb.looked, hb.arrivals,
      fun h => hb.waiting (hstill h)⟩, rfl⟩

theorem booked_idle {added : List Task} (hi : Idled m a added m') (hb : c.Booked m x seen rest) :
    c.Booked m' x seen rest := by
  refine ⟨hi.races ▸ hb.race, hb.total, hb.looked, hb.arrivals, fun h => hb.waiting ?_⟩
  obtain h | ⟨-, h⟩ := hi.cases h
  · exact h
  · obtain ⟨p, container, -, ht⟩ := hi.programs _ h
    have hw := c.waits
    rw [ht] at hw
    cases hw

/-- The history of a race, as it stands in the machine. -/
structure Record (c : Contest) (m : Machine r) (history : List Completion) : Prop where
  seated : c.Seated m
  told : c.Told m history
  booked : ∃ x seen rest, c.Booked m x seen rest ∧ seen ++ rest = history

theorem record_change (h : Change m a m') (hf : m.Fit) (hr : c.Record m history) :
    c.Record m' (history ++ (completed c.race a m').toList) := by
  have htold := told_change h hr.seated hr.told
  obtain ⟨x, seen, rest, hb, rfl⟩ := hr.booked
  cases h with
  | step hs => exact ⟨seated_step hs hf hr.seated, htold, booked_step hs hf hr.seated hb⟩
  | idle ha hi =>
    refine ⟨seated_idle hi hr.seated, htold, x, seen, rest, booked_idle hi hb, ?_⟩
    rw [completed_of_idle ha, Option.toList_none, List.append_nil]

theorem record_run {as : List Happening} (hm : m.Reachable) (h : Run m as m')
    (hr : c.Record m history) : c.Record m' (history ++ completions c.race m as) := by
  induction h generalizing history with
  | refl => simpa [completions] using hr
  | step ha _ ih =>
    rw [completions_cons ha, ← List.append_assoc]
    exact ih (hm.run (.single ha)) (record_change (happen?_change ha) (fit_reachable hm) hr)

/-- The history tells of exactly as many branches as have ended. -/
theorem Record.length_eq (hl : m.Ledger) (hr : c.Record m history) :
    history.length = m.arrived c.race ∧ m.launched c.race = c.total := by
  obtain ⟨x, seen, rest, hb, rfl⟩ := hr.booked
  refine ⟨?_, by rw [← hl.total c.race x hb.race, hb.total]⟩
  rw [← hl.count c.race x hb.race, hb.looked, hb.arrivals]
  simp

theorem Record.length_le (hl : m.Ledger) (hr : c.Record m history) :
    history.length ≤ c.total := by
  obtain ⟨hlen, hlaunched⟩ := hr.length_eq hl
  rw [hlen, ← hlaunched]
  exact m.arrived_le_launched c.race

end Contest

end Workflow
