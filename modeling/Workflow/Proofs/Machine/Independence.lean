import Workflow.Proofs.Machine.Lone
import Workflow.Proofs.Machine.Share

/-! Programs that are forked together, each with a share of the container of its own.

Each forked program goes its own way, and what the others do in between does not matter for it. So
all schedules lead to the same end, and so does running the programs one after the other. -/
namespace Workflow

variable {r : Runner}

/-- A program and the share of the container that it keeps to. -/
structure Strand where
  flow : Flow .json
  share : Share
  keeps : flow.program.Only (Operation.StaysIn share)

/-- Forks all programs in turn and goes on with their handles. -/
def Flow.forkAll {b : Kind} : List (Flow .json) → (List Handle → Flow b) → Flow b
  | [], next => next []
  | f :: fs, next => (Flow.fork f).andThen fun h => forkAll fs fun hs => next (h :: hs)

/-- Awaits all handles in turn. -/
def Flow.awaitAll : List Handle → Flow .unit
  | [] => Flow.pure ()
  | h :: hs => (Flow.await h).followedBy (awaitAll hs)

theorem Flow.harmless_awaitAll (hs : List Handle) :
    (Flow.awaitAll hs).program.Only Operation.Harmless := by
  induction hs with
  | nil => exact .done
  | cons h hs ih =>
    exact Flow.only_andThen (.step ⟨trivial, rfl⟩ (by simp [Operation.programs])) fun _ => ih

namespace Strand
variable {x y : Strand} {container i j : Nat} {s₀ s₁ s s' : Scene r} {v v' : Verdict Dyn}

def Apart (x y : Strand) : Prop := x.share.Apart y.share

theorem apart_of_ne {strands : List Strand} (h : strands.Pairwise Apart) (hx : strands[i]? = some x)
    (hy : strands[j]? = some y) (hij : i ≠ j) : x.Apart y := by
  obtain ⟨hi, rfl⟩ := List.getElem?_eq_some_iff.mp hx
  obtain ⟨hj, rfl⟩ := List.getElem?_eq_some_iff.mp hy
  rcases Nat.lt_or_gt_of_ne hij with hlt | hlt
  · exact List.pairwise_iff_getElem.mp h i j hi hj hlt
  · exact (List.pairwise_iff_getElem.mp h j i hj hi hlt).symm

/-- The program that is started on one scene has ended by the time of the other, whatever others
have done to the rest of the container. -/
def Ends (x : Strand) (container : Nat) (s₀ : Scene r) (v : Verdict Dyn) (s : Scene r) : Prop :=
  ∃ t : Task, t.phase = .ended v ∧
    Trail #[] (Scene.AgreeOn x.share) (Machine.runner r x.flow.program container).bare s₀ t s

theorem keepsTo (x : Strand) (container : Nat) :
    (Machine.runner r x.flow.program container).KeepsTo x.share := by
  refine ⟨⟨Cursor.only_new x.keeps, by simp [Machine.runner]⟩, ?_⟩
  intro due alarm pending hp
  cases hp

/-- There is one end. -/
theorem Ends.unique (h : x.Ends container s₀ v s) (h' : x.Ends container s₀ v' s') :
    v = v' ∧ Scene.AgreeOn x.share s s' := by
  obtain ⟨t, hp, htrail⟩ := h
  obtain ⟨t', hp', htrail'⟩ := h'
  have stuck {t : Task} {v : Verdict Dyn} {s : Scene r} (hp : t.phase = .ended v) :
      t.solo? #[] s = none := by
    simp [Task.solo?, Task.step?, hp]
  obtain ⟨rfl, hs⟩ := Trail.unique (Trail.unaffected_keepsTo x.share) (x.keepsTo container).bare
    (.refl s₀) htrail (stuck hp) htrail' (stuck hp')
  cases hp.symm.trans hp'
  exact ⟨rfl, hs⟩

theorem Ends.later (h : x.Ends container s₀ v s) (hs : Scene.AgreeOn x.share s s') :
    x.Ends container s₀ v s' := by
  obtain ⟨t, hp, htrail⟩ := h
  exact ⟨t, hp, htrail.trans (.other hs .refl)⟩

theorem Ends.earlier (hs : Scene.AgreeOn x.share s₁ s₀) (h : x.Ends container s₀ v s) :
    x.Ends container s₁ v s := by
  obtain ⟨t, hp, htrail⟩ := h
  exact ⟨t, hp, .other hs htrail⟩

end Strand

namespace Task
variable {t : Task} {w : World r} {self container : Nat} {e : Effect r}

/-- How far a task is that forks programs and is harmless
afterwards: these are still to be forked. -/
inductive Spreads (container : Nat) : List (Flow .json) → Task → Prop
  | forking {t : Task} {c : Cursor} {b : Kind} {f : Flow .json} {fs : List (Flow .json)}
    {next : List Handle → Flow b} (hcontainer : t.container = container) (hb : t.boundaries = [])
    (hp : t.phase = .running c)
    (hc : c.advance = Cursor.advance ⟨(Flow.forkAll (f :: fs) next).program, []⟩)
    (hnext : ∀ hs, (next hs).program.Only Operation.Harmless) : Spreads container (f :: fs) t
  | settled {t : Task} (ht : t.Only Operation.Harmless) : Spreads container [] t

theorem advance_forkAll {b : Kind} (f : Flow .json) (fs : List (Flow .json))
    (next : List Handle → Flow b) :
    Cursor.advance ⟨(Flow.forkAll (f :: fs) next).program, []⟩ = .execute (.fork f.program)
      [Flow.continuation (a := .handle) fun h => Flow.forkAll fs fun hs => next (h :: hs)] :=
  (Cursor.advance_andThen (a := .handle) (Flow.fork f) _ []).trans (Cursor.advance_step ..)

theorem spreads_runner {b : Kind} {next : List Handle → Flow b}
    (hnext : ∀ hs, (next hs).program.Only Operation.Harmless) (fs : List (Flow .json))
    (container : Nat) :
    (Machine.runner r (Flow.forkAll fs next).program container).Spreads container fs := by
  cases fs with
  | nil => exact .settled ⟨Cursor.only_new (hnext []), by simp [Machine.runner]⟩
  | cons f fs => exact .forking rfl rfl rfl rfl hnext

/-- The task that has forked one program goes on to fork the others. -/
theorem spreads_resumed {b : Kind} {next : List Handle → Flow b}
    (hnext : ∀ hs, (next hs).program.Only Operation.Harmless)
    (hcontainer : t.container = container) (hb : t.boundaries = []) (fs : List (Flow .json))
    (h : Handle) :
    (t.resumed [Flow.continuation (a := .handle) fun h => Flow.forkAll fs fun hs => next (h :: hs)]
      (.ok ⟨.handle, h⟩)).Spreads container fs := by
  cases fs with
  | nil =>
    refine .settled ⟨Cursor.only_resume (stackOnly_cons.mpr ⟨?_, stackOnly_nil⟩) _, ?_⟩
    · exact Flow.continuation_cases (fun h => hnext [h]) fun _ => .throw
    · simp [resumed, hb]
  | cons f fs =>
    have hcurrent := congrArg (fun p => Cursor.advance ⟨p, []⟩)
      (Flow.continuation_mk (a := .handle)
        (fun h => Flow.forkAll (f :: fs) fun hs => next (h :: hs)) h)
    exact .forking hcontainer hb rfl hcurrent fun hs => hnext (h :: hs)

/-- A step of the task that forks leaves the scene alone; it forks
the next program, or none is left. -/
theorem Spreads.step? {fs : List (Flow .json)} (ht : t.Spreads container fs)
    (he : t.step? w self = some e) : e.world.scene = w.scene ∧
      ((fs = [] ∧ e.launched = [] ∧ e.task.Spreads container fs) ∨
        ∃ f rest, fs = f :: rest ∧ t.container = container ∧
          e.world.cells.size = w.cells.size + 1 ∧
          e.launched = [t.child (.fork ⟨w.cells.size⟩) t.span.fork f.program] ∧
          e.task.Spreads container rest) := by
  cases ht with
  | settled ht =>
    obtain ⟨hscene, hlaunched, hkept⟩ := ht.step?_harmless he
    exact ⟨hscene, .inl ⟨rfl, hlaunched, .settled hkept⟩⟩
  | @forking _ c b f fs next hcontainer hb hp hc hnext =>
    rw [advance_forkAll] at hc
    simp only [Task.step?, hp, hc] at he
    cases he
    exact ⟨rfl, .inr ⟨f, fs, rfl, hcontainer, Array.size_push .., rfl,
      spreads_resumed hnext hcontainer hb fs _⟩⟩

end Task

namespace Machine
variable {m n n' : Machine r} {a : Move} {container i j k : Nat} {t : Task} {e : Effect r}
  {strands : List Strand} {x : Strand}

theorem Tracks.mono {allowed : Operation Program → Prop} {cells : Array Cell}
    {R R' : Scene r → Scene r → Prop} {t₀ : Task} {s₀ : Scene r}
    (hR : ∀ s s', R s s' → R' s s') (h : n.Tracks allowed cells R t₀ s₀ j) :
    n.Tracks allowed cells R' t₀ s₀ j := by
  obtain ⟨t, ht, honly, htrail⟩ := h
  exact ⟨t, ht, honly, htrail.mono hR⟩

/-- Task `j` runs the strand from the scene `s₀` on, whatever
others do to the rest of the container. -/
def Follows (x : Strand) (container : Nat) (s₀ : Scene r) (n : Machine r) (j : Nat) : Prop :=
  n.Tracks (Operation.StaysIn x.share) #[] (Scene.AgreeOn x.share)
    (runner r x.flow.program container).bare s₀ j

variable {s₀ : Scene r}

theorem Follows.move (h : Follows x container s₀ n j) (hm : n.move? a = some n')
    (hother : ∀ i, a = .step i → i ≠ j →
      Scene.AgreeOn x.share n.world.scene n'.world.scene) :
    Follows x container s₀ n' j := by
  refine Tracks.move h hm (fun op hop => hop.solitary) ?_ hother
  obtain ⟨t, ht, honly, -⟩ := h
  intro t' handle pending result ht' hp
  cases ht.symm.trans ht'
  have hphase := honly.phase
  rw [hp] at hphase
  exact hphase.1.elim

/-- A strand whose run is over has ended. -/
theorem Follows.ends (h : Follows x container s₀ n j) (hend : (n.ending? j).isSome ∨ n.AtRest) :
    ∃ v, n.ending? j = some v ∧ x.Ends container s₀ v n.world.scene := by
  obtain ⟨t, ht, htrail, hstuck⟩ :=
    Tracks.stuck h (fun op hop => hop.solitary) (fun _ hop => hop.elim) hend
  have hkeeps := htrail.keepsTo (x.keepsTo container).bare
  obtain ⟨v, hv⟩ := hkeeps.ended (by rwa [Task.bare_bare])
  exact ⟨v, ending?_eq_some_iff.mpr ⟨t, ht, Task.bare_ended_iff.mp hv⟩, t.bare, hv, htrail⟩

/-- A step of a strand launches nothing and leaves other shares alone. -/
theorem Follows.agreeOn (h : Follows x container s₀ n j) (hs : Stepped n j t e n')
    (he : t.step? n.world j = some e) :
    e.launched = [] ∧ ∀ L, x.share.Apart L →
      Scene.AgreeOn L n.world.scene n'.world.scene := by
  obtain ⟨u, hu, honly, htrail⟩ := h
  cases hs.task.symm.trans hu
  refine ⟨Task.launched_eq_nil he honly fun op hop => hop.solitary, fun L hL => ?_⟩
  rw [hs.world]
  exact honly.agreeOn hL he

/-- Where a machine is that runs nothing but a task that forks the
strands, of which it has forked `k`. -/
structure Spread (m : Machine r) (container : Nat) (strands : List Strand) (n : Machine r)
    (k : Nat) : Prop where
  reachable : n.Reachable
  bound : k ≤ strands.length
  size : n.tasks.size = m.tasks.size + 1 + k
  handles : n.world.cells.size = m.world.cells.size + k
  parent : ∃ t, n.tasks[m.tasks.size]? = some t ∧
    t.Spreads container ((strands.drop k).map Strand.flow)
  roles : ∀ i < k, ∃ t, n.tasks[m.tasks.size + 1 + i]? = some t ∧
    t.role = .fork ⟨m.world.cells.size + i⟩
  forked : ∀ (i : Nat) (x : Strand), i < k → strands[i]? = some x →
    Follows x container m.world.scene n (m.tasks.size + 1 + i)
  waiting : ∀ (i : Nat) (x : Strand), k ≤ i → strands[i]? = some x →
    Scene.AgreeOn x.share m.world.scene n.world.scene
  untouched : ∀ L : Share, (∀ x ∈ strands, x.share.Apart L) →
    Scene.AgreeOn L m.world.scene n.world.scene
  others : ∀ (i : Nat) (t : Task), i < m.tasks.size → n.tasks[i]? = some t → t.Inert

/-- The step that forks the next strand. -/
theorem Spread.fork (h : Spread m container strands n k)
    (hm : n.move? (.step m.tasks.size) = some n') (hs : Stepped n m.tasks.size t e n')
    (hx : strands[k]? = some x) (hscene : e.world.scene = n.world.scene)
    (hcells : e.world.cells.size = n.world.cells.size + 1) (hcontainer : t.container = container)
    (hlaunched : e.launched = [t.child (.fork ⟨n.world.cells.size⟩) t.span.fork x.flow.program])
    (hparent : e.task.Spreads container ((strands.drop (k + 1)).map Strand.flow)) :
    Spread m container strands n' (k + 1) := by
  have hsame : n'.world.scene = n.world.scene := by rw [hs.world, hscene]
  have hsize := h.size
  have hchild : n'.tasks[m.tasks.size + 1 + k]? =
      some (t.child (.fork ⟨n.world.cells.size⟩) t.span.fork x.flow.program) := by
    have := hs.added (k := 0) (by rw [hlaunched]; rfl)
    rwa [hsize] at this
  refine ⟨h.reachable.run (.single (a := .move (.step m.tasks.size)) hm),
    (List.getElem?_eq_some_iff.mp hx).1, ?_, ?_, ⟨e.task, hs.self, hparent⟩, ?_,
    ?_, ?_, ?_, ?_⟩
  · rw [hs.size, hlaunched, List.length_singleton]
    omega
  · rw [hs.world, hcells, h.handles]
    omega
  · intro i hi
    rcases Nat.lt_succ_iff_lt_or_eq.mp hi with hlt | rfl
    · obtain ⟨u, hu, hr⟩ := h.roles i hlt
      obtain ⟨u', hu', hkept⟩ := hs.role_kept hu
      exact ⟨u', hu', hkept.trans hr⟩
    · exact ⟨_, hchild, by rw [← h.handles]; rfl⟩
  · intro i y hi hy
    rcases Nat.lt_succ_iff_lt_or_eq.mp hi with hlt | rfl
    · exact (h.forked i y hlt hy).move hm fun _ _ _ => .of_eq hsame.symm
    · cases hx.symm.trans hy
      refine ⟨_, hchild, ⟨Cursor.only_new x.keeps, by simp [Task.child]⟩, ?_⟩
      rw [hsame]
      subst hcontainer
      exact .other (h.waiting i x (Nat.le_refl i) hx) .refl
  · intro i y hi hy
    rw [hsame]
    exact h.waiting i y (Nat.le_of_succ_le hi) hy
  · intro L hL
    rw [hsame]
    exact h.untouched L hL
  · intro i u hi hu
    obtain ⟨rfl, -⟩ | ⟨-, hu⟩ | ⟨l, hl, -⟩ := hs.cases hu
    · exact absurd hi (Nat.lt_irrefl _)
    · exact h.others i u hi hu
    · omega

section
variable (hapart : strands.Pairwise Strand.Apart)
include hapart

/-- A step that launches nothing and touches no share but that of the task, if it runs a strand. -/
theorem Spread.quiet (h : Spread m container strands n k) (hm : n.move? (.step j) = some n')
    (hs : Stepped n j t e n') (hlaunched : e.launched = [])
    (hparent : j = m.tasks.size → e.task.Spreads container ((strands.drop k).map Strand.flow))
    (hinert : j < m.tasks.size → e.task.Inert)
    (hscene : ∀ L : Share,
      (∀ i x, strands[i]? = some x → j = m.tasks.size + 1 + i → x.share.Apart L) →
      Scene.AgreeOn L n.world.scene n'.world.scene) : Spread m container strands n' k where
  reachable := h.reachable.run (.single (a := .move (.step j)) hm)
  bound := h.bound
  size := by
    rw [hs.size, hlaunched, h.size]
    rfl
  handles := by
    have hf := fit_reachable h.reachable j t hs.task
    rw [hs.world, (hs.turn.onCells hf).size_eq hlaunched, h.handles]
  parent := by
    obtain ⟨u, hu, hspreads⟩ := h.parent
    by_cases hj : j = m.tasks.size
    · exact ⟨e.task, hj ▸ hs.self, hparent hj⟩
    · exact ⟨u, hs.other (Ne.symm hj) hu, hspreads⟩
  roles i hi := by
    obtain ⟨u, hu, hr⟩ := h.roles i hi
    obtain ⟨u', hu', hkept⟩ := hs.role_kept hu
    exact ⟨u', hu', hkept.trans hr⟩
  forked i x hi hx := by
    refine (h.forked i x hi hx).move hm ?_
    intro j' hj' hne
    cases hj'
    refine hscene x.share fun i' y hy hj => ?_
    exact Strand.apart_of_ne hapart hy hx (by omega)
  waiting i x hi hx := by
    have hlt := hs.lt
    have hsize := h.size
    refine (h.waiting i x hi hx).trans (hscene x.share fun i' y hy hj => ?_)
    exact Strand.apart_of_ne hapart hy hx (by omega)
  untouched L hL :=
    (h.untouched L hL).trans (hscene L fun i x hx _ => hL x (List.mem_of_getElem? hx))
  others i u hi hu := by
    obtain ⟨rfl, rfl⟩ | ⟨-, hu⟩ | ⟨l, -, hl⟩ := hs.cases hu
    · exact hinert hi
    · exact h.others i u hi hu
    · simp [hlaunched] at hl

theorem Spread.move (h : Spread m container strands n k) (hm : n.move? a = some n') :
    ∃ k', Spread m container strands n' k' := by
  cases a with
  | tick =>
    have ha : n.happen? (.move .tick) = some n' := hm
    obtain ⟨htasks, hscene, hcells⟩ := tick_eq hm
    refine ⟨k, h.reachable.run (.single ha), h.bound, htasks ▸ h.size, hcells ▸ h.handles,
      htasks ▸ h.parent, htasks ▸ h.roles, ?_, hscene ▸ h.waiting, hscene ▸ h.untouched,
      htasks ▸ h.others⟩
    intro i x hi hx
    exact (h.forked i x hi hx).move hm nofun
  | step j =>
    obtain ⟨t, e, he, hs⟩ := step?_stepped hm
    have hlt := hs.lt
    rw [h.size] at hlt
    rcases Nat.lt_trichotomy j m.tasks.size with hj | rfl | hj
    · -- one of the tasks from before
      obtain ⟨hscene, hlaunched, hinert⟩ :=
        (h.others j t hj hs.task).step? (fit_reachable h.reachable j t hs.task) he
      rw [← hs.world] at hscene
      exact ⟨k, h.quiet hapart hm hs hlaunched (by omega) (fun _ => hinert)
        fun L _ => .of_eq hscene.symm⟩
    · -- the task that forks
      obtain ⟨u, hu, hspreads⟩ := h.parent
      cases hs.task.symm.trans hu
      obtain ⟨hscene, ⟨-, hlaunched, hnext⟩ |
          ⟨f, rest, hfs, hcontainer, hcells, hlaunched, hnext⟩⟩ :=
        hspreads.step? he
      · rw [← hs.world] at hscene
        exact ⟨k, h.quiet hapart hm hs hlaunched (fun _ => hnext) (by omega)
          fun L _ => .of_eq hscene.symm⟩
      · obtain ⟨x, xs, hdrop, rfl, rfl⟩ := List.map_eq_cons_iff.mp hfs
        have hx : strands[k]? = some x := by
          have := congrArg List.head? hdrop
          simpa using this
        have hxs : strands.drop (k + 1) = xs := by
          rw [← List.tail_drop, hdrop]
          rfl
        exact ⟨k + 1, h.fork hm hs hx hscene hcells hcontainer hlaunched (hxs ▸ hnext)⟩
    · -- a strand
      obtain ⟨i, rfl⟩ : ∃ i, j = m.tasks.size + 1 + i :=
        ⟨j - (m.tasks.size + 1), by omega⟩
      have hi : i < k := by omega
      obtain ⟨x, hx⟩ : ∃ x, strands[i]? = some x :=
        ⟨_, List.getElem?_eq_getElem (Nat.lt_of_lt_of_le hi h.bound)⟩
      obtain ⟨hlaunched, hscene⟩ := (h.forked i x hi hx).agreeOn hs he
      refine ⟨k, h.quiet hapart hm hs hlaunched (by omega) (by omega) fun L hL => ?_⟩
      exact hscene L (hL i x hx rfl)

theorem Spread.moves {as : List Move} (h : Spread m container strands n k) (hm : n.Moves as n') :
    ∃ k', Spread m container strands n' k' := by
  refine hm.invariant (P := fun n => ∃ k, Spread m container strands n k) ?_ ⟨k, h⟩
  rintro n a n' ⟨k, h⟩ ha
  exact h.move hapart ha

end

theorem spread_launch {b : Kind} {next : List Handle → Flow b} (hm : m.Reachable) (hcalm : m.Calm)
    (hnext : ∀ hs, (next hs).program.Only Operation.Harmless) : Spread m container strands
      (m.launch (Flow.forkAll (strands.map Strand.flow) next).program container).1 0 where
  reachable := reachable_launch hm
  bound := Nat.zero_le _
  size := by simp [launch]
  handles := rfl
  parent :=
    ⟨runner r _ container, by simp [launch, runner], Task.spreads_runner hnext _ container⟩
  roles _ hi := absurd hi (Nat.not_lt_zero _)
  forked _ _ hi := absurd hi (Nat.not_lt_zero _)
  waiting _ _ _ _ := .refl _
  untouched _ _ := .refl _
  others i t hi ht := launch_inert hcalm.inert i t ht (Nat.ne_of_lt hi)

/-- When nothing can proceed any more, every strand has ended, and its handle says how. -/
theorem Spread.ends (h : Spread m container strands n k) (hrest : n.AtRest)
    (hx : strands[i]? = some x) : ∃ v, n.ending? (m.tasks.size + 1 + i) = some v ∧
      n.status ⟨m.world.cells.size + i⟩ = (Phase.ended v).status ∧
      x.Ends container m.world.scene v n.world.scene := by
  have hforked : i < k := by
    obtain ⟨t, ht, hspreads⟩ := h.parent
    generalize hfs : (strands.drop k).map Strand.flow = fs at hspreads
    cases hspreads with
    | forking hcontainer hb hp hc =>
      -- the task could still fork
      have hstuck := (move?_eq_none_iff.mp hrest).1 m.tasks.size
      simp [step?, ht, Task.step?, hp, hc, Task.advance_forkAll] at hstuck
    | settled =>
      have hlength : strands.length ≤ k := by simpa using hfs
      exact Nat.lt_of_lt_of_le (List.getElem?_eq_some_iff.mp hx).1 hlength
  obtain ⟨v, hv, hends⟩ := (h.forked i x hforked hx).ends (.inr hrest)
  obtain ⟨t, ht, hr⟩ := h.roles i hforked
  obtain ⟨u, hu, hp⟩ := ending?_eq_some_iff.mp hv
  cases ht.symm.trans hu
  refine ⟨v, hv, ?_, hends⟩
  rw [← hp]
  exact fork_status (owned_reachable h.reachable) ht hr

/-- The programs are run one after the other; each is started when the one before it has ended. -/
inductive Successive (container : Nat) :
    Machine r → List (Flow .json) → List (Verdict Dyn) → Machine r → Prop
  | nil {m : Machine r} : Successive container m [] [] m
  | cons {m n m' : Machine r} {f : Flow .json} {fs : List (Flow .json)} {v : Verdict Dyn}
    {vs : List (Verdict Dyn)} {as : List Move}
    (hmoves : (m.launch f.program container).1.Moves as n) (hend : n.ending? m.tasks.size = some v)
    (rest : Successive container n fs vs m') :
    Successive container m (f :: fs) (v :: vs) m'

theorem lone_strand {as : List Move} (x : Strand) (hm : m.Reachable)
    (hinert : ∀ (i : Nat) (t : Task), m.tasks[i]? = some t → t.Inert)
    (hmoves : (m.launch x.flow.program container).1.Moves as n) :
    n.Lone (Operation.StaysIn x.share) #[] (runner r x.flow.program container).bare m.world.scene
      m.tasks.size :=
  (lone_launch hm hinert x.keeps fun _ hop => hop.elim).moves (fun _ hop => hop.solitary) hmoves

theorem Lone.follows (h : n.Lone (Operation.StaysIn x.share) #[]
    (runner r x.flow.program container).bare s₀ j) : Follows x container s₀ n j :=
  h.tracks.mono fun _ _ => .of_eq

/-- Where the one task that was not inert has ended, all are. -/
theorem Lone.inert {allowed : Operation Program → Prop} {cells : Array Cell} {t₀ : Task}
    {v : Verdict Dyn} (h : n.Lone allowed cells t₀ s₀ j) (hv : n.ending? j = some v) (i : Nat)
    (t : Task) (ht : n.tasks[i]? = some t) :
    t.Inert := by
  by_cases hi : i = j
  · subst hi
    obtain ⟨u, hu, hp⟩ := ending?_eq_some_iff.mp hv
    cases ht.symm.trans hu
    exact .inr (.inl (Task.hasEnded_iff.mpr ⟨v, hp⟩))
  · exact h.others i t ht hi

theorem exists_successive (order : List Strand) (hm : m.Reachable)
    (hinert : ∀ (i : Nat) (t : Task), m.tasks[i]? = some t → t.Inert) :
    ∃ vs m', Successive container m (order.map Strand.flow) vs m' := by
  induction order generalizing m with
  | nil => exact ⟨[], m, .nil⟩
  | cons x order ih =>
    obtain ⟨as, n, hmoves, hrest⟩ := (m.launch x.flow.program container).1.exists_atRest
    have hlone := lone_strand x hm hinert hmoves
    obtain ⟨v, hv, -⟩ := hlone.follows.ends (.inr hrest)
    obtain ⟨vs, m', hsuccessive⟩ := ih hlone.reachable (hlone.inert hv)
    exact ⟨v :: vs, m', .cons hmoves hv hsuccessive⟩

/-- Strands that are run one after the other end as each would from the first scene on, and what is
apart from all of them stays as it is. -/
theorem Successive.ends {m' : Machine r} {order : List Strand} {vs : List (Verdict Dyn)}
    {result : Strand → Verdict Dyn} (h : Successive container m (order.map Strand.flow) vs m')
    (hm : m.Reachable) (hinert : ∀ (i : Nat) (t : Task), m.tasks[i]? = some t → t.Inert)
    (hapart : order.Pairwise Strand.Apart)
    (hbefore : ∀ x ∈ order, Scene.AgreeOn x.share s₀ m.world.scene)
    (hresult : ∀ x ∈ order, ∀ v s, x.Ends container s₀ v s → v = result x) :
    vs = order.map result ∧ (∀ x ∈ order, x.Ends container s₀ (result x) m'.world.scene) ∧
      ∀ L : Share, (∀ x ∈ order, x.share.Apart L) →
        Scene.AgreeOn L m.world.scene m'.world.scene := by
  induction order generalizing m vs with
  | nil =>
    cases h
    exact ⟨rfl, by simp, fun _ _ => .refl _⟩
  | cons x order ih =>
    cases h with
    | @cons _ n _ _ _ v vs as hmoves hend rest =>
      obtain ⟨hx, hapart⟩ := List.pairwise_cons.mp hapart
      have hlone := lone_strand x hm hinert hmoves
      obtain ⟨v', hv', hends⟩ := hlone.follows.ends (.inl (by simp [hend]))
      cases hend.symm.trans hv'
      have hends := hends.earlier (hbefore x List.mem_cons_self)
      obtain rfl := hresult x List.mem_cons_self v _ hends
      have hframe (L : Share) (hL : x.share.Apart L) :
          Scene.AgreeOn L m.world.scene n.world.scene := by
        obtain ⟨t, -, -, htrail⟩ := hlone.tracks
        exact htrail.agreeOn (x.keepsTo container).bare hL fun _ _ => .of_eq
      obtain ⟨rfl, hothers, hrest⟩ := ih rest hlone.reachable (hlone.inert hend) hapart
        (fun y hy => (hbefore y (List.mem_cons_of_mem _ hy)).trans (hframe y.share (hx y hy)))
        fun y hy => hresult y (List.mem_cons_of_mem _ hy)
      refine ⟨rfl, List.forall_mem_cons.mpr ⟨?_, hothers⟩, fun L hL => ?_⟩
      · exact hends.later (hrest x.share fun y hy => (hx y hy).symm)
      · obtain ⟨hL, hLs⟩ := List.forall_mem_cons.mp hL
        exact (hframe L hL).trans (hrest L hLs)

/-- Strands with shares that are apart end the same in every schedule, and the same as one after
the other in any order. The task that forks them may do anything afterwards that launches nothing
and leaves the scene alone. -/
theorem forkAll_schedule_independent {b : Kind} {next : List Handle → Flow b} (container : Nat)
    (hm : m.Reachable) (hcalm : m.Calm) (hapart : strands.Pairwise Strand.Apart)
    (hnext : ∀ hs, (next hs).program.Only Operation.Harmless) :
    ∃ (result : Strand → Verdict Dyn) (containers : Array Container),
      (∀ as n,
        (m.launch (Flow.forkAll (strands.map Strand.flow) next).program container).1.Moves as n →
        n.AtRest → n.world.containers = containers ∧
          ∀ i x, strands[i]? = some x →
            n.ending? (m.tasks.size + 1 + i) = some (result x) ∧
            n.status ⟨m.world.cells.size + i⟩ = (Phase.ended (result x)).status) ∧
      (∀ order : List Strand, order.Perm strands →
        (∃ vs m', Successive container m (order.map Strand.flow) vs m') ∧
          ∀ vs m', Successive container m (order.map Strand.flow) vs m' →
            vs = order.map result ∧ m'.world.containers = containers) ∧
      ∀ f : Nat → Machine r,
        f 0 = (m.launch (Flow.forkAll (strands.map Strand.flow) next).program container).1 →
        ¬ Endless f := by
  have hspread : Spread m container strands
      (m.launch (Flow.forkAll (strands.map Strand.flow) next).program container).1 0 :=
    spread_launch hm hcalm hnext
  obtain ⟨as₀, n₀, hmoves₀, hrest₀⟩ :=
    (m.launch (Flow.forkAll (strands.map Strand.flow) next).program container).1.exists_atRest
  obtain ⟨k₀, hspread₀⟩ := hspread.moves hapart hmoves₀
  -- one schedule shows how each strand ends
  have hexists :
      ∀ x : Strand,
          ∃ v, x ∈ strands → x.Ends container m.world.scene v n₀.world.scene := by
    intro x
    by_cases hx : x ∈ strands
    · obtain ⟨i, hi⟩ := List.mem_iff_getElem?.mp hx
      obtain ⟨v, -, -, hends⟩ := hspread₀.ends hrest₀ hi
      exact ⟨v, fun _ => hends⟩
    · exact ⟨.value .unit, fun h => absurd h hx⟩
  choose result hresult using hexists
  have hunique (x : Strand) (hx : x ∈ strands) (v : Verdict Dyn) (s : Scene r)
      (h : x.Ends container m.world.scene v s) : v = result x := (h.unique (hresult x hx)).1
  -- and the others leave the same containers
  have hsame (s : Scene r) (hends : ∀ x ∈ strands, x.Ends container m.world.scene (result x) s)
      (hrest : ∀ L : Share, (∀ x ∈ strands, x.share.Apart L) →
        Scene.AgreeOn L m.world.scene s) :
      s.containers = n₀.world.containers := by
    have hshares : ∀ K ∈ strands.map Strand.share, Scene.AgreeOn K s n₀.world.scene := by
      rw [List.forall_mem_map]
      exact fun x hx => ((hends x hx).unique (hresult x hx)).2
    refine Scene.containers_eq hshares fun L hL => ?_
    rw [List.forall_mem_map] at hL
    exact (hrest L hL).symm.trans (hspread₀.untouched L hL)
  refine ⟨result, n₀.world.containers, ?_, ?_, fun f _ => not_endless f⟩
  · intro as n hmoves hrest
    obtain ⟨k, hn⟩ := hspread.moves hapart hmoves
    have hends (i : Nat) (x : Strand) (hx : strands[i]? = some x) :
        n.ending? (m.tasks.size + 1 + i) = some (result x) ∧
          n.status ⟨m.world.cells.size + i⟩ = (Phase.ended (result x)).status ∧
          x.Ends container m.world.scene (result x) n.world.scene := by
      obtain ⟨v, hv, hstatus, hends⟩ := hn.ends hrest hx
      obtain rfl := hunique x (List.mem_of_getElem? hx) v _ hends
      exact ⟨hv, hstatus, hends⟩
    refine ⟨hsame n.world.scene ?_ hn.untouched,
      fun i x hx => ⟨(hends i x hx).1, (hends i x hx).2.1⟩⟩
    intro x hx
    obtain ⟨i, hi⟩ := List.mem_iff_getElem?.mp hx
    exact (hends i x hi).2.2
  · intro order hperm
    refine ⟨exists_successive order hm hcalm.inert, ?_⟩
    intro vs m' hsuccessive
    obtain ⟨hvs, hends, hrest⟩ := hsuccessive.ends hm hcalm.inert
      (hperm.symm.pairwise hapart fun h => h.symm) (fun x _ => .refl _)
      fun x hx => hunique x (hperm.mem_iff.mp hx)
    refine ⟨hvs, hsame m'.world.scene
      (fun x hx => hends x (hperm.mem_iff.mpr hx)) fun L hL => ?_⟩
    exact hrest L fun x hx => hL x (hperm.mem_iff.mp hx)

/-- Overwrites a text, fails inside a boundary, and reads the text again after a while. -/
def rereading : Strand where
  flow :=
    (Flow.recover ((Flow.write .ephemeral "k" "v").followedBy
      (Flow.throw (.explicit "lost")))).andThen
    fun _ => (Flow.delay 2).followedBy
      ((Flow.read .ephemeral "k").andThen fun (text : Option String) =>
        Flow.pure (text.elim Json.null Json.str))
  share := ⟨{"k"}, ∅⟩
  keeps := by
    refine Flow.only_andThen (.step trivial ?_) fun _ =>
        Flow.only_andThen (.step trivial nofun) fun _ =>
      Flow.only_andThen (.step rfl nofun) fun _ => .done
    intro p hp
    obtain rfl := List.mem_singleton.mp hp
    exact Flow.only_andThen (.step rfl nofun) fun _ => .throw

/-- Writes a foreign value, under a key that is also the key of a text, and fails. -/
def failing : Strand where
  flow := (Flow.delay 1).followedBy
    ((Flow.writeForeign "k" .null).followedBy (Flow.throw (.explicit "after")))
  share := ⟨∅, {"k"}⟩
  keeps := Flow.only_andThen (.step trivial nofun) fun _ =>
    Flow.only_andThen (.step rfl nofun) fun _ => .throw

def forkBoth : Flow .unit := Flow.forkAll [rereading.flow, failing.flow] Flow.awaitAll

/-- Two schedules of a task that forks both programs and awaits them, and one program after the
other: the results and the containers are the same. -/
theorem forkAll_schedule_independent_pair :
    ∃ (as as' : List Move) (n n' m' : Machine seeded.runner) (vs : List (Verdict Dyn)),
      (seeded.machine.launch forkBoth.program 0).1.Moves as n ∧
      (seeded.machine.launch forkBoth.program 0).1.Moves as' n' ∧
      as ≠ as' ∧ n.AtRest ∧ n'.AtRest ∧ n.world.containers = n'.world.containers ∧
      n.ending? 1 = n'.ending? 1 ∧ n.ending? 2 = n'.ending? 2 ∧
      Successive 0 seeded.machine [failing.flow, rereading.flow] vs m' ∧
      vs.map some = [n.ending? 2, n.ending? 1] ∧ m'.world.containers = n.world.containers := by
  let strands : List Strand := [rereading, failing]
  let start := (seeded.machine.launch forkBoth.program 0).1
  let as : List Move :=
    [.step 0, .step 0, .step 1, .step 2, .step 0, .step 1, .step 1, .step 1, .tick, .step 2,
      .step 2, .step 2, .tick, .step 1, .step 1, .step 1, .step 0, .step 0, .step 0, .step 0]
  let as' : List Move :=
    [.step 0, .step 1, .step 1, .step 1, .step 1, .step 0, .step 2, .step 0, .tick, .step 2,
      .step 2, .step 2, .tick, .step 1, .step 1, .step 1, .step 0, .step 0, .step 0, .step 0]
  have rest :
      ∀ n : Machine seeded.runner, (n.isQuiet && n.nextDue.isNone) = true → n.AtRest := by
    intro n hn
    obtain ⟨hquiet, hdue⟩ := Bool.and_eq_true_iff.mp hn
    exact move?_eq_none_iff.mpr ⟨isQuiet_iff.mp hquiet, Option.isNone_iff_eq_none.mp hdue⟩
  have hend : (start.follow? (as.map .move)).map (fun n => n.isQuiet && n.nextDue.isNone) =
      some true := by
    decide +kernel
  have hend' : (start.follow? (as'.map .move)).map (fun n => n.isQuiet && n.nextDue.isNone) =
      some true := by
    decide +kernel
  obtain ⟨n, hn, hquiet⟩ := Option.map_eq_some_iff.mp hend
  obtain ⟨n', hn', hquiet'⟩ := Option.map_eq_some_iff.mp hend'
  have hmoves : start.Moves as n := run_of_follow? hn
  have hmoves' : start.Moves as' n' := run_of_follow? hn'
  have hm : seeded.machine.Reachable := ⟨_, [], Setup.machine_initial _, .refl⟩
  have hcalm : seeded.machine.Calm :=
    fun i t ht => .inl ((Setup.machine_initial _).writers i t ht).1
  have hapart : strands.Pairwise Strand.Apart := by
    simp only [strands, List.pairwise_cons, List.mem_singleton, forall_eq, List.not_mem_nil,
      false_implies, implies_true, List.Pairwise.nil, and_true]
    exact ⟨fun _ _ => Set.notMem_empty _, fun _ h => absurd h (Set.notMem_empty _)⟩
  obtain ⟨result, containers, hforked, hserial, -⟩ :=
    forkAll_schedule_independent 0 hm hcalm hapart Flow.harmless_awaitAll
  obtain ⟨hn, hends⟩ := hforked as n hmoves (rest n hquiet)
  obtain ⟨hn', hends'⟩ := hforked as' n' hmoves' (rest n' hquiet')
  obtain ⟨⟨vs, m', hsuccessive⟩, hsame⟩ := hserial [failing, rereading] (.swap _ _ _)
  obtain ⟨rfl, hm'⟩ := hsame vs m' hsuccessive
  have hfirst := (hends 0 rereading rfl).1
  have hsecond := (hends 1 failing rfl).1
  exact ⟨as, as', n, n', m', _, hmoves, hmoves', by decide, rest n hquiet, rest n' hquiet',
    hn.trans hn'.symm, hfirst.trans (hends' 0 rereading rfl).1.symm,
    hsecond.trans (hends' 1 failing rfl).1.symm, hsuccessive,
    congrArg₂ (fun x y => [x, y]) hsecond.symm hfirst.symm, hm'.trans hn.symm⟩

end Machine

end Workflow
