import Workflow.Proofs.Machine.Handle
import Workflow.Proofs.Machine.Race
import Workflow.Proofs.Machine.Scene
import Workflow.Proofs.Machine.Typing

/-! Where a mismatch of kinds can come from.

Since nobody is ever handed a result of another kind, the failure that would tell of it
comes only from outside: from a program that throws it by itself, from a collaborator, or
from the host. Until then it is nowhere in the machine: no task goes on with it, no cell
holds it, and no race has heard of it. -/
namespace Workflow

variable {r : Runner} {fault : Fault} {name : String}

/-- The failure comes into the machine by the next step of the task. -/
inductive Task.Raises (fault : Fault) (t : Task) (w : World r) : Prop
  /-- The program goes on with throwing it. -/
  | throws {c : Cursor} (hp : t.phase = .running c) (hc : c.Throws fault)
  /-- A program that is launched, or guarded by a boundary, throws it and does nothing else. -/
  | starts {c : Cursor} {op : Operation Program} {pending : List Continuation}
    (hp : t.phase = .running c) (hc : c.advance = .execute op pending)
    (hop : .throw fault ∈ op.programs)
  /-- A collaborator answers so at once. -/
  | accepted {c : Cursor} {op : Operation Program} {pending : List Continuation} {call : Call}
    (hp : t.phase = .running c) (hc : c.advance = .execute op pending) (hop : op.call? = some call)
    (ha : (w.accept t.span call).2 = .now (.fault fault))
  /-- A collaborator answers so after some time. -/
  | answered {due : Nat} {call : Call} {pending : List Continuation}
    (hp : t.phase = .sleeping (some due) (.call call) pending)
    (ha : (w.answer t.span call).2 = .fault fault)
  /-- The host writes it to a handle. -/
  | filled {due : Nat} {h : Handle} {pending : List Continuation}
    (hp : t.phase = .sleeping (some due) (.host h (some (.error fault))) pending)

/-- The failure is none that the race knows of. -/
structure Race.Free (fault : Fault) (x : Race) : Prop where
  lastFault : x.lastFault ≠ fault
  arrivals : ∀ a ∈ x.arrivals, a.ending ≠ .fault fault

/-- No cell holds the failure, and no race knows of it. -/
structure World.Free (fault : Fault) (w : World r) : Prop where
  cells : ∀ (i : Nat) (c : Cell), w.cells[i]? = some c → c.value ≠ some (.error fault)
  races : ∀ (i : Nat) (x : Race), w.races[i]? = some x → x.Free fault

theorem forall_getElem?_modify {α : Type} {P : α → Prop} {xs : Array α} {f : α → α}
    {k : Nat} (h : ∀ (i : Nat) (x : α), xs[i]? = some x → P x)
    (hf : ∀ x, xs[k]? = some x → P (f x)) (i : Nat) (x : α)
    (hx : (xs.modify k f)[i]? = some x) :
    P x := by
  rw [Array.getElem?_modify] at hx
  split at hx
  next heq =>
    subst heq
    obtain ⟨y, hy, rfl⟩ := Option.map_eq_some_iff.mp hx
    exact hf y hy
  next => exact h i x hx

theorem forall_getElem?_push {α : Type} {P : α → Prop} {xs : Array α} {y : α}
    (h : ∀ (i : Nat) (x : α), xs[i]? = some x → P x) (hy : P y) (i : Nat) (x : α)
    (hx : (xs.push y)[i]? = some x) : P x := by
  rw [Array.getElem?_push] at hx
  split at hx
  · cases hx
    exact hy
  · exact h i x hx

namespace World
variable {w w' : World r}

theorem Free.keeps (h : w.Free fault) (hw : w.Keeps w') : w'.Free fault :=
  ⟨hw.cells ▸ h.cells, hw.races ▸ h.races⟩

/-- Waiting for a handle does not lead to a failure that no cell holds. -/
theorem Free.outcome? (hw : w.Free (.typeMismatch name)) (h : Handle) :
    (w.cell h).outcome? h ≠ some (.error (.typeMismatch name)) := by
  intro ho
  unfold Cell.outcome? at ho
  split at ho
  next result hv =>
    cases ho
    unfold cell at hv
    cases hc : w.cells[h.index]? with
    | none => simp [hc, Cell.pending] at hv
    | some c =>
      apply hw.cells h.index c hc
      simpa [hc] using hv
  next =>
    split at ho
    · cases ho
    · cases ho

/-- A task that does not end with the failure tells nobody of it. -/
theorem Free.settle {role : Role} {v : Verdict Dyn} {self : Nat} (h : w.Free (.typeMismatch name))
    (hv : v ≠ .fault (.typeMismatch name))
    (hd : ∀ d, v = .value d → role.kind? = some .json → ∃ j, d.take .json = .ok j)
    (hc : w'.cells = role.settle v w.cells) (hr : w'.races = role.report self v w.races) :
    w'.Free (.typeMismatch name) := by
  constructor
  · rw [hc]
    cases role with
    | fork handle =>
      refine forall_getElem?_modify h.cells ?_
      intro c hget
      cases v with
      | value d =>
        obtain ⟨j, hj⟩ := hd d rfl rfl
        have hvalue : (Verdict.settle (.value d) c).value = some (.ok j) := congrArg some hj
        rw [hvalue]
        nofun
      | fault e => simpa [Verdict.settle, Cell.fill, Cell.write, Cell.abandon] using hv
      | panic message => exact h.cells _ c hget
    | _ => exact h.cells
  · rw [hr]
    cases role with
    | branch race index =>
      refine forall_getElem?_modify h.races ?_
      intro x hget
      obtain ⟨hlast, harr⟩ := h.races _ x hget
      refine ⟨hlast, ?_⟩
      intro a ha
      rcases List.mem_append.mp ha with ha | ha
      · exact harr a ha
      · obtain rfl := List.mem_singleton.mp ha
        cases v with
        | value d =>
          obtain ⟨j, hj⟩ := hd d rfl rfl
          simp [Verdict.join, hj, Verdict.ofExcept]
        | fault e => simpa [Verdict.join] using hv
        | panic message => simp [Verdict.join]
    | _ => exact h.races

end World

theorem Reply.result_ne_mismatch (reply : Reply) (sentinel : String) :
    reply.result sentinel ≠ .error (.typeMismatch name) := by
  cases reply with
  | ui response =>
    intro h
    unfold result decodeResponse at h
    cases hp : Json.parseText response <;> simp [hp, Except.mapError, Except.map] at h
  | _ => nofun

namespace Task
variable {t u : Task} {w w' : World r} {self : Nat} {e : Effect r} {kind : Kind} {c : Cursor}
  {op : Operation Program} {pending pending' : List Continuation}

/-- What a task gets from a collaborator is the failure only if the collaborator says so. -/
theorem receive_fails {verdict : Verdict Reply}
    (h : (t.receive w self pending verdict).task.phase =
      .running ⟨.throw (.typeMismatch name), pending'⟩) :
    verdict = .fault (.typeMismatch name) := by
  cases verdict with
  | value reply =>
    have hresult := Phase.running.inj h
    cases hreply : reply.result r.config.absentSentinel with
    | ok d => simp [hreply, Cursor.resume] at hresult
    | error e =>
      obtain ⟨rfl, -⟩ : e = .typeMismatch name ∧ [] = pending' := by
        simpa [hreply, Cursor.resume] using hresult
      exact absurd hreply (reply.result_ne_mismatch _)
  | fault e =>
    cases h
    rfl
  | panic message => cases h

/-- An operation returns the failure at once only if a collaborator does, or if
it guards a program that throws it. -/
theorem dispatch_fails (hp : t.phase = .running c) (hc : c.advance = .execute op pending)
    (h : (t.dispatch w self pending op).task.phase =
      .running ⟨.throw (.typeMismatch name), pending'⟩) : t.Raises (.typeMismatch name) w := by
  have hexecute :
      ∃ w' : World r, w'.scene = w.scene ∧ (t.execute w' self pending op).task.phase =
      .running ⟨.throw (.typeMismatch name), pending'⟩ := by
    unfold dispatch at h
    split at h
    · exact ⟨w, rfl, h⟩
    · exact ⟨_, w.scene_emit _ _, h⟩
  obtain ⟨w', hscene, h⟩ := hexecute
  cases hcall : op.call? with
  | some call =>
    have hsame : (w'.accept t.span call).2 = (w.accept t.span call).2 := by
      rw [World.accept_reception, World.accept_reception, hscene]
    rw [execute_of_call? hcall] at h
    unfold delegate at h
    split at h
    next u verdict haccept =>
      rw [haccept, receive_fails h] at hsame
      exact .accepted hp hc hcall hsame.symm
    next => cases h
  | none =>
    cases op with
    | recover p =>
      cases h
      exact .starts hp hc (List.mem_singleton.mpr rfl)
    | read store key | delete store key | write store key value =>
      cases store
      · cases hcall
      · cases h
    | race ps => cases ps <;> cases h
    | callApi | runUi | checkPermissions | requestPermissions => cases hcall
    | _ => cases h

/-- Who waits for something outside gets the failure only from there. -/
theorem wake_fails {due : Nat} {alarm : Alarm} (hp : t.phase = .sleeping (some due) alarm pending)
    (h : (t.wake w self pending alarm).task.phase =
      .running ⟨.throw (.typeMismatch name), pending'⟩) : t.Raises (.typeMismatch name) w := by
  cases alarm with
  | delay => cases h
  | external ending =>
    -- an action that fails is told of as a failure of a collaborator
    cases ending <;> cases h
  | call call => exact .answered hp (receive_fails h)
  | background request =>
    simp only [wake, closeBackground] at h
    split at h
    · split at h <;> cases h
    all_goals cases h
  | host handle result => cases result <;> cases h

/-- In a world that is free of the failure, a task goes on with it only if it comes from outside. -/
theorem step?_fails (h : t.step? w self = some e) (hw : w.Free (.typeMismatch name))
    (hp : e.task.phase = .running ⟨.throw (.typeMismatch name), pending'⟩) :
    t.Raises (.typeMismatch name) w := by
  unfold step? at h
  split at h
  next c hrun =>
    split at h <;> cases h
    next result hc =>
      unfold finish at hp
      split at hp
      · cases hp
      · simp only [leaveBoundary] at hp
        split at hp <;> cases hp
    next op pending hc => exact dispatch_fails hrun hc hp
  next => cases h
  next due alarm pending hsleep =>
    split at h
    · cases h
      exact wake_fails hsleep hp
    · cases h
  next handle pending hawait =>
    obtain ⟨result, hc, rfl⟩ := Option.map_eq_some_iff.mp h
    cases result with
    | ok v => cases hp
    | error e =>
      cases hp
      exact absurd hc (hw.outcome? handle)
  next race pending hrace =>
    split at h
    next x hx =>
      obtain ⟨hlast, -⟩ := hw.races race x hx
      split at h
      next a rest ha =>
        cases h
        simp only [judge] at hp
        split at hp <;> cases hp
      next =>
        split at h
        · cases h
        · cases h
          obtain ⟨hfault, -⟩ : x.lastFault = .typeMismatch name ∧ [] = pending' := by
            simpa [proceed, Cursor.resume] using hp
          exact absurd hfault hlast
    next => cases h
  next request hopen =>
    cases h
    simp only [openBackground, closeBackground] at hp
    split at hp
    · split at hp
      · split at hp <;> cases hp
      all_goals cases hp
    · cases hp
  next => cases h

/-- Who ends with a failure has come to it by its program. -/
theorem Turn.ended_fault (h : t.Turn w self e) (he : e.task.phase = .ended (.fault fault)) :
    ∃ c, t.phase = .running c ∧ c.advance = .finished (.error fault) := by
  cases h with
  | @concludes c result hp hc hb =>
    refine ⟨c, hp, ?_⟩
    cases result with
    | ok d => cases he
    | error e =>
      cases he
      exact hc
  | loses hp => cases hp.symm.trans he
  | _ => cases he

/-- The failure gets into no cell and to no race, unless the host
writes it or a task ends with it. -/
theorem Turn.free (h : t.Turn w self e) (hf : t.Fits) (ht : t.Typed kind)
    (hw : w.Free (.typeMismatch name)) (hn : ¬ t.Raises (.typeMismatch name) w)
    (he : e.task.phase ≠ .ended (.fault (.typeMismatch name))) :
    e.world.Free (.typeMismatch name) := by
  have htyped := h.typed hf ht
  have htake {v : Verdict Dyn} (hv : e.task.phase = .ended v) (d : Dyn) (hd : v = .value d)
      (hrole : e.task.role.kind? = some .json) : ∃ j, d.take .json = .ok j := by
    obtain ⟨k, x⟩ := d
    have hphase := htyped.phase
    rw [hv] at hphase
    obtain rfl : k = .json := (hphase _ hd).trans (htyped.role .json hrole).symm
    exact ⟨x, Dyn.take_mk .json x⟩
  cases h with
  | answered _ _ hk | sleeps _ _ hk | awaits _ _ hk | enters _ _ hk => exact hw.keeps hk
  | leaves _ _ _ hk | wakes _ _ _ hk => exact hw.keeps hk
  | opens _ hk | closes _ hk => exact hw.keeps hk
  | awaited | exhausts => exact hw
  | forks _ _ hk =>
    have hw' := hw.keeps hk
    exact ⟨forall_getElem?_push hw'.cells nofun, hw'.races⟩
  | races _ _ _ hk =>
    have hw' := hw.keeps hk
    exact ⟨hw'.cells, forall_getElem?_push hw'.races ⟨nofun, nofun⟩⟩
  | @concludes c result hp hc hb =>
    exact hw.settle (fun hv => he (congrArg Phase.ended hv)) (htake rfl) (conclude_cells t w result)
      (conclude_races t w self result)
  | crashes hp hk =>
    exact (hw.keeps hk).settle (v := .panic _) nofun (htake rfl) (crash_cells t _ self _)
      (crash_races t _ self _)
  | @wins race pending x a rest v w' hp hx ha hv hk =>
    refine World.Free.keeps (w := w.setRace race _)
      ⟨hw.cells, forall_getElem?_modify hw.races ?_⟩ hk
    intro _ _
    obtain ⟨hlast, harr⟩ := hw.races race x hx
    exact ⟨hlast, fun b hb => harr b (ha ▸ .tail _ hb)⟩
  | @loses race pending x a rest fault w' hp hx ha hfault hk =>
    refine World.Free.keeps (w := w.setRace race _)
      ⟨hw.cells, forall_getElem?_modify hw.races ?_⟩ hk
    intro _ _
    obtain ⟨-, harr⟩ := hw.races race x hx
    refine ⟨?_, fun b hb => harr b (ha ▸ .tail _ hb)⟩
    rintro rfl
    have hhead := harr a (ha ▸ .head _)
    unfold Arrival.fault? at hfault
    split at hfault
    · cases hfault
    next hending =>
      cases hfault
      exact hhead hending
    · cases hfault
  | @settles due handle result pending hp hd =>
    refine ⟨forall_getElem?_modify hw.cells ?_, hw.races⟩
    intro cell hget
    cases result with
    | none => exact hw.cells _ cell hget
    | some result =>
      intro hv
      cases hv
      exact hn (.filled hp)

/-- A program fails without having been told so only by what it throws. -/
theorem Typed.raises (ht : t.Typed kind) (hp : t.phase = .running c)
    (hc : c.advance = .finished (.error fault))
    (hn : ∀ pending, t.phase ≠ .running ⟨.throw fault, pending⟩) : t.Raises fault w := by
  obtain ⟨a, hcur, -⟩ := ht.running hp
  obtain ⟨pending, rfl⟩ | hthrows := hcur.throws hc
  · exact absurd hp (hn pending)
  · exact .throws hp hthrows

end Task

namespace Machine
variable {m m' m₀ : Machine r} {a : Happening} {as : List Happening} {j : Nat} {t : Task}

/-- The failure comes into the machine. -/
inductive Raises (fault : Fault) (m : Machine r) : Happening → Prop
  | step {i : Nat} {t : Task} (ht : m.tasks[i]? = some t) (h : t.Raises fault m.world) :
    Raises fault m (.move (.step i))
  | launch {container : Nat} : Raises fault m (.launch (.throw fault) container)

/-- The failure has come into the machine in a run from here. -/
def Raised (fault : Fault) (m : Machine r) (as : List Happening) : Prop :=
  ∃ before a after m₁, as = before ++ a :: after ∧ Run m before m₁ ∧ m₁.Raises fault a

/-- The failure is nowhere in the machine. -/
structure Free (fault : Fault) (m : Machine r) : Prop where
  world : m.world.Free fault
  running : ∀ (j : Nat) (t : Task) (pending : List Continuation), m.tasks[j]? = some t →
    t.phase ≠ .running ⟨.throw fault, pending⟩
  ended : ∀ (j : Nat) (t : Task), m.tasks[j]? = some t → t.phase ≠ .ended (.fault fault)

theorem free_initial (h : Initial m) : m.Free (.typeMismatch name) := by
  have hphase (j : Nat) (t : Task) (ht : m.tasks[j]? = some t) :
      ∃ due h result, t.phase = .sleeping due (.host h result) [] := by
    obtain ⟨-, -, h, ⟨due, result, hp⟩, -⟩ := h.writers j t ht
    exact ⟨due, h, result, hp⟩
  refine ⟨⟨?_, ?_⟩, ?_, ?_⟩
  · intro i c hc
    rw [h.cells c (Array.mem_of_getElem? hc)]
    nofun
  · intro i x hx
    simp [h.races] at hx
  · intro j t pending ht hp
    obtain ⟨_, _, _, hw⟩ := hphase j t ht
    cases hp.symm.trans hw
  · intro j t ht hp
    obtain ⟨_, _, _, hw⟩ := hphase j t ht
    cases hp.symm.trans hw

theorem free_step {i : Nat} (hm : m.Reachable) (ht : m.Typed) (hf : m.Free (.typeMismatch name))
    (hs : m.step? i = some m') (hn : ¬ m.Raises (.typeMismatch name) (.move (.step i))) :
    m'.Free (.typeMismatch name) := by
  obtain ⟨t, e, he, hs⟩ := step?_stepped hs
  have hraises : ¬ t.Raises (.typeMismatch name) m.world := fun h => hn (.step hs.task h)
  obtain ⟨kind, htyped⟩ := ht i t hs.task
  have hfits := fit_reachable hm i t hs.task
  have hended : e.task.phase ≠ .ended (.fault (.typeMismatch name)) := by
    intro hv
    obtain ⟨c, hp, hc⟩ := hs.turn.ended_fault hv
    exact hraises (htyped.raises hp hc fun pending => hf.running i t pending hs.task)
  have hlaunched (u : Task) (hu : u ∈ e.launched) :
      (∀ pending, u.phase ≠ .running ⟨.throw (.typeMismatch name), pending⟩) ∧
        u.phase ≠ .ended (.fault (.typeMismatch name)) := by
    cases hs.turn with
    | answered _ _ _ _ _ hl =>
      obtain rfl | ⟨request, rfl⟩ := hl
      · cases hu
      · obtain rfl := List.mem_singleton.mp hu
        exact ⟨nofun, nofun⟩
    | forks hp hc =>
      obtain rfl := List.mem_singleton.mp hu
      refine ⟨?_, nofun⟩
      intro pending hthrow
      cases hthrow
      exact hraises (.starts hp hc (List.mem_singleton.mpr rfl))
    | races hp hc =>
      obtain ⟨k, p, hmem, rfl⟩ := Task.branches_mem hu
      refine ⟨?_, nofun⟩
      intro pending hthrow
      cases hthrow
      exact hraises (.starts hp hc hmem)
    | _ => cases hu
  refine ⟨?_, ?_, ?_⟩
  · rw [hs.world]
    exact hs.turn.free hfits htyped hf.world hraises hended
  · intro j u pending hu hp
    rcases hs.cases hu with ⟨-, rfl⟩ | ⟨-, hu⟩ | ⟨k, -, hk⟩
    · exact hraises (Task.step?_fails he hf.world hp)
    · exact hf.running j u pending hu hp
    · exact (hlaunched u (List.mem_of_getElem? hk)).1 pending hp
  · intro j u hu hp
    rcases hs.cases hu with ⟨-, rfl⟩ | ⟨-, hu⟩ | ⟨k, -, hk⟩
    · exact hended hp
    · exact hf.ended j u hu hp
    · exact (hlaunched u (List.mem_of_getElem? hk)).2 hp

theorem free_happen (hm : m.Reachable) (ht : m.Typed) (hf : m.Free (.typeMismatch name))
    (ha : m.happen? a = some m') (hn : ¬ m.Raises (.typeMismatch name) a) :
    m'.Free (.typeMismatch name) := by
  cases happen?_change ha with
  | step => exact free_step hm ht hf ha hn
  | idle _ hi =>
    refine ⟨⟨hi.cells ▸ hf.world.cells, hi.races ▸ hf.world.races⟩, ?_, ?_⟩
    · intro j u pending hu hp
      rcases hi.cases hu with hu | ⟨-, hu⟩
      · exact hf.running j u pending hu hp
      · obtain ⟨p, container, rfl, rfl⟩ := hi.programs u hu
        cases hp
        exact hn .launch
    · intro j u hu hp
      rcases hi.cases hu with hu | ⟨-, hu⟩
      · exact hf.ended j u hu hp
      · obtain ⟨p, container, -, rfl⟩ := hi.programs u hu
        cases hp

/-- The failure is nowhere until it comes into the machine. -/
theorem free_or_raised (hm : m.Reachable) (h : Run m as m') (ha : Assembles as) (ht : m.Typed)
    (hf : m.Free (.typeMismatch name)) :
    m'.Free (.typeMismatch name) ∨ m.Raised (.typeMismatch name) as := by
  induction h with
  | refl => exact .inl hf
  | @step m m₁ m' a as hstep hrest ih =>
    by_cases hn : m.Raises (.typeMismatch name) a
    · exact .inr ⟨[], a, as, m, rfl, .refl, hn⟩
    · have has : Assembles as := fun p container hp => ha p container (.tail _ hp)
      have hhead : Assembles [a] := by
        intro p container hp
        exact ha p container (List.mem_singleton.mp hp ▸ .head _)
      have ht₁ := typed_run hm (.single hstep) hhead ht
      obtain hfree | ⟨before, b, after, m₂, rfl, hb, hr⟩ :=
        ih (hm.run (.single hstep)) has ht₁ (free_happen hm ht hf hstep hn)
      · exact .inl hfree
      · exact .inr ⟨a :: before, b, after, m₂, rfl, .step hstep hb, hr⟩

/-- Who comes to an end with the failure has it from outside. -/
theorem raised_of_finished (hi : Initial m₀) (h : Run m₀ as m) (ha : Assembles as) {c : Cursor}
    (ht : m.tasks[j]? = some t) (hp : t.phase = .running c)
    (hc : c.advance = .finished (.error (.typeMismatch name))) :
    m₀.Raised (.typeMismatch name) (as ++ [.move (.step j)]) := by
  have hm₀ : m₀.Reachable := ⟨m₀, [], hi, .refl⟩
  have hcases : m.Free (.typeMismatch name) ∨ m₀.Raised (.typeMismatch name) as :=
    free_or_raised hm₀ h ha (typed_initial hi) (free_initial hi)
  rcases hcases with hf | ⟨before, a, after, m₁, rfl, hb, hr⟩
  · obtain ⟨kind, htyped⟩ := typed_run hm₀ h ha (typed_initial hi) j t ht
    have hraises : t.Raises (.typeMismatch name) m.world :=
      htyped.raises hp hc fun pending => hf.running j t pending ht
    exact ⟨as, _, [], m, rfl, h, .step ht hraises⟩
  · exact ⟨before, a, after ++ [.move (.step j)], m₁, by simp, hb, hr⟩

theorem raised_of_ended (hi : Initial m₀) (h : Run m₀ as m) (ha : Assembles as)
    (he : m.ending? j = some (.fault (.typeMismatch name))) :
    m₀.Raised (.typeMismatch name) as := by
  obtain ⟨t, ht, hp⟩ := ending?_eq_some_iff.mp he
  rcases free_or_raised ⟨m₀, [], hi, .refl⟩ h ha (typed_initial hi)
    (free_initial hi) with hf | hr
  · exact absurd hp (hf.ended j t ht)
  · exact hr

/-- A dispatched operation returns what it promises, or the task has
panicked or is still inside of it. -/
theorem dispatch_returns {c : Cursor} {op : Operation Program} {pending : List Continuation}
    (hm : m.Reachable) (ht : m.tasks[j]? = some t) (hp : t.phase = .running c)
    (hc : c.advance = .execute op pending) :
    ∃ m₁, m.step? j = some m₁ ∧ ∀ bs m', Run m₁ bs m' →
      (∃ u, m'.tasks[j]? = some u ∧ (t.Inside op pending u ∨ u.Panicked)) ∨
        ∃ before after m₂ result, bs = before ++ after ∧ Run m₁ before m₂ ∧
          OfKind op.result result ∧ m₂.tasks[j]? = some (t.resumed pending result) ∧
          Run m₂ after m' := by
  obtain ⟨m₁, hm₁, hs⟩ := stepped_dispatch ht hp hc
  refine ⟨m₁, hm₁, ?_⟩
  intro bs m' hr
  have hrole : t.role.OfProgram := by
    apply (fit_reachable hm j t ht).role
    · simp [hp, Phase.OfProgram]
    · simp [Task.hasEnded, hp]
  rcases hs.turn.dispatched hp hc with hin | ⟨result, hk, hu⟩ | ⟨message, hpanic⟩
  · have hm' : m₁.Reachable := hm.run (.single (a := .move (.step j)) hm₁)
    rcases inside_run hm' hr hs.self hrole hin with
      hin | ⟨before, after, m₂, u, heq, hb, hu, ⟨result, hk, rfl⟩, hafter⟩
    · exact .inl hin
    · exact .inr ⟨before, after, m₂, result, heq, hb, hk, hu, hafter⟩
  · exact .inr ⟨[], bs, m₁, result, rfl, .refl, hk, hu ▸ hs.self, hr⟩
  · have hended := ending?_run hr (ending?_eq_some_iff.mpr ⟨_, hs.self, hpanic⟩)
    obtain ⟨u, hu, hp'⟩ := ending?_eq_some_iff.mp hended
    exact .inl ⟨u, hu, .inr ⟨message, hp'⟩⟩

/-- The program inside a boundary ends with an outcome, and a fork or a branch with JSON. -/
theorem take_of_finished {c : Cursor} {d : Dyn} {kind : Kind} (ht : t.Typed kind)
    (hp : t.phase = .running c) (hc : c.advance = .finished (.ok d)) :
    (t.boundaries ≠ [] → ∃ v, d.take .outcome = .ok v) ∧
      (t.boundaries = [] → ∃ v, d.take kind = .ok v) := by
  obtain ⟨k, x⟩ := d
  obtain ⟨a, hcur, hb⟩ := ht.running hp
  obtain rfl : a = k := (hcur.finished hc _ rfl).symm
  cases hbs : t.boundaries with
  | nil =>
    rw [hbs] at hb
    cases hb with
    | nil => exact ⟨fun h => absurd rfl h, fun _ => ⟨x, Dyn.take_mk kind x⟩⟩
  | cons pending outer =>
    rw [hbs] at hb
    cases hb with
    | cons => exact ⟨fun _ => ⟨x, Dyn.take_mk .outcome x⟩, nofun⟩

/-- A run that the host has launched ends with a value of the kind of its flow. -/
theorem take_of_launched {before after : List Happening} {container : Nat} {m₁ : Machine r}
    {kind : Kind} {f : Flow kind} {d : Dyn} (hm : m₀.Reachable)
    (h : Run m₀ (before ++ .launch f.program container :: after) m) (hb : Run m₀ before m₁)
    (hf : f.Assembled) (he : m.ending? m₁.tasks.size = some (.value d)) :
    ∃ v, d.take kind = .ok v := by
  obtain ⟨t, ht, hp⟩ := ending?_eq_some_iff.mp he
  cases hb.rest h with
  | step hl hrest =>
    cases hl
    have hget : (m₁.launch f.program container).1.tasks[m₁.tasks.size]? =
        some (runner r f.program container) := by
      simp [launch, runner]
    have hm₁ : (m₁.launch f.program container).1.Reachable :=
      (hm.run hb).run (.single (a := .launch f.program container) rfl)
    obtain ⟨u, hu, htyped⟩ := task_typed_run hm₁ hrest hget (typed_runner hf container)
    cases hu.symm.trans ht
    have hphase := htyped.phase
    rw [hp] at hphase
    obtain ⟨k, x⟩ := d
    obtain rfl : k = kind := hphase _ rfl
    exact ⟨x, Dyn.take_mk k x⟩

/-- Kinds are kept: wherever a flow goes on, a program ends or an operation returns, the value has
the kind that is expected there. So a mismatch of kinds can only have been told by a program, a
collaborator or the host. -/
theorem type_preservation (hi : Initial m₀) (h : Run m₀ as m) (ha : Assembles as) :
    (∀ (kind : Kind) (f : Flow kind) d, f.Assembled → f.program = .done d →
      ∃ v, d.take kind = .ok v) ∧
    (∀ (j : Nat) (t : Task) c, m.tasks[j]? = some t → t.phase = .running c →
      (∀ d k pending, c.Passes ⟨.done d, k :: pending⟩ →
        ∃ (a b : Kind) (next : a.Carrier → Flow b) (v : a.Carrier),
          k = Flow.continuation next ∧ d.take a = .ok v) ∧
      ∀ d, c.advance = .finished (.ok d) →
        (t.boundaries ≠ [] → ∃ v, d.take .outcome = .ok v) ∧
        ∀ k, t.boundaries = [] → t.role.kind? = some k → ∃ v, d.take k = .ok v) ∧
    (∀ before container after m₁ (kind : Kind) (f : Flow kind) d,
      as = before ++ .launch f.program container :: after → Run m₀ before m₁ →
      f.Assembled →
      m.ending? m₁.tasks.size = some (.value d) → ∃ v, d.take kind = .ok v) ∧
    (∀ (j : Nat) (t : Task) c op pending, m.tasks[j]? = some t → t.phase = .running c →
      c.advance = .execute op pending →
      ∃ m₁, m.step? j = some m₁ ∧ ∀ bs m', Run m₁ bs m' →
        (∃ u, m'.tasks[j]? = some u ∧ (t.Inside op pending u ∨ u.Panicked)) ∨
          ∃ before after m₂ result, bs = before ++ after ∧ Run m₁ before m₂ ∧
            OfKind op.result result ∧ m₂.tasks[j]? = some (t.resumed pending result) ∧
            Run m₂ after m') ∧
    (∀ (j : Nat) (t : Task) c name, m.tasks[j]? = some t → t.phase = .running c →
      c.advance = .finished (.error (.typeMismatch name)) →
      m₀.Raised (.typeMismatch name) (as ++ [.move (.step j)])) ∧
    (∀ j name, m.ending? j = some (.fault (.typeMismatch name)) →
      m₀.Raised (.typeMismatch name) as) := by
  have hm₀ : m₀.Reachable := ⟨m₀, [], hi, .refl⟩
  have htyped := typed_run hm₀ h ha (typed_initial hi)
  refine ⟨?_, ?_, ?_, ?_, ?_, ?_⟩
  · intro kind f d hf hd
    have hprogram := hf.typed
    rw [hd] at hprogram
    cases hprogram with
    | @done _ v => exact ⟨v, Dyn.take_mk kind v⟩
  · intro j t c ht hp
    obtain ⟨kind, hk⟩ := htyped j t ht
    obtain ⟨a, hcur, -⟩ := hk.running hp
    refine ⟨fun d k pending hpasses => hcur.take hpasses, ?_⟩
    intro d hc
    obtain ⟨hinside, houtside⟩ := take_of_finished hk hp hc
    refine ⟨hinside, ?_⟩
    intro k hb hrole
    obtain rfl := hk.role k hrole
    exact houtside hb
  · rintro before container after m₁ kind f d rfl hb hf he
    exact take_of_launched hm₀ h hb hf he
  · intro j t c op pending ht hp hc
    exact dispatch_returns (hm₀.run h) ht hp hc
  · intro j t c name ht hp hc
    exact raised_of_finished hi h ha ht hp hc
  · intro j name he
    exact raised_of_ended hi h ha he

/-- Awaits a handle of the host inside of a boundary. -/
def guardedAwait : Flow (.attempt .json) :=
  Flow.recover ((Flow.await ⟨0⟩).map (b := .outcome) Outcome.succeed)

/-- A host that writes a mismatch of kinds to its only handle. -/
def mismatching : Setup :=
  Bench.new.setup .empty [⟨"h", some 3, some (.error (.typeMismatch "text"))⟩]

/-- Of two programs that await the handle, one absorbs the failure and ends with a value of its
kind; the other fails, and the failure is the one that the host has written. -/
theorem type_preservation_mismatching :
    ∃ (as : List Happening) (m : Machine mismatching.runner) (d : Dyn),
      Run mismatching.machine as m ∧
      m.ending? 1 = some (.value d) ∧ (∃ v, d.take (.attempt .json) = .ok v) ∧
      m.ending? 2 = some (.fault (.typeMismatch "text")) ∧
      mismatching.machine.Raised (.typeMismatch "text") as := by
  let as : List Happening :=
    .launch guardedAwait.program 0 :: .launch (Flow.await ⟨0⟩).program 0 ::
      ([1, 1, 2].map (.move <| .step ·) ++ .move .tick ::
        [0, 1, 1, 1, 2, 2].map (.move <| .step ·))
  have hend : (mismatching.machine.follow? as).map (fun m =>
      ((m.ending? 1).map (Verdict.map fun _ => ()), (m.ending? 2).map (Verdict.map fun _ => ()))) =
        some (some (.value ()), some (.fault (.typeMismatch "text"))) := by
    decide +kernel
  obtain ⟨m, hm, heq⟩ := Option.map_eq_some_iff.mp hend
  obtain ⟨hvalue, hfault⟩ := Prod.mk.inj heq
  obtain ⟨v₁, h₁, hv₁⟩ := Option.map_eq_some_iff.mp hvalue
  obtain ⟨v₂, h₂, hv₂⟩ := Option.map_eq_some_iff.mp hfault
  have hr := run_of_follow? hm
  have ha : Assembles as := by
    intro p container hp
    obtain ⟨rfl, -⟩ | ⟨rfl, -⟩ : p = guardedAwait.program ∧ container = 0 ∨
        p = (Flow.await ⟨0⟩).program ∧ container = 0 := by
      simpa [as] using hp
    · exact ⟨_, guardedAwait, .recover (.map _ (.await _)), rfl⟩
    · exact ⟨_, Flow.await ⟨0⟩, .await _, rfl⟩
  obtain ⟨-, -, hlaunched, -, -, hraised⟩ := type_preservation (Setup.machine_initial _) hr ha
  cases v₁ with
  | value d =>
    cases v₂ with
    | fault e =>
      cases hv₂
      exact ⟨as, m, d, hr, h₁, hlaunched [] 0 _ _ _ guardedAwait d rfl .refl
        (.recover (.map _ (.await _))) h₁, h₂, hraised 2 _ h₂⟩
    | _ => cases hv₂
  | _ => cases hv₁

end Machine

end Workflow
