import Workflow.Bench
import Workflow.Program.Flow
import Workflow.Proofs.Machine.Scene
import Workflow.Proofs.Session

/-! Containers hold what was committed to them.

The updates that the steps of a run commit, in the order of the steps, make up a journal. A
container is at every moment its seed with the journal replayed on it, and the same holds of the
storage and the calls that it was asked. -/
namespace Workflow

variable {r : Runner}

namespace Update
variable {us : List Update} {key : String}

/-- What an update leaves under a named key, if it names the key. -/
def named? (key : String) : Update → Option (Option String)
  | .write k value => if k = key then some (some value) else none
  | .delete k => if k = key then some none else none
  | .writeForeign .. => none

def foreign? (key : String) : Update → Option Json
  | .writeForeign k value => if k = key then some value else none
  | _ => none

def replay (us : List Update) (seed : Container) : Container := us.foldl (fun c u => u.apply c) seed

/-- What the last update that names a key has left there, and the seed's value if none does. -/
def lastNamed (us : List Update) (seed : Table String) (key : String) : Option String :=
  (us.reverse.findSome? (named? key)).getD (seed.find? key)

def lastForeign (us : List Update) (seed : Table Json) (key : String) : Option Json :=
  (us.reverse.findSome? (foreign? key)).or (seed.find? key)

theorem named_apply (u : Update) (c : Container) (key : String) :
    (u.apply c).named.find? key = (u.named? key).getD (c.named.find? key) := by
  cases u with
  | write k value =>
    simp only [apply, Container.updateNamed, Table.find?_insert, named?, eq_comm]
    split <;> rfl
  | delete k =>
    simp only [apply, Container.deleteNamed, Table.find?_erase, named?, eq_comm]
    split <;> rfl
  | writeForeign k value => rfl

theorem foreign_apply (u : Update) (c : Container) (key : String) :
    (u.apply c).foreign.find? key = (u.foreign? key).or (c.foreign.find? key) := by
  cases u with
  | writeForeign k value =>
    simp only [apply, Container.writeForeign, Table.find?_insert, foreign?, eq_comm]
    split <;> rfl
  | _ => rfl

theorem named_replay (us : List Update) (seed : Container) (key : String) :
    (replay us seed).named.find? key = lastNamed us seed.named key := by
  induction us generalizing seed with
  | nil => rfl
  | cons u us ih =>
    have hrest := ih (u.apply seed)
    rw [lastNamed, named_apply] at hrest
    rw [lastNamed, List.reverse_cons, List.findSome?_append]
    refine hrest.trans ?_
    cases us.reverse.findSome? (named? key) with
    | some x => rfl
    | none => cases hu : u.named? key <;> simp [hu]

theorem foreign_replay (us : List Update) (seed : Container) (key : String) :
    (replay us seed).foreign.find? key = lastForeign us seed.foreign key := by
  induction us generalizing seed with
  | nil => rfl
  | cons u us ih =>
    have hrest := ih (u.apply seed)
    rw [lastForeign, foreign_apply] at hrest
    rw [lastForeign, List.reverse_cons, List.findSome?_append]
    refine hrest.trans ?_
    cases us.reverse.findSome? (foreign? key) with
    | some x => rfl
    | none => cases hu : u.foreign? key <;> simp [hu]

/-- A key that no update names keeps the seed's value. -/
theorem exists_named_of_ne {seed : Table String} (h : lastNamed us seed key ≠ seed.find? key) :
    ∃ u ∈ us, (u.named? key).isSome := by
  unfold lastNamed at h
  cases hf : us.reverse.findSome? (named? key) with
  | none => simp [hf] at h
  | some x =>
    obtain ⟨u, hu, hx⟩ := List.exists_of_findSome?_eq_some hf
    exact ⟨u, List.mem_reverse.mp hu, by simp [hx]⟩

theorem exists_foreign_of_ne {seed : Table Json} (h : lastForeign us seed key ≠ seed.find? key) :
    ∃ u ∈ us, (u.foreign? key).isSome := by
  unfold lastForeign at h
  cases hf : us.reverse.findSome? (foreign? key) with
  | none => simp [hf] at h
  | some x =>
    obtain ⟨u, hu, hx⟩ := List.exists_of_findSome?_eq_some hf
    exact ⟨u, List.mem_reverse.mp hu, by simp [hx]⟩

theorem lastForeign_isSome {seed : Table Json} (h : (seed.find? key).isSome) :
    (lastForeign us seed key).isSome := by
  unfold lastForeign
  cases us.reverse.findSome? (foreign? key) with
  | none => exact h
  | some x => rfl

end Update

/-- What the storage has to do with a call. -/
inductive StorageAction where
  | accept (call : StorageCall)
  | answer (call : StorageCall)

def StorageAction.apply (service : StorageService) (a : StorageAction) (s : service.State) :
    service.State :=
  match a with
  | .accept call => (service.accept s call).state
  | .answer call => (service.answer s call).state

namespace Deed

def update? : Deed → Option Update
  | .update u => some u
  | _ => none

def storage? : Deed → Option StorageAction
  | .accept (.storage call) => some (.accept call)
  | .answer (.storage call) => some (.answer call)
  | _ => none

end Deed

namespace Scene
variable (s : Scene r)

/-- A step changes no container but by the update that it commits. -/
theorem after_containers (i : Nat) (d : Option Deed) : (s.after i d).containers =
    (d.bind Deed.update?).elim s.containers fun u => s.containers.modify i u.apply := by
  cases d with
  | none => rfl
  | some d =>
    cases d with
    | update u => rfl
    | accept call =>
      cases call <;> simp only [after, accept, World.accept, World.scene_emitAll] <;> rfl
    | answer call =>
      cases call <;> simp only [after, answer, World.answer, World.scene_emitAll] <;> rfl

theorem after_container {i : Nat} (hi : i < s.containers.size) (j : Nat) (d : Option Deed) :
    i < (s.after j d).containers.size ∧ (s.after j d).container i =
      (if j = i then d.bind Deed.update? else none).elim (s.container i)
        fun u => u.apply (s.container i) := by
  have hc := s.after_containers j d
  cases hu : d.bind Deed.update? with
  | none =>
    rw [hu, Option.elim_none] at hc
    simp [container, hc, hi]
  | some u =>
    rw [hu, Option.elim_some] at hc
    by_cases hj : j = i
    · subst hj
      simp [container, hc, hi, Array.getElem_modify]
    · simp [container, hc, hi, hj, Array.getElem_modify]

/-- A step changes the storage only by what the storage has to do. -/
theorem after_storage (i : Nat) (d : Option Deed) : (s.after i d).storage =
    (d.bind Deed.storage?).elim s.storage fun a => a.apply r.collaborators.storage s.storage := by
  cases d with
  | none => rfl
  | some d =>
    cases d with
    | update u => rfl
    | accept call =>
      cases call <;> simp only [after, accept, World.accept, World.scene_emitAll] <;> rfl
    | answer call =>
      cases call <;> simp only [after, answer, World.answer, World.scene_emitAll] <;> rfl

end Scene

namespace Task

/-- The update of the container that the next step of the task commits. -/
def update? (i : Nat) (t : Task) : Option Update :=
  if t.container = i then t.phase.deed?.bind Deed.update? else none

/-- What the storage has to do in the next step of the task. -/
def storage? (t : Task) : Option StorageAction := t.phase.deed?.bind Deed.storage?

end Task

namespace Machine
variable {α σ : Type} {m m' : Machine r} {a : Happening} {as : List Happening}
  {i j : Nat} {t : Task}

/-- What a happening adds to a journal; the task that steps decides. -/
def note? (f : Task → Option α) (m : Machine r) : Happening → Option α
  | .move (.step i) => m.tasks[i]?.bind f
  | _ => none

/-- What the steps of a run add to a journal, the earliest first. -/
def journal (f : Task → Option α) (m : Machine r) : List Happening → List α
  | [] => []
  | a :: as =>
    match m.happen? a with
    | some m' => (m.note? f a).toList ++ m'.journal f as
    | none => []

/-- The updates that are committed to a container in a run. -/
def updates (m : Machine r) (i : Nat) (as : List Happening) : List Update :=
  m.journal (Task.update? i) as

/-- What the storage has to do in a run. -/
def storageActions (m : Machine r) (as : List Happening) : List StorageAction :=
  m.journal Task.storage? as

theorem journal_append {f : Task → Option α} {bs : List Happening} (h : Run m as m') :
    m.journal f (as ++ bs) = m.journal f as ++ m'.journal f bs := by
  induction h with
  | refl => rfl
  | step ha _ ih => simp only [List.cons_append, journal, ha, ih, List.append_assoc]

/-- What every happening changes as its entry says is what the journal makes of it. -/
theorem run_journal (view : Machine r → σ) {f : Task → Option α} {apply : α → σ → σ}
    {P : Machine r → Prop}
    (step : ∀ m a m', P m → m.happen? a = some m' →
      P m' ∧ view m' = (m.note? f a).elim (view m) fun x => apply x (view m))
    (h : Run m as m') (hm : P m) :
    view m' = (m.journal f as).foldl (fun s x => apply x s) (view m) := by
  induction h with
  | refl => rfl
  | @step m m₁ m' a as ha _ ih =>
    obtain ⟨hm₁, hview⟩ := step m a m₁ hm ha
    rw [ih hm₁, hview]
    simp only [journal, ha, List.foldl_append]
    cases m.note? f a <;> rfl

/-- Only steps of tasks act on the scene, apart from the host, who
may make a container, and the clock. -/
theorem happen?_scene (h : m.happen? a = some m') :
    (∃ i t, a = .move (.step i) ∧ m.tasks[i]? = some t ∧
      m'.world.scene = m.world.scene.after t.container t.phase.deed?) ∨
    (∀ i, a ≠ .move (.step i)) ∧ m'.world.storage = m.world.storage ∧
      ∃ made, m'.world.containers = m.world.containers ++ made := by
  cases a with
  | move a =>
    cases a with
    | step i =>
      obtain ⟨t, e, he, hs⟩ := step?_stepped h
      exact .inl ⟨i, t, rfl, hs.task, by rw [hs.world, Task.step?_scene he]⟩
    | tick =>
      obtain ⟨-, due, -, rfl⟩ := of_tick h
      exact .inr ⟨by simp, rfl, #[], by simp⟩
  | launch p container =>
    cases h
    exact .inr ⟨by simp, rfl, #[], by simp [launch, World.emit]⟩
  | supply c =>
    cases h
    exact .inr ⟨by simp, rfl, #[c], by simp [World.newContainer]⟩

theorem note?_of_ne {f : Task → Option α} (ha : ∀ i, a ≠ .move (.step i)) :
    m.note? f a = none := by
  unfold note?
  split
  next i => exact absurd rfl (ha i)
  next => rfl

theorem container_happen (hi : i < m.world.containers.size) (h : m.happen? a = some m') :
    i < m'.world.containers.size ∧ m'.world.container i =
      (m.note? (Task.update? i) a).elim (m.world.container i)
        fun u => u.apply (m.world.container i) := by
  obtain ⟨j, t, rfl, ht, hscene⟩ | ⟨ha, -, made, hmade⟩ := happen?_scene h
  · have hafter := m.world.scene.after_container hi t.container t.phase.deed?
    rw [← hscene] at hafter
    rw [note?, ht]
    exact hafter
  · rw [note?_of_ne ha, Option.elim_none, World.container, hmade, Array.size_append,
      Array.getElem?_append_left hi]
    exact ⟨Nat.lt_add_right _ hi, rfl⟩

theorem storage_happen (h : m.happen? a = some m') : m'.world.storage =
    (m.note? Task.storage? a).elim m.world.storage
      fun x => x.apply r.collaborators.storage m.world.storage := by
  obtain ⟨j, t, rfl, ht, hscene⟩ | ⟨ha, hstorage, -⟩ := happen?_scene h
  · have hafter := m.world.scene.after_storage t.container t.phase.deed?
    rw [← hscene] at hafter
    rw [note?, ht]
    exact hafter
  · rw [note?_of_ne ha]
    exact hstorage

theorem container_run (h : Run m as m') (hi : i < m.world.containers.size) :
    m'.world.container i = Update.replay (m.updates i as) (m.world.container i) :=
  run_journal (fun m => m.world.container i) (P := fun m => i < m.world.containers.size)
    (fun _ _ _ => container_happen) h hi

theorem storage_run (h : Run m as m') :
    m'.world.storage = (m.storageActions as).foldl
      (fun s a => a.apply r.collaborators.storage s) m.world.storage :=
  run_journal (fun m => m.world.storage) (P := fun _ => True)
    (fun _ _ _ _ h => ⟨trivial, storage_happen h⟩) h trivial

section
variable {c : Cursor} {pending : List Continuation}

theorem read_step {key : String} (ht : m.tasks[j]? = some t) (hp : t.phase = .running c)
    (hc : c.advance = .execute (.read .ephemeral key) pending) :
    ∃ m', m.step? j = some m' ∧ m'.tasks[j]? = some (t.resumed pending
      (.ok ⟨.option .text, (m.world.container t.container).named.find? key⟩)) := by
  obtain ⟨m', hm, hs⟩ := stepped_dispatch ht hp hc
  exact ⟨m', hm, hs.self⟩

theorem readForeignAll_step (ht : m.tasks[j]? = some t) (hp : t.phase = .running c)
    (hc : c.advance = .execute .readForeignAll pending) :
    ∃ m', m.step? j = some m' ∧ m'.tasks[j]? = some (t.resumed pending
      (.ok ⟨.foreign, (m.world.container t.container).foreign⟩)) := by
  obtain ⟨m', hm, hs⟩ := stepped_dispatch ht hp hc
  exact ⟨m', hm, hs.self⟩

/-- An update is committed in the step that dispatches it, whatever others do. -/
theorem update_step {op : Operation Program} {u : Update} (ht : m.tasks[j]? = some t)
    (hp : t.phase = .running c) (hc : c.advance = .execute op pending) (hu : op.update? = some u) :
    ∃ m', m.step? j = some m' ∧ m'.tasks[j]? = some (t.resumed pending (.ok .unit)) ∧
      m.updates t.container [.move (.step j)] = [u] := by
  obtain ⟨m', hm, hs⟩ := stepped_dispatch ht hp hc
  refine ⟨m', hm, ?_, ?_⟩
  · rw [hs.self]
    cases op with
    | write store key value | delete store key =>
      cases store with
      | persistent => cases hu
      | ephemeral => rfl
    | _ => cases hu <;> rfl
  · simp [updates, journal, happen?, move?, hm, note?, ht, Task.update?, hp, Phase.deed?, hc,
      Operation.deed?, hu, Deed.update?]

end

/-- A container is the replay on its seed of all updates that any task has committed to it, and
every read shows what the last update that names the key has left. -/
theorem container_eq_replay (h : Run m as m') (hi : i < m.world.containers.size) :
    m'.world.container i = Update.replay (m.updates i as) (m.world.container i) ∧
    (∀ key, (m'.world.container i).named.find? key =
      Update.lastNamed (m.updates i as) (m.world.container i).named key) ∧
    (∀ key, (m'.world.container i).foreign.find? key =
      Update.lastForeign (m.updates i as) (m.world.container i).foreign key) ∧
    (∀ j t c pending, m'.tasks[j]? = some t → t.container = i → t.phase = .running c →
      (∀ key, c.advance = .execute (.read .ephemeral key) pending →
        ∃ m'', m'.step? j = some m'' ∧
          m''.tasks[j]? = some (t.resumed pending (.ok ⟨.option .text,
          Update.lastNamed (m.updates i as) (m.world.container i).named key⟩))) ∧
      (c.advance = .execute .readForeignAll pending → ∃ m'' table, m'.step? j = some m'' ∧
        m''.tasks[j]? = some (t.resumed pending (.ok ⟨.foreign, table⟩)) ∧
        ∀ key, table.find? key =
          Update.lastForeign (m.updates i as) (m.world.container i).foreign key) ∧
      (∀ op u, c.advance = .execute op pending → op.update? = some u →
        ∃ m'', m'.step? j = some m'' ∧ m''.tasks[j]? = some (t.resumed pending (.ok .unit)) ∧
          m.updates i (as ++ [.move (.step j)]) = m.updates i as ++ [u])) ∧
    (∀ key, ((m.world.container i).foreign.find? key).isSome →
      ((m'.world.container i).foreign.find? key).isSome) ∧
    (∀ key, (m'.world.container i).named.find? key ≠ (m.world.container i).named.find? key →
      ∃ u ∈ m.updates i as, (u.named? key).isSome) ∧
    (∀ key, (m'.world.container i).foreign.find? key ≠
      (m.world.container i).foreign.find? key →
      ∃ u ∈ m.updates i as, (u.foreign? key).isSome) ∧
    m'.world.storage = (m.storageActions as).foldl
      (fun s a => a.apply r.collaborators.storage s) m.world.storage := by
  have hreplay := container_run h hi
  have hnamed (key : String) : (m'.world.container i).named.find? key =
      Update.lastNamed (m.updates i as) (m.world.container i).named key := by
    rw [hreplay, Update.named_replay]
  have hforeign (key : String) : (m'.world.container i).foreign.find? key =
      Update.lastForeign (m.updates i as) (m.world.container i).foreign key := by
    rw [hreplay, Update.foreign_replay]
  refine ⟨hreplay, hnamed, hforeign, ?_, ?_, ?_, ?_, storage_run h⟩
  · rintro j t c pending ht rfl hp
    refine ⟨?_, ?_, ?_⟩
    · intro key hc
      rw [← hnamed key]
      exact read_step ht hp hc
    · intro hc
      obtain ⟨m'', hm, ht'⟩ := readForeignAll_step ht hp hc
      exact ⟨m'', _, hm, ht', hforeign⟩
    · intro op u hc hu
      obtain ⟨m'', hm, ht', hlast⟩ := update_step ht hp hc hu
      refine ⟨m'', hm, ht', ?_⟩
      rw [updates, journal_append h]
      exact congrArg _ hlast
  · intro key hsome
    rw [hforeign key]
    exact Update.lastForeign_isSome hsome
  · intro key hne
    rw [hnamed key] at hne
    exact Update.exists_named_of_ne hne
  · intro key hne
    rw [hforeign key] at hne
    exact Update.exists_foreign_of_ne hne

/-- A fork and the program that forks it write to the same key; the fork fails afterwards. -/
def contention : Flow .unit :=
  (Flow.fork
    (((Flow.write .ephemeral "k" "fork").followedBy (Flow.writeForeign "k" .null)).followedBy
    (Flow.throw (.explicit "after")))).andThen fun _ => Flow.write .ephemeral "k" "parent"

/-- The host's container, with one named text in it. -/
def seeded : Setup := Bench.new.setup ⟨.ofList [("k", "seed")], .empty⟩ []

/-- The fork writes last, the foreign value under the same key is another one, and both are there
when the fork has failed. -/
theorem container_eq_replay_contention :
    ∃ (as : List Happening) (m : Machine seeded.runner), Run seeded.machine as m ∧
      (m.ending? 1).isSome ∧ (m.world.container 0).named.find? "k" = some "fork" ∧
      (m.world.container 0).foreign.find? "k" = some .null := by
  let as : List Happening := .launch contention.program 0 :: [0, 0, 1, 1, 1].map (.move <| .step ·)
  have hend : (seeded.machine.follow? as).map (fun m => (m.ending? 1).isSome) = some true := by
    decide +kernel
  obtain ⟨m, hm, hfailed⟩ := Option.map_eq_some_iff.mp hend
  have hr := run_of_follow? hm
  obtain ⟨-, hnamed, hforeign, -⟩ := container_eq_replay hr (i := 0) (by decide)
  refine ⟨as, m, hr, hfailed, (hnamed "k").trans ?_, (hforeign "k").trans ?_⟩
  · decide +kernel
  · decide +kernel

end Machine

end Workflow
