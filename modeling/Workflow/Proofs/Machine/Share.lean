import Mathlib.Data.Set.Insert
import Workflow.Proofs.Machine.Commit
import Workflow.Proofs.Machine.Solo

/-! Programs that keep to their share of a container.

A share is a set of keys. A program whose operations name keys of its share and no others goes its
way by what the container holds under these keys, and leaves alone what it holds under others. -/
namespace Workflow

variable {r : Runner}

/-- Keys of a container. -/
structure Share where
  named : Set String
  foreign : Set String

/-- No key belongs to both. -/
structure Share.Apart (K L : Share) : Prop where
  named : ∀ key ∈ K.named, key ∉ L.named
  foreign : ∀ key ∈ K.foreign, key ∉ L.foreign

theorem Share.Apart.symm {K L : Share} (h : K.Apart L) : L.Apart K :=
  ⟨fun key hL hK => h.named key hK hL, fun key hL hK => h.foreign key hK hL⟩

/-- An operation that names keys of the share only, and touches nothing but the container. -/
def Operation.StaysIn (K : Share) : Operation Program → Prop
  | .read .ephemeral key | .write .ephemeral key _ | .delete .ephemeral key => key ∈ K.named
  | .writeForeign key _ => key ∈ K.foreign
  | .delay _ | .log .. | .recover _ => True
  | _ => False

def Update.StaysIn (K : Share) : Update → Prop
  | .write key _ | .delete key => key ∈ K.named
  | .writeForeign key _ => key ∈ K.foreign

namespace Operation
variable {K : Share} {op : Operation Program}

theorem StaysIn.solitary (h : op.StaysIn K) : op.Solitary := by
  cases op with
  | fork | race | forkUi | peek => exact h.elim
  | _ => trivial

theorem StaysIn.call? (h : op.StaysIn K) : op.call? = none := by
  cases op with
  | read store | write store | delete store =>
    cases store with
    | persistent => exact h.elim
    | ephemeral => rfl
  | callApi | runUi | checkPermissions | requestPermissions => exact h.elim
  | _ => rfl

/-- All that such an operation does is to update keys of the share. -/
theorem StaysIn.deed? (h : op.StaysIn K) {d : Deed} (hd : op.deed? = some d) :
    ∃ u, d = .update u ∧ u.StaysIn K := by
  cases op with
  | write store | delete store =>
    cases store with
    | persistent => exact h.elim
    | ephemeral =>
      cases hd
      exact ⟨_, rfl, h⟩
  | writeForeign =>
    cases hd
    exact ⟨_, rfl, h⟩
  | read store =>
    cases store with
    | persistent => exact h.elim
    | ephemeral => cases hd
  | callApi | runUi | checkPermissions | requestPermissions => exact h.elim
  | _ => cases hd

end Operation

/-- The containers hold the same under the keys of the share. -/
structure Container.AgreeOn (K : Share) (c c' : Container) : Prop where
  named : ∀ key ∈ K.named, c.named.find? key = c'.named.find? key
  foreign : ∀ key ∈ K.foreign, c.foreign.find? key = c'.foreign.find? key

namespace Container
variable {K L : Share} {c c' c'' : Container} {u : Update}

theorem AgreeOn.refl (c : Container) : c.AgreeOn K c := ⟨fun _ _ => rfl, fun _ _ => rfl⟩

theorem AgreeOn.symm (h : AgreeOn K c c') : AgreeOn K c' c :=
  ⟨fun key hk => (h.named key hk).symm, fun key hk => (h.foreign key hk).symm⟩

theorem AgreeOn.trans (h : AgreeOn K c c') (h' : AgreeOn K c' c'') : AgreeOn K c c'' :=
  ⟨fun key hk => (h.named key hk).trans (h'.named key hk),
    fun key hk => (h.foreign key hk).trans (h'.foreign key hk)⟩

theorem AgreeOn.apply (h : AgreeOn K c c') (u : Update) : AgreeOn K (u.apply c) (u.apply c') where
  named key hk := by rw [Update.named_apply, Update.named_apply, h.named key hk]
  foreign key hk := by rw [Update.foreign_apply, Update.foreign_apply, h.foreign key hk]

/-- An update of one share leaves the others alone. -/
theorem agreeOn_apply (hu : u.StaysIn K) (hd : K.Apart L) (c : Container) :
    AgreeOn L c (u.apply c) where
  named key hk := by
    have hne : key ∉ K.named := hd.symm.named key hk
    have hnone : u.named? key = none := by
      cases u with
      | write k | delete k =>
        refine if_neg ?_
        rintro rfl
        exact hne hu
      | writeForeign => rfl
    rw [Update.named_apply, hnone]
    rfl
  foreign key hk := by
    have hne : key ∉ K.foreign := hd.symm.foreign key hk
    have hnone : u.foreign? key = none := by
      cases u with
      | writeForeign k =>
        refine if_neg ?_
        rintro rfl
        exact hne hu
      | _ => rfl
    rw [Update.foreign_apply, hnone]
    rfl

/-- A container is what it holds under the keys of all shares. -/
theorem eq_of_agreeOn (hn : ∀ key, ∃ K : Share, key ∈ K.named ∧ c.AgreeOn K c')
    (hf : ∀ key, ∃ K : Share, key ∈ K.foreign ∧ c.AgreeOn K c') : c = c' := by
  have hnamed : c.named = c'.named := Table.ext_find? fun key => by
    obtain ⟨K, hk, h⟩ := hn key
    exact h.named key hk
  have hforeign : c.foreign = c'.foreign := Table.ext_find? fun key => by
    obtain ⟨K, hk, h⟩ := hf key
    exact h.foreign key hk
  obtain ⟨named, foreign⟩ := c
  obtain ⟨named', foreign'⟩ := c'
  cases hnamed
  cases hforeign
  rfl

end Container

/-- The containers of both scenes hold the same under the keys of the share. -/
structure Scene.AgreeOn (K : Share) (s s' : Scene r) : Prop where
  size : s.containers.size = s'.containers.size
  container : ∀ i, (s.container i).AgreeOn K (s'.container i)

namespace Scene
variable {K L : Share} {s s' s'' : Scene r}

theorem AgreeOn.refl (s : Scene r) : AgreeOn K s s := ⟨rfl, fun _ => .refl _⟩

theorem AgreeOn.of_eq (h : s = s') : AgreeOn K s s' := h ▸ .refl s

theorem AgreeOn.symm (h : AgreeOn K s s') : AgreeOn K s' s :=
  ⟨h.size.symm, fun i => (h.container i).symm⟩

theorem AgreeOn.trans (h : AgreeOn K s s') (h' : AgreeOn K s' s'') : AgreeOn K s s'' :=
  ⟨h.size.trans h'.size, fun i => (h.container i).trans (h'.container i)⟩

theorem agreeOn_equivalence (K : Share) : Equivalence (AgreeOn (r := r) K) :=
  ⟨.refl, .symm, .trans⟩

theorem size_after (s : Scene r) (i : Nat) (d : Option Deed) :
    (s.after i d).containers.size = s.containers.size := by
  rw [after_containers]
  cases d.bind Deed.update? with
  | none => rfl
  | some u => exact Array.size_modify

theorem container_of_ge {i : Nat} (h : s.containers.size ≤ i) : s.container i = .empty := by
  simp [container, Array.getElem?_eq_none h]

/-- The same deed keeps an agreement. -/
theorem AgreeOn.after (h : AgreeOn K s s') (i : Nat) (d : Option Deed) :
    AgreeOn K (s.after i d) (s'.after i d) where
  size := by rw [size_after, size_after, h.size]
  container j := by
    by_cases hj : j < s.containers.size
    · rw [(s.after_container hj i d).2, (s'.after_container (h.size ▸ hj) i d).2]
      cases (if i = j then d.bind Deed.update? else none) with
      | none => exact h.container j
      | some u => exact (h.container j).apply u
    · have hge : s.containers.size ≤ j := Nat.le_of_not_lt hj
      rw [container_of_ge (by rwa [size_after]), container_of_ge (by rwa [size_after, ← h.size])]
      exact .refl _

/-- A deed that updates one share leaves the others alone. -/
theorem agreeOn_after (hd : K.Apart L) {d : Option Deed}
    (hu : ∀ x, d = some x → ∃ u, x = .update u ∧ u.StaysIn K) (s : Scene r) (i : Nat) :
    AgreeOn L s (s.after i d) where
  size := (size_after s i d).symm
  container j := by
    by_cases hj : j < s.containers.size
    · rw [(s.after_container hj i d).2]
      by_cases hij : i = j
      · rw [if_pos hij]
        cases d with
        | none => exact .refl _
        | some x =>
          obtain ⟨u, rfl, hin⟩ := hu x rfl
          exact Container.agreeOn_apply hin hd _
      · rw [if_neg hij]
        exact .refl _
    · have hge : s.containers.size ≤ j := Nat.le_of_not_lt hj
      rw [container_of_ge hge, container_of_ge (by rwa [size_after])]
      exact .refl _

/-- Scenes that agree on some shares, and on all that is apart
from them, have the same containers. -/
theorem containers_eq {shares : List Share} (h : ∀ K ∈ shares, AgreeOn K s s')
    (hrest : ∀ L : Share, (∀ K ∈ shares, K.Apart L) → AgreeOn L s s') :
    s.containers = s'.containers := by
  have hsize : s.containers.size = s'.containers.size := by
    refine (hrest ⟨∅, ∅⟩ ?_).size
    intro K _
    exact ⟨fun _ _ => Set.notMem_empty _, fun _ _ => Set.notMem_empty _⟩
  have hcontainer (i : Nat) : s.container i = s'.container i := by
    refine Container.eq_of_agreeOn (fun key => ?_) fun key => ?_
    · by_cases hk : ∃ K ∈ shares, key ∈ K.named
      · obtain ⟨K, hK, hkey⟩ := hk
        exact ⟨K, hkey, (h K hK).container i⟩
      · refine ⟨⟨{key}, ∅⟩, rfl, (hrest _ ?_).container i⟩
        intro K hK
        refine ⟨?_, fun _ _ => Set.notMem_empty _⟩
        rintro _ hkey rfl
        exact hk ⟨K, hK, hkey⟩
    · by_cases hk : ∃ K ∈ shares, key ∈ K.foreign
      · obtain ⟨K, hK, hkey⟩ := hk
        exact ⟨K, hkey, (h K hK).container i⟩
      · refine ⟨⟨∅, {key}⟩, rfl, (hrest _ ?_).container i⟩
        intro K hK
        refine ⟨fun _ _ => Set.notMem_empty _, ?_⟩
        rintro _ hkey rfl
        exact hk ⟨K, hK, hkey⟩
  refine Array.ext hsize ?_
  intro i hi hi'
  have hi := hcontainer i
  simpa [container, *] using hi

end Scene

namespace Task
variable {K L : Share} {t : Task} {w w' : World r} {s s' : Scene r} {self : Nat} {e : Effect r}

/-- The task runs a program that keeps to its share, and sleeps only for a time. -/
structure KeepsTo (K : Share) (t : Task) : Prop where
  only : t.Only (Operation.StaysIn K)
  wakes : ∀ (due : Option Nat) (alarm : Alarm) (pending : List Continuation),
    t.phase = .sleeping due alarm pending → due.isSome

theorem Only.bare {allowed : Operation Program → Prop} (h : t.Only allowed) :
    t.bare.Only allowed := by
  refine ⟨?_, h.boundaries⟩
  have hphase := h.phase
  unfold Task.bare
  cases hp : t.phase <;> rw [hp] at hphase <;> exact hphase

theorem KeepsTo.bare (h : t.KeepsTo K) : t.bare.KeepsTo K := by
  refine ⟨h.only.bare, ?_⟩
  intro due alarm pending hp
  unfold Task.bare at hp
  cases hq : t.phase with
  | sleeping due' =>
    have hwakes := h.wakes _ _ _ hq
    rw [hq] at hp
    cases hp
    simpa using hwakes
  | _ =>
    rw [hq] at hp
    cases hp

/-- Who keeps to a share sleeps only for a time. -/
theorem execute_wakes {op : Operation Program} (hop : op.StaysIn K) {due : Option Nat}
    {alarm : Alarm} {pending pending' : List Continuation}
    (h : (t.execute w self pending op).task.phase = .sleeping due alarm pending') :
    due.isSome := by
  cases op with
  | read store | write store | delete store =>
    cases store with
    | persistent => exact hop.elim
    | ephemeral => cases h
  | delay =>
    cases h
    rfl
  | writeForeign | log | recover => cases h
  | _ => exact hop.elim

theorem KeepsTo.step? (ht : t.KeepsTo K) (h : t.step? w self = some e) : e.task.KeepsTo K := by
  refine ⟨only_step? h ht.only, ?_⟩
  intro due alarm pending hp
  cases step?_turn h with
  | @sleeps c op pending' w' due alarm hrun hc hw ha =>
    have hop := ((ht.only.running hrun).advance hc).1
    simp only [Task.step?, hrun, hc, Option.some.injEq] at h
    rw [dispatch_of_solitary hop.solitary] at h
    rw [← h] at hp
    exact execute_wakes hop hp
  | loses hrace => cases hp.symm.trans hrace
  | opens hopen =>
    have hphase := ht.only.phase
    rw [hopen] at hphase
    exact hphase.elim
  | _ => cases hp

/-- What the task does to the scene is to update keys of its share. -/
theorem Only.update (ht : t.Only (Operation.StaysIn K)) {d : Deed} (hd : t.phase.deed? = some d) :
    ∃ u, d = .update u ∧ u.StaysIn K := by
  obtain ⟨op, hop, hdeed | ⟨call, hcall, -⟩⟩ := ht.deed? hd
  · exact hop.deed? hdeed
  · cases hop.call?.symm.trans hcall

/-- A step leaves other shares alone. -/
theorem Only.agreeOn (ht : t.Only (Operation.StaysIn K)) (hd : K.Apart L)
    (h : t.step? w self = some e) : Scene.AgreeOn L w.scene e.world.scene := by
  rw [step?_scene h]
  exact Scene.agreeOn_after hd (fun _ => ht.update) _ _

/-- What the container holds under other keys does not matter for a dispatch. -/
theorem dispatch_agree {op : Operation Program} (hop : op.StaysIn K)
    (hs : Scene.AgreeOn K w.scene w'.scene) (pending : List Continuation) :
    (t.dispatch w self pending op).task.bare = (t.dispatch w' self pending op).task.bare := by
  rw [dispatch_of_solitary hop.solitary, dispatch_of_solitary hop.solitary]
  cases op with
  | read store key =>
    cases store with
    | persistent => exact hop.elim
    | ephemeral =>
      have hread :
          (w.container t.container).getNamed key = (w'.container t.container).getNamed key :=
        (hs.container t.container).named key hop
      simp only [execute, proceed]
      exact congrArg (fun v => (t.resumed pending (.ok ⟨.option .text, v⟩)).bare) hread
  | write store | delete store =>
    cases store with
    | persistent => exact hop.elim
    | ephemeral => rfl
  | delay | writeForeign | log | recover => rfl
  | _ => exact hop.elim

theorem wake_agree {alarm : Alarm} (ha : alarm.Only (Operation.StaysIn K))
    (pending : List Continuation) :
    (t.wake w self pending alarm).task.bare = (t.wake w' self pending alarm).task.bare := by
  cases alarm with
  | delay => rfl
  | external ending => cases ending <;> rfl
  | call call =>
    obtain ⟨op, hop, hcall⟩ := ha.2 call rfl
    cases hop.call?.symm.trans hcall
  | background | host => cases ha.1

/-- A task that keeps to its share takes the same step on scenes that agree on it. -/
theorem KeepsTo.step?_agree (ht : t.KeepsTo K) (hs : Scene.AgreeOn K w.scene w'.scene)
    (hnow : w.now = w'.now) (h : t.step? w self = some e) :
    ∃ e', t.step? w' self = some e' ∧ e.task.bare = e'.task.bare := by
  have hphase := ht.only.phase
  unfold Task.step? at h
  split at h
  next c hp =>
    split at h <;> cases h
    next result hc =>
      have hbare (v : World r) :
          (t.bare.finish w result).task.bare = (t.finish v result).task.bare := finish_bare result
      exact ⟨t.finish w' result, by simp only [Task.step?, hp, hc],
        (hbare w).symm.trans (hbare w')⟩
    next op pending hc =>
      have hop := ((ht.only.running hp).advance hc).1
      exact ⟨t.dispatch w' self pending op, by simp only [Task.step?, hp, hc],
        dispatch_agree hop hs pending⟩
  next => cases h
  next due alarm pending hp =>
    rw [hp] at hphase
    split at h <;> cases h
    next hle =>
      rw [hnow] at hle
      exact ⟨t.wake w' self pending alarm, by simp only [Task.step?, hp, if_pos hle],
        wake_agree hphase.1 pending⟩
  next handle pending hp =>
    rw [hp] at hphase
    exact hphase.1.elim
  next race pending hp =>
    rw [hp] at hphase
    obtain ⟨⟨ps, hps⟩, -⟩ := hphase
    exact hps.elim
  next request hp =>
    rw [hp] at hphase
    exact hphase.elim
  next => cases h

/-- Such a task comes to an end only where it ends. -/
theorem KeepsTo.ended (ht : t.KeepsTo K) (h : t.bare.solo? #[] s = none) :
    ∃ v, t.phase = .ended v := by
  have hphase := ht.only.phase
  have hnone : t.bare.step? (s.world #[]) 0 = none := Option.map_eq_none_iff.mp h
  cases hp : t.phase with
  | running c =>
    simp only [Task.step?, Task.bare, hp, Phase.untimed] at hnone
    split at hnone <;> cases hnone
  | sleeping due alarm pending =>
    obtain ⟨due, rfl⟩ := Option.isSome_iff_exists.mp (ht.wakes due alarm pending hp)
    simp [Task.step?, Task.bare, hp, Phase.untimed, Scene.world] at hnone
  | awaiting handle pending =>
    rw [hp] at hphase
    exact hphase.1.elim
  | racing race pending =>
    rw [hp] at hphase
    obtain ⟨⟨ps, hps⟩, -⟩ := hphase
    exact hps.elim
  | opening request =>
    rw [hp] at hphase
    exact hphase.elim
  | ended v => exact ⟨v, rfl⟩

theorem KeepsTo.solo? {cells : Array Cell} {u : Task} (ht : t.KeepsTo K)
    (h : t.solo? cells s = some (u, s')) :
    u.KeepsTo K ∧ ∀ L : Share, K.Apart L → Scene.AgreeOn L s s' := by
  obtain ⟨e, he, heq⟩ := Option.map_eq_some_iff.mp h
  cases heq
  refine ⟨(ht.step? he).bare, fun L hd => ?_⟩
  have := ht.only.agreeOn hd he
  rwa [Scene.scene_world] at this

end Task

namespace Trail
variable {K L : Share} {t u : Task} {s s' : Scene r} {cells : Array Cell}
  {R R' : Scene r → Scene r → Prop}

/-- What others change outside of a share does not matter for a task that keeps to it. -/
theorem unaffected_keepsTo (K : Share) :
    Unaffected (r := r) cells (Scene.AgreeOn K) (Task.KeepsTo K) where
  equivalence := Scene.agreeOn_equivalence K
  keeps _ _ _ _ ht h := (ht.solo? h).1
  step t s s' ht hs := by
    have hworlds : Scene.AgreeOn K (s.world cells).scene (s'.world cells).scene := by
      rwa [Scene.scene_world, Scene.scene_world]
    simp only [Task.solo?]
    cases he : t.step? (s.world cells) 0 with
    | none =>
      cases he' : t.step? (s'.world cells) 0 with
      | none => exact .none
      | some e' =>
        obtain ⟨e, h, -⟩ := ht.step?_agree hworlds.symm rfl he'
        cases he.symm.trans h
    | some e =>
      obtain ⟨e', he', hbare⟩ := ht.step?_agree hworlds rfl he
      have hscenes : Scene.AgreeOn K e.world.scene e'.world.scene := by
        rw [Task.step?_scene he, Task.step?_scene he']
        exact hworlds.after _ _
      rw [he']
      exact .some ⟨hbare, hscenes⟩

theorem mono (hR : ∀ s s', R s s' → R' s s') (h : Trail cells R t s u s') :
    Trail cells R' t s u s' := by
  induction h with
  | refl => exact .refl
  | own h _ ih => exact .own h ih
  | other h _ ih => exact .other (hR _ _ h) ih

theorem keepsTo (ht : t.KeepsTo K) (h : Trail cells R t s u s') : u.KeepsTo K := by
  induction h with
  | refl => exact ht
  | own h _ ih => exact ih (ht.solo? h).1
  | other _ _ ih => exact ih ht

/-- A task that keeps to its share leaves the others alone on its whole way. -/
theorem agreeOn (ht : t.KeepsTo K) (hd : K.Apart L) (hR : ∀ s s', R s s' → Scene.AgreeOn L s s')
    (h : Trail cells R t s u s') : Scene.AgreeOn L s s' := by
  induction h with
  | refl => exact .refl _
  | own h _ ih =>
    obtain ⟨hu, hother⟩ := ht.solo? h
    exact (hother L hd).trans (ih hu)
  | other h _ ih => exact (hR _ _ h).trans (ih ht)

end Trail

end Workflow
