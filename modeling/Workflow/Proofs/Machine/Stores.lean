import Workflow.Proofs.Machine.Journey
import Workflow.Proofs.Machine.Provider
import Workflow.Proofs.Machine.Rest

/-! The persistent store and the ephemeral one.

A program over the keys of one store makes the same journey through its entries on both, except that
a value which equals the sentinel is hidden from whoever reads the persistent store. -/
namespace Workflow

/-- How a store shows what it holds. -/
def Store.view (sentinel : String) : Store → Option String → Option String
  | .persistent => present sentinel
  | .ephemeral => id

/-- The storage with these entries. -/
def MemoryStore.hosted (entries : Table String) : Hosted StorageCall StorageCall.Reply :=
  ⟨service, ⟨entries⟩⟩

variable {r r' : Runner}

namespace Machine
variable {m m' : Machine r} {i container : Nat} {store : Store} {entries : Table String} {t : Task}

/-- The store that a task on this container works with has these entries. -/
def Holds (m : Machine r) (container : Nat) : Store → Table String → Prop
  | .persistent, entries => m.world.scene.hosted .storage = MemoryStore.hosted entries
  | .ephemeral, entries =>
    container < m.world.containers.size ∧ (m.world.container container).named = entries

theorem Holds.of_scene (h : m.Holds container store entries) (hs : m'.world.scene = m.world.scene) :
    m'.Holds container store entries := by
  cases store with
  | persistent =>
    unfold Holds
    rw [hs]
    exact h
  | ephemeral =>
    have hc : m'.world.containers = m.world.containers := congrArg Scene.containers hs
    unfold Holds World.container
    rw [hc]
    exact h

end Machine

namespace Access

/-- The call by which an access reaches the storage. -/
def call : Access → StorageCall
  | .read key => .get key
  | .write key value => .set key value
  | .delete key => .delete key

def update? : Access → Option Update
  | .read _ => none
  | .write key value => some (.write key value)
  | .delete key => some (.delete key)

variable (a : Access)

theorem call?_persistent :
    (a.operation .persistent : Operation Program).call? = some (.storage a.call) := by
  cases a <;> rfl

theorem update?_ephemeral :
    (a.operation .ephemeral : Operation Program).deed?.bind Deed.update? = a.update? := by
  cases a <;> rfl

/-- What the storage makes of an access. -/
theorem accepted_call (entries : Table String) :
    (MemoryStore.hosted entries).accepted a.call = MemoryStore.hosted (a.apply entries) := by
  cases a <;> rfl

/-- What the storage answers to an access. -/
theorem reception_call (entries : Table String) : ∃ reply : Reply,
    ((MemoryStore.hosted entries).reception a.call).map (.ofStorage a.call) =
      .now (.value reply) ∧
    ∀ sentinel, reply.result sentinel = .ok (a.result (present sentinel) entries) := by
  cases a <;> exact ⟨_, rfl, fun _ => rfl⟩

/-- What an access makes of a container. -/
theorem named_update? (c : Container) :
    (a.update?.elim c fun u => u.apply c).named = a.apply c.named := by
  cases a <;> rfl

end Access

namespace Machine
variable {m m' : Machine r} {i container : Nat} {store : Store} {entries : Table String} {t : Task}

/-- An access works on the entries of its store. -/
theorem access_step {c : Cursor} {pending : List Continuation} {a : Access}
    (hm : m.Holds t.container store entries) (ht : m.tasks[i]? = some t) (hp : t.phase = .running c)
    (hc : c.advance = .execute (a.operation store) pending) :
    ∃ m', m.step? i = some m' ∧ m'.Holds t.container store (a.apply entries) ∧
      m'.tasks[i]? = some (t.resumed pending
        (.ok (a.result (store.view r.config.absentSentinel) entries))) := by
  obtain ⟨m', hm', hs⟩ := stepped_dispatch ht hp hc
  have hstep : t.step? m.world i = some (t.dispatch m.world i pending (a.operation store)) := by
    simp only [Task.step?, hp, hc]
  have hscene : m'.world.scene = m.world.scene.after t.container
      (a.operation store : Operation Program).deed? := by
    rw [hs.world, Task.step?_scene hstep]
    simp only [hp, Phase.deed?, hc]
  cases store with
  | persistent =>
    have hstore : m.world.scene.hosted .storage = MemoryStore.hosted entries := hm
    obtain ⟨reply, hreply, hresult⟩ := a.reception_call entries
    have hnow : (m.world.accept t.span (.storage a.call)).2 = .now (.value reply) := by
      rw [World.accept_reception, Scene.accept_reception]
      exact (congrArg (fun h : Hosted StorageCall StorageCall.Reply =>
        (h.reception a.call).map (Reply.ofStorage a.call)) hstore).trans hreply
    refine ⟨m', hm', ?_, ?_⟩
    · rw [Operation.deed?_of_call? a.call?_persistent] at hscene
      unfold Holds
      rw [hscene]
      exact (m.world.scene.hosted_accept_self (.storage a.call)).trans
        ((congrArg (fun h : Hosted StorageCall StorageCall.Reply => h.accepted a.call) hstore).trans
          (a.accepted_call entries))
    · rw [hs.self, Task.dispatch_task a.call?_persistent hnow]
      exact congrArg (fun result => some (t.resumed pending result)) (hresult _)
  | ephemeral =>
    obtain ⟨hlt, rfl⟩ := hm
    refine ⟨m', hm', ?_, ?_⟩
    · obtain ⟨hlt', hcontainer⟩ := m.world.scene.after_container hlt t.container
        (a.operation .ephemeral : Operation Program).deed?
      rw [← hscene] at hlt' hcontainer
      refine ⟨hlt', ?_⟩
      rw [if_pos rfl, a.update?_ephemeral] at hcontainer
      exact (congrArg Container.named hcontainer).trans (a.named_update? _)
    · rw [hs.self]
      cases a <;> rfl

/-- Task `i` works on the container and makes the journey with its keys in the store. -/
def Shows (m : Machine r) (i container : Nat) (store : Store) (j : Journey) : Prop :=
  ∃ t, m.tasks[i]? = some t ∧ t.container = container ∧ m.Holds container store j.entries ∧
    match j with
    | .going c outer _ =>
      t.phase = .running (c.onStore store) ∧ t.boundaries = outer.map (stackOn store)
    | .arrived ending _ => t.phase = .ended ending

/-- Who makes a journey goes on as the journey does. -/
theorem Shows.step {j j' : Journey} (h : m.Shows i container store j)
    (hj : j.next? (store.view r.config.absentSentinel) = some j') :
    ∃ m', m.step? i = some m' ∧ m'.Shows i container store j' := by
  obtain ⟨t, ht, rfl, hm, hphase⟩ := h
  cases j with
  | arrived => cases hj
  | going c outer entries =>
    obtain ⟨hp, hb⟩ := hphase
    have hadvance := c.advance_onStore store
    cases ha : c.advance with
    | finished result =>
      rw [ha] at hadvance
      obtain ⟨m', hm', hs⟩ := stepped_finish ht hp hadvance
      have hscene : m'.world.scene = m.world.scene := by rw [hs.world, Task.finish_scene]
      have hholds := hm.of_scene hscene
      cases outer with
      | nil =>
        cases (Journey.next?_end ha).symm.trans hj
        have hfinish : t.finish m.world result = t.conclude m.world result := by
          simp only [Task.finish, hb, List.map_nil]
        rw [hfinish] at hs
        exact ⟨m', hm', _, hs.self, rfl, hholds, rfl⟩
      | cons pending outer =>
        cases (Journey.next?_leave ha).symm.trans hj
        obtain ⟨w', -, hleave⟩ :=
          t.leaveBoundary_eq m.world (stackOn store pending) (outer.map (stackOn store)) result
        have hfinish : t.finish m.world result = t.leaveBoundary m.world (stackOn store pending)
            (outer.map (stackOn store)) result := by
          simp only [Task.finish, hb, List.map_cons]
        rw [hfinish, hleave] at hs
        exact ⟨m', hm', _, hs.self, rfl, hholds, by rw [Cursor.onStore_resume]; rfl, rfl⟩
    | execute op pending =>
      rw [ha] at hadvance
      cases hop : op.access? with
      | some a =>
        cases (Journey.next?_access ha hop).symm.trans hj
        rw [Advance.onStore, Operation.operationOn_of_access? hop] at hadvance
        obtain ⟨m', hm', hholds, ht'⟩ := access_step hm ht hp hadvance
        exact ⟨m', hm', _, ht', rfl, hholds, by rw [Cursor.onStore_resume]; rfl, hb⟩
      | none =>
        cases op with
        | recover p =>
          cases (Journey.next?_recover ha).symm.trans hj
          obtain ⟨m', hm', hs⟩ := stepped_dispatch ht hp hadvance
          have hscene : m'.world.scene = m.world.scene := by
            rw [hs.world]
            rfl
          refine ⟨m', hm', _, hs.self, rfl, hm.of_scene hscene, ?_, ?_⟩
          · rfl
          · exact congrArg (stackOn store pending :: ·) hb
        | read | write | delete => cases hop
        | _ => simp [Journey.next?, ha, Operation.access?] at hj

/-- Who makes a journey over keys makes the next step of it, if any. -/
theorem Shows.of_step {j : Journey} (h : m.Shows i container store j) (hj : j.Keyed)
    (hs : m.step? i = some m') : ∃ j', j.next? (store.view r.config.absentSentinel) = some j' ∧
      j'.Keyed ∧ m'.Shows i container store j' := by
  cases j with
  | arrived ending entries =>
    obtain ⟨t, ht, -, -, hp⟩ := h
    simp [step?, ht, Task.step?, hp] at hs
  | going c outer entries =>
    obtain ⟨j', hnext, hj'⟩ := hj.next? (store.view r.config.absentSentinel)
    obtain ⟨m₁, hm₁, h₁⟩ := h.step hnext
    cases hs.symm.trans hm₁
    exact ⟨j', hnext, hj', h₁⟩

/-- What the next step of a journey writes is dispatched by its task. -/
theorem Shows.written? {j : Journey} (h : m.Shows i container store j) :
    (m.note? (fun t => t.phase.operation?) (.move (.step i))).bind Operation.written? =
      j.written? := by
  obtain ⟨t, ht, -, -, hphase⟩ := h
  rw [note?, ht, Option.bind_some]
  cases j with
  | arrived => rw [hphase]; rfl
  | going c outer entries =>
    rw [hphase.1]
    simp only [Phase.operation?, c.advance_onStore store, Journey.written?]
    cases c.advance with
    | finished result => rfl
    | execute op pending => cases op <;> rfl

/-- A task steps again and again. -/
def stepping (i k : Nat) : List Happening := List.replicate k (.move (.step i))

theorem Shows.follow {j j' : Journey} {k : Nat} (h : m.Shows i container store j)
    (hj : j.follow? (store.view r.config.absentSentinel) k = some j') :
    ∃ m', Run m (stepping i k) m' ∧ m'.Shows i container store j' := by
  induction k generalizing m j with
  | zero =>
    cases hj
    exact ⟨m, .refl, h⟩
  | succ k ih =>
    obtain ⟨j₁, hnext, hj⟩ := Option.bind_eq_some_iff.mp hj
    obtain ⟨m₁, hm₁, h₁⟩ := h.step hnext
    obtain ⟨m', hrun, h'⟩ := ih h₁ hj
    exact ⟨m', .step hm₁ hrun, h'⟩

theorem Shows.ending? {ending : Verdict Dyn}
    (h : m.Shows i container store (.arrived ending entries)) :
    m.ending? i = some ending := by
  obtain ⟨t, ht, -, -, hp⟩ := h
  exact ending?_eq_some_iff.mpr ⟨t, ht, hp⟩

theorem Shows.ending?_going {c : Cursor} {outer : List (List Continuation)}
    (h : m.Shows i container store (.going c outer entries)) : m.ending? i = none := by
  obtain ⟨t, ht, -, -, hp, -⟩ := h
  simp [Machine.ending?, ht, hp]

/-- Every journey over keys ends. -/
theorem Shows.ends {j : Journey} (h : m.Shows i container store j) (hj : j.Keyed) :
    ∃ k m' ending, Run m (stepping i k) m' ∧ m'.ending? i = some ending := by
  induction m using moves_wellFounded.induction generalizing j with
  | _ m ih =>
    cases j with
    | arrived ending entries => exact ⟨0, m, ending, .refl, h.ending?⟩
    | going c outer entries =>
      obtain ⟨j', hnext, hj'⟩ := hj.next? (store.view r.config.absentSentinel)
      obtain ⟨m₁, hm₁, h₁⟩ := h.step hnext
      obtain ⟨k, m', ending, hrun, hending⟩ := ih m₁ ⟨.step i, hm₁⟩ h₁ hj'
      exact ⟨k + 1, m', ending, .step hm₁ hrun, hending⟩

theorem shows_launch (hm : m.Holds container store entries) (p : Program) :
    (m.launch (p.onStore store) container).1.Shows m.tasks.size container store
      (.going (.new p) [] entries) :=
  ⟨_, Array.getElem?_push_size, rfl, hm.of_scene rfl, rfl, rfl⟩

section
variable {n n' : Machine r'} {i' container' : Nat} {j : Journey}

/-- As long as no entry is the sentinel, the tasks make the same journey on both stores. -/
theorem Shows.agree_step (hm : m.Shows i container .persistent j)
    (hn : n.Shows i' container' .ephemeral j) (hj : j.Keyed)
    (hs : ∀ key, j.entries.find? key ≠ some r.config.absentSentinel)
    (h : n.step? i' = some n') :
    ∃ m' j', m.step? i = some m' ∧ j'.Keyed ∧ m'.Shows i container .persistent j' ∧
      n'.Shows i' container' .ephemeral j' ∧
      (j.written? ≠ some r.config.absentSentinel →
        ∀ key, j'.entries.find? key ≠ some r.config.absentSentinel) := by
  obtain ⟨j', hnext, hj', hn'⟩ := hn.of_step hj h
  cases j with
  | arrived => cases hnext
  | going c outer entries =>
    have hview (key : String) : present r.config.absentSentinel (entries.find? key) =
        entries.find? key := by
      have hkey := hs key
      cases hfind : entries.find? key with
      | none => rfl
      | some value =>
        have hne : value ≠ r.config.absentSentinel := by
          rintro rfl
          exact hkey hfind
        simp [present, hne]
    have hsame : (Journey.going c outer entries).next? (present r.config.absentSentinel) =
        (Journey.going c outer entries).next? id := Journey.next?_congr hview
    obtain ⟨m', hm', h'⟩ := hm.step (hsame.trans hnext)
    refine ⟨m', j', hm', hj', h', hn', ?_⟩
    intro hwritten key hkey
    rcases Journey.entries_next? hnext hkey with hold | hnew
    · exact hs key hold
    · exact hwritten hnew

/-- As long as no sentinel is written either, this goes on. -/
theorem Shows.agree_run {k : Nat} (hm : m.Shows i container .persistent j)
    (hn : n.Shows i' container' .ephemeral j) (hj : j.Keyed)
    (hs : ∀ key, j.entries.find? key ≠ some r.config.absentSentinel)
    (h : Run n (stepping i' k) n')
    (hw : ∀ op ∈ n.dispatched (stepping i' k), op.written? ≠ some r.config.absentSentinel) :
    ∃ m' j', Run m (stepping i k) m' ∧ m'.Shows i container .persistent j' ∧
      n'.Shows i' container' .ephemeral j' := by
  induction k generalizing m n j with
  | zero =>
    cases h
    exact ⟨m, j, .refl, hm, hn⟩
  | succ k ih =>
    cases h with
    | @step _ n₁ _ _ _ hstep hrest =>
      obtain ⟨m₁, j₁, hm₁, hj₁, hmshows, hnshows, hkept⟩ := hm.agree_step hn hj hs hstep
      simp only [stepping, List.replicate_succ, dispatched, journal, hstep, List.mem_append,
        Option.mem_toList] at hw
      have hwritten : j.written? ≠ some r.config.absentSentinel := by
        rw [← hn.written?]
        intro hbind
        obtain ⟨op, hop, heq⟩ := Option.bind_eq_some_iff.mp hbind
        exact hw op (.inl hop) heq
      obtain ⟨m', j', hrun, h'⟩ := ih hmshows hnshows hj₁ (hkept hwritten) hrest
        fun op hop => hw op (.inr hop)
      exact ⟨m', j', .step hm₁ hrun, h'⟩

/-- Where journeys have come to the same entries, the storage
holds what is named in the container. -/
theorem Shows.holds_named {j' : Journey} (hm : m.Shows i container .persistent j)
    (hn : n.Shows i' container' .ephemeral j') (he : j'.entries = j.entries) :
    m.Holds container .persistent (n.world.container container').named := by
  obtain ⟨-, -, -, hmholds, -⟩ := hm
  obtain ⟨-, -, -, ⟨-, hnamed⟩, -⟩ := hn
  rwa [hnamed, he]

/-- How a journey has ended does not depend on the store. -/
theorem Shows.ending?_eq (hm : m.Shows i container .persistent j)
    (hn : n.Shows i' container' .ephemeral j) : m.ending? i = n.ending? i' := by
  cases j with
  | going c outer entries => rw [hm.ending?_going, hn.ending?_going]
  | arrived ending entries => rw [hm.ending?, hn.ending?]

end

/-- On both stores a program over keys ends, and with the same results and entries if the sentinel
is not among its values. Accesses one after the other leave the same entries in any case, and only
the persistent store hides sentinels. -/
theorem stores_agree {n : Machine r'} {p : Program} {container' : Nat} {entries : Table String}
    (hp : p.Only Operation.IsKeyed) (hm : m.Holds container .persistent entries)
    (hn : n.Holds container' .ephemeral entries) :
    (∃ k n' ending,
      Run n (.launch (p.onStore .ephemeral) container' :: stepping n.tasks.size k) n' ∧
      n'.ending? n.tasks.size = some ending) ∧
    ((∀ key, entries.find? key ≠ some r.config.absentSentinel) → ∀ k n',
      Run n (.launch (p.onStore .ephemeral) container' :: stepping n.tasks.size k) n' →
      (∀ op ∈ n.dispatched
        (.launch (p.onStore .ephemeral) container' :: stepping n.tasks.size k),
        op.written? ≠ some r.config.absentSentinel) →
      ∃ m', Run m (.launch (p.onStore .persistent) container :: stepping m.tasks.size k) m' ∧
        m'.ending? m.tasks.size = n'.ending? n.tasks.size ∧
        m'.Holds container .persistent (n'.world.container container').named) ∧
    (∀ accesses : List Access, ∃ m' n',
      Run m (.launch ((Access.straight accesses []).program.onStore .persistent) container ::
        stepping m.tasks.size (accesses.length + 1)) m' ∧
      Run n (.launch ((Access.straight accesses []).program.onStore .ephemeral) container' ::
        stepping n.tasks.size (accesses.length + 1)) n' ∧
      n'.ending? n.tasks.size =
        some (.value ⟨.list (.option .text), Access.reads id accesses entries⟩) ∧
      m'.ending? m.tasks.size = some (.value ⟨.list (.option .text),
        (Access.reads id accesses entries).map (present r.config.absentSentinel)⟩) ∧
      m'.Holds container .persistent (n'.world.container container').named) := by
  have hkeyed : (Journey.going (.new p) [] entries).Keyed := ⟨Cursor.only_new hp, nofun⟩
  refine ⟨?_, ?_, ?_⟩
  · obtain ⟨k, n', ending, hrun, hending⟩ := (shows_launch hn p).ends hkeyed
    exact ⟨k, n', ending, .step rfl hrun, hending⟩
  · intro hs k n' hrun hw
    cases hrun with
    | step hlaunch hrest =>
      cases hlaunch
      have hw' : ∀ op ∈ (n.launch (p.onStore .ephemeral) container').1.dispatched
          (stepping n.tasks.size k), op.written? ≠ some r.config.absentSentinel := by
        intro op hop
        exact hw op (by simpa [dispatched, journal, happen?, note?] using hop)
      obtain ⟨m', j', hrun, hm', hn'⟩ :=
        (shows_launch hm p).agree_run (shows_launch hn p) hkeyed hs hrest hw'
      exact ⟨m', .step rfl hrun, hm'.ending?_eq hn', hm'.holds_named hn' rfl⟩
  · intro accesses
    obtain ⟨m', hrun, hm'⟩ := (shows_launch hm (Access.straight accesses []).program).follow
      (Access.follow?_straight accesses [] rfl)
    obtain ⟨n', hrun', hn'⟩ := (shows_launch hn (Access.straight accesses []).program).follow
      (Access.follow?_straight accesses [] rfl)
    have hfound := Access.reads_eq_map (present r.config.absentSentinel) accesses entries
    refine ⟨m', n', .step rfl hrun, .step rfl hrun', hn'.ending?, ?_, hm'.holds_named hn' rfl⟩
    rw [hm'.ending?]
    exact congrArg (fun found : List (Option String) =>
      some (Verdict.value (Dyn.mk (.list (.option .text)) found))) hfound

/-- Copies what is under one key to another one, inside a boundary, and then fails there. -/
def copying : Flow (.attempt .json) :=
  Flow.recover ((Flow.read .persistent "a").andThen fun (value : Option String) =>
    (Flow.write .persistent "b" (value.getD "-")).followedBy (Flow.throw (.explicit "copied")))

/-- A storage and a container with the same entries. -/
def stocked : Setup :=
  { Bench.new with storage := ⟨.ofList [("a", "x")]⟩ }.setup
    ⟨.ofList [("a", "x")], .empty⟩ []

theorem copying_only : copying.program.Only Operation.IsKeyed := by
  refine .step trivial ?_
  intro p hp
  obtain rfl := List.mem_singleton.mp hp
  refine Flow.only_andThen (.step trivial nofun) fun value => ?_
  exact Flow.only_andThen (.step trivial nofun) fun _ => .throw

/-- The copy is made on both stores, and a sentinel that is written is hidden in one of them. -/
theorem stores_agree_copying :
    (∃ m n : Machine stocked.runner,
      Run stocked.machine (.launch (copying.program.onStore .persistent) 0 :: stepping 0 5) m ∧
      Run stocked.machine (.launch (copying.program.onStore .ephemeral) 0 :: stepping 0 5) n ∧
      (n.ending? 0).isSome ∧ m.ending? 0 = n.ending? 0 ∧
      m.Holds 0 .persistent (n.world.container 0).named ∧
      (n.world.container 0).named = .ofList [("a", "x"), ("b", "x")]) ∧
    ∃ m n : Machine stocked.runner,
      m.ending? 0 = some (.value ⟨.list (.option .text), [none]⟩) ∧
      n.ending? 0 =
        some (.value ⟨.list (.option .text), [some stocked.config.absentSentinel]⟩) ∧
      m.Holds 0 .persistent (n.world.container 0).named := by
  have hstorage : stocked.machine.Holds 0 .persistent (.ofList [("a", "x")]) := rfl
  have hcontainer : stocked.machine.Holds 0 .ephemeral (.ofList [("a", "x")]) :=
    ⟨by decide, rfl⟩
  obtain ⟨-, hsame, hstraight⟩ := stores_agree copying_only hstorage hcontainer
  constructor
  · have hend : (stocked.machine.follow?
        (.launch (copying.program.onStore .ephemeral) 0 :: stepping 0 5)).map (fun n =>
          ((n.ending? 0).isSome, (n.world.container 0).named)) =
            some (true, .ofList [("a", "x"), ("b", "x")]) := by
      decide +kernel
    have hwrites : (stocked.machine.dispatched
        (.launch (copying.program.onStore .ephemeral) 0 :: stepping 0 5)).all (fun op =>
          op.written? ≠ some stocked.config.absentSentinel) = true := by
      decide +kernel
    obtain ⟨n, hn, heq⟩ := Option.map_eq_some_iff.mp hend
    obtain ⟨hended, hnamed⟩ := Prod.mk.inj heq
    have hseed :
        ∀ key, (Table.ofList [("a", "x")]).find? key ≠ some stocked.config.absentSentinel := by
      intro key
      have hfind : (Table.ofList [("a", "x")]).find? key = if "a" = key then some "x"
          else none := rfl
      rw [hfind]
      split <;> decide
    obtain ⟨m, hrun, hending, hholds⟩ := hsame hseed 5 n (run_of_follow? hn) fun op hop =>
      of_decide_eq_true (List.all_eq_true.mp hwrites op hop)
    exact ⟨m, n, hrun, run_of_follow? hn, hended, hending, hholds, hnamed⟩
  · obtain ⟨m, n, -, -, hshown, hhidden, hholds⟩ :=
      hstraight [.write "k" stocked.config.absentSentinel, .read "k"]
    exact ⟨m, n, hhidden, hshown, hholds⟩

end Machine

end Workflow
