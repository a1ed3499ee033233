import Mathlib.Data.Set.Insert
import Workflow.Program.Flow
import Workflow.Proofs.Program.Cursor

/-! Which handles a program can know.

A program is scoped in a set of handles if it awaits only these and the ones that its operations
hand to it, as a program does that has made up none. Running a program keeps it so. -/
namespace Workflow

/-- The handles inside data. -/
def Kind.handles : (kind : Kind) → kind.Carrier → Set Handle
  | .handle, h => {h}
  | .option kind, v => {h | ∃ u, v = some u ∧ h ∈ kind.handles u}
  | .list kind, vs => {h | ∃ u, List.Mem u vs ∧ h ∈ kind.handles u}
  | .pair a b, v => a.handles v.1 ∪ b.handles v.2
  | .either a b, v =>
    {h | (∃ u, v = .inl u ∧ h ∈ a.handles u) ∨ ∃ u, v = .inr u ∧ h ∈ b.handles u}
  | .attempt kind, v => {h | ∃ u, v = .ok u ∧ h ∈ kind.handles u}
  | _, _ => ∅

/-- Data of this kind holds no handles. -/
def Kind.isPlain : Kind → Bool
  | .handle => false
  | .option kind | .list kind | .attempt kind => kind.isPlain
  | .pair a b | .either a b => a.isPlain && b.isPlain
  | _ => true

theorem Kind.handles_of_isPlain {kind : Kind} (h : kind.isPlain = true) (v : kind.Carrier) :
    kind.handles v = ∅ := by
  induction kind with
  | handle => cases h
  | option kind ih | list kind ih | attempt kind ih => simp [handles, ih h]
  | pair a b iha ihb | either a b iha ihb =>
    obtain ⟨ha, hb⟩ : a.isPlain = true ∧ b.isPlain = true := by simpa [isPlain] using h
    simp [handles, iha ha, ihb hb]
  | _ => rfl

namespace Dyn

def handles (d : Dyn) : Set Handle := d.kind.handles d.value

theorem handles_of_isPlain {d : Dyn} (h : d.kind.isPlain = true) : d.handles = ∅ :=
  Kind.handles_of_isPlain h d.value

theorem handles_of_take {d : Dyn} {kind : Kind} {v : kind.Carrier} (h : d.take kind = .ok v) :
    d.handles = kind.handles v := by
  obtain ⟨kind', v'⟩ := d
  by_cases hk : kind' = kind
  · subst hk
    obtain rfl : v' = v := by simpa using h
    rfl
  · simp [take, hk] at h

end Dyn

namespace Operation
variable {P : Type}

/-- The programs that an operation launches or puts a boundary around. -/
def programs : Operation P → List P
  | .fork p | .recover p => [p]
  | .race ps => ps
  | _ => []

/-- The handles that an operation waits for. -/
def awaited : Operation P → Set Handle
  | .await h => {h}
  | _ => ∅

/-- Only a fork hands out a handle. -/
theorem result_isPlain {op : Operation P} (h : op.result ≠ .handle) :
    op.result.isPlain = true := by
  cases op with
  | fork p => exact absurd rfl h
  | _ => rfl

end Operation

/-- The program awaits only handles from `known` and those that it gets from its operations. -/
inductive Program.Scoped : Set Handle → Program → Prop
  | done {known : Set Handle} {v : Dyn} (hv : v.handles ⊆ known) : Scoped known (.done v)
  | throw {known : Set Handle} {e : Fault} : Scoped known (.throw e)
  | step {known : Set Handle} {op : Operation Program} (ha : op.awaited ⊆ known)
    (hp : ∀ p ∈ op.programs, Scoped known p) : Scoped known (.step op)
  | bind {known : Set Handle} {p : Program} {k : Continuation} (hp : Scoped known p)
    (hk : ∀ v : Dyn, Scoped (known ∪ v.handles) (k v)) : Scoped known (.bind p k)

/-- What is pending awaits only handles from `known` and those of the value that goes on. -/
def StackScoped (known : Set Handle) (pending : List Continuation) : Prop :=
  ∀ k ∈ pending, ∀ v : Dyn, (k v).Scoped (known ∪ v.handles)

variable {known known' : Set Handle} {p : Program} {k : Continuation} {pending : List Continuation}

theorem Program.Scoped.mono (h : p.Scoped known) (hk : known ⊆ known') : p.Scoped known' := by
  induction h generalizing known' with
  | done hv => exact .done (hv.trans hk)
  | throw => exact .throw
  | step ha _ ih => exact .step (ha.trans hk) fun p hp => ih p hp hk
  | bind _ _ ihp ihk => exact .bind (ihp hk) fun v => ihk v (Set.union_subset_union_left _ hk)

theorem StackScoped.mono (h : StackScoped known pending) (hk : known ⊆ known') :
    StackScoped known' pending :=
  fun k hmem v => (h k hmem v).mono (Set.union_subset_union_left _ hk)

theorem stackScoped_nil : StackScoped known [] := by
  intro k hk
  cases hk

theorem stackScoped_cons :
    StackScoped known (k :: pending) ↔
      (∀ v : Dyn, (k v).Scoped (known ∪ v.handles)) ∧ StackScoped known pending :=
  List.forall_mem_cons

/-- A value whose handles are known tells nothing new. -/
theorem StackScoped.apply (h : StackScoped known (k :: pending)) {v : Dyn}
    (hv : v.handles ⊆ known) :
    (k v).Scoped known := by
  have := (stackScoped_cons.mp h).1 v
  rwa [Set.union_eq_self_of_subset_right hv] at this

namespace Cursor

def Scoped (known : Set Handle) (c : Cursor) : Prop :=
  c.current.Scoped known ∧ StackScoped known c.pending

theorem scoped_new (h : p.Scoped known) : (Cursor.new p).Scoped known := ⟨h, stackScoped_nil⟩

theorem Scoped.mono {c : Cursor} (h : c.Scoped known) (hk : known ⊆ known') : c.Scoped known' :=
  ⟨h.1.mono hk, h.2.mono hk⟩

/-- The operation at which a cursor comes to rest is scoped, and so is what is pending behind it. -/
theorem Scoped.advance {c : Cursor} (hs : c.Scoped known) {op : Operation Program}
    (hc : c.advance = .execute op pending) :
    op.awaited ⊆ known ∧ (∀ p ∈ op.programs, p.Scoped known) ∧
    StackScoped known pending := by
  obtain ⟨current, stack⟩ := c
  induction current, stack using Cursor.induction with
  | finished v => cases hc
  | resumed v k stack ih =>
    obtain ⟨⟨hv⟩, hstack⟩ := hs
    exact ih ⟨hstack.apply hv, (stackScoped_cons.mp hstack).2⟩ hc
  | failed e stack => simp at hc
  | operation op stack _ =>
    obtain ⟨hop, hstack⟩ := hs
    cases hop with
    | step ha hp =>
      obtain ⟨rfl, rfl⟩ : op = _ ∧ stack = _ := by simpa using hc
      exact ⟨ha, hp, hstack⟩
  | attached p k stack ih =>
    obtain ⟨hbind, hstack⟩ := hs
    cases hbind with
    | bind hp hk =>
      rw [advance_bind] at hc
      exact ih ⟨hp, stackScoped_cons.mpr ⟨hk, hstack⟩⟩ hc

/-- A result tells the handles inside it. -/
theorem scoped_resume (h : StackScoped known pending) {result : Except Fault Dyn}
    (hr : ∀ v, result = .ok v → v.handles ⊆ known) :
    (Cursor.resume pending result).Scoped known := by
  cases result with
  | error e => exact ⟨.throw, stackScoped_nil⟩
  | ok v => exact ⟨.done (hr v rfl), h⟩

end Cursor

theorem Program.Scoped.andThen (hp : p.Scoped known)
    (hk : ∀ v : Dyn, (k v).Scoped (known ∪ v.handles)) : (p.andThen k).Scoped known := by
  cases hp with
  | @done _ v hv =>
    have := hk v
    rwa [Set.union_eq_self_of_subset_right hv] at this
  | throw => exact .throw
  | step ha hp => exact .bind (.step ha hp) hk
  | bind hp hq => exact .bind (.bind hp hq) hk

namespace Flow

/-- A flow is scoped if each part is, given the handles of the result before it. -/
theorem scoped_andThen {a b : Kind} {f : Flow a} {next : a.Carrier → Flow b}
    (hf : f.program.Scoped known) (hn : ∀ v, (next v).program.Scoped (known ∪ a.handles v)) :
    (f.andThen next).program.Scoped known := by
  refine hf.andThen fun d => ?_
  cases hd : d.take a with
  | ok v =>
    rw [Dyn.handles_of_take hd]
    exact hn v
  | error e => exact .throw

theorem scoped_await {h : Handle} (hh : h ∈ known) : (Flow.await h).program.Scoped known :=
  .step (Set.singleton_subset_iff.mpr hh) nofun

theorem scoped_fork {f : Flow .json} (hf : f.program.Scoped known) :
    (Flow.fork f).program.Scoped known :=
  .step (Set.empty_subset known) (by simpa [Operation.programs] using hf)

theorem scoped_race {branches : List (Flow .json)}
    (hf : ∀ f ∈ branches, f.program.Scoped known) :
    (Flow.race branches).program.Scoped known :=
  .step (Set.empty_subset known) (by simpa [Operation.programs] using hf)

end Flow

end Workflow
