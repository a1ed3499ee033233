import Workflow.Proofs.Machine.Turn
import Workflow.Proofs.Program.Scope

/-! Kinds of programs.

A result travels with its kind, and whoever takes it names the kind that it expects. A program that
is assembled by the constructors of flows has a kind at every place, and the loop of a cursor keeps
to these kinds, so that nobody is ever handed a result of another kind. -/
namespace Workflow

variable {a b kind : Kind} {p : Program} {pending : List Continuation} {e : Fault}

/-- The kind of the programs that an operation launches or puts a boundary around. -/
def Operation.inner {P : Type} : Operation P → Kind
  | .recover _ => .outcome
  | _ => .json

/-- The program ends with a result of the kind or fails, and all that is in it fits together. -/
inductive Program.Typed : Kind → Program → Prop
  | done {kind : Kind} {v : kind.Carrier} : Typed kind (.done ⟨kind, v⟩)
  | throw {kind : Kind} {e : Fault} : Typed kind (.throw e)
  | step {op : Operation Program} (hp : ∀ p ∈ op.programs, Typed op.inner p) :
    Typed op.result (.step op)
  | bind {a b : Kind} {p : Program} {next : a.Carrier → Flow b} (hp : Typed a p)
    (hn : ∀ v, Typed b (next v).program) : Typed b (.bind p (Flow.continuation next))

/-- What is pending turns a result of the first kind into one of the second. -/
inductive StackTyped : Kind → List Continuation → Kind → Prop
  | nil {kind : Kind} : StackTyped kind [] kind
  | cons {a b kind : Kind} {next : a.Carrier → Flow b} {pending : List Continuation}
    (hn : ∀ v, (next v).program.Typed b) (hs : StackTyped b pending kind) :
    StackTyped a (Flow.continuation next :: pending) kind

namespace Cursor
variable {c c' : Cursor} {op : Operation Program} {result : Except Fault Dyn}

def Typed (kind : Kind) (c : Cursor) : Prop :=
  ∃ a, c.current.Typed a ∧ StackTyped a c.pending kind

theorem typed_new (h : p.Typed kind) : (Cursor.new p).Typed kind := ⟨kind, h, .nil⟩

theorem typed_resume (hs : StackTyped a pending kind) (hr : OfKind a result) :
    (Cursor.resume pending result).Typed kind := by
  cases result with
  | ok d =>
    obtain ⟨k, v⟩ := d
    obtain rfl : k = a := hr _ rfl
    exact ⟨k, .done, hs⟩
  | error e => exact ⟨kind, .throw, .nil⟩

/-- An iteration of the loop keeps to the kinds. -/
theorem Typed.iterates (h : c.Typed kind) (hi : c.Iterates c') : c'.Typed kind := by
  obtain ⟨a, hp, hs⟩ := h
  cases hi with
  | resumed v k pending =>
    cases hp with
    | done =>
      cases hs with
      | cons hn hs =>
        refine ⟨_, ?_, hs⟩
        rw [Flow.continuation_mk]
        exact hn _
  | attached p k pending =>
    cases hp with
    | bind hp hn => exact ⟨_, hp, .cons hn hs⟩

theorem Typed.passes (h : c.Typed kind) (hc : c.Passes c') : c'.Typed kind := by
  induction hc with
  | refl => exact h
  | tail _ hi ih => exact ih.iterates hi

/-- Wherever the loop hands a value on, it has the kind that is expected there. -/
theorem Typed.take {d : Dyn} {k : Continuation} (h : c.Typed kind)
    (hc : c.Passes ⟨.done d, k :: pending⟩) :
    ∃ (a b : Kind) (next : a.Carrier → Flow b) (v : a.Carrier), k = Flow.continuation next ∧
      d.take a = .ok v := by
  obtain ⟨a, hp, hs⟩ := h.passes hc
  cases hp with
  | @done _ v =>
    cases hs with
    | @cons _ b _ next _ hn hs => exact ⟨a, b, next, v, rfl, Dyn.take_mk a v⟩

/-- The operation at which a cursor comes to rest contains typed programs, and what is pending
behind it takes the kind of result that it promises. -/
theorem Typed.advance (h : c.Typed kind) (hc : c.advance = .execute op pending) :
    (∀ p ∈ op.programs, p.Typed op.inner) ∧ StackTyped op.result pending kind := by
  obtain ⟨current, stack⟩ := c
  induction current, stack using Cursor.induction with
  | finished v => cases hc
  | resumed v k stack ih => exact ih (h.iterates (.resumed v k stack)) hc
  | failed e stack => simp at hc
  | operation op' stack _ =>
    obtain ⟨rfl, rfl⟩ : op' = op ∧ stack = pending := by simpa using hc
    obtain ⟨a, hp, hs⟩ := h
    cases hp with
    | step hp => exact ⟨hp, hs⟩
  | attached p k stack ih =>
    rw [advance_bind] at hc
    exact ih (h.iterates (.attached p k stack)) hc

/-- A cursor ends with a value of its kind. -/
theorem Typed.finished (h : c.Typed kind) (hc : c.advance = .finished result) :
    OfKind kind result := by
  obtain ⟨current, stack⟩ := c
  induction current, stack using Cursor.induction with
  | finished v =>
    cases hc
    obtain ⟨a, hp, hs⟩ := h
    cases hs with
    | nil =>
      cases hp with
      | done => exact ofKind_ok _
  | resumed v k stack ih => exact ih (h.iterates (.resumed v k stack)) hc
  | failed e stack =>
    obtain rfl : .error e = result := by simpa using hc
    exact ofKind_error e
  | operation op stack _ => simp at hc
  | attached p k stack ih =>
    rw [advance_bind] at hc
    exact ih (h.iterates (.attached p k stack)) hc

/-- The loop comes upon a failure that the program itself throws: one that it goes on with when it
has taken a value, or one that it contains. -/
inductive Throws (e : Fault) : Cursor → Prop
  | next {a b : Kind} {next : a.Carrier → Flow b} {v : a.Carrier} {pending : List Continuation}
    (h : (next v).program = .throw e) :
    Throws e ⟨.done ⟨a, v⟩, Flow.continuation next :: pending⟩
  | inner {k : Continuation} {pending : List Continuation} :
    Throws e ⟨.bind (.throw e) k, pending⟩
  | later {c c' : Cursor} (hi : c.Iterates c') (h : Throws e c') : Throws e c

/-- A cursor fails only if it was resumed with the failure, or its program throws it. -/
theorem Typed.throws (h : c.Typed kind) (hc : c.advance = .finished (.error e)) :
    (∃ pending, c = ⟨.throw e, pending⟩) ∨ c.Throws e := by
  obtain ⟨current, stack⟩ := c
  induction current, stack using Cursor.induction with
  | finished v => cases hc
  | resumed v k stack ih =>
    right
    have hi := Iterates.resumed v k stack
    obtain ⟨pending, heq⟩ | hthrows := ih (h.iterates hi) hc
    · obtain ⟨a, hp, hs⟩ := h
      cases hp with
      | @done _ x =>
        cases hs with
        | @cons _ b _ next _ hn hs =>
          rw [Flow.continuation_mk] at heq
          exact .next (congrArg Cursor.current heq)
    · exact .later hi hthrows
  | failed e' stack =>
    obtain rfl : e' = e := by simpa using hc
    exact .inl ⟨stack, rfl⟩
  | operation op stack _ => simp at hc
  | attached p k stack ih =>
    right
    rw [advance_bind] at hc
    have hi := Iterates.attached p k stack
    obtain ⟨pending, heq⟩ | hthrows := ih (h.iterates hi) hc
    · obtain rfl : p = .throw e := congrArg Cursor.current heq
      exact .inner
    · exact .later hi hthrows

end Cursor

namespace Flow

/-- The flow is put together from the constructors of flows and from nothing else. -/
inductive Assembled : {kind : Kind} → Flow kind → Prop
  | pure {a : Kind} (v : a.Carrier) : Assembled (Flow.pure v)
  | throw {a : Kind} (e : Fault) : Assembled (Flow.throw (a := a) e)
  | andThen {a b : Kind} {f : Flow a} {next : a.Carrier → Flow b} (hf : Assembled f)
    (hn : ∀ v, Assembled (next v)) : Assembled (f.andThen next)
  | map {a b : Kind} {f : Flow a} (g : a.Carrier → b.Carrier) (hf : Assembled f) :
    Assembled (f.map g)
  | followedBy {a b : Kind} {f : Flow a} {next : Flow b} (hf : Assembled f) (hn : Assembled next) :
    Assembled (f.followedBy next)
  | intoValue {a : Kind} {f : Flow a} (encode : a.Carrier → Except String Json)
    (hf : Assembled f) :
    Assembled (f.intoValue encode)
  | runUiAs (shape : Json.Shape) (interaction : Except String Json) :
    Assembled (Flow.runUiAs shape interaction)
  | callEndpoint (shape : Json.Shape) (request : ApiRequest) :
    Assembled (Flow.callEndpoint shape request)
  | callApi (request : ApiRequest) : Assembled (Flow.callApi request)
  | runUi (interaction : Json) : Assembled (Flow.runUi interaction)
  | forkUi (interaction : Json) : Assembled (Flow.forkUi interaction)
  | read (store : Store) (key : String) : Assembled (Flow.read store key)
  | write (store : Store) (key value : String) : Assembled (Flow.write store key value)
  | delete (store : Store) (key : String) : Assembled (Flow.delete store key)
  | readForeignAll : Assembled Flow.readForeignAll
  | writeForeign (key : String) (value : Json) : Assembled (Flow.writeForeign key value)
  | fork {f : Flow .json} (hf : Assembled f) : Assembled (Flow.fork f)
  | runExternal (action : External) : Assembled (Flow.runExternal action)
  | await (handle : Handle) : Assembled (Flow.await handle)
  | peek (handle : Handle) : Assembled (Flow.peek handle)
  | delay (duration : Nat) : Assembled (Flow.delay duration)
  | race {branches : List (Flow .json)} (hb : ∀ f ∈ branches, Assembled f) :
    Assembled (Flow.race branches)
  | recover {f : Flow .outcome} (hf : Assembled f) : Assembled (Flow.recover f)
  | checkPermissions (permissions : List Permission) : Assembled (Flow.checkPermissions permissions)
  | requestPermissions (permissions : List Permission) :
    Assembled (Flow.requestPermissions permissions)
  | log (tag message : String) : Assembled (Flow.log tag message)

/-- Going on with a result keeps to the kinds, also where the result is
there already and is taken at once. -/
theorem typed_andThen {f : Flow a} {next : a.Carrier → Flow b} (hf : f.program.Typed a)
    (hn : ∀ v, (next v).program.Typed b) : (f.andThen next).program.Typed b := by
  obtain ⟨p⟩ := f
  cases hf with
  | @done _ v =>
    have heq : (Flow.andThen ⟨.done ⟨a, v⟩⟩ next).program = (next v).program :=
      Flow.continuation_mk next v
    rw [heq]
    exact hn v
  | throw => exact .throw
  | step hp => exact .bind (.step hp) hn
  | bind hp hq => exact .bind (.bind hp hq) hn

/-- What holds of ended programs and of operations with such programs inside, and is kept by going
on, holds of every flow that is put together from the constructors. -/
theorem Assembled.closed {P : Kind → Program → Prop}
    (done : ∀ {a : Kind} (v : a.Carrier), P a (.done ⟨a, v⟩))
    (throw : ∀ {a : Kind} (e : Fault), P a (.throw e))
    (step : ∀ op : Operation Program, (∀ p ∈ op.programs, P op.inner p) →
      P op.result (.step op))
    (andThen : ∀ {a b : Kind} {f : Flow a} {next : a.Carrier → Flow b}, P a f.program →
      (∀ v, P b (next v).program) → P b (f.andThen next).program)
    {f : Flow kind} (h : f.Assembled) :
    P kind f.program := by
  have leaf {op : Operation Program} {a : Kind} (hp : op.programs = []) (ha : op.result = a) :
      P a (.step op) :=
    ha ▸ step op (by simp [hp])
  induction h with
  | pure v => exact done v
  | throw e => exact throw e
  | andThen _ _ ihf ihn => exact andThen ihf ihn
  | map g _ ih => exact andThen ih fun _ => done _
  | followedBy _ _ ihf ihn => exact andThen ihf fun _ => ihn
  | intoValue encode _ ih =>
    refine andThen ih fun v => ?_
    split
    · exact done _
    · exact throw _
  | runUiAs shape interaction =>
    cases interaction with
    | error reason => exact throw _
    | ok interaction =>
      refine andThen (f := Flow.runUi interaction) (leaf rfl rfl) fun response => ?_
      split
      · exact done _
      · exact throw _
  | callEndpoint shape request =>
    refine andThen (f := Flow.callApi request) (leaf rfl rfl) fun response => ?_
    split
    · split
      · exact done _
      · exact throw _
    · exact done _
  | fork _ ih => exact step (.fork _) (List.forall_mem_singleton.mpr ih)
  | recover _ ih => exact step (.recover _) (List.forall_mem_singleton.mpr ih)
  | race _ ih => exact step (.race _) (List.forall_mem_map.mpr ih)
  | _ => exact leaf rfl rfl

theorem Assembled.typed {f : Flow kind} (h : f.Assembled) : f.program.Typed kind :=
  h.closed (fun _ => .done) (fun _ => .throw) (fun _ => .step) typed_andThen

end Flow

end Workflow
