import Mathlib.Logic.ExistsUnique
import Workflow.Proofs.Program.Drive

/-! The laws of sequencing.

A flow is run by driving a cursor, and its result is taken by the kind that the flow promises. Two
flows are equivalent if no handler can tell them apart. Going on with a flow has three ways to build
a program, and the laws say that none of them shows. -/
namespace Workflow

universe u

variable {σ : Type u} {a b c : Kind}

/-- What running a flow shows: the operations in their order,
the result, and the state it leaves. -/
structure Showing (σ : Type u) (a : Kind) where
  performed : List Performed
  result : Except Fault a.Carrier
  state : σ

/-- The result of an evaluation, taken by the kind that was promised. -/
def Evaluation.shown (a : Kind) (x : Evaluation σ) : Showing σ a :=
  ⟨x.performed, x.result >>= Dyn.take a, x.state⟩

/-- Goes on after a success, with its value and from the state it left. -/
def Showing.andThen (x : Showing σ a) (next : a.Carrier → σ → Showing σ b) : Showing σ b :=
  match x.result with
  | .ok v => { next v x.state with performed := x.performed ++ (next v x.state).performed }
  | .error e => ⟨x.performed, .error e, x.state⟩

namespace Flow

/-- Driving the flow ends, and shows this. -/
def Shows (handle : Handler σ) (f : Flow a) (s : σ) (x : Showing σ a) : Prop :=
  ∃ e, Drive handle (Cursor.new f.program) s e ∧ x = e.shown a

/-- No handler can tell the flows apart. -/
def Equivalent (f g : Flow a) : Prop :=
  ∀ (σ : Type u) (handle : Handler σ) (s : σ) (x : Showing σ a), f.Shows handle s x ↔
    g.Shows handle s x

end Flow

/-- What goes on after an evaluation with the value as it is shows what goes on after its showing
with the value as it is taken, if a value of another kind goes on as a failure. -/
theorem Evaluation.shown_andThen (x : Evaluation σ) {k : Dyn → σ → Evaluation σ}
    {next : a.Carrier → σ → Showing σ b} (hk : ∀ d s, (k d s).shown b =
      match d.take a with
      | .ok v => next v s
      | .error e => ⟨[], .error e, s⟩) :
    (x.andThen k).shown b = (x.shown a).andThen next := by
  obtain ⟨performed, result, state⟩ := x
  cases result with
  | error e => rfl
  | ok d =>
    have hshow : ((⟨performed, .ok d, state⟩ : Evaluation σ).andThen k).shown b =
        { (k d state).shown b with
          performed := performed ++ ((k d state).shown b).performed } := rfl
    have htake : (⟨performed, .ok d, state⟩ : Evaluation σ).shown a =
        ⟨performed, d.take a, state⟩ := rfl
    rw [hshow, htake, hk d state]
    cases d.take a with
    | ok v => rfl
    | error e => simp [Showing.andThen]

theorem Showing.andThen_assoc (x : Showing σ a) (f : a.Carrier → σ → Showing σ b)
    (g : b.Carrier → σ → Showing σ c) :
    (x.andThen f).andThen g = x.andThen fun v s => (f v s).andThen g := by
  obtain ⟨performed, result, state⟩ := x
  cases result with
  | error e => rfl
  | ok v => cases h : (f v state).result <;> simp [andThen, h]

theorem Showing.andThen_pure (x : Showing σ a) :
    (x.andThen fun v s => ⟨[], .ok v, s⟩) = x := by
  obtain ⟨performed, result, state⟩ := x
  cases result <;> simp [andThen]

namespace Flow

/-- What a flow shows. -/
def showing (handle : Handler σ) (f : Flow a) (s : σ) : Showing σ a :=
  (f.program.eval handle s).shown a

/-- The flow with a bind node, whatever it begins with. -/
def attach (f : Flow a) (next : a.Carrier → Flow b) : Flow b :=
  ⟨.bind f.program (continuation next)⟩

variable {handle : Handler σ} {s : σ} {f g : Flow a}

theorem shows_iff {x : Showing σ a} : f.Shows handle s x ↔ x = f.showing handle s := by
  constructor
  · rintro ⟨e, hd, rfl⟩
    rw [showing, drive_iff_evalWith.mp hd]
    rfl
  · rintro rfl
    exact ⟨_, drive_evalWith handle f.program [] s, rfl⟩

theorem equivalent_of_showing
    (h : ∀ (σ : Type u) (handle : Handler σ) (s : σ),
      f.showing handle s = g.showing handle s) :
    Equivalent.{u} f g := by
  intro σ handle s x
  rw [shows_iff, shows_iff, h]

theorem showing_pure (handle : Handler σ) (v : a.Carrier) (s : σ) :
    (Flow.pure v).showing handle s = ⟨[], .ok v, s⟩ :=
  congrArg (Showing.mk [] · s) (Dyn.take_mk a v)

theorem showing_attach (handle : Handler σ) (f : Flow a) (next : a.Carrier → Flow b) (s : σ) :
    (f.attach next).showing handle s =
      (f.showing handle s).andThen fun v s => (next v).showing handle s := by
  refine Evaluation.shown_andThen _ fun d s => ?_
  unfold continuation
  cases d.take a with
  | ok v => rfl
  | error e => rfl

/-- The recursive meaning of a flow that goes on is that of the bind node,
also where it is built without one. -/
theorem showing_andThen (handle : Handler σ) (f : Flow a) (next : a.Carrier → Flow b) (s : σ) :
    (f.andThen next).showing handle s =
      (f.showing handle s).andThen fun v s => (next v).showing handle s := by
  rw [← showing_attach]
  obtain ⟨p⟩ := f
  cases p with
  | done d =>
    -- the continuation is applied at once, and evaluating the bind node adds nothing before it
    have :
        (((Program.done d).eval handle s).andThen fun d s => (continuation next d).eval handle s) =
        (continuation next d).eval handle s := by simp [Program.eval, Evaluation.andThen]
    exact congrArg (Evaluation.shown b) this.symm
  | throw e => rfl
  | step op => rfl
  | bind p k => rfl

/-- Sequencing has the laws of a monad, a failure absorbs what follows it, and a flow that goes on
is equivalent to the bind node, also where none is built. -/
theorem sequencing_laws (f : Flow a) (next : a.Carrier → Flow b) (last : b.Carrier → Flow c)
    (v : a.Carrier) (e : Fault) :
    (∀ (σ : Type u) (handle : Handler σ) (s : σ), ∃! x, f.Shows handle s x) ∧
    Equivalent.{u} ((Flow.pure v).andThen next) (next v) ∧
    Equivalent.{u} (f.andThen Flow.pure) f ∧
    Equivalent.{u} ((f.andThen next).andThen last) (f.andThen fun v => (next v).andThen last) ∧
    Equivalent.{u} ((Flow.throw e : Flow a).andThen next) (Flow.throw e) ∧
    Equivalent.{u} (f.andThen next) (f.attach next) ∧
    ∀ (σ : Type u) (handle : Handler σ) (s : σ) (x : Showing σ b),
      (f.andThen next).Shows handle s x ↔
        (∃ before v t after, f.Shows handle s ⟨before, .ok v, t⟩ ∧
          (next v).Shows handle t after ∧
          x = ⟨before ++ after.performed, after.result, after.state⟩) ∨
        ∃ before e t, f.Shows handle s ⟨before, .error e, t⟩ ∧
          x = ⟨before, .error e, t⟩ := by
  refine ⟨?_, ?_, ?_, ?_, ?_, ?_, ?_⟩
  · intro σ handle s
    exact ⟨_, shows_iff.mpr rfl, fun x hx => shows_iff.mp hx⟩
  · apply equivalent_of_showing
    intro σ handle s
    rw [showing_andThen, showing_pure]
    simp [Showing.andThen]
  · apply equivalent_of_showing
    intro σ handle s
    simp only [showing_andThen, showing_pure, Showing.andThen_pure]
  · apply equivalent_of_showing
    intro σ handle s
    simp only [showing_andThen, Showing.andThen_assoc]
  · exact equivalent_of_showing fun σ handle s => showing_andThen ..
  · apply equivalent_of_showing
    intro σ handle s
    rw [showing_andThen, showing_attach]
  · intro σ handle s x
    rw [shows_iff, showing_andThen]
    constructor
    · rintro rfl
      rcases hf : f.showing handle s with ⟨before, result, t⟩
      cases result with
      | ok v => exact .inl ⟨before, v, t, _, shows_iff.mpr hf.symm, shows_iff.mpr rfl, rfl⟩
      | error e => exact .inr ⟨before, e, t, shows_iff.mpr hf.symm, rfl⟩
    · rintro (⟨before, v, t, after, hf, hn, rfl⟩ | ⟨before, e, t, hf, rfl⟩)
      · rw [← shows_iff.mp hf, shows_iff.mp hn]
        rfl
      · rw [← shows_iff.mp hf]
        rfl

end Flow

end Workflow
