import Workflow.Proofs.Program.Sequencing
import Workflow.Proofs.Program.Typing
import Workflow.Proofs.Text.Quoted

/-! What a flow shows of itself before it runs.

Going on with a flow attaches a continuation only to a program that has not ended, so there is an
operation under every chain of bind nodes. Three walks go down such a chain: whether the program has
ended is asked at its top, what it is shown as at its bottom, and a cursor descends to what it needs
first. They agree because of that operation. -/
namespace Workflow

universe u

namespace Program

variable {p q : Program} {k : Continuation} {kind : Kind} {op : Operation Program}

/-- What is at the bottom of a chain of bind nodes. -/
def leftmost : Program → Program
  | .bind p _ => p.leftmost
  | p => p

/-- Nothing is attached to a program that has ended, here and in all that comes of the program. -/
inductive Proper : Program → Prop
  | done (v : Dyn) : Proper (.done v)
  | throw (e : Fault) : Proper (.throw e)
  | step {op : Operation Program} (hp : ∀ p ∈ op.programs, Proper p) : Proper (.step op)
  | bind {p : Program} {k : Continuation} (hp : Proper p) (ht : p.isTerminal = false)
    (hk : ∀ v, Proper (k v)) : Proper (.bind p k)

/-- The first program comes of the second: it is that program, or it comes of what a continuation is
attached to, of what a continuation returns for some value, or of a program inside an operation. -/
inductive ComesOf (q : Program) : Program → Prop
  | refl : ComesOf q q
  | first {p : Program} {k : Continuation} (h : ComesOf q p) : ComesOf q (.bind p k)
  | next {p : Program} {k : Continuation} (v : Dyn) (h : ComesOf q (k v)) : ComesOf q (.bind p k)
  | inner {p : Program} {op : Operation Program} (hp : p ∈ op.programs) (h : ComesOf q p) :
    ComesOf q (.step op)

theorem Proper.comesOf (hp : p.Proper) (hq : q.ComesOf p) : q.Proper := by
  induction hq with
  | refl => exact hp
  | first _ ih =>
    cases hp with
    | bind hp _ _ => exact ih hp
  | next v _ ih =>
    cases hp with
    | bind _ _ hk => exact ih (hk v)
  | inner hmem _ ih =>
    cases hp with
    | step hp => exact ih (hp _ hmem)

/-- What comes of a program with kinds has a kind. -/
theorem Typed.comesOf (hp : p.Typed kind) (hq : q.ComesOf p) : ∃ kind', q.Typed kind' := by
  induction hq generalizing kind with
  | refl => exact ⟨kind, hp⟩
  | first _ ih =>
    cases hp with
    | bind hp _ => exact ih hp
  | next v _ ih =>
    cases hp with
    | bind _ hn => exact ih (Flow.continuation_cases hn (fun _ => .throw) v)
  | inner hmem _ ih =>
    cases hp with
    | step hp => exact ih (hp _ hmem)

/-- A program that has not ended has an operation at the bottom. -/
theorem Proper.leftmost_eq (h : p.Proper) (ht : p.isTerminal = false) :
    ∃ op, p.leftmost = .step op := by
  induction h with
  | done v => cases ht
  | throw e => cases ht
  | @step op _ _ => exact ⟨op, rfl⟩
  | bind _ hp _ ih _ => exact ih hp

/-- A program is shown as what is at the bottom. -/
theorem debug_leftmost (p : Program) : p.leftmost.debug = p.debug := by
  induction p using Program.spine with
  | bind p k ih _ => exact ih
  | _ => rfl

/-- A cursor descends to the operation at the bottom and finds there what was pending before. -/
theorem advance_of_leftmost (h : p.leftmost = .step op) (pending : List Continuation) :
    ∃ attached, Cursor.advance ⟨p, pending⟩ = .execute op (attached ++ pending) := by
  induction p using Program.spine generalizing pending with
  | done v => cases h
  | throw e => cases h
  | step op' =>
    cases h
    exact ⟨[], Cursor.advance_step op pending⟩
  | bind p k ih _ =>
    obtain ⟨attached, hadvance⟩ := ih h (k :: pending)
    refine ⟨attached ++ [k], ?_⟩
    rw [Cursor.advance_bind, hadvance, List.append_assoc, List.singleton_append]

end Program

namespace Flow

variable {σ : Type u} {a b : Kind} {f : Flow a} {handle : Handler σ} {s : σ} {x : Showing σ a}

theorem proper_andThen {next : a.Carrier → Flow b} (hf : f.program.Proper)
    (hn : ∀ v, (next v).program.Proper) : (f.andThen next).program.Proper := by
  have hk : ∀ d, (continuation next d).Proper := continuation_cases hn .throw
  obtain ⟨p⟩ := f
  cases hf with
  | done v => exact hk v
  | throw e => exact .throw e
  | step hp => exact .bind (.step hp) rfl hk
  | bind hp ht hq => exact .bind (.bind hp ht hq) rfl hk

theorem Assembled.proper (h : f.Assembled) : f.program.Proper :=
  h.closed (fun _ => .done _) .throw (fun _ => .step) proper_andThen

/-- The first operation that running a flow performs is the one that a cursor needs first. -/
theorem Shows.performed_eq {op : Operation Program} {pending : List Continuation}
    (h : f.Shows handle s x) (hadvance : (Cursor.new f.program).advance = .execute op pending) :
    ∃ answer rest, x.performed = ⟨op, answer⟩ :: rest := by
  obtain ⟨e, hdrive, rfl⟩ := h
  cases hdrive with
  | finished hfinished => cases hfinished.symm.trans hadvance
  | execute hexecute _ =>
    cases hexecute.symm.trans hadvance
    exact ⟨_, _, rfl⟩

/-- What the flow shows of itself before it runs is what running it shows. -/
structure Candid (f : Flow a) : Prop where
  /-- Under a chain of bind nodes is an operation. -/
  leading : ∀ p k, f.program = .bind p k → ∃ op, f.program.leftmost = .step op
  /-- It has ended before it runs exactly if running it ends without an operation. -/
  terminal : ∀ (σ : Type u) (handle : Handler σ) (s : σ),
    f.isTerminal = true ↔ ∃ x, f.Shows handle s x ∧ x.performed = []
  /-- If it has not ended, it is shown as the operation that a cursor needs first. -/
  operation : f.isTerminal = false → ∃ op pending,
    (Cursor.new f.program).advance = .execute op pending ∧
    f.debug = "Flow::Step(" ++ op.name ++ ")"
  /-- If it has ended, it is shown as done exactly if running it ends with a value. -/
  value : f.isTerminal = true →
    ∀ (σ : Type u) (handle : Handler σ) (s : σ) x, f.Shows handle s x →
    (f.debug = "Flow::Done(..)" ↔ ∃ v, x.result = .ok v)
  /-- If it has ended, it is shown as a failure exactly if running it ends with the failure. -/
  fault : f.isTerminal = true →
    ∀ (σ : Type u) (handle : Handler σ) (s : σ) x, f.Shows handle s x →
    ∀ e : Fault, f.debug = "Flow::Throw(" ++ e.debug ++ ")" ↔ x.result = .error e

theorem done_ne_throw (text : String) : "Flow::Done(..)" ≠ "Flow::Throw(" ++ text ++ ")" := by
  intro h
  have := congrArg (fun s : String => s.toList.take 7) h
  simp [String.toList_append] at this

theorem candid_pure (v : a.Carrier) : Candid.{u} (Flow.pure v) where
  leading := nofun
  terminal σ handle s := by
    refine iff_of_true rfl ⟨_, shows_iff.mpr rfl, ?_⟩
    rw [showing_pure]
  operation := nofun
  value _ σ handle s x hx := by
    rw [shows_iff.mp hx, showing_pure]
    exact iff_of_true rfl ⟨v, rfl⟩
  fault _ σ handle s x hx e := by
    rw [shows_iff.mp hx, showing_pure]
    exact iff_of_false (done_ne_throw e.debug) nofun

theorem candid_throw (e : Fault) : Candid.{u} (Flow.throw e : Flow a) where
  leading := nofun
  terminal σ handle s := iff_of_true rfl ⟨_, shows_iff.mpr rfl, rfl⟩
  operation := nofun
  value _ σ handle s x hx := by
    rw [shows_iff.mp hx]
    exact iff_of_false (done_ne_throw e.debug).symm nofun
  fault _ σ handle s x hx e' := by
    rw [shows_iff.mp hx]
    have hresult : ((Flow.throw e : Flow a).showing handle s).result = .error e := rfl
    have hdebug : (Flow.throw e : Flow a).debug = "Flow::Throw(" ++ e.debug ++ ")" := rfl
    rw [hresult, hdebug, String.append_left_inj, String.append_right_inj,
      Fault.debug_injective.eq_iff, Except.error.injEq]

/-- A program with an operation at the bottom is not over before that operation. -/
theorem candid_of_leftmost {op : Operation Program} (h : f.program.leftmost = .step op)
    (ht : f.isTerminal = false) : Candid.{u} f := by
  obtain ⟨attached, hadvance⟩ := Program.advance_of_leftmost h []
  refine ⟨fun _ _ _ => ⟨op, h⟩, fun σ handle s => ?_, fun _ => ?_, ?_, ?_⟩
  · constructor
    · intro hterminal
      cases ht.symm.trans hterminal
    · rintro ⟨x, hx, hnone⟩
      obtain ⟨answer, rest, hperformed⟩ := hx.performed_eq hadvance
      cases hnone.symm.trans hperformed
  · have hdebug : f.debug = (Program.step op).debug := by rw [← h, Program.debug_leftmost, debug]
    exact ⟨op, attached ++ [], hadvance, hdebug⟩
  · intro hterminal
    cases ht.symm.trans hterminal
  · intro hterminal
    cases ht.symm.trans hterminal

theorem candid_of_proper (hp : f.program.Proper) (ht : f.program.Typed a) : Candid.{u} f := by
  cases hterminal : f.isTerminal with
  | false =>
    obtain ⟨op, hop⟩ := hp.leftmost_eq hterminal
    exact candid_of_leftmost hop hterminal
  | true =>
    obtain ⟨p⟩ := f
    cases ht with
    | @done _ v => exact candid_pure v
    | @throw _ e => exact candid_throw e
    | step => cases hterminal
    | bind => cases hterminal

/-- A flow that is put together from the constructors, in whatever way they are nested, shows of
itself what running it shows, and so does every program that comes of it: one that is attached to,
one that a continuation returns for whatever value, one inside an operation. -/
theorem assembled_candid (h : f.Assembled) :
    Candid.{u} f ∧ ∀ q, q.ComesOf f.program → ∃ kind, Candid.{u} (⟨q⟩ : Flow kind) := by
  refine ⟨candid_of_proper h.proper h.typed, ?_⟩
  intro q hq
  obtain ⟨kind, hkind⟩ := h.typed.comesOf hq
  exact ⟨kind, candid_of_proper (h.proper.comesOf hq) hkind⟩

/-- Goes on with a value, puts a boundary around another one, and turns what
comes out into JSON in two steps. -/
def guarded : Flow .json :=
  (((Flow.pure (a := .unit) ()).followedBy (Flow.recover (Flow.pure (.succeed .null)))).map
    (b := .flag) fun (r : Except Fault Json) => r.isOk).intoValue fun (ok : Bool) => .ok (.bool ok)

theorem guarded_assembled : guarded.Assembled :=
  .intoValue _ (.map _ (.followedBy (.pure _) (.recover (.pure _))))

/-- The value at the front is no operation; the boundary is the first
one. The program inside it has ended. -/
theorem assembled_candid_guarded : guarded.debug = "Flow::Step(recover)" ∧
    (∃ op pending, (Cursor.new guarded.program).advance = .execute op pending ∧
      guarded.debug = "Flow::Step(" ++ op.name ++ ")") ∧
    ∃ kind, Candid.{0} (⟨.done ⟨.outcome, (.succeed .null : Outcome)⟩⟩ : Flow kind) := by
  obtain ⟨hcandid, hcomes⟩ := assembled_candid guarded_assembled
  refine ⟨rfl, hcandid.operation rfl, hcomes _ ?_⟩
  exact .first (.first (.inner (List.mem_singleton.mpr rfl) .refl))

end Flow

end Workflow
