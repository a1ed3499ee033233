import Workflow.Proofs.Program.Cursor

/-! Programs that differ only in the values that they store.

Such programs read, write and delete under the same keys, wait for the same times
and fork, await and recover alike. What goes on with something that was read is
of the same form, whatever it was. -/
namespace Workflow

/-- The results are the same, unless they were read from a store. -/
inductive Dyn.Resembles : Dyn → Dyn → Prop
  | same (v : Dyn) : Resembles v v
  | named (x y : Option String) : Resembles ⟨.option .text, x⟩ ⟨.option .text, y⟩
  | foreign (x y : Table Json) : Resembles ⟨.foreign, x⟩ ⟨.foreign, y⟩

/-- The programs are of one form and differ only in the values that they write. -/
inductive Program.Resembles : Program → Program → Prop
  | done {v v' : Dyn} (h : v.Resembles v') : Resembles (.done v) (.done v')
  | throw (e : Fault) : Resembles (.throw e) (.throw e)
  | read (store : Store) (key : String) :
    Resembles (.step (.read store key)) (.step (.read store key))
  | write (store : Store) (key value value' : String) :
    Resembles (.step (.write store key value)) (.step (.write store key value'))
  | delete (store : Store) (key : String) :
    Resembles (.step (.delete store key)) (.step (.delete store key))
  | readForeignAll : Resembles (.step .readForeignAll) (.step .readForeignAll)
  | writeForeign (key : String) (value value' : Json) :
    Resembles (.step (.writeForeign key value)) (.step (.writeForeign key value'))
  | delay (duration : Nat) : Resembles (.step (.delay duration)) (.step (.delay duration))
  | fork {p p' : Program} (h : Resembles p p') : Resembles (.step (.fork p)) (.step (.fork p'))
  | await (handle : Handle) : Resembles (.step (.await handle)) (.step (.await handle))
  | recover {p p' : Program} (h : Resembles p p') :
    Resembles (.step (.recover p)) (.step (.recover p'))
  | bind {p p' : Program} {next next' : Continuation} (h : Resembles p p')
    (hnext : ∀ v v', v.Resembles v' → Resembles (next v) (next' v')) :
    Resembles (.bind p next) (.bind p' next')

namespace Dyn.Resembles
variable {v v' : Dyn}

/-- Data of another kind is not what was read. -/
theorem take_eq (h : v.Resembles v') {kind : Kind} (hnamed : kind ≠ .option .text)
    (hforeign : kind ≠ .foreign) : v'.take kind = v.take kind := by
  cases h with
  | same => rfl
  | named => simp [take, hnamed.symm]
  | foreign => simp [take, hforeign.symm]

theorem take_cases (h : v.Resembles v') (kind : Kind) :
    (∃ x x', v.take kind = .ok x ∧ v'.take kind = .ok x' ∧
      Dyn.Resembles ⟨kind, x⟩ ⟨kind, x'⟩) ∨
      ∃ e, v.take kind = .error e ∧ v'.take kind = .error e := by
  have hkind : v'.kind = v.kind := by cases h <;> rfl
  by_cases hk : v.kind = kind
  · subst hk
    obtain ⟨kind', x'⟩ := v'
    cases hkind
    exact .inl ⟨v.value, x', take_mk _ _, take_mk _ _, h⟩
  · have hk' : v'.kind ≠ kind := by rwa [hkind]
    exact .inr ⟨_, dif_neg hk, dif_neg hk'⟩

end Dyn.Resembles

/-- The results are the same, unless something that was read is the result. -/
inductive ResultsResemble : Except Fault Dyn → Except Fault Dyn → Prop
  | ok {v v' : Dyn} (h : v.Resembles v') : ResultsResemble (.ok v) (.ok v')
  | error (e : Fault) : ResultsResemble (.error e) (.error e)

theorem ResultsResemble.take_eq {result result' : Except Fault Dyn}
    (h : ResultsResemble result result') (kind : Kind) (hnamed : kind ≠ .option .text)
    (hforeign : kind ≠ .foreign) :
    (result' >>= Dyn.take kind) = result >>= Dyn.take kind := by
  cases h with
  | ok h => exact h.take_eq hnamed hforeign
  | error e => rfl

/-- The cursors ask for operations that differ only in the values that are written, and go on like
that with results that differ only in what was read. -/
inductive Cursor.Resembles : Cursor → Cursor → Prop
  | finished {c c' : Cursor} {result result' : Except Fault Dyn} (h : c.advance = .finished result)
    (h' : c'.advance = .finished result') (hresult : ResultsResemble result result') :
    Resembles c c'
  | execute {c c' : Cursor} {op op' : Operation Program} {pending pending' : List Continuation}
    (h : c.advance = .execute op pending) (h' : c'.advance = .execute op' pending')
    (hop : (Program.step op).Resembles (.step op'))
    (hpending : ∀ v v', v.Resembles v' →
      Resembles ⟨.done v, pending⟩ ⟨.done v', pending'⟩) : Resembles c c'

/-- What is pending goes on alike with results that differ only in what was read. -/
def StacksResemble (pending pending' : List Continuation) : Prop :=
  ∀ v v', v.Resembles v' → Cursor.Resembles ⟨.done v, pending⟩ ⟨.done v', pending'⟩

theorem stacksResemble_nil : StacksResemble [] [] :=
  fun _ _ h => .finished rfl rfl (.ok h)

theorem StacksResemble.resume {pending pending' : List Continuation}
    {result result' : Except Fault Dyn} (h : StacksResemble pending pending')
    (hresult : ResultsResemble result result') :
    (Cursor.resume pending result).Resembles (.resume pending' result') := by
  cases hresult with
  | ok hv => exact h _ _ hv
  | error e => exact .finished (Cursor.advance_throw ..) (Cursor.advance_throw ..) (.error e)

namespace Cursor.Resembles
variable {c c' d d' : Cursor}

/-- Cursors resemble each other if their loops come to rest where
others' do that resemble each other. -/
theorem of_advance (h : d.Resembles d') (hc : c.advance = d.advance)
    (hc' : c'.advance = d'.advance) :
    c.Resembles c' := by
  cases h with
  | finished hd hd' hresult => exact .finished (hc.trans hd) (hc'.trans hd') hresult
  | execute hd hd' hop hpending => exact .execute (hc.trans hd) (hc'.trans hd') hop hpending

theorem step {op op' : Operation Program} {pending pending' : List Continuation}
    (hop : (Program.step op).Resembles (.step op')) (hpending : StacksResemble pending pending') :
    Resembles ⟨.step op, pending⟩ ⟨.step op', pending'⟩ :=
  .execute (advance_step ..) (advance_step ..) hop hpending

end Cursor.Resembles

namespace Program.Resembles
variable {p p' : Program}

/-- The loops of programs that resemble each other come to rest alike. -/
theorem cursor (h : p.Resembles p') {pending pending' : List Continuation}
    (hpending : StacksResemble pending pending') :
    Cursor.Resembles ⟨p, pending⟩ ⟨p', pending'⟩ := by
  induction h generalizing pending pending' with
  | done hv => exact hpending _ _ hv
  | throw e => exact .finished (Cursor.advance_throw ..) (Cursor.advance_throw ..) (.error e)
  | read store key => exact .step (.read store key) hpending
  | write store key value value' => exact .step (.write store key value value') hpending
  | delete store key => exact .step (.delete store key) hpending
  | readForeignAll => exact .step .readForeignAll hpending
  | writeForeign key value value' => exact .step (.writeForeign key value value') hpending
  | delay duration => exact .step (.delay duration) hpending
  | fork h => exact .step (.fork h) hpending
  | await handle => exact .step (.await handle) hpending
  | recover h => exact .step (.recover h) hpending
  | bind _ _ ih ihnext =>
    have hattached := ih fun v v' hv =>
      (ihnext v v' hv hpending).of_advance (Cursor.advance_done_cons ..)
        (Cursor.advance_done_cons ..)
    exact hattached.of_advance (Cursor.advance_bind ..) (Cursor.advance_bind ..)

theorem new (h : p.Resembles p') : (Cursor.new p).Resembles (.new p') := h.cursor stacksResemble_nil

theorem andThen {next next' : Continuation} (h : p.Resembles p')
    (hnext : ∀ v v', v.Resembles v' → (next v).Resembles (next' v')) :
    (p.andThen next).Resembles (p'.andThen next') := by
  cases h with
  | done hv => exact hnext _ _ hv
  | throw e => exact .throw e
  | bind h hk => exact .bind (.bind h hk) hnext
  | read store key => exact .bind (.read store key) hnext
  | write store key value value' => exact .bind (.write store key value value') hnext
  | delete store key => exact .bind (.delete store key) hnext
  | readForeignAll => exact .bind .readForeignAll hnext
  | writeForeign key value value' => exact .bind (.writeForeign key value value') hnext
  | delay duration => exact .bind (.delay duration) hnext
  | fork h => exact .bind (.fork h) hnext
  | await handle => exact .bind (.await handle) hnext
  | recover h => exact .bind (.recover h) hnext

end Program.Resembles

/-- Programs resemble each other that go on alike, whatever was read. -/
theorem Flow.resembles_andThen {a b : Kind} {f f' : Flow a} {next next' : a.Carrier → Flow b}
    (h : f.program.Resembles f'.program)
    (hnext : ∀ x x', Dyn.Resembles ⟨a, x⟩ ⟨a, x'⟩ →
      (next x).program.Resembles (next' x').program) :
    (f.andThen next).program.Resembles (f'.andThen next').program := by
  refine h.andThen fun v v' hv => ?_
  obtain ⟨x, x', hx, hx', hxx⟩ | ⟨e, he, he'⟩ := hv.take_cases a
  · simp only [hx, hx']
    exact hnext x x' hxx
  · simp only [he, he']
    exact .throw e

theorem Flow.resembles_followedBy {a b : Kind} {f f' : Flow a} {next next' : Flow b}
    (h : f.program.Resembles f'.program) (hnext : next.program.Resembles next'.program) :
    (f.followedBy next).program.Resembles (f'.followedBy next').program :=
  resembles_andThen h fun _ _ _ => hnext

end Workflow
