import Workflow.Proofs.Program.Cursor

/-! Cursors that differ only in how they end.

Two cursors mimic each other if they ask for the same operations, whatever the results of these are,
and then both end. What they end with is left open. -/
namespace Workflow

/-- Both cursors ask for the same operations, whatever these return, and
end after them, each in its own way. -/
inductive Cursor.Mimics : Cursor → Cursor → Prop
  | finished {c c' : Cursor} {result result' : Except Fault Dyn} (h : c.advance = .finished result)
    (h' : c'.advance = .finished result') : Mimics c c'
  | execute {c c' : Cursor} {op : Operation Program} {pending pending' : List Continuation}
    (h : c.advance = .execute op pending) (h' : c'.advance = .execute op pending')
    (hs : ∀ v, Mimics ⟨.done v, pending⟩ ⟨.done v, pending'⟩) : Mimics c c'

/-- What is pending mimics each other, whatever value goes to it. -/
def StackMimics (pending pending' : List Continuation) : Prop :=
  ∀ v, Cursor.Mimics ⟨.done v, pending⟩ ⟨.done v, pending'⟩

theorem Program.advance_of_isTerminal {p : Program} (h : p.isTerminal = true) :
    ∃ result, Cursor.advance ⟨p, []⟩ = .finished result := by
  cases p with
  | done v => exact ⟨.ok v, rfl⟩
  | throw e => exact ⟨.error e, rfl⟩
  | step | bind => cases h

namespace Cursor.Mimics
variable {c c' : Cursor} {op : Operation Program} {pending pending' : List Continuation}

/-- Cursors mimic each other if their loops come to rest where others' do that mimic each other. -/
theorem of_advance {d d' : Cursor} (h : d.Mimics d') (hc : c.advance = d.advance)
    (hc' : c'.advance = d'.advance) : c.Mimics c' := by
  cases h with
  | finished hd hd' => exact .finished (hc.trans hd) (hc'.trans hd')
  | execute hd hd' hs => exact .execute (hc.trans hd) (hc'.trans hd') hs

/-- Other last words after the same program: as long as they ask for no operation,
nothing but the end is different. -/
theorem of_last {k k' : Continuation} (hk : ∀ v, (k v).isTerminal = true)
    (hk' : ∀ v, (k' v).isTerminal = true) (p : Program) (pending : List Continuation) :
    Mimics ⟨p, pending ++ [k]⟩ ⟨p, pending ++ [k']⟩ := by
  induction p, pending using Cursor.induction with
  | finished v =>
    obtain ⟨result, h⟩ := Program.advance_of_isTerminal (hk v)
    obtain ⟨result', h'⟩ := Program.advance_of_isTerminal (hk' v)
    exact .finished h h'
  | resumed v q pending ih => exact ih.of_advance (advance_done_cons ..) (advance_done_cons ..)
  | failed e pending => exact .finished (advance_throw ..) (advance_throw ..)
  | operation op pending ih => exact .execute (advance_step ..) (advance_step ..) ih
  | attached p q pending ih => exact ih.of_advance (advance_bind ..) (advance_bind ..)

theorem refl (c : Cursor) : c.Mimics c := by
  obtain ⟨p, pending⟩ := c
  induction p, pending using Cursor.induction with
  | finished v => exact .finished rfl rfl
  | resumed v k pending ih => exact ih.of_advance (advance_done_cons ..) (advance_done_cons ..)
  | failed e pending => exact .finished (advance_throw ..) (advance_throw ..)
  | operation op pending ih => exact .execute (advance_step ..) (advance_step ..) ih
  | attached p k pending ih => exact ih.of_advance (advance_bind ..) (advance_bind ..)

theorem of_execute (h : c.Mimics c') (hc : c.advance = .execute op pending) :
    ∃ pending', c'.advance = .execute op pending' ∧ StackMimics pending pending' := by
  cases h with
  | finished hd => cases hc.symm.trans hd
  | execute hd hd' hs =>
    cases hc.symm.trans hd
    exact ⟨_, hd', hs⟩

/-- Both end at the same time. -/
theorem finished_iff (h : c.Mimics c') :
    (∃ result, c.advance = .finished result) ↔ ∃ result, c'.advance = .finished result := by
  cases h with
  | finished hd hd' => exact ⟨fun _ => ⟨_, hd'⟩, fun _ => ⟨_, hd⟩⟩
  | execute hd hd' =>
    constructor
    · rintro ⟨result, h⟩
      cases hd.symm.trans h
    · rintro ⟨result, h⟩
      cases hd'.symm.trans h

end Cursor.Mimics

theorem StackMimics.refl (pending : List Continuation) : StackMimics pending pending :=
  fun _ => .refl _

/-- A failed operation ends both cursors. -/
theorem StackMimics.resume {pending pending' : List Continuation} (h : StackMimics pending pending')
    (result : Except Fault Dyn) :
    (Cursor.resume pending result).Mimics (Cursor.resume pending' result) := by
  cases result with
  | ok v => exact h v
  | error e => exact .finished (Cursor.advance_throw ..) (Cursor.advance_throw ..)

/-- Programs that do the same and then end at once, each in its own way. -/
theorem Flow.mimics_andThen {a b : Kind} (f : Flow a) {next next' : a.Carrier → Flow b}
    (h : ∀ v, (next v).isTerminal = true) (h' : ∀ v, (next' v).isTerminal = true) :
    (Cursor.new (f.andThen next).program).Mimics (.new (f.andThen next').program) := by
  have hlast {next : a.Carrier → Flow b} (h : ∀ v, (next v).isTerminal = true) :
      ∀ d, (Flow.continuation next d).isTerminal = true :=
    continuation_cases (P := fun p => p.isTerminal = true) h fun _ => rfl
  exact (Cursor.Mimics.of_last (hlast h) (hlast h') f.program []).of_advance
    (Cursor.advance_andThen ..) (Cursor.advance_andThen ..)

end Workflow
