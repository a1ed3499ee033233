import Workflow.Proofs.Machine.Boundary
import Workflow.Proofs.Program.Keyed

/-! Programs over keys on their way.

A `Journey` is all that a program over the keys of a store depends on: where it is, the
boundaries around it and the entries of the store. Each step is decided by these and by
how the store shows what it holds. -/
namespace Workflow

/-- A program over keys on its way through a table, and the boundaries around it. -/
inductive Journey where
  | going (cursor : Cursor) (outer : List (List Continuation)) (entries : Table String)
  | arrived (ending : Verdict Dyn) (entries : Table String)

namespace Journey

def entries : Journey → Table String
  | .going _ _ entries | .arrived _ entries => entries

/-- The next step, if what is read is seen through `view`. -/
def next? (view : Option String → Option String) : Journey → Option Journey
  | .arrived .. => none
  | .going c outer entries =>
    match c.advance with
    | .finished result =>
      match outer with
      | [] => some (.arrived (.ofExcept result) entries)
      | pending :: outer => some (.going (.resume pending (boundaryAnswer result)) outer entries)
    | .execute op pending =>
      match op.access? with
      | some a =>
        some (.going (.resume pending (.ok (a.result view entries))) outer (a.apply entries))
      | none =>
        match op with
        | .recover p => some (.going (.new p) (pending :: outer) entries)
        | _ => none

def follow? (view : Option String → Option String) : Nat → Journey → Option Journey
  | 0, j => some j
  | k + 1, j => (j.next? view).bind (follow? view k)

/-- Only operations over keys are ahead. -/
def Keyed : Journey → Prop
  | .going c outer _ =>
    c.Only Operation.IsKeyed ∧ ∀ pending ∈ outer, StackOnly Operation.IsKeyed pending
  | .arrived .. => True

variable {view : Option String → Option String} {j j' : Journey} {c : Cursor}
  {outer : List (List Continuation)} {entries : Table String}

theorem next?_end {result : Except Fault Dyn} (ha : c.advance = .finished result) :
    (going c [] entries).next? view = some (.arrived (.ofExcept result) entries) := by
  simp only [next?, ha]

theorem next?_leave {result : Except Fault Dyn} {pending : List Continuation}
    (ha : c.advance = .finished result) : (going c (pending :: outer) entries).next? view =
      some (.going (.resume pending (boundaryAnswer result)) outer entries) := by
  simp only [next?, ha]

theorem next?_access {op : Operation Program} {pending : List Continuation} {a : Access}
    (ha : c.advance = .execute op pending) (hop : op.access? = some a) :
    (going c outer entries).next? view =
      some (.going (.resume pending (.ok (a.result view entries))) outer (a.apply entries)) := by
  simp only [next?, ha, hop]

theorem next?_recover {p : Program} {pending : List Continuation}
    (ha : c.advance = .execute (.recover p) pending) :
    (going c outer entries).next? view = some (.going (.new p) (pending :: outer) entries) := by
  simp only [next?, ha, Operation.access?]

/-- A program over keys goes on until it has arrived. -/
theorem Keyed.next? (h : (going c outer entries).Keyed) (view : Option String → Option String) :
    ∃ j', (going c outer entries).next? view = some j' ∧ j'.Keyed := by
  obtain ⟨hc, houter⟩ := h
  cases ha : c.advance with
  | finished result =>
    cases outer with
    | nil => exact ⟨_, next?_end ha, trivial⟩
    | cons pending outer =>
      obtain ⟨hpending, houter⟩ := List.forall_mem_cons.mp houter
      exact ⟨_, next?_leave ha, Cursor.only_resume hpending _, houter⟩
  | execute op pending =>
    obtain ⟨hop, hprograms, hpending⟩ := hc.advance ha
    obtain ⟨a, haccess⟩ | ⟨p, rfl⟩ := hop.cases
    · exact ⟨_, next?_access ha haccess, Cursor.only_resume hpending _, houter⟩
    · exact ⟨_, next?_recover ha, Cursor.only_new (hprograms p (List.mem_singleton_self p)),
        List.forall_mem_cons.mpr ⟨hpending, houter⟩⟩

/-- The journeys through two views are the same as long as the views show the same. -/
theorem next?_congr {view' : Option String → Option String}
    (hview : ∀ key, view' (entries.find? key) = view (entries.find? key)) :
    (going c outer entries).next? view' = (going c outer entries).next? view := by
  have hresult (a : Access) : a.result view' entries = a.result view entries := by
    cases a with
    | read key => exact congrArg (Dyn.mk (.option .text)) (hview key)
    | _ => rfl
  simp only [next?, hresult]

/-- The value that the next step writes. -/
def written? : Journey → Option String
  | .going c _ _ =>
    match c.advance with
    | .execute op _ => op.written?
    | .finished _ => none
  | .arrived .. => none

/-- No entry comes from anywhere but a write. -/
theorem entries_next? (h : j.next? view = some j') {key value : String}
    (hv : j'.entries.find? key = some value) :
    j.entries.find? key = some value ∨ j.written? = some value := by
  cases j with
  | arrived => cases h
  | going c outer entries =>
    cases ha : c.advance with
    | finished result =>
      left
      cases outer with
      | nil =>
        cases (next?_end ha).symm.trans h
        exact hv
      | cons =>
        cases (next?_leave ha).symm.trans h
        exact hv
    | execute op pending =>
      cases hop : op.access? with
      | some a =>
        cases (next?_access ha hop).symm.trans h
        cases a with
        | read => exact .inl hv
        | write k v =>
          simp only [Journey.entries, Access.apply, Table.find?_insert] at hv
          split at hv
          · cases hv
            right
            cases op with
            | write =>
              cases hop
              simp only [written?, ha, Operation.written?]
            | _ => cases hop
          · exact .inl hv
        | delete k =>
          simp only [Journey.entries, Access.apply, Table.find?_erase] at hv
          split at hv
          · cases hv
          · exact .inl hv
      | none =>
        left
        cases op with
        | recover p =>
          cases (next?_recover ha).symm.trans h
          exact hv
        | read | write | delete => cases hop
        | _ => simp [next?, ha, Operation.access?] at h

end Journey

namespace Access
variable {view : Option String → Option String} {entries : Table String} {c : Cursor}

/-- An access is executed, and what goes on with its result is walked to. -/
theorem follow?_access {a : Access} {kind b : Kind} {f : Flow kind} {next : kind.Carrier → Flow b}
    {v : kind.Carrier} (hc : c.advance = (Cursor.new (f.andThen next).program).advance)
    (hf : f.program = .step (a.operation .persistent)) (hv : a.result view entries = ⟨kind, v⟩)
    (k : Nat) : ∃ c' : Cursor, c'.advance = (Cursor.new (next v).program).advance ∧
      (Journey.going c [] entries).follow? view (k + 1) =
        (Journey.going c' [] (a.apply entries)).follow? view k := by
  rw [Cursor.new, Cursor.advance_andThen, hf, Cursor.advance_step] at hc
  refine ⟨.resume [Flow.continuation next] (.ok (a.result view entries)), ?_, ?_⟩
  · rw [hv]
    exact congrArg (fun p => Cursor.advance ⟨p, []⟩) (Flow.continuation_mk next v)
  · rw [Journey.follow?, Journey.next?_access hc (access?_operation a .persistent),
      Option.bind_some]

/-- Accesses one after the other read what the entries hold when their turn comes. -/
theorem follow?_straight (accesses : List Access) (found : List (Option String))
    (hc : c.advance = (Cursor.new (straight accesses found).program).advance) :
    (Journey.going c [] entries).follow? view (accesses.length + 1) =
      some (.arrived (.value ⟨.list (.option .text), found ++ reads view accesses entries⟩)
        (applyAll accesses entries)) := by
  induction accesses generalizing found entries c with
  | nil =>
    have hend : c.advance = .finished (.ok ⟨.list (.option .text), found⟩) := hc
    simp [Journey.follow?, Journey.next?_end hend, reads, applyAll, Verdict.ofExcept]
  | cons a rest ih =>
    cases a with
    | read key =>
      obtain ⟨c', hc', hfollow⟩ := follow?_access (a := .read key) hc rfl rfl (rest.length + 1)
      rw [List.length_cons, hfollow, ih _ hc']
      simp [reads, applyAll, apply]
    | write key value =>
      obtain ⟨c', hc', hfollow⟩ :=
        follow?_access (a := .write key value) hc rfl rfl (rest.length + 1)
      rw [List.length_cons, hfollow, ih _ hc']
      simp [reads, applyAll, apply]
    | delete key =>
      obtain ⟨c', hc', hfollow⟩ :=
        follow?_access (a := .delete key) hc rfl rfl (rest.length + 1)
      rw [List.length_cons, hfollow, ih _ hc']
      simp [reads, applyAll, apply]

end Access

end Workflow
