import Workflow.Proofs.Program.Cursor

/-! The loop of a cursor, one iteration after the other.

No size gets smaller from one iteration to the next: attaching makes the stack longer,
and a continuation may return a program of any size. What the loop walks down is the
tree of a program together with all the trees that its continuations return, and after
it the stack that was there before. -/
namespace Workflow

/-- What an iteration of a cursor's loop comes to. -/
inductive Iteration where
  | again (cursor : Cursor)
  /-- The loop returns what the cursor needs next, and this is what it leaves of the cursor. -/
  | stop (need : Advance) (left : Cursor)

/-- A tower of bind nodes, each of which hands on what it gets. -/
def Program.tower : Nat → Program
  | 0 => .done .unit
  | n + 1 => .bind (tower n) .done

/-- Goes on with a tower as high as the number of a handle. -/
def towering : Continuation :=
  Flow.continuation (a := .handle) (b := .unit) fun h => ⟨.tower h.index⟩

namespace Cursor

variable {c c' last left : Cursor} {need : Advance} {pending : List Continuation}

/-- The body of the loop. It takes the current program out of the
cursor and leaves a unit in its place. -/
def iterate : Cursor → Iteration
  | ⟨.bind p k, pending⟩ => .again ⟨p, k :: pending⟩
  | ⟨.done v, k :: pending⟩ => .again ⟨k v, pending⟩
  | ⟨.done v, []⟩ => .stop (.finished (.ok v)) ⟨.done .unit, []⟩
  | ⟨.throw e, _⟩ => .stop (.finished (.error e)) ⟨.done .unit, []⟩
  | ⟨.step op, pending⟩ => .stop (.execute op pending) ⟨.done .unit, pending⟩

/-- What the loop returns within some iterations, and what it leaves of the cursor. -/
def loop : (iterations : Nat) → Cursor → Option (Advance × Cursor)
  | 0, _ => none
  | n + 1, c =>
    match c.iterate with
    | .again c' => loop n c'
    | .stop need left => some (need, left)

/-- The loop returns from a cursor. A value is the end if nothing waits for
it; a failure drops whatever does. -/
inductive Stops : Cursor → Advance → Cursor → Prop
  | value (v : Dyn) : Stops ⟨.done v, []⟩ (.finished (.ok v)) ⟨.done .unit, []⟩
  | fault (e : Fault) (pending : List Continuation) :
    Stops ⟨.throw e, pending⟩ (.finished (.error e)) ⟨.done .unit, []⟩
  | operation (op : Operation Program) (pending : List Continuation) :
    Stops ⟨.step op, pending⟩ (.execute op pending) ⟨.done .unit, pending⟩

theorem iterate_eq_again_iff : c.iterate = .again c' ↔ c.Iterates c' := by
  constructor
  · intro h
    unfold iterate at h
    split at h <;> cases h
    · exact .attached ..
    · exact .resumed ..
  · intro h
    cases h <;> rfl

theorem iterate_eq_stop_iff : c.iterate = .stop need left ↔ c.Stops need left := by
  constructor
  · intro h
    unfold iterate at h
    split at h <;> cases h
    · exact .value _
    · exact .fault ..
    · exact .operation ..
  · intro h
    cases h <;> rfl

/-- What the loop returns is where the cursor comes to rest. -/
theorem Stops.advance_eq (h : c.Stops need left) : c.advance = need := by
  cases h with
  | value v => exact advance_done_nil v
  | fault e pending => exact advance_throw e pending
  | operation op pending => exact advance_step op pending

theorem Passes.advance_eq (h : c.Passes c') : c.advance = c'.advance := by
  induction h with
  | refl => rfl
  | tail _ hi ih => exact ih.trans hi.advance_eq

/-- From no cursor can the loop go on for ever. -/
theorem acc_iterates (c : Cursor) : Acc (fun c' c : Cursor => c.Iterates c') c := by
  obtain ⟨p, pending⟩ := c
  induction p, pending using Cursor.induction with
  | finished v => exact ⟨_, nofun⟩
  | failed e pending => exact ⟨_, nofun⟩
  | operation op pending _ => exact ⟨_, nofun⟩
  | resumed v k pending ih =>
    refine ⟨_, fun c' hi => ?_⟩
    cases hi
    exact ih
  | attached p k pending ih =>
    refine ⟨_, fun c' hi => ?_⟩
    cases hi
    exact ih

/-- The loop passes through cursors up to one from which it returns. -/
theorem passes_stops (c : Cursor) : ∃ last left, c.Passes last ∧ last.Stops c.advance left := by
  induction acc_iterates c with
  | intro c _ ih =>
    cases hc : c.iterate with
    | stop need left =>
      have hs := iterate_eq_stop_iff.mp hc
      exact ⟨c, left, .refl, hs.advance_eq ▸ hs⟩
    | again c' =>
      have hi := iterate_eq_again_iff.mp hc
      obtain ⟨last, left, hp, hl⟩ := ih c' hi
      exact ⟨last, left, .head hi hp, hi.advance_eq ▸ hl⟩

/-- The loop returns with its last iteration, neither earlier nor later. -/
theorem loop_of_passes (hp : c.Passes last) (hl : last.Stops need left) :
    ∃ n, ∀ m, loop m c = if n < m then some (need, left) else none := by
  induction hp using Relation.ReflTransGen.head_induction_on with
  | refl =>
    refine ⟨0, fun m => ?_⟩
    cases m with
    | zero => rfl
    | succ m => simp [loop, iterate_eq_stop_iff.mpr hl]
  | head hi _ ih =>
    obtain ⟨n, hn⟩ := ih
    refine ⟨n + 1, fun m => ?_⟩
    cases m with
    | zero => rfl
    | succ m => simp [loop, iterate_eq_again_iff.mpr hi, hn]

/-- The loop comes to rest with a value when it has handed the
value on to everything that waited. -/
theorem advance_eq_value_iff {v : Dyn} :
    c.advance = .finished (.ok v) ↔ c.Passes ⟨.done v, []⟩ := by
  constructor
  · intro h
    obtain ⟨last, left, hp, hl⟩ := passes_stops c
    rw [h] at hl
    cases hl
    exact hp
  · intro h
    exact h.advance_eq.trans (advance_done_nil v)

theorem advance_eq_fault_iff {e : Fault} :
    c.advance = .finished (.error e) ↔ ∃ pending, c.Passes ⟨.throw e, pending⟩ := by
  constructor
  · intro h
    obtain ⟨last, left, hp, hl⟩ := passes_stops c
    rw [h] at hl
    cases hl with
    | fault e pending => exact ⟨pending, hp⟩
  · rintro ⟨pending, h⟩
    exact h.advance_eq.trans (advance_throw e pending)

theorem advance_eq_execute_iff {op : Operation Program} :
    c.advance = .execute op pending ↔ c.Passes ⟨.step op, pending⟩ := by
  constructor
  · intro h
    obtain ⟨last, left, hp, hl⟩ := passes_stops c
    rw [h] at hl
    cases hl
    exact hp
  · intro h
    exact h.advance_eq.trans (advance_step op pending)

/-- Nothing is left pending behind a cursor that has finished, and behind
an operation what goes on with it. -/
theorem Stops.pending_eq (h : c.Stops need left) :
    (∀ result, need = .finished result → left.pending = []) ∧
      ∀ op pending, need = .execute op pending → left.pending = pending := by
  cases h with
  | value | fault => exact ⟨fun _ _ => rfl, nofun⟩
  | operation op pending =>
    refine ⟨nofun, fun op' pending' heq => ?_⟩
    cases heq
    rfl

/-- As many iterations as a tower is high are not enough for it. -/
theorem loop_tower {m n : Nat} (h : m ≤ n) (pending : List Continuation) :
    loop m ⟨.tower n, pending⟩ = none := by
  induction m generalizing n pending with
  | zero => rfl
  | succ m ih =>
    obtain ⟨n, rfl⟩ : ∃ k, n = k + 1 := ⟨n - 1, by omega⟩
    exact ih (by omega) (.done :: pending)

/-- No number of iterations is enough for every value that the continuation gets. -/
theorem loop_towering (n : Nat) (pending : List Continuation) :
    loop n ⟨.done ⟨.handle, (⟨n⟩ : Handle)⟩, towering :: pending⟩ = none := by
  cases n with
  | zero => rfl
  | succ n =>
    have hk : towering ⟨.handle, (⟨n + 1⟩ : Handle)⟩ = .tower (n + 1) :=
      Flow.continuation_mk ..
    have hfirst :
        loop (n + 1) ⟨.done ⟨.handle, (⟨n + 1⟩ : Handle)⟩, towering :: pending⟩ =
        loop n ⟨towering ⟨.handle, (⟨n + 1⟩ : Handle)⟩, pending⟩ := rfl
    rw [hfirst, hk]
    exact loop_tower (Nat.le_succ n) pending

/-- The loop of a cursor ends from whatever program and stack: at a value with nothing pending, at
a failure, or at an operation. No bound on its iterations is known beforehand. -/
theorem advance_loop_ends (c : Cursor) :
    Acc (fun c' c : Cursor => c.Iterates c') c ∧
    (∃ n left, (∀ m, loop m c = if n < m then some (c.advance, left) else none) ∧
      (∀ result, c.advance = .finished result → left.pending = []) ∧
      ∀ op pending, c.advance = .execute op pending → left.pending = pending) ∧
    (∀ v, c.advance = .finished (.ok v) ↔ c.Passes ⟨.done v, []⟩) ∧
    (∀ e, c.advance = .finished (.error e) ↔ ∃ pending, c.Passes ⟨.throw e, pending⟩) ∧
    (∀ op pending, c.advance = .execute op pending ↔ c.Passes ⟨.step op, pending⟩) ∧
    ∃ k : Continuation, ∀ pending n, ∃ v, loop n ⟨.done v, k :: pending⟩ = none := by
  obtain ⟨last, left, hp, hl⟩ := passes_stops c
  obtain ⟨n, hn⟩ := loop_of_passes hp hl
  refine ⟨acc_iterates c, ⟨n, left, hn, hl.pending_eq⟩, fun _ => advance_eq_value_iff,
    fun _ => advance_eq_fault_iff, fun _ _ => advance_eq_execute_iff, towering, ?_⟩
  intro pending n
  exact ⟨_, loop_towering n pending⟩

/-- A failure inside two bind nodes, with a continuation pending behind them. -/
def failing : Cursor := ⟨.bind (.bind (.throw .emptyRace) .done) .done, [.done]⟩

/-- The failure drops all three continuations. -/
theorem advance_loop_ends_failing :
    ∃ n left, loop n failing = some (.finished (.error .emptyRace), left) ∧
      left.pending = [] := by
  obtain ⟨-, ⟨n, left, hloop, hfinished, -⟩, -⟩ := advance_loop_ends failing
  have hadvance : failing.advance = .finished (.error .emptyRace) := rfl
  refine ⟨n + 1, left, ?_, hfinished _ hadvance⟩
  rw [hloop, if_pos (Nat.lt_succ_self n), hadvance]

end Cursor

end Workflow
