import Workflow.Service.UiWaiter

/-! Calls to a scripted user interface and waiters for its requests, their steps in any order.

A call first leaves its request in the log, then signals it, then sleeps for the latency of the
interface, and at last fetches its answer. A waiter takes a ticket, looks at the length of the log,
and returns or parks. Nothing orders the steps of different calls and waiters. -/
namespace Workflow

/-- How far a call has come. -/
inductive UiCall.Stage where
  | arriving
  /-- The request is in the log and has not been signalled. -/
  | kept
  | sleeping (due : Nat)
  | answered (reply : Except Fault String)

structure UiCall where
  request : String
  stage : UiCall.Stage

namespace UiCall

def isLogged (c : UiCall) : Bool :=
  match c.stage with
  | .arriving => false
  | .kept | .sleeping _ | .answered _ => true

def isAnswered (c : UiCall) : Bool :=
  match c.stage with
  | .answered _ => true
  | .arriving | .kept | .sleeping _ => false

/-- Its request is in the log and it has no answer yet. -/
def isWaiting (c : UiCall) : Bool :=
  match c.stage with
  | .kept | .sleeping _ => true
  | .arriving | .answered _ => false

end UiCall

theorem SignallingUi.reply_requests (s : SignallingUi) : s.reply.1.ui.requests = s.ui.requests := by
  show s.ui.next.1.requests = s.ui.requests
  unfold ScriptedUi.next
  split <;> rfl

/-- A user interface with everyone who uses it. A waiter stands with
the number of requests it waits for. -/
structure UiTraffic where
  now : Nat
  service : SignallingUi
  calls : List UiCall
  waiters : List (Nat × UiWaiter)

inductive UiMove where
  /-- Somebody calls. -/
  | call (request : String)
  | push (call : Nat)
  | signal (call : Nat)
  | answer (call : Nat)
  /-- Somebody begins to wait. -/
  | wait (count : Nat)
  | turn (waiter : Nat)
  | pass (duration : Nat)

namespace UiMove

/-- The call whose request a move logs. -/
def pushed : UiMove → List Nat
  | .push i => [i]
  | _ => []

/-- The call that a move answers. -/
def answered : UiMove → List Nat
  | .answer i => [i]
  | _ => []

/-- The calls whose requests are logged, in the order in which that happens. -/
def pushes (ms : List UiMove) : List Nat := ms.flatMap pushed

/-- The calls that are answered, in the order in which that happens. -/
def answers (ms : List UiMove) : List Nat := ms.flatMap answered

variable (ms : List UiMove) (m : UiMove) (i : Nat)

@[simp] theorem pushes_nil : pushes [] = [] := rfl

@[simp] theorem answers_nil : answers [] = [] := rfl

@[simp] theorem pushes_snoc : pushes (ms ++ [m]) = pushes ms ++ m.pushed := by
  simp [pushes]

@[simp] theorem answers_snoc : answers (ms ++ [m]) = answers ms ++ m.answered := by
  simp [answers]

theorem mem_pushes : i ∈ pushes ms ↔ .push i ∈ ms := by
  unfold pushes
  rw [List.mem_flatMap]
  constructor
  · rintro ⟨m, hm, hi⟩
    cases m with
    | push j =>
      cases List.mem_singleton.mp hi
      exact hm
    | _ => cases hi
  · exact fun h => ⟨.push i, h, List.mem_singleton.mpr rfl⟩

end UiMove

namespace UiTraffic

/-- An interface that nobody uses yet. -/
def start (now : Nat) (ui : ScriptedUi) : UiTraffic := ⟨now, ⟨ui, 0⟩, [], []⟩

/-- What can happen next. -/
inductive Step (s : UiTraffic) : UiMove → UiTraffic → Prop where
  | call (request : String) :
    Step s (.call request) { s with calls := s.calls ++ [⟨request, .arriving⟩] }
  | push {i : Nat} {request : String} (h : s.calls[i]? = some ⟨request, .arriving⟩) :
    Step s (.push i)
    { s with service := s.service.push request, calls := s.calls.set i ⟨request, .kept⟩ }
  | signal {i : Nat} {request : String} (h : s.calls[i]? = some ⟨request, .kept⟩) :
    Step s (.signal i) { s with
      service := s.service.signal
      calls := s.calls.set i ⟨request, .sleeping (s.now + s.service.ui.latency.getD 0)⟩ }
  | answer {i due : Nat} {request : String} (h : s.calls[i]? = some ⟨request, .sleeping due⟩)
    (hdue : due ≤ s.now) :
    Step s (.answer i) { s with
      service := s.service.reply.1
      calls := s.calls.set i ⟨request, .answered s.service.reply.2⟩ }
  | wait (count : Nat) : Step s (.wait count) { s with waiters := s.waiters ++ [(count, .idle)] }
  | turn {i count : Nat} {w w' : UiWaiter} (h : s.waiters[i]? = some (count, w))
    (hstep : w.step? s.service count = some w') :
    Step s (.turn i) { s with waiters := s.waiters.set i (count, w') }
  | pass (duration : Nat) : Step s (.pass duration) { s with now := s.now + duration }

/-- The moves that lead from one state to another. -/
inductive Run (s : UiTraffic) : List UiMove → UiTraffic → Prop where
  | nil : Run s [] s
  | snoc {t u : UiTraffic} {ms : List UiMove} {m : UiMove} (h : Run s ms t) (hm : Step t m u) :
    Run s (ms ++ [m]) u

variable {s t u : UiTraffic} {ms ms' : List UiMove} {m : UiMove}

theorem Run.trans (h : Run s ms t) (h' : Run t ms' u) : Run s (ms ++ ms') u := by
  induction h' with
  | nil => rwa [List.append_nil]
  | snoc _ hm ih =>
    rw [← List.append_assoc]
    exact .snoc ih hm

/-- A move of a run is a step from the state that the moves before it lead to. -/
theorem Run.at_move {before after : List UiMove} (h : Run s ms u)
    (hms : ms = before ++ m :: after) :
    ∃ t t', Run s before t ∧ Step t m t' := by
  induction h generalizing after with
  | nil => simp at hms
  | snoc h hm ih =>
    obtain rfl | ⟨rest, last, rfl⟩ := List.eq_nil_or_concat after
    · obtain ⟨rfl, hlast⟩ := List.append_inj' hms rfl
      cases hlast
      exact ⟨_, _, h, hm⟩
    · rw [List.concat_eq_append, ← List.cons_append, ← List.append_assoc] at hms
      exact ih (List.append_inj' hms rfl).1

/-- A whole call up to its sleep, undisturbed. -/
theorem Run.call (s : UiTraffic) (request : String) :
    ∃ ms, Run s ms { s with
      service := (s.service.push request).signal
      calls := s.calls ++ [⟨request, .sleeping (s.now + s.service.ui.latency.getD 0)⟩] } := by
  have hcall := Run.nil.snoc (Step.call (s := s) request)
  have hpush := hcall.snoc (Step.push (i := s.calls.length) List.getElem?_concat_length)
  have hkept :
      (s.calls ++ [⟨request, .kept⟩])[s.calls.length]? = some (UiCall.mk request .kept) :=
    List.getElem?_concat_length
  rw [List.set_append_right _ _ (Nat.le_refl _), Nat.sub_self, List.set_cons_zero] at hpush
  have hsignal := hpush.snoc (Step.signal (i := s.calls.length) hkept)
  rw [List.set_append_right _ _ (Nat.le_refl _), Nat.sub_self, List.set_cons_zero] at hsignal
  exact ⟨_, hsignal⟩

/-- What holds at the start and is kept by every step holds throughout a run. -/
theorem Run.invariant {P : List UiMove → UiTraffic → Prop} (h : Run s ms t) (hs : P [] s)
    (hstep : ∀ ms m t u, P ms t → Step t m u → P (ms ++ [m]) u) : P ms t := by
  induction h with
  | nil => exact hs
  | snoc _ hm ih => exact hstep _ _ _ _ ih hm

end UiTraffic

end Workflow
