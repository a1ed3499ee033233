import Workflow.Proofs.Ui.Traffic

/-! No waiter for requests misses its signal.

A waiter takes its ticket before it looks at the log, so a request that it does not see is signalled
after the ticket. What is left to say is that a request which a parked waiter was waiting for either
has been signalled since or belongs to a call that is about to signal it. -/
namespace Workflow

namespace UiTraffic
variable {s t : UiTraffic} {ms : List UiMove} {m : UiMove} {ui : ScriptedUi} {now : Nat}

/-- Some call has left its request in the log and not signalled it yet. -/
def Signalling (s : UiTraffic) : Prop :=
  ∃ (i : Nat) (request : String), s.calls[i]? = some ⟨request, .kept⟩

end UiTraffic

namespace UiWaiter
variable {s : SignallingUi} {count : Nat} {w w' : UiWaiter}

/-- How many steps a waiter is away from its return, once there are enough requests. -/
def stepsLeft : UiWaiter → Nat
  | .parked _ => 3
  | .idle => 2
  | .holding _ => 1
  | .returned => 0

/-- A waiter with these numbers of signals and of requests can miss nothing: its ticket is no
later than now, and if it is parked for requests that are there, then it has been signalled
or somebody is about to signal it. -/
def Alert (signals logged : Nat) (signalling : Prop) (count : Nat) : UiWaiter → Prop
  | .idle => True
  | .holding ticket => ticket ≤ signals
  | .parked ticket => ticket ≤ signals ∧ (count ≤ logged → ticket < signals ∨ signalling)
  | .returned => count ≤ logged

/-- Later signals and requests do no harm, as long as a request is signalled afterwards. -/
theorem Alert.mono {signals signals' logged logged' : Nat} {signalling signalling' : Prop}
    (h : w.Alert signals logged signalling count) (hsignals : signals ≤ signals')
    (hlogged : logged ≤ logged') (hrequest : logged < logged' → signalling')
    (hsignal : signalling → signals < signals' ∨ signalling') :
    w.Alert signals' logged' signalling' count := by
  cases w with
  | idle => trivial
  | holding ticket => exact Nat.le_trans h hsignals
  | parked ticket =>
    refine ⟨Nat.le_trans h.1 hsignals, fun hcount => ?_⟩
    by_cases hnew : logged < logged'
    · exact .inr (hrequest hnew)
    · have hticket := h.1
      obtain hbefore | hbusy := h.2 (by omega)
      · exact .inl (by omega)
      · exact (hsignal hbusy).imp_left fun hlt => by omega
  | returned => exact Nat.le_trans h hlogged

/-- A waiter looks after it has taken its ticket. -/
theorem Alert.step {signalling : Prop} (h : w.Alert s.signals s.count signalling count)
    (hstep : w.step? s count = some w') : w'.Alert s.signals s.count signalling count := by
  cases w with
  | idle =>
    cases hstep
    exact Nat.le_refl _
  | holding ticket =>
    simp only [step?, Option.some.injEq] at hstep
    split at hstep
    next hcount =>
      subst hstep
      exact hcount
    next hcount =>
      subst hstep
      exact ⟨h, fun hle => absurd hle hcount⟩
  | parked ticket =>
    simp only [step?] at hstep
    obtain ⟨-, hstep⟩ := Option.ite_none_right_eq_some.mp hstep
    cases hstep
    trivial
  | returned => cases hstep

/-- Once there are enough requests and nobody is about to signal, a waiter can
step and comes nearer to its return. -/
theorem Alert.advances (h : w.Alert s.signals s.count False count) (hcount : count ≤ s.count)
    (hw : w ≠ .returned) : ∃ w', w.step? s count = some w' ∧ w'.stepsLeft < w.stepsLeft := by
  cases w with
  | idle => exact ⟨_, rfl, by simp [stepsLeft]⟩
  | holding ticket => exact ⟨.returned, by simp [step?, hcount], by simp [stepsLeft]⟩
  | parked ticket =>
    have hsignalled : ticket < s.signals := (h.2 hcount).resolve_right id
    exact ⟨.idle, by simp [step?, hsignalled], by simp [stepsLeft]⟩
  | returned => exact absurd rfl hw

theorem Alert.poll_eq (h : w.Alert s.signals s.count False count) (hcount : count ≤ s.count) :
    w.poll s count = .returned := by
  cases w with
  | parked ticket =>
    have hsignalled : ticket < s.signals := (h.2 hcount).resolve_right id
    simp [poll, step?, hsignalled, hcount]
  | _ => simp [poll, step?, hcount]

end UiWaiter

namespace UiTraffic
variable {s t : UiTraffic} {ms : List UiMove} {m : UiMove} {ui : ScriptedUi} {now : Nat}

/-- No waiter can miss its signal. -/
def AllAlert (s : UiTraffic) : Prop :=
  ∀ (i count : Nat) (w : UiWaiter), s.waiters[i]? = some (count, w) →
    w.Alert s.service.signals s.service.count s.Signalling count

/-- A call that is about to signal stays so until it does. -/
theorem signalling_step (hm : Step s m t) (h : s.Signalling) :
    s.service.signals < t.service.signals ∨ t.Signalling := by
  obtain ⟨k, request, hk⟩ := h
  have hlt : k < s.calls.length := (List.getElem?_eq_some_iff.mp hk).1
  cases hm with
  | signal => exact .inl (Nat.lt_succ_self _)
  | call => exact .inr ⟨k, request, by rw [List.getElem?_append_left hlt, hk]⟩
  | push h | answer h _ =>
    refine .inr ⟨k, request, ?_⟩
    rw [List.getElem?_set_ne, hk]
    rintro rfl
    cases h.symm.trans hk
  | wait | turn | pass => exact .inr ⟨k, request, hk⟩

/-- Whoever adds to the log is about to signal. -/
theorem logged_step (hm : Step s m t) : s.service.signals ≤ t.service.signals ∧
    s.service.count ≤ t.service.count ∧
    (s.service.count < t.service.count → t.Signalling) := by
  cases hm with
  | @push i request h =>
    have hi : i < s.calls.length := (List.getElem?_eq_some_iff.mp h).1
    have hcount : (s.service.push request).count = s.service.count + 1 := Array.size_push ..
    exact ⟨Nat.le_refl _, by rw [hcount]; omega,
      fun _ => ⟨i, request, List.getElem?_set_self hi⟩⟩
  | answer =>
    have hcount : s.service.reply.1.count = s.service.count :=
      congrArg Array.size s.service.reply_requests
    exact ⟨Nat.le_refl _, Nat.le_of_eq hcount.symm,
      fun hlt => absurd (hcount ▸ hlt) (Nat.lt_irrefl _)⟩
  | signal => exact ⟨Nat.le_succ _, Nat.le_refl _, fun hlt => absurd hlt (Nat.lt_irrefl _)⟩
  | call | wait | turn | pass =>
    exact ⟨Nat.le_refl _, Nat.le_refl _, fun hlt => absurd hlt (Nat.lt_irrefl _)⟩

theorem allAlert_step (h : s.AllAlert) (hm : Step s m t) : t.AllAlert := by
  intro i count w hw
  obtain ⟨hsignals, hcount, hrequest⟩ := logged_step hm
  have hkept (hold : s.waiters[i]? = some (count, w)) :
      w.Alert t.service.signals t.service.count t.Signalling count :=
    (h i count w hold).mono hsignals hcount hrequest (signalling_step hm)
  cases hm with
  | wait new =>
    rw [List.getElem?_append] at hw
    split at hw
    next => exact hkept hw
    next =>
      have hmem := List.mem_of_getElem? hw
      cases List.mem_singleton.mp hmem
      trivial
  | @turn j _ v v' hv hstep =>
    rw [List.getElem?_set] at hw
    split at hw
    next hij =>
      obtain ⟨-, hw⟩ := Option.ite_none_right_eq_some.mp hw
      cases hw
      subst hij
      exact (h j count v hv).step hstep
    next => exact hkept hw
  | _ => exact hkept hw

theorem allAlert_run (h : Run (start now ui) ms s) : s.AllAlert :=
  h.invariant (P := fun _ s => s.AllAlert) nofun fun _ _ _ _ => allAlert_step

theorem Step.turn_waiter {i count : Nat} {w w' : UiWaiter} (hw : s.waiters[i]? = some (count, w))
    (hstep : w.step? s.service count = some w') :
    ∃ t, s.Step (.turn i) t ∧ t.waiters[i]? = some (count, w') :=
  ⟨_, .turn hw hstep, List.getElem?_set_self (List.getElem?_eq_some_iff.mp hw).1⟩

/-- Once there are as many requests as a waiter waits for, no interleaving of calls and waiters
leaves it parked without a signal. -/
theorem no_lost_wakeup (h : (start now ui).Run ms s) {i count : Nat} {w : UiWaiter}
    (hw : s.waiters[i]? = some (count, w)) :
    (w = .returned → count ≤ s.service.count) ∧
    (∀ ticket, w = .parked ticket → count ≤ s.service.count → ¬ s.Signalling →
      w.isSignalled s.service = true) ∧
    (count ≤ s.service.count → ¬ s.Signalling → w ≠ .returned →
      ∃ t w', s.Step (.turn i) t ∧
      t.waiters[i]? = some (count, w') ∧ w'.stepsLeft < w.stepsLeft) ∧
    (count ≤ s.service.count → ¬ s.Signalling → w.poll s.service count = .returned) ∧
    ∀ j t ticket, s.Step (.signal j) t → w = .holding ticket ∨ w = .parked ticket →
      (UiWaiter.parked ticket).isSignalled t.service = true := by
  have halert := allAlert_run h i count w hw
  have hcalm (hbusy : ¬ s.Signalling) : w.Alert s.service.signals s.service.count False count :=
    halert.mono (Nat.le_refl _) (Nat.le_refl _) (fun hlt => absurd hlt (Nat.lt_irrefl _))
      fun h => absurd h hbusy
  refine ⟨?_, ?_, ?_, ?_, ?_⟩
  · rintro rfl
    exact halert
  · rintro ticket rfl hcount hbusy
    exact decide_eq_true (((hcalm hbusy).2 hcount).resolve_right id)
  · intro hcount hbusy hreturned
    obtain ⟨w', hstep, hless⟩ := (hcalm hbusy).advances hcount hreturned
    obtain ⟨t, ht, hw'⟩ := Step.turn_waiter hw hstep
    exact ⟨t, w', ht, hw', hless⟩
  · intro hcount hbusy
    exact (hcalm hbusy).poll_eq hcount
  · intro j t ticket hm hticket
    have hle : ticket ≤ s.service.signals := by
      obtain rfl | rfl := hticket
      · exact halert
      · exact halert.1
    cases hm with
    | signal => exact decide_eq_true (Nat.lt_succ_of_le hle)

/-- A waiter for one request looks in vain and parks. It is not signalled after the request is
logged, as the call is about to do so, and is signalled then. -/
theorem no_lost_wakeup_parked :
    (∃ ms s, (start 0 (.always "1")).Run ms s ∧ s.service.count = 1 ∧ s.Signalling ∧
      s.waiters[0]? = some (1, .parked 0) ∧ (UiWaiter.parked 0).isSignalled s.service = false) ∧
    ∃ ms s, (start 0 (.always "1")).Run ms s ∧ s.service.count = 1 ∧ ¬ s.Signalling ∧
      s.waiters[0]? = some (1, .parked 0) ∧ (UiWaiter.parked 0).isSignalled s.service = true ∧
      (UiWaiter.parked 0).poll s.service 1 = .returned := by
  have hparked := Run.nil (s := start 0 (.always "1"))
    |>.snoc (.wait 1) |>.snoc (.turn (i := 0) rfl rfl)
    |>.snoc (.call "x") |>.snoc (.turn (i := 0) rfl rfl) |>.snoc (.push (i := 0) rfl)
  have hsignalled := hparked.snoc (.signal (i := 0) rfl)
  refine ⟨⟨_, _, hparked, rfl, ⟨0, "x", rfl⟩, rfl, rfl⟩, ?_⟩
  obtain ⟨-, hsignal, -, hpoll, -⟩ := no_lost_wakeup hsignalled (i := 0) rfl
  have hcalm : ¬ Signalling
      ⟨0, ⟨(ScriptedUi.always "1").record "x", 1⟩, [⟨"x", .sleeping 0⟩],
        [(1, .parked 0)]⟩ := by
    rintro ⟨i, request, hi⟩
    cases List.mem_singleton.mp (List.mem_of_getElem? hi)
  exact ⟨_, _, hsignalled, rfl, hcalm, rfl, hsignal 0 rfl (Nat.le_refl _) hcalm,
    hpoll (Nat.le_refl _) hcalm⟩

end UiTraffic

end Workflow
