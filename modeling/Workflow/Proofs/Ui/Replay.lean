import Workflow.Proofs.Machine.Interface

/-! A scripted user interface plays its script back to concurrent calls.

Whatever the order of their steps, the calls are answered with the entries of the script one after
the other and with the fallback from then on, and the log accounts for every call. The calls may be
those of a machine's tasks. -/
namespace Workflow

namespace ScriptedUi

/-- An interface that gives some responses, then fails with some
messages, and then has only the fallback. -/
def scripted (responses failures : List String) (fallback : Option String) (latency : Option Nat) :
    ScriptedUi :=
  let ui := failures.foldl thenFail (new responses)
  let ui := fallback.elim ui ui.withFallback
  latency.elim ui ui.withLatency

/-- What such an interface answers to the call that is answered after `n` others. -/
def replyTo (responses failures : List String) (fallback : Option String) (n : Nat) :
    Except Fault String :=
  (responses.map .ok ++ failures.map fun message => .error (.collaborator .ui message))[n]?.getD
    (fallback.elim (.error (.collaborator .ui "ui script exhausted")) .ok)

theorem foldl_thenFail (failures : List String) (ui : ScriptedUi) :
    failures.foldl thenFail ui =
      { ui with
        script := ui.script ++
          failures.map fun message => .error (.collaborator .ui message) } := by
  induction failures generalizing ui with
  | nil => simp
  | cons message failures ih =>
    rw [List.foldl_cons, ih]
    simp [thenFail]

theorem scripted_eq (responses failures : List String) (fallback : Option String)
    (latency : Option Nat) :
    scripted responses failures fallback latency =
      { script := responses.map .ok ++
          failures.map fun message => .error (.collaborator .ui message)
        fallback, latency, requests := #[] } := by
  rw [scripted, foldl_thenFail]
  cases fallback <;> cases latency <;> rfl

/-- The answer to the call that is answered after `n` others. -/
def replyAt (ui : ScriptedUi) (n : Nat) : Except Fault String :=
  ui.script[n]?.getD (ui.fallback.elim (.error (.collaborator .ui "ui script exhausted")) .ok)

/-- The interface after `n` answers, with these requests in the log. -/
def played (ui : ScriptedUi) (n : Nat) (requests : Array String) : ScriptedUi :=
  { ui with script := ui.script.drop n, requests }

theorem next_played (ui : ScriptedUi) (n : Nat) (requests : Array String) :
    (ui.played n requests).next = (ui.played (n + 1) requests, ui.replyAt n) := by
  unfold next
  split
  next reply rest h =>
    have hdrop : ui.script.drop n = reply :: rest := h
    have hn : ui.script[n]? = some reply := by
      rw [← List.head?_drop, hdrop, List.head?_cons]
    have hrest : ui.script.drop (n + 1) = rest := by
      rw [← List.tail_drop, hdrop, List.tail_cons]
    simp only [played, replyAt, hn, hrest, Option.getD_some]
  next h =>
    have hlen : ui.script.length ≤ n := List.drop_eq_nil_iff.mp h
    have hn : ui.script[n]? = none := List.getElem?_eq_none hlen
    have hrest : ui.script.drop (n + 1) = [] := List.drop_eq_nil_of_le (by omega)
    simp only [played, replyAt, hn, hrest, List.drop_eq_nil_of_le hlen, Option.getD_none]

theorem replyAt_scripted (responses failures : List String) (fallback : Option String)
    (latency : Option Nat) :
    (scripted responses failures fallback latency).replyAt =
      replyTo responses failures fallback := by
  rw [scripted_eq]
  rfl

end ScriptedUi

open UiMove

namespace UiTraffic
variable {s t : UiTraffic} {ms : List UiMove} {m : UiMove} {ui : ScriptedUi} {now i : Nat}

/-- The requests of some calls. -/
def requestsOf (s : UiTraffic) (is : List Nat) : List (Option String) :=
  is.map fun i => s.calls[i]?.map UiCall.request

/-- What the moves so far say about the interface and its calls. -/
structure Accounts (ui : ScriptedUi) (ms : List UiMove) (s : UiTraffic) : Prop where
  service : s.service.ui = ui.played (answers ms).length s.service.ui.requests
  log : s.service.ui.requests.toList.map some = s.requestsOf (pushes ms)
  /-- Nobody is logged or answered before the call. -/
  unknown : ∀ i, s.calls[i]? = none → i ∉ pushes ms ∧ i ∉ answers ms
  once : ∀ i c, s.calls[i]? = some c →
    (pushes ms).count i = c.isLogged.toNat ∧ (answers ms).count i = c.isAnswered.toNat
  replies : ∀ n i : Nat, (answers ms)[n]? = some i →
    ∃ request : String, s.calls[i]? = some ⟨request, .answered (ui.replyAt n)⟩
  balance : s.service.count = s.calls.countP UiCall.isAnswered + s.calls.countP UiCall.isWaiting

theorem accounts_start (now : Nat) (ui : ScriptedUi) (hui : ui.requests = #[]) :
    Accounts ui [] (start now ui) where
  service := rfl
  log := by simp [start, requestsOf, hui]
  unknown := by simp
  once := by simp [start]
  replies := by simp
  balance := by simp [start, SignallingUi.count, hui]

/-- The request of a call never changes. -/
theorem Step.request_kept {c : UiCall} (hm : Step s m t) (hc : s.calls[i]? = some c) :
    t.calls[i]?.map UiCall.request = some c.request := by
  have hi : i < s.calls.length := (List.getElem?_eq_some_iff.mp hc).1
  cases hm with
  | call request => simp [List.getElem?_append_left hi, hc]
  | push h | signal h | answer h _ =>
    rw [List.getElem?_set]
    split
    next heq =>
      subst heq
      rw [h] at hc
      cases hc
      simp [hi]
    next => simp [hc]
  | wait | turn | pass => simp [hc]

/-- An answer is final. -/
theorem Step.answered_kept {request : String} {reply : Except Fault String} (hm : Step s m t)
    (hc : s.calls[i]? = some ⟨request, .answered reply⟩) :
    t.calls[i]? = some ⟨request, .answered reply⟩ := by
  have hi : i < s.calls.length := (List.getElem?_eq_some_iff.mp hc).1
  cases hm with
  | call request => simp [List.getElem?_append_left hi, hc]
  | push h | signal h | answer h _ =>
    rw [List.getElem?_set_ne, hc]
    rintro rfl
    cases h.symm.trans hc
  | wait | turn | pass => exact hc

theorem next_of_played {n : Nat} (h : s.service.ui = ui.played n s.service.ui.requests) :
    s.service.ui.next = (ui.played (n + 1) s.service.ui.requests, ui.replyAt n) := by
  generalize s.service.ui.requests = requests at h
  rw [h, ScriptedUi.next_played]

theorem service_step {n : Nat} (h : s.service.ui = ui.played n s.service.ui.requests)
    (hm : Step s m t) :
    t.service.ui = ui.played (n + m.answered.length) t.service.ui.requests := by
  cases hm with
  | push =>
    show s.service.ui.record _ = _
    rw [h]
    rfl
  | answer =>
    show s.service.ui.next.1 = ui.played (n + 1) s.service.ui.next.1.requests
    rw [next_of_played h]
    rfl
  | call | signal | wait | turn | pass => exact h

theorem requestsOf_step {is : List Nat} (hm : Step s m t)
    (his : ∀ i ∈ is, s.calls[i]? ≠ none) :
    t.requestsOf is = s.requestsOf is := by
  refine List.map_congr_left fun i hi => ?_
  obtain ⟨c, hc⟩ := Option.ne_none_iff_exists'.mp (his i hi)
  rw [hm.request_kept hc, hc, Option.map_some]

theorem log_step (h : s.service.ui.requests.toList.map some = s.requestsOf (pushes ms))
    (hknown : ∀ i ∈ pushes ms, s.calls[i]? ≠ none) (hm : Step s m t) :
    t.service.ui.requests.toList.map some = t.requestsOf (pushes (ms ++ [m])) := by
  have hkept := requestsOf_step hm hknown
  have hsplit : t.requestsOf (pushes (ms ++ [m])) =
      s.service.ui.requests.toList.map some ++ t.requestsOf m.pushed := by
    rw [pushes_snoc, requestsOf, List.map_append, ← requestsOf, hkept, ← h, requestsOf]
  rw [hsplit]
  cases hm with
  | @push i request hc =>
    have hi : i < s.calls.length := (List.getElem?_eq_some_iff.mp hc).1
    simp [SignallingUi.push, ScriptedUi.record, requestsOf, pushed, hi]
  | answer =>
    simp [SignallingUi.reply_requests, requestsOf, pushed]
  | call | signal | wait | turn | pass => simp [SignallingUi.signal, requestsOf, pushed]

/-- A step logs a call that was not logged and answers one that was not answered, and
leaves every other call as it is. -/
theorem Step.call_cases {c : UiCall} (hm : Step s m t) (hc : t.calls[i]? = some c) :
    (s.calls[i]? = none ∧ c.isLogged.toNat = m.pushed.count i ∧
      c.isAnswered.toNat = m.answered.count i) ∨
    ∃ c₀, s.calls[i]? = some c₀ ∧
      c.isLogged.toNat = c₀.isLogged.toNat + m.pushed.count i ∧
      c.isAnswered.toNat = c₀.isAnswered.toNat + m.answered.count i := by
  cases hm with
  | call request =>
    rw [List.getElem?_append] at hc
    split at hc
    next => exact .inr ⟨c, hc, rfl, rfl⟩
    next hi =>
      obtain ⟨-, rfl⟩ := List.getElem?_eq_some_iff.mp hc
      rw [List.getElem_singleton]
      exact .inl ⟨List.getElem?_eq_none (by omega), rfl, rfl⟩
  | @push j request h | @signal j request h | @answer j due request h _ =>
    rw [List.getElem?_set] at hc
    split at hc
    next hij =>
      subst hij
      obtain ⟨-, hc⟩ := Option.ite_none_right_eq_some.mp hc
      cases hc
      refine .inr ⟨_, h, ?_, ?_⟩ <;> simp [pushed, answered, UiCall.isLogged, UiCall.isAnswered]
    next hij =>
      refine .inr ⟨c, hc, ?_, ?_⟩ <;> simp [pushed, answered, hij]
  | wait | turn | pass => exact .inr ⟨c, hc, rfl, rfl⟩

/-- A step is about calls that have been made. -/
theorem Step.unknown (hm : Step s m t) (hi : t.calls[i]? = none) :
    s.calls[i]? = none ∧ i ∉ m.pushed ∧ i ∉ m.answered := by
  have hlength := List.getElem?_eq_none_iff.mp hi
  cases hm with
  | call request =>
    rw [List.length_append] at hlength
    exact ⟨List.getElem?_eq_none (by omega), List.not_mem_nil, List.not_mem_nil⟩
  | @push j request h | @signal j request h | @answer j due request h _ =>
    have hj : j < s.calls.length := (List.getElem?_eq_some_iff.mp h).1
    rw [List.length_set] at hlength
    have hij : i ≠ j := by omega
    exact ⟨List.getElem?_eq_none hlength, by simp [pushed, hij], by simp [answered, hij]⟩
  | wait | turn | pass => exact ⟨hi, List.not_mem_nil, List.not_mem_nil⟩

theorem balance_step (hm : Step s m t)
    (h : s.service.count = s.calls.countP UiCall.isAnswered + s.calls.countP UiCall.isWaiting) :
    t.service.count = t.calls.countP UiCall.isAnswered + t.calls.countP UiCall.isWaiting := by
  cases hm with
  | call request =>
    simpa [UiCall.isAnswered, UiCall.isWaiting] using h
  | @push j request hc =>
    obtain ⟨hj, hget⟩ := List.getElem?_eq_some_iff.mp hc
    have hcount : (s.service.push request).count = s.service.count + 1 := Array.size_push ..
    simp only [hcount, h, List.countP_set hj, hget]
    simp [UiCall.isAnswered, UiCall.isWaiting]
    omega
  | @signal j request hc =>
    obtain ⟨hj, hget⟩ := List.getElem?_eq_some_iff.mp hc
    have hpos : 0 < s.calls.countP UiCall.isWaiting :=
      List.countP_pos_iff.mpr ⟨_, List.mem_of_getElem? hc, rfl⟩
    have hcount : s.service.signal.count = s.service.count := rfl
    simp only [hcount, h, List.countP_set hj, hget]
    simp [UiCall.isAnswered, UiCall.isWaiting]
    omega
  | @answer j due request hc _ =>
    obtain ⟨hj, hget⟩ := List.getElem?_eq_some_iff.mp hc
    have hpos : 0 < s.calls.countP UiCall.isWaiting :=
      List.countP_pos_iff.mpr ⟨_, List.mem_of_getElem? hc, rfl⟩
    have hcount : s.service.reply.1.count = s.service.count :=
      congrArg Array.size s.service.reply_requests
    simp only [hcount, h, List.countP_set hj, hget]
    simp [UiCall.isAnswered, UiCall.isWaiting]
    omega
  | wait | turn | pass => exact h

theorem accounts_step (h : Accounts ui ms s) (hm : Step s m t) : Accounts ui (ms ++ [m]) t where
  service := by
    rw [answers_snoc, List.length_append]
    exact service_step h.service hm
  log := by
    refine log_step h.log (fun i hi hnone => (h.unknown i hnone).1 hi) hm
  unknown i hi := by
    obtain ⟨hs, hpush, hanswer⟩ := hm.unknown hi
    obtain ⟨hpushes, hanswers⟩ := h.unknown i hs
    simp [hpush, hanswer, hpushes, hanswers]
  once i c hc := by
    rw [pushes_snoc, answers_snoc, List.count_append, List.count_append]
    obtain ⟨hs, hlogged, hanswered⟩ | ⟨c₀, hs, hlogged, hanswered⟩ := hm.call_cases hc
    · obtain ⟨hpushes, hanswers⟩ := h.unknown i hs
      rw [List.count_eq_zero_of_not_mem hpushes, List.count_eq_zero_of_not_mem hanswers]
      omega
    · have := h.once i c₀ hs
      omega
  replies n i hn := by
    rw [answers_snoc, List.getElem?_append] at hn
    split at hn
    next =>
      obtain ⟨request, hc⟩ := h.replies n i hn
      exact ⟨request, hm.answered_kept hc⟩
    next hlength =>
      cases hm with
      | @answer j due request hc _ =>
        obtain ⟨hzero, rfl⟩ := List.getElem?_eq_some_iff.mp hn
        have hlast : n = (answers ms).length := by
          simp only [answered, List.length_singleton] at hzero
          omega
        have hj : j < s.calls.length := (List.getElem?_eq_some_iff.mp hc).1
        refine ⟨request, ?_⟩
        simp only [answered, List.getElem_singleton, List.getElem?_set_self hj]
        rw [hlast, SignallingUi.reply, next_of_played h.service]
      | _ => simp [answered] at hn
  balance := balance_step hm h.balance

theorem accounts_run (hui : ui.requests = #[]) (h : Run (start now ui) ms s) : Accounts ui ms s :=
  h.invariant (accounts_start now ui hui) fun _ _ _ _ => accounts_step

/-- Nobody is answered whose request is not in the log. -/
theorem pushed_before_answer {before after : List UiMove} (hui : ui.requests = #[])
    (h : Run (start now ui) ms s) (hms : ms = before ++ .answer i :: after) :
    .push i ∈ before := by
  obtain ⟨t, t', ht, hm⟩ := h.at_move hms
  cases hm with
  | answer hc _ =>
    have honce := ((accounts_run hui ht).once i _ hc).1
    rw [← mem_pushes, ← List.count_pos_iff, honce]
    exact Nat.one_pos

/-- A call whose sleep is over gets the entry that comes after those given so far. -/
theorem answers_next {request : String} {due : Nat} (h : Accounts ui ms s)
    (hc : s.calls[i]? = some ⟨request, .sleeping due⟩) (hdue : due ≤ s.now) :
    ∃ t, s.Step (.answer i) t ∧
      t.calls[i]? = some ⟨request, .answered (ui.replyAt (answers ms).length)⟩ := by
  refine ⟨_, .answer hc hdue, ?_⟩
  have hi : i < s.calls.length := (List.getElem?_eq_some_iff.mp hc).1
  rw [List.getElem?_set_self hi, SignallingUi.reply, next_of_played h.service]

/-- Whatever the order in which calls are made and answered, the answers take the entries of the
script one by one, and then the fallback. Every call is logged before it is answered. -/
theorem script_replayed (responses failures : List String) (fallback : Option String)
    (latency : Option Nat) :
    (∀ (now : Nat) (ms : List UiMove) (s : UiTraffic),
      (start now (.scripted responses failures fallback latency)).Run ms s →
      (∀ n i : Nat, (answers ms)[n]? = some i → ∃ request : String,
        s.calls[i]? = some ⟨request,
          .answered (ScriptedUi.replyTo responses failures fallback n)⟩) ∧
      (∀ (i due : Nat) (request : String), s.calls[i]? = some ⟨request, .sleeping due⟩ →
        due ≤ s.now →
        ∃ t, s.Step (.answer i) t ∧ t.calls[i]? =
          some ⟨request,
            .answered (ScriptedUi.replyTo responses failures fallback (answers ms).length)⟩) ∧
      s.service.ui.script = (ScriptedUi.scripted responses failures fallback latency).script.drop
        (answers ms).length ∧
      (∀ i c, s.calls[i]? = some c →
        (pushes ms).count i = c.isLogged.toNat ∧ (answers ms).count i = c.isAnswered.toNat) ∧
      s.service.ui.requests.toList.map some = s.requestsOf (pushes ms) ∧
      (∀ before after i, ms = before ++ .answer i :: after → .push i ∈ before) ∧
      s.service.count = s.calls.countP UiCall.isAnswered + s.calls.countP UiCall.isWaiting) ∧
    ∀ (api : ApiService) (permissions : PermissionService) (storage : StorageService)
      (config : RunnerConfig)
      (m m' : Machine (.playing api permissions storage config))
      (as : List Machine.Happening), m.Initial →
      m.world.ui = ScriptedUi.scripted responses failures fallback latency → m.Run as m' →
      ∃ ms s seat,
        (start m.world.now (.scripted responses failures fallback latency)).Run ms s ∧
        m'.Seated s seat := by
  have hempty : (ScriptedUi.scripted responses failures fallback latency).requests = #[] := by
    rw [ScriptedUi.scripted_eq]
  have hreply := ScriptedUi.replyAt_scripted responses failures fallback latency
  constructor
  · intro now ms s h
    have haccounts := accounts_run hempty h
    rw [← hreply]
    exact ⟨haccounts.replies, fun i due request => answers_next haccounts,
      congrArg ScriptedUi.script haccounts.service, haccounts.once, haccounts.log,
      fun before after i => pushed_before_answer hempty h, haccounts.balance⟩
  · intro api permissions storage config m m' as hm hui hrun
    rw [← hui]
    exact Machine.seated_run (Machine.seated_initial hm id) hrun

/-- One response and one failure, each after five milliseconds. -/
def shortScript : Setup :=
  { Bench.new with ui := .scripted ["1"] ["closed"] none (some 5) }.setup .empty []

def shortScriptMachine :
    Machine (.playing (RecordingApi.service Bench.new.handler) StaticPermissions.service
    MemoryStore.service shortScript.config) :=
  shortScript.machine

/-- The call that is logged last of three is answered second and fails, and the first one finds the
script exhausted. Two tasks of a machine are asleep at once. -/
theorem script_replayed_interleaved :
    (∃ ms s, (start 0 (.scripted ["1"] ["closed"] none (some 5))).Run ms s ∧
      pushes ms = [1, 0, 2] ∧ answers ms = [1, 2, 0] ∧
      (∃ request, s.calls[1]? = some ⟨request, .answered (.ok "1")⟩) ∧
      (∃ request,
        s.calls[2]? = some ⟨request, .answered (.error (.collaborator .ui "closed"))⟩) ∧
      (∃ request, s.calls[0]? =
        some ⟨request, .answered (.error (.collaborator .ui "ui script exhausted"))⟩) ∧
      s.service.count = s.calls.countP UiCall.isAnswered + s.calls.countP UiCall.isWaiting) ∧
    ∃ as m, shortScriptMachine.Run as m ∧ m.UiSleeps 0 "\"fg\"" (some 5) ∧
      m.UiSleeps 1 "\"bg\"" (some 5) ∧
      ∃ ms s seat, (start 0 (.scripted ["1"] ["closed"] none (some 5))).Run ms s ∧
        m.Seated s seat := by
  obtain ⟨htraffic, hmachine⟩ := script_replayed ["1"] ["closed"] none (some 5)
  constructor
  · have hrun := Run.nil (s := start 0 (.scripted ["1"] ["closed"] none (some 5)))
      |>.snoc (.call "x") |>.snoc (.call "y") |>.snoc (.push (i := 1) rfl)
      |>.snoc (.push (i := 0) rfl)
      |>.snoc (.signal (i := 0) rfl) |>.snoc (.call "z") |>.snoc (.signal (i := 1) rfl)
      |>.snoc (.push (i := 2) rfl) |>.snoc (.signal (i := 2) rfl) |>.snoc (.pass 5)
      |>.snoc (.answer (i := 1) rfl (by decide)) |>.snoc (.answer (i := 2) rfl (by decide))
      |>.snoc (.answer (i := 0) rfl (by decide))
    obtain ⟨hreplies, -, -, -, -, -, hbalance⟩ := htraffic _ _ _ hrun
    exact ⟨_, _, hrun, rfl, rfl, hreplies 0 1 rfl, hreplies 1 2 rfl, hreplies 2 0 rfl, hbalance⟩
  · let both : Flow .json := (Flow.forkUi (.str "bg")).followedBy (Flow.runUi (.str "fg"))
    let as : List Machine.Happening :=
      .launch both.program 0 :: [.step 0, .step 1, .step 0].map .move
    have hend : (shortScriptMachine.follow? as).map
        (fun m => (m.tasks[0]?.bind fun t => t.phase.uiSleep?,
          m.tasks[1]?.bind fun t => t.phase.uiSleep?)) =
          some (some ("\"fg\"", some 5), some ("\"bg\"", some 5)) := by
      decide +kernel
    obtain ⟨m, hm, hsleep⟩ := Option.map_eq_some_iff.mp hend
    have hrun := Machine.run_of_follow? hm
    have hseats := hmachine _ _ _ _ shortScriptMachine m as shortScript.machine_initial rfl hrun
    exact ⟨as, m, hrun, Option.bind_eq_some_iff.mp (congrArg Prod.fst hsleep),
      Option.bind_eq_some_iff.mp (congrArg Prod.snd hsleep), hseats⟩

end UiTraffic

end Workflow
