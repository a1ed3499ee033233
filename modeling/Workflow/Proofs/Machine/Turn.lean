import Workflow.Machine.Schedule

/-! What one step of a task can do.

`Task.Turn` lists the ways in which a step changes the task, launches others and touches what
decides over waiting: the clock, the result cells and the races. Everything else about a step is
left open, so that facts about waiting follow from this list alone. -/
namespace Workflow

variable {r : Runner}

/-- The clock, the cells and the races are as before. -/
structure World.Keeps (w w' : World r) : Prop where
  now : w'.now = w.now
  cells : w'.cells = w.cells
  races : w'.races = w.races

namespace World
variable {w w' w'' : World r}

theorem Keeps.refl : w.Keeps w := ⟨rfl, rfl, rfl⟩

theorem Keeps.trans (h : w.Keeps w') (h' : w'.Keeps w'') : w.Keeps w'' :=
  ⟨h'.now.trans h.now, h'.cells.trans h.cells, h'.races.trans h.races⟩

theorem Keeps.emit (h : w.Keeps w') (span : Span) (event : Event) : w.Keeps (w'.emit span event) :=
  ⟨h.now, h.cells, h.races⟩

theorem Keeps.modifyContainer (h : w.Keeps w') (i : Nat) (f : Container → Container) :
    w.Keeps (w'.modifyContainer i f) :=
  ⟨h.now, h.cells, h.races⟩

theorem Keeps.emitAll (h : w.Keeps w') (span : Span) (events : List Event) :
    w.Keeps (w'.emitAll span events) := by
  induction events generalizing w' with
  | nil => exact h
  | cons event events ih => exact ih (h.emit span event)

theorem keeps_accept (w : World r) (span : Span) (call : Call) :
    w.Keeps (w.accept span call).1 := by
  cases call <;> simp only [accept] <;> apply Keeps.emitAll <;> exact ⟨rfl, rfl, rfl⟩

theorem keeps_answer (w : World r) (span : Span) (call : Call) :
    w.Keeps (w.answer span call).1 := by
  cases call <;> simp only [answer] <;> apply Keeps.emitAll <;> exact ⟨rfl, rfl, rfl⟩

/-- The race as it is from now on. -/
def setRace (w : World r) (race : Nat) (x : Race) : World r :=
  { w with races := w.races.modify race fun _ => x }

end World

/-- A success has this kind. -/
def OfKind (kind : Kind) (result : Except Fault Dyn) : Prop :=
  ∀ v, result = .ok v → v.kind = kind

theorem ofKind_ok {k : Kind} (v : k.Carrier) : OfKind k (.ok ⟨k, v⟩) := by
  intro d h
  cases h
  rfl

theorem ofKind_error {kind : Kind} (e : Fault) : OfKind kind (.error e) := by
  intro d h
  cases h

theorem ofKind_json (result : Except Fault Json) : OfKind .json (result.map .json) := by
  cases result with
  | error e => exact ofKind_error e
  | ok v => exact ofKind_ok (k := .json) v

/-- The kind of result that a call leads to. -/
def Call.kind : Call → Kind
  | .ui _ => .json
  | .api _ => .response
  | .permissions (.check _) => .status
  | .permissions (.request _) => .list .answer
  | .storage (.get _) => .option .text
  | .storage (.set ..) => .unit
  | .storage (.delete _) => .unit

/-- The kind of result for which a program sleeps; none if no program does. -/
def Alarm.kind? : Alarm → Option Kind
  | .delay => some .unit
  | .external _ => some .json
  | .call c => some c.kind
  | .background _ => none
  | .host .. => none

/-- The reply fits the call. -/
def Reply.Fits (call : Call) (reply : Reply) : Prop :=
  ∀ sentinel, OfKind call.kind (reply.result sentinel)

theorem Reply.fits_ui (request response : String) : Reply.Fits (.ui request) (.ui response) :=
  fun _ => ofKind_json _

theorem Reply.fits_api (request : ApiRequest) (response : ApiResponse) :
    Reply.Fits (.api request) (.api response) :=
  fun _ => ofKind_ok (k := .response) response

theorem Reply.fits_permissions (call : PermissionCall) (reply : call.Reply) :
    Reply.Fits (.permissions call) (.ofPermission call reply) := by
  cases call with
  | check ps => exact fun _ => ofKind_ok (k := .status) reply
  | request ps => exact fun _ => ofKind_ok (k := .list .answer) reply

theorem Reply.fits_storage (call : StorageCall) (reply : call.Reply) :
    Reply.Fits (.storage call) (.ofStorage call reply) := by
  cases call with
  | get key => exact fun _ => ofKind_ok (k := .option .text) _
  | set key value => exact fun _ => ofKind_ok (k := .unit) ()
  | delete key => exact fun _ => ofKind_ok (k := .unit) ()

theorem Verdict.map_eq_value {α β : Type} {f : α → β} {x : Verdict α} {b : β}
    (h : x.map f = .value b) : ∃ a, f a = b := by
  cases x with
  | value a => exact ⟨a, by simpa [Verdict.map] using h⟩
  | fault e => cases h
  | panic m => cases h

theorem Reception.map_eq_now {α β : Type} {f : α → β} {x : Reception α} {v : Verdict β}
    (h : x.map f = .now v) : ∃ u : Verdict α, u.map f = v := by
  cases x with
  | now u => exact ⟨u, by simpa [Reception.map] using h⟩
  | later wait => cases h

theorem World.accept_fits {w : World r} {span : Span} {call : Call} {reply : Reply}
    (h : (w.accept span call).2 = .now (.value reply)) : reply.Fits call := by
  cases call with
  | ui request =>
    obtain ⟨u, hu⟩ := Reception.map_eq_now h
    obtain ⟨a, rfl⟩ := Verdict.map_eq_value hu
    exact Reply.fits_ui request a
  | api request =>
    obtain ⟨u, hu⟩ := Reception.map_eq_now h
    obtain ⟨a, rfl⟩ := Verdict.map_eq_value hu
    exact Reply.fits_api request a
  | permissions call =>
    obtain ⟨u, hu⟩ := Reception.map_eq_now h
    obtain ⟨a, rfl⟩ := Verdict.map_eq_value hu
    exact Reply.fits_permissions call a
  | storage call =>
    obtain ⟨u, hu⟩ := Reception.map_eq_now h
    obtain ⟨a, rfl⟩ := Verdict.map_eq_value hu
    exact Reply.fits_storage call a

theorem World.answer_fits {w : World r} {span : Span} {call : Call} {reply : Reply}
    (h : (w.answer span call).2 = .value reply) : reply.Fits call := by
  cases call with
  | ui request =>
    obtain ⟨a, rfl⟩ := Verdict.map_eq_value h
    exact Reply.fits_ui request a
  | api request =>
    obtain ⟨a, rfl⟩ := Verdict.map_eq_value h
    exact Reply.fits_api request a
  | permissions call =>
    obtain ⟨a, rfl⟩ := Verdict.map_eq_value h
    exact Reply.fits_permissions call a
  | storage call =>
    obtain ⟨a, rfl⟩ := Verdict.map_eq_value h
    exact Reply.fits_storage call a

/-- Why an arrival is no success. -/
def Arrival.fault? (a : Arrival) : Option Fault :=
  match a.ending with
  | .value _ => none
  | .fault e => some e
  | .panic message => some (.taskFailed message)

namespace Task

/-- The task goes on with the result of what it waited for. -/
def resumed (t : Task) (pending : List Continuation) (result : Except Fault Dyn) : Task :=
  { t with phase := .running (.resume pending result) }

/-- Ways in which a task that was in none of the waiting phases of a program can panic. -/
def Fragile (t : Task) : Prop :=
  (∃ c, t.phase = .running c) ∨
    (∃ due alarm pending, t.phase = .sleeping (some due) alarm pending) ∨
    ∃ request, t.phase = .opening request

/-- What a step of the task number `self` can do. -/
inductive Turn (t : Task) (w : World r) (self : Nat) : Effect r → Prop
  /-- An operation has its result at once; at most an interaction in the background is launched. -/
  | answered {c : Cursor} {op : Operation Program} {pending : List Continuation} {w' : World r}
    {result : Except Fault Dyn} {launched : List Task} (hp : t.phase = .running c)
    (hc : c.advance = .execute op pending) (hw : w.Keeps w') (hr : OfKind op.result result)
    (hop : op.result ≠ .handle)
    (hl : launched = [] ∨ ∃ request, launched = [t.background request]) :
    Turn t w self ⟨w', t.resumed pending result, launched⟩
  /-- An operation takes its time. -/
  | sleeps {c : Cursor} {op : Operation Program} {pending : List Continuation} {w' : World r}
    {due : Option Nat} {alarm : Alarm} (hp : t.phase = .running c)
    (hc : c.advance = .execute op pending) (hw : w.Keeps w') (ha : alarm.kind? = some op.result)
    (hop : op.result ≠ .handle) :
    Turn t w self ⟨w', { t with phase := .sleeping due alarm pending }, []⟩
  | awaits {c : Cursor} {h : Handle} {pending : List Continuation} {w' : World r}
    (hp : t.phase = .running c) (hc : c.advance = .execute (.await h) pending) (hw : w.Keeps w') :
    Turn t w self ⟨w', { t with phase := .awaiting h pending }, []⟩
  | forks {c : Cursor} {p : Program} {pending : List Continuation} {w' : World r}
    (hp : t.phase = .running c) (hc : c.advance = .execute (.fork p) pending) (hw : w.Keeps w') :
    Turn t w self ⟨w'.newCell.1, t.resumed pending (.ok ⟨.handle, w'.newCell.2⟩),
      [t.child (.fork w'.newCell.2) t.span.fork p]⟩
  | races {c : Cursor} {ps : List Program} {pending : List Continuation} {w' : World r}
    (hp : t.phase = .running c) (hc : c.advance = .execute (.race ps) pending) (hps : ps ≠ [])
    (hw : w.Keeps w') :
    Turn t w self ⟨(w'.newRace ps.length).1,
      { t with phase := .racing (w'.newRace ps.length).2 pending },
      t.branches (w'.newRace ps.length).2 0 ps⟩
  /-- A recovery boundary is put around a program. -/
  | enters {c : Cursor} {p : Program} {pending : List Continuation} {w' : World r}
    (hp : t.phase = .running c) (hc : c.advance = .execute (.recover p) pending) (hw : w.Keeps w') :
    Turn t w self
      ⟨w', { t with boundaries := pending :: t.boundaries, phase := .running (.new p) }, []⟩
  | leaves {c : Cursor} {result result' : Except Fault Dyn} {pending : List Continuation}
    {outer : List (List Continuation)} {w' : World r} (hp : t.phase = .running c)
    (hc : c.advance = .finished result) (hb : t.boundaries = pending :: outer) (hw : w.Keeps w')
    (hr : OfKind (.attempt .json) result') :
    Turn t w self ⟨w', { t with boundaries := outer }.resumed pending result', []⟩
  | concludes {c : Cursor} {result : Except Fault Dyn} (hp : t.phase = .running c)
    (hc : c.advance = .finished result) (hb : t.boundaries = []) :
    Turn t w self (t.conclude w result)
  | wakes {due : Nat} {alarm : Alarm} {pending : List Continuation} {kind : Kind} {w' : World r}
    {result : Except Fault Dyn} (hp : t.phase = .sleeping (some due) alarm pending)
    (hd : due ≤ w.now) (ha : alarm.kind? = some kind) (hw : w.Keeps w')
    (hr : OfKind kind result) :
    Turn t w self ⟨w', t.resumed pending result, []⟩
  | crashes {w' : World r} {message : String} (hp : t.Fragile) (hw : w.Keeps w') :
    Turn t w self (t.crash w' self message)
  | awaited {h : Handle} {pending : List Continuation} {result : Except Fault Json}
    (hp : t.phase = .awaiting h pending) (hc : (w.cell h).outcome? h = some result) :
    Turn t w self ⟨w, t.resumed pending (result.map .json), []⟩
  /-- The next arrival at a race is a success. -/
  | wins {race : Nat} {pending : List Continuation} {x : Race} {a : Arrival} {rest : List Arrival}
    {v : Json} {w' : World r} (hp : t.phase = .racing race pending)
    (hx : w.races[race]? = some x) (ha : x.arrivals = a :: rest) (hv : a.ending = .value v)
    (hw : (w.setRace race ⟨x.total, x.seen + 1, x.lastFault, rest⟩).Keeps w') :
    Turn t w self ⟨w', t.resumed pending (.ok (.json v)), []⟩
  /-- The next arrival at a race is a failure. -/
  | loses {race : Nat} {pending : List Continuation} {x : Race} {a : Arrival} {rest : List Arrival}
    {e : Fault} {w' : World r} (hp : t.phase = .racing race pending)
    (hx : w.races[race]? = some x) (ha : x.arrivals = a :: rest) (he : a.fault? = some e)
    (hw : (w.setRace race ⟨x.total, x.seen + 1, e, rest⟩).Keeps w') :
    Turn t w self ⟨w', t, []⟩
  /-- Nobody can arrive at a race any more. -/
  | exhausts {race : Nat} {pending : List Continuation} {x : Race}
    (hp : t.phase = .racing race pending) (hx : w.races[race]? = some x) (ha : x.arrivals = [])
    (hs : x.total ≤ x.seen) :
    Turn t w self ⟨w, t.resumed pending (.error x.lastFault), []⟩
  | opens {request : String} {due : Option Nat} {w' : World r} (hp : t.phase = .opening request)
    (hw : w.Keeps w') :
    Turn t w self ⟨w', { t with phase := .sleeping due (.background request) [] }, []⟩
  | closes {w' : World r} (hp : (∃ request, t.phase = .opening request) ∨
      ∃ due request pending, t.phase = .sleeping (some due) (.background request) pending)
    (hw : w.Keeps w') :
    Turn t w self ⟨w', { t with phase := .ended (.value .unit) }, []⟩
  /-- A handle of the host is written, or its write side dropped. -/
  | settles {due : Nat} {h : Handle} {result : Option (Except Fault Json)}
    {pending : List Continuation} (hp : t.phase = .sleeping (some due) (.host h result) pending)
    (hd : due ≤ w.now) :
    Turn t w self ⟨w.modifyCell h (result.elim Cell.abandon Cell.fill),
      { t with phase := .ended (.value .unit) }, []⟩

section
variable {t : Task} {w w' : World r} {self : Nat} {c : Cursor} {op : Operation Program}
  {pending : List Continuation}

/-- An operation that has its result at once and launches nothing. -/
theorem proceed_turn (hp : t.phase = .running c) (hc : c.advance = .execute op pending)
    (hw : w.Keeps w') {result : Except Fault Dyn} (hr : OfKind op.result result)
    (hop : op.result ≠ .handle) : t.Turn w self (t.proceed w' pending result) :=
  .answered hp hc hw hr hop (.inl rfl)

theorem delegate_turn (hp : t.phase = .running c) (hc : c.advance = .execute op pending)
    (hw : w.Keeps w') {call : Call} (hk : call.kind = op.result) (hop : op.result ≠ .handle) :
    t.Turn w self (t.delegate w' self pending call) := by
  have hw' := hw.trans (w'.keeps_accept t.span call)
  unfold delegate
  split
  next u verdict h =>
    have hu : w.Keeps u := by simpa [h] using hw'
    cases verdict with
    | value reply =>
      have hf : reply.Fits call := World.accept_fits (by rw [h])
      exact proceed_turn hp hc hu (hk ▸ hf _) hop
    | fault e => exact proceed_turn hp hc hu (ofKind_error e) hop
    | panic message => exact .crashes (.inl ⟨c, hp⟩) hu
  next u wait h =>
    have hu : w.Keeps u := by simpa [h] using hw'
    exact .sleeps hp hc hu (congrArg some hk) hop

theorem execute_turn (hp : t.phase = .running c) (hc : c.advance = .execute op pending)
    (hw : w.Keeps w') : t.Turn w self (t.execute w' self pending op) := by
  cases op with
  | callApi request => exact delegate_turn hp hc hw rfl nofun
  | runUi interaction => exact delegate_turn hp hc hw rfl nofun
  | forkUi interaction =>
    exact .answered hp hc hw (ofKind_ok (k := .unit) ()) nofun (.inr ⟨_, rfl⟩)
  | read store key =>
    cases store with
    | persistent => exact delegate_turn hp hc hw rfl nofun
    | ephemeral => exact proceed_turn hp hc hw (ofKind_ok (k := .option .text) _) nofun
  | write store key value =>
    cases store with
    | persistent => exact delegate_turn hp hc hw rfl nofun
    | ephemeral =>
      exact proceed_turn hp hc ((hw.emit _ _).modifyContainer _ _) (ofKind_ok (k := .unit) ()) nofun
  | delete store key =>
    cases store with
    | persistent => exact delegate_turn hp hc hw rfl nofun
    | ephemeral =>
      exact proceed_turn hp hc ((hw.emit _ _).modifyContainer _ _) (ofKind_ok (k := .unit) ()) nofun
  | readForeignAll => exact proceed_turn hp hc hw (ofKind_ok (k := .foreign) _) nofun
  | writeForeign key value =>
    exact proceed_turn hp hc ((hw.emit _ _).modifyContainer _ _) (ofKind_ok (k := .unit) ()) nofun
  | fork p => exact .forks hp hc hw
  | runExternal action => exact .sleeps hp hc hw rfl nofun
  | await h => exact .awaits hp hc (hw.emit _ _)
  | peek h => exact proceed_turn hp hc hw (ofKind_ok (k := .option (.attempt .json)) _) nofun
  | delay duration => exact .sleeps hp hc hw rfl nofun
  | race ps =>
    cases ps with
    | nil => exact proceed_turn hp hc hw (ofKind_error _) nofun
    | cons p ps => exact .races hp hc (by simp) hw
  | recover p => exact .enters hp hc hw
  | checkPermissions ps => exact delegate_turn hp hc hw rfl nofun
  | requestPermissions ps => exact delegate_turn hp hc hw rfl nofun
  | log tag message =>
    exact proceed_turn hp hc (hw.emit _ _) (ofKind_ok (k := .unit) ()) nofun

theorem dispatch_turn (hp : t.phase = .running c) (hc : c.advance = .execute op pending) :
    t.Turn w self (t.dispatch w self pending op) := by
  unfold dispatch
  split
  · exact execute_turn hp hc .refl
  · exact execute_turn hp hc (World.Keeps.refl.emit _ _)

theorem finish_turn (hp : t.phase = .running c) {result : Except Fault Dyn}
    (hc : c.advance = .finished result) : t.Turn w self (t.finish w result) := by
  unfold finish
  split
  next hb => exact .concludes hp hc hb
  next pending outer hb =>
    simp only [leaveBoundary]
    split
    · exact .leaves hp hc hb .refl (ofKind_ok (k := .attempt .json) _)
    · exact .leaves hp hc hb .refl (ofKind_error _)
    · exact .leaves hp hc hb (World.Keeps.refl.emit _ _) (ofKind_ok (k := .attempt .json) _)

theorem closeBackground_turn (hp : (∃ request, t.phase = .opening request) ∨
      ∃ due request pending, t.phase = .sleeping (some due) (.background request) pending)
    (hw : w.Keeps w') (verdict : Verdict Reply) :
    t.Turn w self (t.closeBackground w' self verdict) := by
  unfold closeBackground
  split
  · split
    · exact .closes hp hw
    · exact .closes hp (hw.emit _ _)
  · exact .closes hp hw
  · exact .closes hp (hw.emit _ _)
  · refine .crashes ?_ hw
    obtain ⟨request, h⟩ | ⟨due, request, pending, h⟩ := hp
    · exact .inr (.inr ⟨request, h⟩)
    · exact .inr (.inl ⟨due, _, pending, h⟩)

theorem openBackground_turn {request : String} (hp : t.phase = .opening request) :
    t.Turn w self (t.openBackground w self request) := by
  have hw := w.keeps_accept t.span (.ui request)
  unfold openBackground
  split
  next u verdict h =>
    exact closeBackground_turn (.inl ⟨request, hp⟩) (by simpa [h] using hw) verdict
  next u wait h => exact .opens hp (by simpa [h] using hw)

theorem wake_turn {due : Nat} {alarm : Alarm} (hp : t.phase = .sleeping (some due) alarm pending)
    (hd : due ≤ w.now) : t.Turn w self (t.wake w self pending alarm) := by
  cases alarm with
  | delay => exact .wakes hp hd rfl .refl (ofKind_ok (k := .unit) ())
  | external ending =>
    cases ending with
    | value v => exact .wakes hp hd rfl .refl (ofKind_ok (k := .json) v)
    | failure message contexts => exact .wakes hp hd rfl .refl (ofKind_error _)
    | panic message => exact .crashes (.inr (.inl ⟨due, _, pending, hp⟩)) .refl
  | call call =>
    have hw := w.keeps_answer t.span call
    simp only [wake]
    cases h : (w.answer t.span call).2 with
    | value reply => exact .wakes hp hd rfl hw (World.answer_fits h _)
    | fault e => exact .wakes hp hd rfl hw (ofKind_error e)
    | panic message => exact .crashes (.inr (.inl ⟨due, _, pending, hp⟩)) hw
  | background request =>
    simp only [wake]
    exact closeBackground_turn (.inr ⟨due, request, pending, hp⟩) (w.keeps_answer t.span _) _
  | host h result => cases result <;> exact .settles hp hd

theorem judge_turn {race : Nat} {x : Race} {a : Arrival} {rest : List Arrival}
    (hp : t.phase = .racing race pending) (hx : w.races[race]? = some x)
    (ha : x.arrivals = a :: rest) : t.Turn w self (t.judge w race pending x a rest) := by
  have ht : { t with phase := .racing race pending } = t := by rw [← hp]
  simp only [judge]
  split
  next v hv => exact .wins hp hx ha hv (World.Keeps.refl.emit _ _)
  next e he =>
    simp only [enter, ht]
    exact .loses hp hx ha (by simp [Arrival.fault?, he]) (World.Keeps.refl.emit _ _)
  next message he =>
    simp only [enter, ht]
    exact .loses hp hx ha (by simp [Arrival.fault?, he]) World.Keeps.refl

/-- Every step is one of the listed ones. -/
theorem step?_turn {e : Effect r} (h : t.step? w self = some e) : t.Turn w self e := by
  unfold step? at h
  split at h
  next c hp =>
    split at h <;> cases h
    next result hc => exact finish_turn hp hc
    next op pending hc => exact dispatch_turn hp hc
  next => cases h
  next due alarm pending hp =>
    split at h
    next hd =>
      cases h
      exact wake_turn hp hd
    next => cases h
  next handle pending hp =>
    obtain ⟨result, hc, rfl⟩ := Option.map_eq_some_iff.mp h
    exact .awaited hp hc
  next race pending hp =>
    split at h
    next x hx =>
      split at h
      next a rest ha =>
        cases h
        exact judge_turn hp hx ha
      next ha =>
        split at h
        · cases h
        next hs =>
          cases h
          exact .exhausts hp hx ha (Nat.le_of_not_lt hs)
    next => cases h
  next request hp =>
    cases h
    exact openBackground_turn hp
  next => cases h

end

end Task

end Workflow
