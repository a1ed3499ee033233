import Workflow.Program.Flow
import Workflow.Proofs.Json.Printing
import Workflow.Proofs.Machine.Calling

/-! Interactions come back as they were sent.

The text of a value is read as the value again, as deep as the reader goes; a user interface that
echoes what it is shown then makes an interaction the identity. -/
namespace Workflow

/-- The user interface answers every request with the request itself. -/
def Hosted.Echoes (h : Hosted Provider.ui.Request Provider.ui.Reply) : Prop :=
  ∀ request, h.Answers request request

namespace Json
variable {v w : Json}

theorem parse_compact (hv : v.Ordered) (hn : v.Integral) (hd : v.depth ≤ maxDepth) :
    parse v.compact = .ok v :=
  parse_eq_ok_iff.mpr ⟨v, spells_compact hn, hd, hv.canonical_eq.symm⟩

/-- What is nested too deep is written, but not read. -/
theorem parse_compact_deep (hv : v.Ordered) (hn : v.Integral) (hd : maxDepth < v.depth) :
    ∃ failure, parse v.compact = .error failure := by
  cases h : parse v.compact with
  | error failure => exact ⟨failure, rfl⟩
  | ok w =>
    obtain ⟨r, hw, -⟩ := whole_eq_ok_iff.mp h
    obtain ⟨s, hs, -⟩ := spells_compact hn
    have hle := (hs.of_value hw).2.2
    rw [hv.canonical_eq] at hle
    omega

/-- Values of the same text are equal, however deep they are. -/
theorem compact_injective (hv : v.Ordered) (hn : v.Integral) (hw : w.Ordered) (hm : w.Integral)
    (h : v.compact = w.compact) : v = w := by
  obtain ⟨r, hr, -⟩ := spells_compact hn
  obtain ⟨s, hs, -⟩ := spells_compact hm
  rw [h] at hr
  have hread := (hs.of_value (hr.kept v.depth (Nat.le_refl _))).1
  rwa [hv.canonical_eq, hw.canonical_eq] at hread

end Json

theorem decodeResponse_eq_ok_iff {s : String} {v : Json} :
    decodeResponse s = .ok v ↔ Json.parse s = .ok v := by
  rw [decodeResponse, Json.parseText, mapError_eq_ok_iff, mapError_eq_ok_iff]

/-- A response that is not read fails with itself as the payload. -/
theorem decodeResponse_error {s : String} {failure : Json.Failure}
    (h : Json.parse s = .error failure) :
    decodeResponse s = .error (.decode s (failure.message s.toList)) := by
  unfold decodeResponse Json.parseText
  rw [h]
  rfl

namespace Machine
variable {r : Runner} {m : Machine r} {v : Json} {s : String}

/-- An interaction ends as its response is read. -/
theorem yields_runUi (ha : (m.world.scene.hosted .ui).Answers (encodeInteraction v) s) :
    m.Yields (Flow.runUi v).program (.ofExcept ((decodeResponse s).map Dyn.json)) :=
  yields_of_call (.ui (encodeInteraction v)) rfl rfl ha (Task.advance_resume_nil _)

end Machine

/-- The text of a value with integers only is read as the value if it is nested at most 127 deep,
and is refused as a whole if it is nested deeper. No two values have one text, and an interaction
with a user interface that echoes ends with what it began with. -/
theorem decodeResponse_encodeInteraction {v : Json} (hv : v.Ordered) (hn : v.Integral) :
    (v.depth ≤ 127 → decodeResponse (encodeInteraction v) = .ok v) ∧
    (127 < v.depth → ∃ reason,
      decodeResponse (encodeInteraction v) = .error (.decode (encodeInteraction v) reason)) ∧
    (∀ w : Json, w.Ordered → w.Integral →
      encodeInteraction v = encodeInteraction w → v = w) ∧
    ∀ (r : Runner) (m : Machine r), (m.world.scene.hosted .ui).Echoes → v.depth ≤ 127 →
      m.Yields (Flow.runUi v).program (.value (.json v)) := by
  have hshallow : v.depth ≤ 127 → decodeResponse (encodeInteraction v) = .ok v :=
    fun hd => decodeResponse_eq_ok_iff.mpr (Json.parse_compact hv hn hd)
  refine ⟨hshallow, ?_, fun w hw hm h => Json.compact_injective hv hn hw hm h, ?_⟩
  · intro hd
    obtain ⟨failure, hf⟩ := Json.parse_compact_deep hv hn hd
    exact ⟨_, decodeResponse_error hf⟩
  · intro r m hecho hd
    have hyields := Machine.yields_runUi (hecho (encodeInteraction v))
    rw [hshallow hd] at hyields
    exact hyields

/-- The value inside so many lists. -/
def Json.boxed (v : Json) : Nat → Json
  | 0 => v
  | n + 1 => .arr [v.boxed n]

theorem Json.boxed_all {P : Json → Prop} {v : Json} (hv : v.All P) (hlist : ∀ vs, P (.arr vs))
    (n : Nat) :
    (v.boxed n).All P := by
  induction n with
  | zero => exact hv
  | succ n ih => exact all_arr.mpr ⟨hlist _, by simpa using ih⟩

theorem Json.depth_boxed (v : Json) (n : Nat) : (v.boxed n).depth = v.depth + n := by
  induction n with
  | zero => rfl
  | succ n ih =>
    simp only [boxed, depth, depthItems, ih]
    omega

/-- Escapes, the limits of words, and members of members. -/
def oddities : Json :=
  .obj [("", .arr [.num (.int (-0x8000000000000000)), .num (.int 0xFFFFFFFFFFFFFFFF)]),
    ("\"\\", .obj [("\x01\n", .str "é\x7f/")])]

theorem oddities_ordered : oddities.Ordered := by
  simp only [oddities, Json.Ordered, Json.All, Json.AllItems, Json.AllMembers]
  decide

theorem oddities_integral : oddities.Integral := by
  simp [oddities, Json.Integral, Json.All, Json.AllItems, Json.AllMembers, Number.isWord]

/-- A machine whose user interface echoes. -/
def echoing : Machine ⟨⟨.stateless .ok, .unconfigured .api, .unconfigured .permissions,
    .unconfigured .storage⟩, .default⟩ :=
  ⟨⟨0, #[], #[], #[], (), (), (), (), [], []⟩, #[]⟩

theorem echoing_echoes : (echoing.world.scene.hosted .ui).Echoes :=
  fun _ => Hosted.answers_stateless rfl

/-- Both sides of the limit: 127 deep and 128 deep. -/
theorem decodeResponse_encodeInteraction_oddities :
    ((oddities.boxed 125).depth = 127 ∧
      decodeResponse (encodeInteraction (oddities.boxed 125)) = .ok (oddities.boxed 125) ∧
      echoing.Yields (Flow.runUi (oddities.boxed 125)).program
        (.value (.json (oddities.boxed 125)))) ∧
    (oddities.boxed 126).depth = 128 ∧
      (∃ reason, decodeResponse (encodeInteraction (oddities.boxed 126)) =
        .error (.decode (encodeInteraction (oddities.boxed 126)) reason)) ∧
      encodeInteraction (oddities.boxed 126) ≠ encodeInteraction (oddities.boxed 125) := by
  have hordered (n : Nat) : (oddities.boxed n).Ordered :=
    Json.boxed_all oddities_ordered (fun _ => trivial) n
  have hintegral (n : Nat) : (oddities.boxed n).Integral :=
    Json.boxed_all oddities_integral (fun _ => trivial) n
  have hdepth (n : Nat) : (oddities.boxed n).depth = 2 + n := Json.depth_boxed oddities n
  obtain ⟨hread, -, -, hecho⟩ := decodeResponse_encodeInteraction (hordered 125) (hintegral 125)
  obtain ⟨-, hrefused, hinjective, -⟩ :=
    decodeResponse_encodeInteraction (hordered 126) (hintegral 126)
  have hle : (oddities.boxed 125).depth ≤ 127 := Nat.le_of_eq (hdepth 125)
  have hlt : 127 < (oddities.boxed 126).depth := Nat.le_of_eq (hdepth 126).symm
  refine ⟨⟨hdepth 125, hread hle, hecho _ echoing echoing_echoes hle⟩, hdepth 126,
    hrefused hlt, ?_⟩
  intro heq
  have hsame := congrArg Json.depth (hinjective _ (hordered 125) (hintegral 125) heq)
  rw [hdepth, hdepth] at hsame
  omega

end Workflow
