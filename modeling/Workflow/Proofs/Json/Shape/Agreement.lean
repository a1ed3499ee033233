import Workflow.Proofs.Json.Shape.Record
import Workflow.Proofs.Json.Shape.Tagged

/-! Typed data is read from text as it is decoded from the value of the text.

The two ways differ in what they keep: the reader passes over members that are not asked for,
however deep they are nested. `Shape.Within` says what has to lie within the limit. -/
namespace Workflow.Json

variable {s r t : List Char} {u x : Json} {d : Nat}

namespace Shape

/-- Tag and content have different keys. -/
def Sound : Shape → Prop
  | .tagged _ tagKey contentKey _ => tagKey ≠ contentKey
  | _ => True

/-- Members under this key are asked for. -/
def Asks : Shape → String → Prop
  | .plain _, _ => True
  | .record _ fields, k => HasField fields k
  | .tagged _ tagKey contentKey _, k => k = tagKey ∨ k = contentKey

/-- What is asked for is nested no deeper than this. -/
def Within (shape : Shape) (d : Nat) : Json → Prop
  | .obj ms => 0 < d ∧ ∀ m ∈ ms, shape.Asks m.1 → m.2.depth < d
  | u => u.depth ≤ d

theorem within_of_depth_le (shape : Shape) (h : u.depth ≤ d) : shape.Within d u := by
  cases u with
  | obj ms =>
    simp only [depth] at h
    refine ⟨by omega, fun m hm _ => ?_⟩
    have := depthMembers_le_iff.mp (Nat.le_refl _) m hm
    omega
  | _ => exact h

theorem within_plain_iff {form : Form} : (Shape.plain form).Within d u ↔ u.depth ≤ d := by
  refine ⟨fun h => ?_, within_of_depth_le _⟩
  cases u with
  | obj ms =>
    obtain ⟨hd, hms⟩ := h
    have : depthMembers ms ≤ d - 1 := depthMembers_le_iff.mpr fun m hm => by
      have := hms m hm trivial
      omega
    simp only [depth]
    omega
  | _ => exact h

theorem within_list_iff {shape : Shape} {vs : List Json} (hd : d ≠ 0) :
    shape.Within d (.arr vs) ↔ ∀ v ∈ vs, v.depth ≤ d - 1 := by
  rw [← depthItems_le_iff]
  simp only [Within, depth]
  omega

theorem within_object_iff {shape : Shape} {ms : List (String × Json)} (hd : d ≠ 0) :
    shape.Within d (.obj ms) ↔ ∀ m ∈ ms, shape.Asks m.1 → m.2.depth ≤ d - 1 := by
  constructor
  · rintro ⟨-, h⟩ m hm hk
    exact Nat.le_sub_one_of_lt (h m hm hk)
  · intro h
    refine ⟨Nat.pos_of_ne_zero hd, fun m hm hk => ?_⟩
    have := h m hm hk
    omega

/-- Lists and objects take at least one level. -/
theorem Within.ne_zero {shape : Shape} (h : shape.Within d u) (hu : u.depth ≠ 0) : d ≠ 0 := by
  cases u with
  | obj ms => exact Nat.ne_of_gt h.1
  | arr vs =>
    rintro rfl
    exact hu (Nat.le_zero.mp h)
  | _ => exact absurd rfl hu

/-- Records and tagged values are lists or objects. -/
theorem eq_plain_of_scalar {shape : Shape} (h : shape.decode u = .ok x) (hu : u.depth = 0) :
    ∃ form, shape = .plain form := by
  cases shape with
  | plain form => exact ⟨form, rfl⟩
  | record | tagged =>
    cases u with
    | arr | obj => cases hu
    | _ => cases h

theorem gives_read {shape : Shape} (hshape : shape.Sound) (h : Reads (.value u) s r)
    (hu : u.Distinct) :
    Gives (shape.read d s) r (fun x => shape.Within d u ∧ shape.decode u.canonical = .ok x) := by
  cases shape with
  | plain form =>
    refine (form.gives_read h hu).congr fun x => ?_
    rw [within_plain_iff]
    rfl
  | record name fields =>
    cases h with
    | scalar h =>
      obtain ⟨c, t, hs, hscalar⟩ := scalar_of_valueWith h
      obtain ⟨hlist, hobject⟩ := hscalar.ne_bracket
      simp only [read, hs, hlist, hobject, if_false]
      refine gives_nothing (wrongType_ne_ok _ _) fun x hx => ?_
      obtain ⟨form, ⟨⟩⟩ :=
        eq_plain_of_scalar hx.2 ((depth_canonical hu).trans hscalar.depth_eq)
    | @list vs _ t _ h hvs =>
      simp only [read, h, if_true]
      split
      next hd => exact gives_error fun x hx => hx.1.ne_zero (by simp [depth]) hd
      next hd =>
        refine (gives_record_list name hvs (all_arr.mp hu).2).congr fun x => ?_
        rw [within_list_iff hd]
    | @object ms _ t _ h hms =>
      simp only [read, h, Char.reduceEq, if_true, if_false]
      split
      next hd => exact gives_error fun x hx => hx.1.ne_zero (by simp [depth]) hd
      next hd =>
        obtain ⟨hkeys, hall⟩ := all_obj.mp hu
        refine (gives_record_object name hms hkeys hall).congr fun x => ?_
        rw [within_object_iff hd]
        rfl
  | tagged name tagKey contentKey variants =>
    cases h with
    | scalar h =>
      obtain ⟨c, t, hs, hscalar⟩ := scalar_of_valueWith h
      obtain ⟨hlist, hobject⟩ := hscalar.ne_bracket
      simp only [read, hs, hlist, hobject, if_false]
      refine gives_nothing (wrongType_ne_ok _ _) fun x hx => ?_
      obtain ⟨form, ⟨⟩⟩ :=
        eq_plain_of_scalar hx.2 ((depth_canonical hu).trans hscalar.depth_eq)
    | @list vs _ t _ h hvs =>
      simp only [read, h, if_true]
      split
      next hd => exact gives_error fun x hx => hx.1.ne_zero (by simp [depth]) hd
      next hd =>
        refine (gives_readPair name hvs (all_arr.mp hu).2).congr fun x => ?_
        rw [within_list_iff hd]
    | @object ms _ t _ h hms =>
      simp only [read, h, Char.reduceEq, if_true, if_false]
      split
      next hd => exact gives_error fun x hx => hx.1.ne_zero (by simp [depth]) hd
      next hd =>
        obtain ⟨hkeys, hall⟩ := all_obj.mp hu
        refine (gives_readTagged name hshape hms hkeys hall).congr fun x => ?_
        rw [within_object_iff hd]
        rfl

/-- A text that is one value without repeated keys is decoded as that value is, if what
is asked for lies within the limit. -/
theorem parse_eq_ok_iff {shape : Shape} (hshape : shape.Sound) {s : String} (h : Spells s.toList u)
    (hu : u.Distinct) :
    shape.parse s = .ok x ↔ shape.Within maxDepth u ∧ shape.decode u.canonical = .ok x := by
  obtain ⟨r, hread, hr⟩ := h
  rw [parse, whole_eq_ok_iff]
  constructor
  · rintro ⟨r', hx, -⟩
    exact ((gives_read hshape hread hu x r').mp hx).2
  · intro hx
    exact ⟨r, (gives_read hshape hread hu x r).mpr ⟨rfl, hx⟩, hr⟩

end Shape

end Workflow.Json
