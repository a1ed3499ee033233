import Workflow.Proofs.Json.Shape.Agreement
import Workflow.Wire.Basic

/-! The spellings of typed data.

Data is written as one object and read from many: members may stand in any order, others may stand
between them, and some may be left out; or the values stand in a list, without their keys. All of
these are the same data, whether they are decoded from a value or read from a text. -/
namespace Workflow

open Json

namespace Assoc
variable {α : Type} {k k' : String} {value : α} {l : List (String × α)}

@[simp] theorem find?_cons_self : find? k ((k, value) :: l) = some value := if_pos rfl

@[simp] theorem find?_cons_of_ne (h : k' ≠ k) : find? k ((k', value) :: l) = find? k l := if_neg h

end Assoc

namespace Json

/-- The keys of a shape in the order of the declaration. -/
def Shape.keys : Shape → List String
  | .plain _ => []
  | .record _ fields => fields.map Field.name
  | .tagged _ tagKey contentKey _ => [tagKey, contentKey]

def Shape.fields : Shape → List Field
  | .record _ fields => fields
  | _ => []

theorem get?_object {l : List (String × Json)} (h : Assoc.Distinct l) (k : String) :
    (object l).get? k = Assoc.find? k l :=
  Assoc.find?_ofList h k

section
variable {fields : List Field} {ms : List (String × Json)} {value : String → Json}

theorem find?_field (hnames : (fields.map Field.name).Nodup) {f : Field} (hf : f ∈ fields) :
    (fields.find? fun g => g.name = f.name) = some f := by
  induction fields with
  | nil => cases hf
  | cons g gs ih =>
    obtain ⟨hg, hgs⟩ := List.nodup_cons.mp hnames
    rcases List.mem_cons.mp hf with rfl | hf
    · simp
    · have hne : g.name ≠ f.name := fun heq => hg (heq ▸ List.mem_map_of_mem hf)
      simp [hne, ih hgs hf]

theorem complete_of_fields (h : ∀ f ∈ fields, Assoc.find? f.name ms = some (value f.name) ∨
      Assoc.find? f.name ms = none ∧ f.missing = .ok (value f.name)) :
    Shape.complete ms fields = .ok (fields.map fun f => (f.name, value f.name)) := by
  induction fields with
  | nil => rfl
  | cons f fs ih =>
    obtain ⟨hf, hfs⟩ := List.forall_mem_cons.mp h
    obtain hfind | ⟨hfind, hmissing⟩ := hf
    · simp [Shape.complete, hfind, ih hfs, ok_bind]
    · simp [Shape.complete, hfind, hmissing, ih hfs, ok_bind]

/-- Every field that is there is decoded, and something stands for the others. -/
theorem decode_record_of_fields {name : String} (hnames : (fields.map Field.name).Nodup)
    (hkeys : Assoc.Distinct ms)
    (h :
      ∀ f ∈ fields,
        (∃ v, Assoc.find? f.name ms = some v ∧ f.form.decode v = .ok (value f.name)) ∨
          Assoc.find? f.name ms = none ∧ f.missing = .ok (value f.name)) :
    (Shape.record name fields).decode (.obj ms) =
      .ok (object (fields.map fun f => (f.name, value f.name))) := by
  have hvalue {f : Field} (hf : f ∈ fields) (v : Json) :
      Shape.fieldValue? fields f.name v = (f.form.decode v).toOption := by
    rw [Shape.fieldValue?, find?_field hnames hf, Option.bind_some]
  obtain ⟨new, hnew⟩ : ∃ new, Shape.decodeMembers fields ms = .ok new := by
    refine exists_decodeMembers_iff.mpr ?_
    rintro ⟨k, v⟩ hm ⟨f, hf, rfl⟩
    have hfind := (Assoc.find?_eq_some_iff hkeys).mpr hm
    obtain ⟨v', hv', hdecode⟩ | ⟨hnone, -⟩ := h f hf
    · cases hfind.symm.trans hv'
      rw [hvalue hf, hdecode]
      rfl
    · cases hfind.symm.trans hnone
  refine decode_record_object_iff.mpr ⟨new, _, hnew, complete_of_fields fun f hf => ?_, rfl⟩
  rw [find?_of_decodeMembers hnew]
  obtain ⟨v, hfind, hdecode⟩ | ⟨hfind, hmissing⟩ := h f hf
  · left
    rw [hfind, Option.bind_some, hvalue hf, hdecode]
    rfl
  · right
    rw [hfind]
    exact ⟨rfl, hmissing⟩

theorem decodeItems_of_fields {length : String} {index : Nat}
    (h : ∀ f ∈ fields, f.form.decode (value f.name) = .ok (value f.name)) :
    Shape.decodeItems length index fields (fields.map fun f => value f.name) =
      .ok (fields.map fun f => (f.name, value f.name), []) := by
  induction fields generalizing index with
  | nil => rfl
  | cons f fs ih =>
    obtain ⟨hf, hfs⟩ := List.forall_mem_cons.mp h
    exact decodeItems_cons_eq_ok_iff.mpr ⟨_, _, hf, ih hfs, rfl⟩

end

end Json

namespace Wire
variable {α : Type} [Wire α]

/-- The value that is written under a key. -/
def field (x : α) (k : String) : Json := ((toJson x).get? k).getD .null

/-- What is written, in the order of the declaration. -/
def members (x : α) : List (String × Json) := (shape α).keys.map fun k => (k, field x k)

/-- The members of `x` without the dropped ones, in any order, and
perhaps others under keys of their own. -/
def Holds (x : α) (dropped : List String) (ms : List (String × Json)) : Prop :=
  ∃ extra, (∀ m ∈ extra, m.1 ∉ (shape α).keys) ∧
    ms.Perm ((members x).filter (fun m => m.1 ∉ dropped) ++ extra)

/-- Data is read from all of its spellings. Members under the keys `optional` may be
left out, and `reset` says what the data is then. A text is read if what was written is
nested no deeper than the reader goes. -/
structure Spellings (α : Type) [Wire α] (optional : List String)
    (reset : List String → α → α) : Prop where
  whole (x : α) : toJson x = object (members x) ∧ decode (toJson x) = .ok x
  reset_nil (x : α) : reset [] x = x
  object {x : α} {dropped : List String} {ms : List (String × Json)}
    (hdropped : ∀ k ∈ dropped, k ∈ optional)
    (h : Holds x dropped ms) (hkeys : Assoc.Distinct ms) : decode (.obj ms) = .ok (reset dropped x)
  objectText {x y : α} {dropped : List String} {ms : List (String × Json)} {s : String}
    (hdropped : ∀ k ∈ dropped, k ∈ optional) (h : Holds x dropped (canonicalMembers ms))
    (hkeys : (Json.obj ms).Distinct) (hs : Spells s.toList (.obj ms)) :
    parse s = .ok y ↔ (toJson x).depth ≤ maxDepth ∧ y = reset dropped x
  list (x : α) : decode (.arr ((members x).map Prod.snd)) = .ok x
  listText {x y : α} {vs : List Json} {s : String}
    (h : canonicalItems vs = (members x).map Prod.snd)
    (hkeys : (Json.arr vs).Distinct) (hs : Spells s.toList (.arr vs)) :
    parse s = .ok y ↔ (toJson x).depth ≤ maxDepth ∧ y = x

section
variable {x y : α} {dropped optional : List String} {reset : List String → α → α}
  {ms : List (String × Json)}

theorem distinct_members (hkeys : (shape α).keys.Nodup) (x : α) : Assoc.Distinct (members x) := by
  simpa [Assoc.Distinct, members, Function.comp_def] using hkeys

/-- What is found under a key of the shape. -/
theorem Holds.find? (h : Holds x dropped ms) (hms : Assoc.Distinct ms) {k : String}
    (hk : k ∈ (shape α).keys) :
    Assoc.find? k ms = if k ∈ dropped then none else some (field x k) := by
  obtain ⟨extra, hextra, hperm⟩ := h
  rw [Assoc.find?_perm (hms.perm hperm) hperm.symm]
  split
  next hd =>
    rw [Assoc.find?_eq_none_iff]
    intro m hm
    rcases List.mem_append.mp hm with hm | hm
    · rintro rfl
      simpa [hd] using (List.mem_filter.mp hm).2
    · rintro rfl
      exact hextra m hm hk
  next hd =>
    rw [Assoc.find?_eq_some_iff (hms.perm hperm)]
    have hm : (k, field x k) ∈ members x := List.mem_map_of_mem hk
    exact List.mem_append_left _ (List.mem_filter.mpr ⟨hm, by simpa using hd⟩)

theorem le_pred_maxDepth_iff {n : Nat} : n ≤ maxDepth - 1 ↔ n < maxDepth := by
  unfold maxDepth
  omega

theorem holds_of_perm (h : ms.Perm (members x)) : Holds x [] ms := by
  refine ⟨[], nofun, ?_⟩
  rwa [List.append_nil, List.filter_eq_self.mpr (by simp)]

/-- What makes all spellings the same data: a shape that asks for its
own keys, and decoding of values. -/
structure Regular (α : Type) [Wire α] (optional : List String)
    (reset : List String → α → α) : Prop where
  sound : (shape α).Sound
  asks (k : String) : (shape α).Asks k ↔ k ∈ (shape α).keys
  nodup : (shape α).keys.Nodup
  toJson_eq (x : α) : toJson x = object (members x)
  shallow (x : α) {k : String} (hk : k ∈ (shape α).keys) (ho : k ∈ optional) :
    (field x k).depth ≤ 1
  decode_object {x : α} {dropped : List String} {ms : List (String × Json)}
    (hdropped : ∀ k ∈ dropped, k ∈ optional) (h : Holds x dropped ms)
    (hms : Assoc.Distinct ms) :
    decode (.obj ms) = .ok (reset dropped x)
  decode_list (x : α) : decode (.arr ((members x).map Prod.snd)) = .ok x
  reset_nil (x : α) : reset [] x = x

namespace Regular
variable (hα : Regular α optional reset)
include hα

theorem depth_le_iff :
    (toJson x).depth ≤ maxDepth ↔ ∀ k ∈ (shape α).keys, (field x k).depth < maxDepth := by
  have hperm := Assoc.ofList_perm (distinct_members hα.nodup x)
  have hdepth : (toJson x).depth ≤ maxDepth ↔
      depthMembers (Assoc.ofList (members x)) < maxDepth := by
    rw [hα.toJson_eq, object, depth]
    rfl
  rw [hdepth, ← le_pred_maxDepth_iff, depthMembers_le_iff]
  simp only [hperm.mem_iff]
  simp only [members, List.forall_mem_map, le_pred_maxDepth_iff]

theorem decode_toJson (x : α) : decode (toJson x) = .ok x := by
  have hperm := Assoc.ofList_perm (distinct_members hα.nodup x)
  have hdecode := hα.decode_object (List.forall_mem_nil _) (holds_of_perm hperm)
    ((distinct_members hα.nodup x).perm hperm.symm)
  rw [hα.toJson_eq, object, hdecode, hα.reset_nil]

theorem within_object_iff (hdropped : ∀ k ∈ dropped, k ∈ optional)
    (h : Holds x dropped (canonicalMembers ms)) (hms : (Json.obj ms).Distinct) :
    (shape α).Within maxDepth (.obj ms) ↔ (toJson x).depth ≤ maxDepth := by
  obtain ⟨hkeys, hall⟩ := all_obj.mp hms
  have hfind {k : String} (hk : k ∈ (shape α).keys) :
      (Assoc.find? k ms).map canonical = if k ∈ dropped then none else some (field x k) := by
    rw [← find?_canonicalMembers, h.find? (distinct_canonicalMembers hkeys) hk]
  rw [hα.depth_le_iff, Shape.Within]
  constructor
  · rintro ⟨-, hwithin⟩ k hk
    by_cases hd : k ∈ dropped
    · exact Nat.lt_of_le_of_lt (hα.shallow x hk (hdropped k hd)) (by decide)
    · have hk' := hfind hk
      rw [if_neg hd, Option.map_eq_some_iff] at hk'
      obtain ⟨v, hv, heq⟩ := hk'
      have hm := (Assoc.find?_eq_some_iff hkeys).mp hv
      rw [← heq, depth_canonical (hall _ hm)]
      exact hwithin _ hm ((hα.asks k).mpr hk)
  · refine fun hfields => ⟨by decide, fun m hm hasked => ?_⟩
    have hk := (hα.asks m.1).mp hasked
    have hk' := hfind hk
    rw [(Assoc.find?_eq_some_iff hkeys).mpr hm, Option.map_some] at hk'
    split at hk'
    · cases hk'
    · rw [← depth_canonical (hall m hm), Option.some.inj hk']
      exact hfields m.1 hk

theorem within_list_iff {vs : List Json} (h : canonicalItems vs = (members x).map Prod.snd)
    (hvs : (Json.arr vs).Distinct) :
    (shape α).Within maxDepth (.arr vs) ↔ (toJson x).depth ≤ maxDepth := by
  have hlist : (shape α).Within maxDepth (.arr vs) ↔
      depthItems (canonicalItems vs) < maxDepth := by
    rw [Shape.Within, ← depth_canonical hvs, canonical, depth]
    · rfl
    · intro ms h
      cases h
  rw [hlist, h, hα.depth_le_iff, ← le_pred_maxDepth_iff, depthItems_le_iff]
  simp only [members, List.forall_mem_map, le_pred_maxDepth_iff]

theorem parse_eq_ok_iff {s : String} {u : Json} (hs : Spells s.toList u) (hu : u.Distinct) :
    parse s = .ok y ↔ (shape α).Within maxDepth u ∧ decode u.canonical = .ok y := by
  rw [parse, decode, bind_eq_ok_iff, bind_eq_ok_iff]
  simp only [Shape.parse_eq_ok_iff hα.sound hs hu, fitting, mapError_eq_ok_iff, and_assoc,
    exists_and_left]

theorem spellings : Spellings α optional reset where
  whole x := ⟨hα.toJson_eq x, hα.decode_toJson x⟩
  reset_nil := hα.reset_nil
  object := hα.decode_object
  objectText {x y dropped ms s} hdropped h hkeys hs := by
    have hperm := Assoc.ofList_perm (distinct_canonicalMembers (all_obj.mp hkeys).1)
    obtain ⟨extra, hextra, hms⟩ := id h
    have hdecode : decode (Json.obj ms).canonical = .ok (reset dropped x) :=
      hα.decode_object hdropped ⟨extra, hextra, hperm.trans hms⟩
        ((distinct_canonicalMembers (all_obj.mp hkeys).1).perm hperm.symm)
    rw [hα.parse_eq_ok_iff hs hkeys, hα.within_object_iff hdropped h hkeys, hdecode,
      Except.ok.injEq, eq_comm]
  list := hα.decode_list
  listText {x y vs s} h hkeys hs := by
    have hdecode : decode (Json.arr vs).canonical = .ok x := by
      rw [canonical, h, hα.decode_list]
    rw [hα.parse_eq_ok_iff hs hkeys, hα.within_list_iff h hkeys, hdecode,
      Except.ok.injEq, eq_comm]

end Regular

/-- A record type: its fields are decoded as they are written, and those
that may be left out have defaults. -/
structure Record (α : Type) [Wire α] (fields : List Field) (optional : List String)
    (reset : List String → α → α) : Prop where
  shape_eq : ∃ name, shape α = .record name fields
  nodup : (fields.map Field.name).Nodup
  toJson_eq (x : α) : toJson x = object (fields.map fun f => (f.name, field x f.name))
  full (x : α) : ofFull? (toJson x) = some x
  fits (x : α) : ∀ f ∈ fields, f.form.decode (field x f.name) = .ok (field x f.name)
  bounded : ∀ f ∈ fields, f.form ≠ .any
  keeps (x : α) (dropped : List String) :
    ∀ f ∈ fields, f.name ∉ dropped → field (reset dropped x) f.name = field x f.name
  defaults (x : α) (dropped : List String) :
    ∀ f ∈ fields, f.name ∈ dropped → f.name ∈ optional →
      f.fallback = .value (field (reset dropped x) f.name)

namespace Record
variable {fields : List Field} (hα : Record α fields optional reset)
include hα

theorem keys_eq : (shape α).keys = fields.map Field.name := by
  obtain ⟨name, hname⟩ := hα.shape_eq
  rw [hname]
  rfl

theorem members_eq (x : α) : members x = fields.map fun f => (f.name, field x f.name) := by
  rw [members, hα.keys_eq, List.map_map]
  rfl

theorem decode_of_full {v : Json} (h : (shape α).decode v =
    .ok (object (fields.map fun f => (f.name, field x f.name)))) : decode v = .ok x := by
  rw [decode, h, ← hα.toJson_eq, ok_bind, ofFull, hα.full]

theorem decode_object (hdropped : ∀ k ∈ dropped, k ∈ optional) (h : Holds x dropped ms)
    (hms : Assoc.Distinct ms) : decode (.obj ms) = .ok (reset dropped x) := by
  apply hα.decode_of_full
  obtain ⟨name, hname⟩ := hα.shape_eq
  have hvalues : ∀ f ∈ fields,
      (∃ v, Assoc.find? f.name ms = some v ∧
        f.form.decode v = .ok (field (reset dropped x) f.name)) ∨
        Assoc.find? f.name ms = none ∧ f.missing = .ok (field (reset dropped x) f.name) := by
    intro f hf
    have hfind := h.find? hms (hα.keys_eq ▸ List.mem_map_of_mem hf)
    by_cases hd : f.name ∈ dropped
    · right
      rw [hfind, if_pos hd, Field.missing, hα.defaults x dropped f hf hd (hdropped _ hd)]
      exact ⟨rfl, rfl⟩
    · left
      rw [hfind, if_neg hd, hα.keeps x dropped f hf hd]
      exact ⟨_, rfl, hα.fits x f hf⟩
  rw [hname]
  exact decode_record_of_fields hα.nodup hms hvalues

theorem decode_list (x : α) : decode (.arr ((members x).map Prod.snd)) = .ok x := by
  apply hα.decode_of_full
  obtain ⟨name, hname⟩ := hα.shape_eq
  have hvalues : (members x).map Prod.snd = fields.map fun f => field x f.name := by
    rw [hα.members_eq, List.map_map]
    rfl
  rw [hname, hvalues]
  exact decode_record_list_iff.mpr ⟨_, decodeItems_of_fields (hα.fits x), rfl⟩

theorem regular : Regular α optional reset where
  sound := by
    obtain ⟨name, hname⟩ := hα.shape_eq
    rw [hname]
    trivial
  asks k := by
    obtain ⟨name, hname⟩ := hα.shape_eq
    rw [hname]
    simp [Shape.Asks, Shape.HasField, Shape.keys]
  nodup := hα.keys_eq ▸ hα.nodup
  toJson_eq x := hα.members_eq x ▸ hα.toJson_eq x
  shallow x k hk _ := by
    obtain ⟨f, hf, rfl⟩ := List.mem_map.mp (hα.keys_eq ▸ hk)
    exact Form.depth_of_decode (hα.bounded f hf) (hα.fits x f hf)
  decode_object := hα.decode_object
  decode_list := hα.decode_list
  reset_nil x := by
    have hsame : toJson (reset [] x) = toJson x := by
      rw [hα.toJson_eq, hα.toJson_eq]
      congr 1
      apply List.map_congr_left
      intro f hf
      rw [hα.keeps x [] f hf List.not_mem_nil]
    have hfull := hα.full (reset [] x)
    rw [hsame, hα.full] at hfull
    exact (Option.some.inj hfull).symm

end Record

end

end Wire

end Workflow
