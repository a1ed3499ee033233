import Workflow.Proofs.Json.Shape.Form
import Workflow.Proofs.Json.Skipping

/-! Records are read from text as they are decoded from the value that the text reads as.

The reader meets the members in the order of the text and passes over those that are no fields;
decoding meets them sorted. What becomes of a record depends on neither. -/
namespace Workflow.Json

variable {s r t : List Char} {d : Nat} {fields : List Field} {ms : List (String × Json)}

/-- The key is one of a field. -/
def Shape.HasField (fields : List Field) (k : String) : Prop := ∃ f ∈ fields, f.name = k

theorem hasField_of_find? {k : String} {f : Field}
    (h : (fields.find? fun f => f.name = k) = some f) :
    Shape.HasField fields k :=
  ⟨f, List.mem_of_find?_eq_some h, by simpa using List.find?_some h⟩

theorem not_hasField_of_find? {k : String} (h : (fields.find? fun f => f.name = k) = none) :
    ¬ Shape.HasField fields k := by
  rintro ⟨f, hf, hk⟩
  simpa [hk] using List.find?_eq_none.mp h f hf

section Members

theorem gives_readMembers {first : Bool} {count : List Char} {present : List (String × Json)}
    (h : Reads (.members first ms) s r) (hcount : s.length ≤ count.length)
    (hkeys : Assoc.Distinct ms) (hall : ∀ m ∈ ms, m.2.Distinct)
    (hfresh : ∀ m ∈ ms, Assoc.find? m.1 present = none) :
    Gives (Shape.readMembers d fields count first present s) ('\x7d' :: r) (fun p =>
      ∃ new, Shape.decodeMembers fields (canonicalMembers ms) = .ok new ∧
        (∀ m ∈ ms, Shape.HasField fields m.1 → m.2.depth ≤ d) ∧ p = present ++ new) := by
  have hlt := h.length_lt
  obtain ⟨y, count, rfl⟩ := List.exists_cons_of_length_pos (l := count) (by omega)
  simp only [List.length_cons] at hcount
  induction ms generalizing first s y count present with
  | nil =>
    cases h with
    | membersEnd h =>
      obtain ⟨t, hs, rfl⟩ := nextKey_end h
      simp only [Shape.readMembers, h, ok_bind, Bool.false_eq_true, if_false]
      refine (gives_ok present ('\x7d' :: t)).congr fun p => ?_
      constructor
      · rintro rfl
        exact ⟨[], rfl, nofun, (List.append_nil p).symm⟩
      · rintro ⟨new, hnew, -, rfl⟩
        cases hnew
        exact List.append_nil present
  | cons m ms ih =>
    cases h with
    | @member _ k v _ _ r₁ r₂ r₃ r₄ _ h hk hc hv hs =>
      obtain ⟨hvall, hall⟩ := List.forall_mem_cons.mp hall
      obtain ⟨hvfresh, hfresh⟩ := List.forall_mem_cons.mp hfresh
      obtain ⟨hnew, hkeys⟩ := List.nodup_cons.mp hkeys
      have := length_of_nextKey h
      have := consumes_text _ _ _ hk
      have := length_of_skipBlanks (skipBlanks_of_colon hc)
      have := hv.length_lt
      have := hs.length_lt
      obtain ⟨y', count, rfl⟩ := List.exists_cons_of_length_pos (l := count) (by omega)
      simp only [List.length_cons] at hcount
      simp only [Shape.readMembers, h, ok_bind, if_true, hk, canonicalMembers, Shape.decodeMembers]
      cases hf : fields.find? (fun f => f.name = k) with
      | none =>
        simp only [hc, ok_bind, skipValue_of_reads hv]
        refine (ih hs hkeys hall hfresh hs.length_lt y' count (by omega)).congr fun p => ?_
        simp [not_hasField_of_find? hf]
      | some f =>
        simp only [hvfresh, Option.isSome_none, Bool.false_eq_true, if_false, hc, ok_bind]
        have hlater (x : Json) : ∀ m ∈ ms, Assoc.find? m.1 (present ++ [(k, x)]) = none := by
          intro m hm
          have hne : m.1 ≠ k := fun heq => hnew (List.mem_map.mpr ⟨m, hm, heq⟩)
          have hpresent := Assoc.find?_eq_none_iff.mp (hfresh m hm)
          rw [Assoc.find?_eq_none_iff]
          intro e he
          rcases List.mem_append.mp he with he | he
          · exact hpresent e he
          · rw [List.mem_singleton.mp he]
            exact Ne.symm hne
        refine ((f.form.gives_read hv hvall).bind fun x _ =>
          ih hs hkeys hall (hlater x) hs.length_lt y' count (by omega)).congr fun p => ?_
        constructor
        · rintro ⟨x, ⟨hd, hx⟩, new, hnew, hdepth, rfl⟩
          refine ⟨(k, x) :: new, ?_, List.forall_mem_cons.mpr ⟨fun _ => hd, hdepth⟩,
            by simp⟩
          exact bind_eq_ok_iff.mpr ⟨x, hx, bind_ok_eq_ok_iff.mpr ⟨new, hnew, rfl⟩⟩
        · rintro ⟨new, hnew, hdepth, rfl⟩
          obtain ⟨x, hx, hnew⟩ := bind_eq_ok_iff.mp hnew
          obtain ⟨rest, hrest, rfl⟩ := bind_ok_eq_ok_iff.mp hnew
          obtain ⟨hd, hdepth⟩ := List.forall_mem_cons.mp hdepth
          exact ⟨x, ⟨hd (hasField_of_find? hf), hx⟩, rest, hrest, hdepth, by simp⟩

/-- What a record has for a member of this key and value, if it is one of a field. -/
def Shape.fieldValue? (fields : List Field) (k : String) (v : Json) : Option Json :=
  (fields.find? fun f => f.name = k).bind fun f => (f.form.decode v).toOption

theorem toOption_eq_some_iff {ε α : Type} {e : Except ε α} {a : α} :
    e.toOption = some a ↔ e = .ok a := by
  cases e <;> simp [Except.toOption]

/-- A member is left out if it is no field, and decoded if it is one. -/
theorem decodeMembers_cons_eq_ok_iff {k : String} {v : Json} {new : List (String × Json)} :
    Shape.decodeMembers fields ((k, v) :: ms) = .ok new ↔
      ∃ rest, Shape.decodeMembers fields ms = .ok rest ∧
        ((¬ Shape.HasField fields k ∧ new = rest) ∨
          ∃ x, Shape.fieldValue? fields k v = some x ∧ new = (k, x) :: rest) := by
  unfold Shape.fieldValue?
  cases hf : fields.find? (fun f => f.name = k) with
  | none => simp [Shape.decodeMembers, hf, not_hasField_of_find? hf]
  | some f =>
    simp only [Shape.decodeMembers, hf, Option.bind_some, hasField_of_find? hf, not_true,
      false_and, false_or, toOption_eq_some_iff]
    constructor
    · intro h
      obtain ⟨x, hx, h⟩ := bind_eq_ok_iff.mp h
      obtain ⟨rest, hrest, rfl⟩ := bind_ok_eq_ok_iff.mp h
      exact ⟨rest, hrest, x, hx, rfl⟩
    · rintro ⟨rest, hrest, x, hx, rfl⟩
      exact bind_eq_ok_iff.mpr ⟨x, hx, bind_ok_eq_ok_iff.mpr ⟨rest, hrest, rfl⟩⟩

/-- Members are decoded if each is that is one of a field. -/
theorem exists_decodeMembers_iff : (∃ new, Shape.decodeMembers fields ms = .ok new) ↔
    ∀ m ∈ ms, Shape.HasField fields m.1 → (Shape.fieldValue? fields m.1 m.2).isSome := by
  induction ms with
  | nil => simp [Shape.decodeMembers]
  | cons m ms ih =>
    obtain ⟨k, v⟩ := m
    rw [List.forall_mem_cons, ← ih]
    constructor
    · rintro ⟨new, h⟩
      obtain ⟨rest, hrest, ⟨hk, -⟩ | ⟨x, hx, -⟩⟩ := decodeMembers_cons_eq_ok_iff.mp h
      · exact ⟨fun h => absurd h hk, rest, hrest⟩
      · exact ⟨fun _ => by simp [hx], rest, hrest⟩
    · rintro ⟨hk, rest, hrest⟩
      by_cases hf : Shape.HasField fields k
      · obtain ⟨x, hx⟩ := Option.isSome_iff_exists.mp (hk hf)
        exact ⟨_, decodeMembers_cons_eq_ok_iff.mpr ⟨rest, hrest, .inr ⟨x, hx, rfl⟩⟩⟩
      · exact ⟨_, decodeMembers_cons_eq_ok_iff.mpr ⟨rest, hrest, .inl ⟨hf, rfl⟩⟩⟩

theorem fieldValue?_of_not_hasField {k : String} (h : ¬ Shape.HasField fields k) (v : Json) :
    Shape.fieldValue? fields k v = none := by
  cases hf : fields.find? (fun f => f.name = k) with
  | none => simp [Shape.fieldValue?, hf]
  | some f => exact absurd (hasField_of_find? hf) h

/-- What is found under a key depends on what was found under it before, not on the order. -/
theorem find?_of_decodeMembers {new : List (String × Json)}
    (h : Shape.decodeMembers fields ms = .ok new) (k : String) :
    Assoc.find? k new = (Assoc.find? k ms).bind (Shape.fieldValue? fields k) := by
  induction ms generalizing new with
  | nil =>
    cases h
    rfl
  | cons m ms ih =>
    obtain ⟨k', v⟩ := m
    obtain ⟨rest, hrest, ⟨hk, rfl⟩ | ⟨x, hx, rfl⟩⟩ := decodeMembers_cons_eq_ok_iff.mp h
    · by_cases hkk : k' = k
      · subst hkk
        rw [ih hrest]
        cases Assoc.find? k' ms <;> simp [Assoc.find?, fieldValue?_of_not_hasField hk]
      · simp [Assoc.find?, hkk, ih hrest]
    · by_cases hkk : k' = k
      · subst hkk
        simp [Assoc.find?, hx]
      · simp [Assoc.find?, hkk, ih hrest]

theorem complete_congr {present present' : List (String × Json)}
    (h : ∀ k, Assoc.find? k present' = Assoc.find? k present) :
    Shape.complete present' fields = Shape.complete present fields := by
  induction fields with
  | nil => rfl
  | cons f fs ih => simp only [Shape.complete, h, ih]

/-- The order of the members does not matter for a record. -/
theorem decodeMembers_perm {ms' new : List (String × Json)} (hp : ms.Perm ms')
    (hkeys : Assoc.Distinct ms) (h : Shape.decodeMembers fields ms = .ok new) :
    ∃ new', Shape.decodeMembers fields ms' = .ok new' ∧
      Shape.complete new' fields = Shape.complete new fields := by
  have hok := exists_decodeMembers_iff.mp ⟨new, h⟩
  obtain ⟨new', h'⟩ : ∃ new', Shape.decodeMembers fields ms' = .ok new' :=
    exists_decodeMembers_iff.mpr fun m hm => hok m (hp.mem_iff.mpr hm)
  refine ⟨new', h', complete_congr fun k => ?_⟩
  rw [find?_of_decodeMembers h, find?_of_decodeMembers h', Assoc.find?_perm hkeys hp]

theorem decode_record_object_iff {name : String} {x : Json} :
    (Shape.record name fields).decode (.obj ms) = .ok x ↔
      ∃ new xs, Shape.decodeMembers fields ms = .ok new ∧ Shape.complete new fields = .ok xs ∧
        x = object xs := by
  rw [Shape.decode, bind_eq_ok_iff]
  refine exists_congr fun new => ?_
  rw [bind_ok_eq_ok_iff, exists_and_left]

theorem gives_record_object (name : String) (h : Reads (.members true ms) t r)
    (hkeys : Assoc.Distinct ms) (hall : ∀ m ∈ ms, m.2.Distinct) :
    Gives (Shape.readMembers d fields t true [] t >>= fun p =>
        fitting (Shape.complete p.1 fields) (leaveMembers p.2) >>= fun xs =>
          .ok (object xs, p.2.drop 1)) r
      (fun x => (∀ m ∈ ms, Shape.HasField fields m.1 → m.2.depth ≤ d) ∧
        (Shape.record name fields).decode (Json.obj ms).canonical = .ok x) := by
  have hmembers : Gives (Shape.readMembers d fields t true [] t) ('\x7d' :: r) _ :=
    gives_readMembers h (Nat.le_refl _) hkeys hall (fun _ _ => rfl)
  have hperm := Assoc.ofList_perm (distinct_canonicalMembers hkeys)
  refine (hmembers.bind fun p _ =>
    gives_fitting_bind fun xs _ => gives_ok (object xs) r).congr fun x => ?_
  rw [canonical, object, decode_record_object_iff]
  constructor
  · rintro ⟨p, ⟨new, hnew, hdepth, rfl⟩, xs, hxs, rfl⟩
    obtain ⟨new', hnew', hsame⟩ :=
      decodeMembers_perm hperm.symm (distinct_canonicalMembers hkeys) hnew
    exact ⟨hdepth, new', xs, hnew', hsame.trans hxs, rfl⟩
  · rintro ⟨hdepth, new', xs, hnew', hxs, rfl⟩
    obtain ⟨new, hnew, hsame⟩ := decodeMembers_perm hperm
      ((distinct_canonicalMembers hkeys).perm hperm.symm) hnew'
    exact ⟨new, ⟨new, hnew, hdepth, rfl⟩, xs, hsame.trans hxs, rfl⟩

end Members

section Items
variable {vs : List Json}

section
variable {length : String} {index : Nat} {f : Field} {v : Json} {xs : List (String × Json)}

theorem decodeItems_cons_eq_ok_iff {rest : List Json} :
    Shape.decodeItems length index (f :: fields) (v :: vs) = .ok (xs, rest) ↔
      ∃ x ys, f.form.decode v = .ok x ∧
        Shape.decodeItems length (index + 1) fields vs = .ok (ys, rest) ∧
        xs = (f.name, x) :: ys := by
  rw [Shape.decodeItems, bind_eq_ok_iff]
  constructor
  · rintro ⟨x, hx, h⟩
    obtain ⟨⟨ys, rest'⟩, hys, h⟩ := bind_eq_ok_iff.mp h
    cases h
    exact ⟨x, ys, hx, hys, rfl⟩
  · rintro ⟨x, ys, hx, hys, rfl⟩
    exact ⟨x, hx, bind_eq_ok_iff.mpr ⟨_, hys, rfl⟩⟩

/-- Without an item the value of a field has to be known. -/
theorem decodeItems_nil_eq_ok_iff {rest : List Json} :
    Shape.decodeItems length index (f :: fields) [] = .ok (xs, rest) ↔
      ∃ x ys, f.fallback = .value x ∧
        Shape.decodeItems length (index + 1) fields [] = .ok (ys, rest) ∧
        xs = (f.name, x) :: ys := by
  rw [Shape.decodeItems]
  cases f.fallback with
  | value x =>
    rw [bind_eq_ok_iff]
    constructor
    · rintro ⟨⟨ys, rest'⟩, hys, h⟩
      cases h
      exact ⟨x, ys, rfl, hys, rfl⟩
    · rintro ⟨_, ys, ⟨⟩, hys, rfl⟩
      exact ⟨_, hys, rfl⟩
  | required | nullable => simp

theorem readItems_cons_eq_ok_iff {r₁ q : List Char}
    (h : nextItem (index = 0) s = .ok (true, r₁)) :
    Shape.readItems d length index (f :: fields) s = .ok (xs, q) ↔
      ∃ x r₂ ys, f.form.read d r₁ = .ok (x, r₂) ∧
        Shape.readItems d length (index + 1) fields r₂ = .ok (ys, q) ∧
        xs = (f.name, x) :: ys := by
  simp only [Shape.readItems, h, ok_bind, if_true, bind_eq_ok_iff]
  constructor
  · rintro ⟨⟨x, r₂⟩, hx, ⟨ys, q'⟩, hys, h⟩
    cases h
    exact ⟨x, r₂, ys, hx, hys, rfl⟩
  · rintro ⟨x, r₂, ys, hx, hys, rfl⟩
    exact ⟨(x, r₂), hx, (ys, q), hys, rfl⟩

theorem readItems_nil_eq_ok_iff {r₁ q : List Char}
    (h : nextItem (index = 0) s = .ok (false, r₁)) :
    Shape.readItems d length index (f :: fields) s = .ok (xs, q) ↔
      ∃ x ys, f.fallback = .value x ∧
        Shape.readItems d length (index + 1) fields r₁ = .ok (ys, q) ∧
        xs = (f.name, x) :: ys := by
  simp only [Shape.readItems, h, ok_bind, Bool.false_eq_true, if_false]
  cases f.fallback with
  | value x =>
    simp only [bind_eq_ok_iff]
    constructor
    · rintro ⟨⟨ys, q'⟩, hys, h⟩
      cases h
      exact ⟨x, ys, rfl, hys, rfl⟩
    · rintro ⟨_, ys, ⟨⟩, hys, rfl⟩
      exact ⟨(ys, q), hys, rfl⟩
  | required | nullable => simp

/-- The fields of a record are read from the items of a list, and all of the items are. -/
theorem readItems_iff {r' : List Char} (h : Reads (.items (index = 0) vs) s r)
    (hall : ∀ v ∈ vs, v.Distinct) :
    (∃ q, Shape.readItems d length index fields s = .ok (xs, q) ∧ endItems q = .ok r') ↔
      r' = r ∧ (∀ v ∈ vs, v.depth ≤ d) ∧
        Shape.decodeItems length index fields (canonicalItems vs) = .ok (xs, []) := by
  induction fields generalizing index s vs xs with
  | nil =>
    simp only [Shape.readItems, Shape.decodeItems]
    cases vs with
    | nil =>
      constructor
      · rintro ⟨q, hq, hend⟩
        cases hq
        rw [endItems_end h] at hend
        cases hend
        exact ⟨rfl, nofun, rfl⟩
      · rintro ⟨rfl, -, hxs⟩
        cases hxs
        exact ⟨s, rfl, endItems_end h⟩
    | cons v vs =>
      cases h with
      | item h =>
        constructor
        · rintro ⟨q, hq, hend⟩
          cases hq
          exact absurd hend (endItems_item h)
        · rintro ⟨-, -, hxs⟩
          cases hxs
  | cons f fs ih =>
    cases vs with
    | nil =>
      cases h with
      | itemsEnd h =>
        obtain ⟨t, hs, rfl⟩ := nextItem_end h
        have hrest : Reads (.items (index + 1 = 0) []) (']' :: t) t := .itemsEnd (r := ']' :: t) rfl
        simp only [readItems_nil_eq_ok_iff h, canonicalItems, decodeItems_nil_eq_ok_iff]
        constructor
        · rintro ⟨q, ⟨x, ys, hx, hys, rfl⟩, hend⟩
          obtain ⟨rfl, hdepth, hys⟩ := (ih hrest nofun).mp ⟨q, hys, hend⟩
          exact ⟨rfl, hdepth, x, ys, hx, hys, rfl⟩
        · rintro ⟨rfl, hdepth, x, ys, hx, hys, rfl⟩
          obtain ⟨q, hq, hend⟩ := (ih hrest nofun).mpr ⟨rfl, hdepth, hys⟩
          exact ⟨q, ⟨x, ys, hx, hq, rfl⟩, hend⟩
    | cons v vs =>
      cases h with
      | @item _ _ _ _ r₁ r₂ _ h hv hs =>
        obtain ⟨hvall, hall⟩ := List.forall_mem_cons.mp hall
        have hread : Gives (f.form.read d r₁) r₂ _ := f.form.gives_read hv hvall
        have hrest : Reads (.items (index + 1 = 0) vs) r₂ r := by simpa using hs
        simp only [readItems_cons_eq_ok_iff h, canonicalItems, decodeItems_cons_eq_ok_iff,
          List.forall_mem_cons]
        constructor
        · rintro ⟨q, ⟨x, r₃, ys, hx, hys, rfl⟩, hend⟩
          obtain ⟨rfl, hd, hx⟩ := (hread x r₃).mp hx
          obtain ⟨rfl, hdepth, hys⟩ := (ih hrest hall).mp ⟨q, hys, hend⟩
          exact ⟨rfl, ⟨hd, hdepth⟩, x, ys, hx, hys, rfl⟩
        · rintro ⟨rfl, ⟨hd, hdepth⟩, x, ys, hx, hys, rfl⟩
          obtain ⟨q, hq, hend⟩ := (ih hrest hall).mpr ⟨rfl, hdepth, hys⟩
          exact ⟨q, ⟨x, r₂, ys, (hread x r₂).mpr ⟨rfl, hd, hx⟩, hq, rfl⟩, hend⟩

end

theorem decode_record_list_iff {name : String} {x : Json} :
    (Shape.record name fields).decode (.arr vs) = .ok x ↔
      ∃ xs, Shape.decodeItems (Shape.recordLength name fields.length) 0 fields vs =
        .ok (xs, []) ∧ x = object xs := by
  rw [Shape.decode, bind_eq_ok_iff]
  constructor
  · rintro ⟨⟨xs, extra⟩, hxs, hx⟩
    cases extra with
    | cons e es => cases hx
    | nil =>
      cases hx
      exact ⟨xs, hxs, rfl⟩
  · rintro ⟨xs, hxs, rfl⟩
    exact ⟨(xs, []), hxs, rfl⟩

theorem gives_record_list (name : String) (h : Reads (.items true vs) t r)
    (hall : ∀ v ∈ vs, v.Distinct) :
    Gives (Shape.readItems d (Shape.recordLength name fields.length) 0 fields t >>= fun p =>
        endItems p.2 >>= fun r => .ok (object p.1, r)) r
      (fun x => (∀ v ∈ vs, v.depth ≤ d) ∧
        (Shape.record name fields).decode (Json.arr vs).canonical = .ok x) := by
  intro x r'
  have hitems (xs : List (String × Json)) :
      (∃ q, Shape.readItems d (Shape.recordLength name fields.length) 0 fields t = .ok (xs, q) ∧
        endItems q = .ok r') ↔ _ := readItems_iff h hall
  simp only [bind_eq_ok_iff, canonical, decode_record_list_iff]
  constructor
  · rintro ⟨⟨xs, q⟩, hxs, r₁, hend, hx⟩
    cases hx
    obtain ⟨rfl, hdepth, hxs⟩ := (hitems xs).mp ⟨q, hxs, hend⟩
    exact ⟨rfl, hdepth, xs, hxs, rfl⟩
  · rintro ⟨rfl, hdepth, xs, hxs, rfl⟩
    obtain ⟨q, hq, hend⟩ := (hitems xs).mpr ⟨rfl, hdepth, hxs⟩
    exact ⟨(xs, q), hq, r', hend, rfl⟩

end Items

end Workflow.Json
