import Workflow.Proofs.Json.Scan

/-! What a text reads as, member by member.

`Reads` follows the text like the readers do, but keeps the members of an object as
the text has them and knows no limit of depth. The reader of values keeps the
canonical form of what a text reads as. -/
namespace Workflow.Json
variable {s r : List Char}

/-- A value, or the rest of a list or an object up to its closing bracket,
from the first item on or behind one. -/
inductive Part where
  | value (v : Json)
  | items (first : Bool) (vs : List Json)
  | members (first : Bool) (ms : List (String × Json))

/-- What stands at the head of a text, and the text behind it. -/
inductive Reads : Part → List Char → List Char → Prop
  | scalar {v : Json} {s r : List Char} (h : valueWith none s = .ok (v, r)) : Reads (.value v) s r
  | list {vs : List Json} {s t r : List Char} (h : skipBlanks s = '[' :: t)
    (hs : Reads (.items true vs) t r) : Reads (.value (.arr vs)) s r
  | object {ms : List (String × Json)} {s t r : List Char} (h : skipBlanks s = '\x7b' :: t)
    (hs : Reads (.members true ms) t r) : Reads (.value (.obj ms)) s r
  | itemsEnd {first : Bool} {s r : List Char} (h : nextItem first s = .ok (false, r)) :
    Reads (.items first []) s (r.drop 1)
  | item {first : Bool} {v : Json} {vs : List Json} {s r₁ r₂ r : List Char}
    (h : nextItem first s = .ok (true, r₁)) (hv : Reads (.value v) r₁ r₂)
    (hs : Reads (.items false vs) r₂ r) : Reads (.items first (v :: vs)) s r
  | membersEnd {first : Bool} {s r : List Char} (h : nextKey first s = .ok (false, r)) :
    Reads (.members first []) s (r.drop 1)
  | member {first : Bool} {k : String} {v : Json} {ms : List (String × Json)}
    {s r₁ r₂ r₃ r₄ r : List Char} (h : nextKey first s = .ok (true, r₁))
    (hk : text r₁ = .ok (k, r₂)) (hc : colon r₂ = .ok r₃) (hv : Reads (.value v) r₃ r₄)
    (hs : Reads (.members false ms) r₄ r) :
    Reads (.members first ((k, v) :: ms)) s r

/-- The text is one value, with the members of objects as they stand here. -/
def Spells (s : List Char) (v : Json) : Prop := ∃ r, Reads (.value v) s r ∧ skipBlanks r = []

/-- Every part of a text has at least one character. -/
theorem Reads.length_lt {p : Part} (h : Reads p s r) : r.length < s.length := by
  induction h with
  | scalar h => exact consumes_scalar _ _ _ h
  | list h _ ih | object h _ ih => exact Nat.lt_trans ih (length_of_skipBlanks h)
  | itemsEnd h =>
    obtain ⟨t, hs, rfl⟩ := nextItem_end h
    exact length_of_skipBlanks hs
  | item h _ _ ihv ihs =>
    have := length_of_nextItem h
    omega
  | membersEnd h =>
    obtain ⟨t, hs, rfl⟩ := nextKey_end h
    exact length_of_skipBlanks hs
  | member h hk hc _ _ ihv ihs =>
    have := length_of_nextKey h
    have := consumes_text _ _ _ hk
    have := length_of_skipBlanks (skipBlanks_of_colon hc)
    omega

theorem endItems_end {first : Bool} (h : Reads (.items first []) s r) : endItems s = .ok r := by
  cases h with
  | itemsEnd h =>
    obtain ⟨t, hs, rfl⟩ := nextItem_end h
    simp only [endItems, hs, if_true, List.drop_one, List.tail_cons]

/-- The bracket is not there if another item follows. -/
theorem endItems_item {first : Bool} {r₁ r' : List Char}
    (h : nextItem first s = .ok (true, r₁)) :
    endItems s ≠ .ok r' := by
  have hhead : ∃ c t, skipBlanks s = c :: t ∧ c ≠ ']' := by
    cases first with
    | true =>
      obtain ⟨hs, c, t, rfl, hc⟩ := nextItem_first h
      exact ⟨c, t, hs, hc⟩
    | false =>
      obtain ⟨⟨u, hs, -⟩, -⟩ := nextItem_later h
      exact ⟨',', u, hs, by decide⟩
  obtain ⟨c, t, hs, hc⟩ := hhead
  simp only [endItems, hs, hc, if_false]
  intro h
  split at h
  · split at h <;> cases h
  · cases h

section Reader
variable {item : Scan Json} {d : Nat} {count : List Char} {first : Bool} {v : Json}

/-- What the reader of items accepts, if it is known what the reader of one item does. -/
theorem reads_of_items {vs : List Json}
    (hitem : ∀ s v r, item s = .ok (v, r) → ∃ u, Reads (.value u) s r ∧ u.depth ≤ d ∧
      v = u.canonical) (h : items item count first s = .ok (vs, r)) :
    ∃ us, Reads (.items first us) s r ∧ depthItems us ≤ d ∧ vs = canonicalItems us := by
  induction count generalizing first s vs with
  | nil => cases h
  | cons _ count ih =>
    obtain ⟨⟨more, r₁⟩, hnext, h⟩ := bind_eq_ok_iff.mp h
    cases more with
    | false =>
      cases h
      exact ⟨[], .itemsEnd hnext, Nat.zero_le d, rfl⟩
    | true =>
      obtain ⟨⟨v, r₂⟩, hv, h⟩ := bind_eq_ok_iff.mp h
      obtain ⟨⟨vs, r₃⟩, hvs, h⟩ := bind_eq_ok_iff.mp h
      cases h
      obtain ⟨u, hu, hd, rfl⟩ := hitem _ _ _ hv
      obtain ⟨us, hus, hds, rfl⟩ := ih hvs
      exact ⟨u :: us, .item hnext hu hus, Nat.max_le.mpr ⟨hd, hds⟩, rfl⟩

theorem reads_of_members {ms : List (String × Json)}
    (hitem : ∀ s v r, item s = .ok (v, r) → ∃ u, Reads (.value u) s r ∧ u.depth ≤ d ∧
      v = u.canonical) (h : members item count first s = .ok (ms, r)) :
    ∃ us, Reads (.members first us) s r ∧ depthMembers us ≤ d ∧
      ms = canonicalMembers us := by
  induction count generalizing first s ms with
  | nil => cases h
  | cons _ count ih =>
    obtain ⟨⟨more, r₁⟩, hnext, h⟩ := bind_eq_ok_iff.mp h
    cases more with
    | false =>
      cases h
      exact ⟨[], .membersEnd hnext, Nat.zero_le d, rfl⟩
    | true =>
      obtain ⟨⟨k, r₂⟩, hk, h⟩ := bind_eq_ok_iff.mp h
      obtain ⟨r₃, hc, h⟩ := bind_eq_ok_iff.mp h
      obtain ⟨⟨v, r₄⟩, hv, h⟩ := bind_eq_ok_iff.mp h
      obtain ⟨⟨ms, r₅⟩, hms, h⟩ := bind_eq_ok_iff.mp h
      cases h
      obtain ⟨u, hu, hd, rfl⟩ := hitem _ _ _ hv
      obtain ⟨us, hus, hds, rfl⟩ := ih hms
      exact ⟨(k, u) :: us, .member hnext hk hc hu hus, Nat.max_le.mpr ⟨hd, hds⟩, rfl⟩

theorem reads_of_value (h : value d s = .ok (v, r)) :
    ∃ u, Reads (.value u) s r ∧ u.depth ≤ d ∧ v = u.canonical := by
  induction d generalizing s v r with
  | zero =>
    have hv := depth_of_scalar h
    exact ⟨v, .scalar h, Nat.le_of_eq hv, (canonical_of_scalar hv).symm⟩
  | succ d ih =>
    obtain h | ⟨t, vs, ht, hvs, rfl⟩ | ⟨t, ms, ht, hms, rfl⟩ := valueWith_cases h
    · have hv := depth_of_scalar h
      exact ⟨v, .scalar h, by omega, (canonical_of_scalar hv).symm⟩
    · obtain ⟨us, hus, hd, rfl⟩ := reads_of_items (fun _ _ _ => ih) hvs
      exact ⟨.arr us, .list ht hus, Nat.succ_le_succ hd, rfl⟩
    · obtain ⟨us, hus, hd, rfl⟩ := reads_of_members (fun _ _ _ => ih) hms
      exact ⟨.obj us, .object ht hus, Nat.succ_le_succ hd, rfl⟩

/-- The reader accepts a part that is not nested too deep and keeps its canonical form. The count is
enough if it is no shorter than the text. -/
def Part.Kept (d : Nat) (s r : List Char) : Part → Prop
  | .value v => v.depth ≤ d → Json.value d s = .ok (v.canonical, r)
  | .items first vs => ∀ count : List Char, s.length ≤ count.length → depthItems vs ≤ d →
    Json.items (Json.value d) count first s = .ok (canonicalItems vs, r)
  | .members first ms =>
    ∀ count : List Char, s.length ≤ count.length → depthMembers ms ≤ d →
    Json.members (Json.value d) count first s = .ok (canonicalMembers ms, r)

theorem Reads.kept {p : Part} (h : Reads p s r) (d : Nat) : p.Kept d s r := by
  induction h generalizing d with
  | @scalar v s r h =>
    intro _
    rw [canonical_of_scalar (depth_of_scalar h)]
    cases d <;> exact valueWith_of_scalar h
  | @list vs s t r h _ ih =>
    intro hd
    cases d with
    | zero => cases hd
    | succ d =>
      rw [value, valueWith_list h, ih d t (Nat.le_refl _) (Nat.le_of_succ_le_succ hd)]
      rfl
  | @object ms s t r h _ ih =>
    intro hd
    cases d with
    | zero => cases hd
    | succ d =>
      rw [value, valueWith_object h, ih d t (Nat.le_refl _) (Nat.le_of_succ_le_succ hd)]
      rfl
  | itemsEnd h =>
    intro count hcount _
    cases count with
    | nil =>
      obtain ⟨t, hs, -⟩ := nextItem_end h
      have := length_of_skipBlanks hs
      simp only [List.length_nil] at hcount
      omega
    | cons _ count =>
      rw [items, h]
      rfl
  | @item first v vs s r₁ r₂ r h hv hs ihv ihs =>
    intro count hcount hd
    obtain ⟨hdv, hds⟩ := Nat.max_le.mp hd
    have := length_of_nextItem h
    have := hv.length_lt
    cases count with
    | nil =>
      simp only [List.length_nil] at hcount
      omega
    | cons _ count =>
      simp only [List.length_cons] at hcount
      have hrest := ihs d count (by omega) hds
      refine bind_eq_ok_iff.mpr ⟨_, h, ?_⟩
      refine bind_eq_ok_iff.mpr ⟨_, ihv d hdv, ?_⟩
      exact bind_eq_ok_iff.mpr ⟨_, hrest, rfl⟩
  | membersEnd h =>
    intro count hcount _
    cases count with
    | nil =>
      obtain ⟨t, hs, -⟩ := nextKey_end h
      have := length_of_skipBlanks hs
      simp only [List.length_nil] at hcount
      omega
    | cons _ count =>
      rw [members, h]
      rfl
  | @member first k v ms s r₁ r₂ r₃ r₄ r h hk hc hv hs ihv ihs =>
    intro count hcount hd
    obtain ⟨hdv, hds⟩ := Nat.max_le.mp hd
    have := length_of_nextKey h
    have := consumes_text _ _ _ hk
    have := length_of_skipBlanks (skipBlanks_of_colon hc)
    have := hv.length_lt
    cases count with
    | nil =>
      simp only [List.length_nil] at hcount
      omega
    | cons _ count =>
      simp only [List.length_cons] at hcount
      have hrest := ihs d count (by omega) hds
      refine bind_eq_ok_iff.mpr ⟨_, h, ?_⟩
      refine bind_eq_ok_iff.mpr ⟨_, hk, ?_⟩
      refine bind_eq_ok_iff.mpr ⟨_, hc, ?_⟩
      refine bind_eq_ok_iff.mpr ⟨_, ihv d hdv, ?_⟩
      exact bind_eq_ok_iff.mpr ⟨_, hrest, rfl⟩

/-- The reader accepts exactly what is not nested too deep, and keeps its canonical form. -/
theorem value_eq_ok_iff :
    value d s = .ok (v, r) ↔
      ∃ u, Reads (.value u) s r ∧ u.depth ≤ d ∧ v = u.canonical := by
  constructor
  · exact reads_of_value
  · rintro ⟨u, hu, hd, rfl⟩
    exact hu.kept d hd

/-- A text reads in one way only, so the reader keeps this one or none. -/
theorem Reads.of_value {u : Json} {r' : List Char} (h : Reads (.value u) s r)
    (hv : value d s = .ok (v, r')) :
    v = u.canonical ∧ r' = r ∧ u.canonical.depth ≤ d := by
  obtain ⟨u', hu', hd, rfl⟩ := reads_of_value hv
  have hdeep := h.kept (max u.depth u'.depth) (Nat.le_max_left ..)
  have hdeep' := hu'.kept (max u.depth u'.depth) (Nat.le_max_right ..)
  obtain ⟨hsame, hrest⟩ := Prod.mk.inj (Except.ok.inj (hdeep.symm.trans hdeep'))
  refine ⟨hsame.symm, hrest.symm, ?_⟩
  rw [hsame]
  exact Nat.le_trans (depth_canonical_le u') hd

theorem whole_eq_ok_iff {α : Type} {scan : Scan α} {x : α} :
    whole scan s = .ok x ↔ ∃ r, scan s = .ok (x, r) ∧ skipBlanks r = [] := by
  unfold whole
  rw [bind_eq_ok_iff]
  constructor
  · rintro ⟨⟨y, r⟩, hy, h⟩
    simp only at h
    split at h
    next hr =>
      cases h
      exact ⟨r, hy, hr⟩
    · cases h
  · rintro ⟨r, hx, hr⟩
    refine ⟨(x, r), hx, ?_⟩
    simp only [hr]

theorem parse_eq_ok_iff {s : String} :
    parse s = .ok v ↔ ∃ u, Spells s.toList u ∧ u.depth ≤ maxDepth ∧ v = u.canonical := by
  unfold parse Spells
  rw [whole_eq_ok_iff]
  constructor
  · rintro ⟨r, hv, hr⟩
    obtain ⟨u, hu, hd, rfl⟩ := reads_of_value hv
    exact ⟨u, ⟨r, hu, hr⟩, hd, rfl⟩
  · rintro ⟨u, ⟨r, hu, hr⟩, hd, rfl⟩
    exact ⟨r, hu.kept maxDepth hd, hr⟩

end Reader

end Workflow.Json
