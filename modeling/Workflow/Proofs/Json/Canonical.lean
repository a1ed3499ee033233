import Workflow.Json.Basic

/-! Values as a text has them: the members of an object in any order, perhaps several under one key.

The canonical form of such a value is the one that reading keeps. If no key stands twice in an
object, it differs from what the text has only in the order of the members. -/
namespace Workflow

namespace Assoc
variable {α : Type} {k key : String} {value : α} {l l' : List (String × α)}

/-- No key stands twice. -/
def Distinct (l : List (String × α)) : Prop := (l.map Prod.fst).Nodup

theorem Sorted.distinct (h : Sorted l) : Distinct l := by
  apply List.pairwise_map.mpr
  apply h.imp
  intro a b hlt heq
  rw [heq] at hlt
  exact String.lt_irrefl _ hlt

theorem Distinct.perm (h : Distinct l) (hp : l.Perm l') : Distinct l' :=
  (hp.map Prod.fst).nodup_iff.mp h

theorem find?_eq_some_iff (h : Distinct l) : find? k l = some value ↔ (k, value) ∈ l := by
  induction l with
  | nil => simp [find?]
  | cons e rest ih =>
    obtain ⟨k', v⟩ := e
    obtain ⟨hk, hrest⟩ := List.nodup_cons.mp h
    simp only [find?]
    by_cases hkk : k' = k
    · subst hkk
      have hnot : (k', value) ∉ rest := fun hmem => hk (List.mem_map.mpr ⟨_, hmem, rfl⟩)
      simp [hnot, eq_comm]
    · simp [hkk, ih hrest, Ne.symm hkk]

theorem find?_eq_none_iff : find? k l = none ↔ ∀ e ∈ l, e.1 ≠ k := by
  induction l with
  | nil => simp [find?]
  | cons e rest ih =>
    obtain ⟨k', v⟩ := e
    by_cases hkk : k' = k
    · simp [find?, hkk]
    · simp [find?, hkk, ih]

/-- What is found under a key does not depend on the order. -/
theorem find?_perm (h : Distinct l) (hp : l.Perm l') (k : String) : find? k l' = find? k l := by
  cases hf : find? k l with
  | some v =>
    have hmem := (find?_eq_some_iff h).mp hf
    exact (find?_eq_some_iff (h.perm hp)).mpr (hp.mem_iff.mp hmem)
  | none =>
    rw [find?_eq_none_iff] at hf ⊢
    intro e he
    exact hf e (hp.mem_iff.mpr he)

theorem insert_perm (h : ∀ e ∈ l, e.1 ≠ key) :
    (insert key value l).Perm ((key, value) :: l) := by
  induction l with
  | nil => exact .refl _
  | cons e rest ih =>
    obtain ⟨k, v⟩ := e
    obtain ⟨hk, hrest⟩ := List.forall_mem_cons.mp h
    simp only [insert]
    split
    · exact .refl _
    · rw [if_neg (Ne.symm hk)]
      exact ((ih hrest).cons (k, v)).trans (.swap (key, value) (k, v) rest)

theorem foldl_insert_perm (h : Distinct (l ++ l')) :
    (l'.foldl (fun acc e => insert e.1 e.2 acc) l).Perm (l ++ l') := by
  induction l' generalizing l with
  | nil => simp
  | cons e rest ih =>
    have hfresh : ∀ e' ∈ l, e'.1 ≠ e.1 := by
      have hn : ((l ++ e :: rest).map Prod.fst).Nodup := h
      rw [List.map_append, List.nodup_append] at hn
      intro e' he'
      exact hn.2.2 e'.1 (List.mem_map_of_mem he') e.1 (by simp)
    have hput : (insert e.1 e.2 l ++ rest).Perm (l ++ e :: rest) :=
      ((insert_perm hfresh).append_right rest).trans List.perm_middle.symm
    exact (ih (h.perm hput.symm)).trans hput

/-- Without a key that stands twice, sorting keeps every member. -/
theorem ofList_perm (h : Distinct l) : (ofList l).Perm l :=
  foldl_insert_perm (l := []) h

theorem mem_ofList {e : String × α} (h : e ∈ ofList l) : e ∈ l := by
  suffices ∀ acc, e ∈ l.foldl (fun acc e => insert e.1 e.2 acc) acc → e ∈ acc ∨ e ∈ l by
    simpa using this [] h
  clear h
  induction l with
  | nil => exact fun acc h => .inl h
  | cons e' rest ih =>
    intro acc h
    rcases ih _ h with h | h
    · rcases mem_insert h with rfl | h
      · exact .inr List.mem_cons_self
      · exact .inl h
    · exact .inr (List.mem_cons_of_mem _ h)

theorem Sorted.ofList_eq (h : Sorted l) : ofList l = l := by
  apply (sorted_ofList l).eq_of_find? h
  intro k
  exact (find?_perm (h.distinct.perm (ofList_perm h.distinct).symm) (ofList_perm h.distinct) k).symm

theorem find?_ofList (h : Distinct l) (k : String) : find? k (ofList l) = find? k l :=
  find?_perm h (ofList_perm h).symm k

end Assoc

namespace Json

section
variable {motive : Json → Prop} (null : motive .null) (bool : ∀ b, motive (.bool b))
  (num : ∀ n, motive (.num n)) (str : ∀ s, motive (.str s))
  (arr : ∀ vs, (∀ v ∈ vs, motive v) → motive (.arr vs))
  (obj : ∀ ms, (∀ m ∈ ms, motive m.2) → motive (.obj ms))
include null bool num str arr obj

set_option linter.unusedSectionVars false in
mutual

/-- Induction on a value together with the values inside it. -/
theorem nested : ∀ v, motive v
  | .null => null
  | .bool b => bool b
  | .num n => num n
  | .str s => str s
  | .arr vs => arr vs (nestedItems vs)
  | .obj ms => obj ms (nestedMembers ms)

theorem nestedItems : ∀ (vs : List Json), ∀ v ∈ vs, motive v
  | v :: vs, w, h => by
    rcases List.mem_cons.mp h with h | h
    · exact h ▸ nested v
    · exact nestedItems vs w h

theorem nestedMembers : ∀ (ms : List (String × Json)), ∀ m ∈ ms, motive m.2
  | (k, v) :: ms, m, h => by
    rcases List.mem_cons.mp h with h | h
    · exact h ▸ nested v
    · exact nestedMembers ms m h

end

end

mutual

/-- A property holds of the value and of all values inside it. -/
def All (P : Json → Prop) : Json → Prop
  | .arr items => P (.arr items) ∧ AllItems P items
  | .obj members => P (.obj members) ∧ AllMembers P members
  | v => P v

def AllItems (P : Json → Prop) : List Json → Prop
  | [] => True
  | v :: vs => v.All P ∧ AllItems P vs

def AllMembers (P : Json → Prop) : List (String × Json) → Prop
  | [] => True
  | (_, v) :: ms => v.All P ∧ AllMembers P ms

end

section
variable {P : Json → Prop} {vs : List Json} {ms : List (String × Json)}

theorem all_arr : (Json.arr vs).All P ↔ P (.arr vs) ∧ ∀ v ∈ vs, v.All P := by
  have hitems : ∀ vs, AllItems P vs ↔ ∀ v ∈ vs, v.All P := by
    intro vs
    induction vs with
    | nil => simp [AllItems]
    | cons v vs ih => simp [AllItems, ih]
  rw [All, hitems]

theorem all_obj : (Json.obj ms).All P ↔ P (.obj ms) ∧ ∀ m ∈ ms, m.2.All P := by
  have hmembers : ∀ ms, AllMembers P ms ↔ ∀ m ∈ ms, m.2.All P := by
    intro ms
    induction ms with
    | nil => simp [AllMembers]
    | cons m ms ih => simp [AllMembers, ih]
  rw [All, hmembers]

end

/-- The members of every object stand in increasing order of their keys. -/
def Ordered (v : Json) : Prop :=
  v.All fun
    | .obj members => Assoc.Sorted members
    | _ => True

/-- No object has a key twice. -/
def Distinct (v : Json) : Prop :=
  v.All fun
    | .obj members => Assoc.Distinct members
    | _ => True

/-- Every number is an integer of a 64-bit word. -/
def Integral (v : Json) : Prop :=
  v.All fun
    | .num (.int n) => Number.isWord n = true
    | .num (.float _) => False
    | _ => True

mutual

/-- The value that is kept of one as a text has it: members in order, and
of several under one key the last. -/
def canonical : Json → Json
  | .arr items => .arr (canonicalItems items)
  | .obj members => object (canonicalMembers members)
  | v => v

def canonicalItems : List Json → List Json
  | [] => []
  | v :: vs => v.canonical :: canonicalItems vs

def canonicalMembers : List (String × Json) → List (String × Json)
  | [] => []
  | (k, v) :: ms => (k, v.canonical) :: canonicalMembers ms

end

section
variable {v : Json} {vs : List Json} {ms : List (String × Json)} {d : Nat}

theorem canonicalItems_eq_map (vs : List Json) : canonicalItems vs = vs.map canonical := by
  induction vs with
  | nil => rfl
  | cons v vs ih => rw [canonicalItems, ih, List.map_cons]

theorem canonicalMembers_eq_map (ms : List (String × Json)) :
    canonicalMembers ms = ms.map fun m => (m.1, m.2.canonical) := by
  induction ms with
  | nil => rfl
  | cons m ms ih => rw [canonicalMembers, ih, List.map_cons]

theorem distinct_canonicalMembers (h : Assoc.Distinct ms) :
    Assoc.Distinct (canonicalMembers ms) := by
  have hkeys : (canonicalMembers ms).map Prod.fst = ms.map Prod.fst := by
    rw [canonicalMembers_eq_map, List.map_map]
    rfl
  unfold Assoc.Distinct
  rw [hkeys]
  exact h

theorem find?_canonicalMembers (ms : List (String × Json)) (k : String) :
    Assoc.find? k (canonicalMembers ms) = (Assoc.find? k ms).map canonical := by
  induction ms with
  | nil => rfl
  | cons m ms ih =>
    obtain ⟨k', v⟩ := m
    simp only [canonicalMembers, Assoc.find?, ih]
    split <;> rfl

/-- An ordered value is kept as it is. -/
theorem Ordered.canonical_eq (h : v.Ordered) : v.canonical = v := by
  induction v using nested with
  | null | bool | num | str => rfl
  | arr vs ih =>
    have hvs : canonicalItems vs = vs := by
      rw [canonicalItems_eq_map]
      have hid : ∀ v ∈ vs, v.canonical = id v :=
        fun v hmem => ih v hmem ((all_arr.mp h).2 v hmem)
      rw [List.map_congr_left hid, List.map_id]
    rw [canonical, hvs]
  | obj ms ih =>
    obtain ⟨hsorted, hall⟩ := all_obj.mp h
    have hms : canonicalMembers ms = ms := by
      rw [canonicalMembers_eq_map]
      have hid : ∀ m ∈ ms, (m.1, m.2.canonical) = id m :=
        fun m hmem => Prod.ext rfl (ih m hmem (hall m hmem))
      rw [List.map_congr_left hid, List.map_id]
    rw [canonical, hms, object, Assoc.Sorted.ofList_eq hsorted]

theorem depthItems_le_iff : depthItems vs ≤ d ↔ ∀ v ∈ vs, v.depth ≤ d := by
  induction vs with
  | nil => simp [depthItems]
  | cons v vs ih => rw [depthItems, Nat.max_le, ih, List.forall_mem_cons]

theorem depthMembers_le_iff : depthMembers ms ≤ d ↔ ∀ m ∈ ms, m.2.depth ≤ d := by
  induction ms with
  | nil => simp [depthMembers]
  | cons m ms ih => rw [depthMembers, Nat.max_le, ih, List.forall_mem_cons]

/-- What is kept is nested no deeper. -/
theorem depth_canonical_le (v : Json) : v.canonical.depth ≤ v.depth := by
  induction v using nested with
  | null | bool | num | str => exact Nat.le_refl _
  | arr vs ih =>
    simp only [canonical, depth]
    apply Nat.succ_le_succ
    rw [depthItems_le_iff, canonicalItems_eq_map, List.forall_mem_map]
    intro v hmem
    exact Nat.le_trans (ih v hmem) (depthItems_le_iff.mp (Nat.le_refl _) v hmem)
  | obj ms ih =>
    simp only [canonical, object, depth]
    apply Nat.succ_le_succ
    rw [depthMembers_le_iff]
    intro m hmem
    have hmem' := Assoc.mem_ofList hmem
    rw [canonicalMembers_eq_map] at hmem'
    obtain ⟨m', hm', rfl⟩ := List.mem_map.mp hmem'
    exact Nat.le_trans (ih m' hm') (depthMembers_le_iff.mp (Nat.le_refl _) m' hm')

end

end Json

end Workflow
