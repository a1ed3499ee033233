/-! Finite maps from text keys, kept as association lists in increasing key order.

Two tables with the same entries are equal, because the order of the keys is part of the type. -/
namespace Workflow

namespace Assoc
variable {α β : Type}

/-- The keys increase strictly, so no key occurs twice. -/
def Sorted (l : List (String × α)) : Prop := l.Pairwise fun a b => a.1 < b.1

instance (l : List (String × α)) : Decidable (Sorted l) :=
  inferInstanceAs (Decidable (l.Pairwise fun a b => a.1 < b.1))

def find? (key : String) : List (String × α) → Option α
  | [] => none
  | (k, v) :: rest => if k = key then some v else find? key rest

/-- Puts a value under a key at the key's place; an older value is replaced. -/
def insert (key : String) (value : α) : List (String × α) → List (String × α)
  | [] => [(key, value)]
  | (k, v) :: rest =>
    if key < k then (key, value) :: (k, v) :: rest
    else if key = k then (key, value) :: rest
    else (k, v) :: insert key value rest

def erase (key : String) (l : List (String × α)) : List (String × α) :=
  l.filter fun e => e.1 ≠ key

/-- The last of several values under one key stays. -/
def ofList (l : List (String × α)) : List (String × α) :=
  l.foldl (fun acc e => insert e.1 e.2 acc) []

theorem mem_insert {key : String} {value : α} {l : List (String × α)} {e : String × α}
    (h : e ∈ insert key value l) : e = (key, value) ∨ e ∈ l := by
  induction l with
  | nil => simpa [insert] using h
  | cons a rest ih =>
    obtain ⟨k, v⟩ := a
    simp only [insert] at h
    split at h
    · simpa using h
    · split at h
      · rcases List.mem_cons.mp h with h | h
        · exact Or.inl h
        · exact Or.inr (List.mem_cons_of_mem _ h)
      · rcases List.mem_cons.mp h with h | h
        · exact Or.inr (h ▸ List.mem_cons_self)
        · exact (ih h).imp id (List.mem_cons_of_mem _)

theorem sorted_insert {key : String} {value : α} {l : List (String × α)} (h : Sorted l) :
    Sorted (insert key value l) := by
  induction l with
  | nil => simp [insert, Sorted]
  | cons a rest ih =>
    obtain ⟨k, v⟩ := a
    have hr : Sorted rest := (List.pairwise_cons.mp h).2
    have hk : ∀ e ∈ rest, k < e.1 := (List.pairwise_cons.mp h).1
    simp only [insert]
    split
    · rename_i hlt
      refine List.pairwise_cons.mpr ⟨fun e he => ?_, h⟩
      rcases List.mem_cons.mp he with rfl | he
      · exact hlt
      · exact String.lt_trans hlt (hk e he)
    · rename_i hlt
      split
      · rename_i heq
        subst heq
        exact List.pairwise_cons.mpr ⟨hk, hr⟩
      · rename_i hne
        refine List.pairwise_cons.mpr ⟨fun e he => ?_, ih hr⟩
        rcases mem_insert he with rfl | he
        · exact Std.lt_of_le_of_ne hlt (Ne.symm hne)
        · exact hk e he

theorem sorted_erase {key : String} {l : List (String × α)} (h : Sorted l) :
    Sorted (erase key l) :=
  List.Pairwise.filter _ h

theorem sorted_ofList (l : List (String × α)) : Sorted (ofList l) := by
  suffices ∀ acc, Sorted acc → Sorted (l.foldl (fun acc e => insert e.1 e.2 acc) acc) from
    this [] List.Pairwise.nil
  induction l with
  | nil => exact fun _ h => h
  | cons e rest ih => exact fun acc h => ih _ (sorted_insert h)

section
variable {k : String} {l l' : List (String × α)}

theorem find?_insert (key : String) (value : α) (l : List (String × α)) (k : String) :
    find? k (insert key value l) = if k = key then some value else find? k l := by
  induction l with
  | nil => simp only [insert, find?, eq_comm]
  | cons a rest ih =>
    obtain ⟨k', v⟩ := a
    simp only [insert]
    split
    · simp only [find?, eq_comm]
    · split
      · rename_i heq
        subst heq
        by_cases hk : k = key
        · simp [find?, hk]
        · simp [find?, hk, Ne.symm hk]
      · rename_i hne
        simp only [find?, ih]
        by_cases hk : k = key
        · subst hk
          simp [Ne.symm hne]
        · simp [hk]

theorem find?_erase (key : String) (l : List (String × α)) (k : String) :
    find? k (erase key l) = if k = key then none else find? k l := by
  induction l with
  | nil => simp [erase, find?]
  | cons a rest ih =>
    obtain ⟨k', v⟩ := a
    by_cases hk : k' = key
    · have he : erase key ((k', v) :: rest) = erase key rest := by simp [erase, hk]
      rw [he, ih]
      by_cases h : k = key
      · simp [h]
      · have hne : k' ≠ k := fun he => h (he ▸ hk)
        simp [h, find?, hne]
    · have he : erase key ((k', v) :: rest) = (k', v) :: erase key rest := by simp [erase, hk]
      rw [he, find?, ih]
      by_cases h : k' = k
      · have hne : k ≠ key := fun he => hk (h.trans he)
        simp [find?, h, hne]
      · simp [find?, h]

/-- A key below all keys of a list is not in it. -/
theorem find?_eq_none_of_lt (h : ∀ e ∈ l, k < e.1) : find? k l = none := by
  induction l with
  | nil => rfl
  | cons a rest ih =>
    obtain ⟨k', v⟩ := a
    obtain ⟨hk, hrest⟩ := List.forall_mem_cons.mp h
    have hne : k' ≠ k := by
      rintro rfl
      exact String.lt_irrefl _ hk
    rw [find?, if_neg hne, ih hrest]

/-- A first key that both lists know is not below the other list's first key. -/
theorem not_lt_of_find?_eq {a b : String × α} (hb : ∀ e ∈ l', b.1 < e.1)
    (hf : find? a.1 (a :: l) = find? a.1 (b :: l')) : ¬ a.1 < b.1 := by
  intro hlt
  have hnone : find? a.1 (b :: l') = none := by
    apply find?_eq_none_of_lt
    intro e he
    rcases List.mem_cons.mp he with rfl | he
    · exact hlt
    · exact String.lt_trans hlt (hb e he)
  rw [hnone] at hf
  simp [find?] at hf

/-- Sorted lists with the same entries are equal. -/
theorem Sorted.eq_of_find? (h : Sorted l) (h' : Sorted l') (hf : ∀ k, find? k l = find? k l') :
    l = l' := by
  induction l generalizing l' with
  | nil =>
    cases l' with
    | nil => rfl
    | cons b rest' => simpa [find?] using hf b.1
  | cons a rest ih =>
    cases l' with
    | nil => simpa [find?] using hf a.1
    | cons b rest' =>
      obtain ⟨ha, hrest⟩ := List.pairwise_cons.mp h
      obtain ⟨hb, hrest'⟩ := List.pairwise_cons.mp h'
      have hkey : a.1 = b.1 := by
        have h₁ := not_lt_of_find?_eq hb (hf a.1)
        have h₂ := not_lt_of_find?_eq ha (hf b.1).symm
        exact String.le_antisymm h₂ h₁
      have hvalue : a.2 = b.2 := by simpa [find?, hkey] using hf a.1
      obtain rfl : a = b := Prod.ext hkey hvalue
      congr 1
      apply ih hrest hrest'
      intro k
      by_cases hk : a.1 = k
      · subst hk
        rw [find?_eq_none_of_lt ha, find?_eq_none_of_lt hb]
      · simpa [find?, hk] using hf k

end

end Assoc

/-- A finite map from text keys. -/
structure Table (α : Type) where
  entries : List (String × α)
  sorted : Assoc.Sorted entries

namespace Table
variable {α β : Type}

def empty : Table α := ⟨[], List.Pairwise.nil⟩

instance : Inhabited (Table α) := ⟨empty⟩

@[ext] theorem ext {s t : Table α} (h : s.entries = t.entries) : s = t := by
  cases s; cases t; cases h; rfl

instance [DecidableEq α] : DecidableEq (Table α) := fun s t =>
  if h : s.entries = t.entries then isTrue (ext h) else isFalse fun e => h (e ▸ rfl)

def find? (t : Table α) (key : String) : Option α := Assoc.find? key t.entries

def contains (t : Table α) (key : String) : Bool := (t.find? key).isSome

def insert (t : Table α) (key : String) (value : α) : Table α :=
  ⟨Assoc.insert key value t.entries, Assoc.sorted_insert t.sorted⟩

def erase (t : Table α) (key : String) : Table α :=
  ⟨Assoc.erase key t.entries, Assoc.sorted_erase t.sorted⟩

/-- The last of several values under one key stays. -/
def ofList (l : List (String × α)) : Table α := ⟨Assoc.ofList l, Assoc.sorted_ofList l⟩

/-- The entries of the second table win. -/
def merge (s t : Table α) : Table α := t.entries.foldl (fun acc e => acc.insert e.1 e.2) s

def size (t : Table α) : Nat := t.entries.length

def isEmpty (t : Table α) : Bool := t.entries.isEmpty

theorem find?_insert (t : Table α) (key : String) (value : α) (k : String) :
    (t.insert key value).find? k = if k = key then some value else t.find? k :=
  Assoc.find?_insert key value t.entries k

theorem find?_erase (t : Table α) (key k : String) :
    (t.erase key).find? k = if k = key then none else t.find? k :=
  Assoc.find?_erase key t.entries k

theorem ext_find? {s t : Table α} (h : ∀ k, s.find? k = t.find? k) : s = t :=
  ext (s.sorted.eq_of_find? t.sorted h)

end Table

end Workflow
