import Workflow.Json.Shape.Reader
import Workflow.Proofs.Json.Reads

/-! Forms are read from text as they are decoded from the value that the text reads as. -/
namespace Workflow.Json

section Gives
variable {α β : Type} {scan : Except Failure (α × List Char)} {r r' : List Char}
  {P Q : α → Prop}

/-- The reader has exactly these results, and leaves this whatever the result. -/
def Gives (scan : Except Failure (α × List Char)) (r : List Char) (P : α → Prop) : Prop :=
  ∀ x r', scan = .ok (x, r') ↔ r' = r ∧ P x

theorem Gives.congr (h : Gives scan r P) (hP : ∀ x, P x ↔ Q x) : Gives scan r Q := by
  intro x r'
  rw [h x r', hP x]

theorem gives_ok (a : α) (r : List Char) : Gives (.ok (a, r)) r (· = a) := by
  intro x r'
  constructor
  · intro h
    cases h
    exact ⟨rfl, rfl⟩
  · rintro ⟨rfl, rfl⟩
    rfl

theorem gives_decoded {ε : Type} {e : Except ε α} {a : α} (h : e = .ok a) (r : List Char) :
    Gives (.ok (a, r)) r (fun x => e = .ok x) :=
  (gives_ok a r).congr fun _ => ⟨fun hx => hx ▸ h, fun hx => Except.ok.inj (hx.symm.trans h)⟩

theorem gives_nothing (h : ∀ x, scan ≠ .ok x) (hP : ∀ x, ¬ P x) : Gives scan r P :=
  fun x r' => ⟨fun hx => absurd hx (h (x, r')), fun hx => absurd hx.2 (hP x)⟩

theorem gives_error {e : Failure} (hP : ∀ x, ¬ P x) : Gives (.error e) r P :=
  gives_nothing nofun hP

theorem Gives.bind {next : α × List Char → Except Failure (β × List Char)}
    {R : α → β → Prop} (h : Gives scan r P)
    (hnext : ∀ x, P x → Gives (next (x, r)) r' (R x)) :
    Gives (scan >>= next) r' (fun y => ∃ x, P x ∧ R x y) := by
  intro y t
  rw [bind_eq_ok_iff]
  constructor
  · rintro ⟨⟨x, r₁⟩, hx, hy⟩
    obtain ⟨rfl, hP⟩ := (h x r₁).mp hx
    obtain ⟨rfl, hR⟩ := (hnext x hP y t).mp hy
    exact ⟨rfl, x, hP, hR⟩
  · rintro ⟨rfl, x, hP, hR⟩
    exact ⟨(x, r), (h x r).mpr ⟨rfl, hP⟩, (hnext x hP y t).mpr ⟨rfl, hR⟩⟩

/-- A mismatch is noticed once what was read is known, wherever it is then said to be. -/
theorem gives_fitting_bind {e : Except Mismatch α} {rest : List Char}
    {next : α → Except Failure (β × List Char)} {R : α → β → Prop}
    (hnext : ∀ x, e = .ok x → Gives (next x) r (R x)) :
    Gives (fitting e rest >>= next) r (fun y => ∃ x, e = .ok x ∧ R x y) := by
  intro y r'
  rw [bind_eq_ok_iff]
  constructor
  · rintro ⟨x, hx, hy⟩
    have he := mapError_eq_ok_iff.mp hx
    obtain ⟨rfl, hR⟩ := (hnext x he y r').mp hy
    exact ⟨rfl, x, he, hR⟩
  · rintro ⟨rfl, x, he, hR⟩
    exact ⟨x, mapError_eq_ok_iff.mpr he, (hnext x he y r').mpr ⟨rfl, hR⟩⟩

theorem gives_fitting (e : Except Mismatch α) (r : List Char) :
    Gives (fitting e r >>= fun x => .ok (x, r)) r (fun x => e = .ok x) :=
  (gives_fitting_bind fun x _ => gives_ok x r).congr fun _ => by simp

theorem wrongType_ne_ok (expected : String) (s : List Char) (x : α × List Char) :
    wrongType expected s ≠ .ok x := by
  unfold wrongType
  intro h
  split at h
  · cases h
  split at h
  · cases h
  split at h
  · cases h
  · obtain ⟨v, -, h⟩ := bind_eq_ok_iff.mp h
    cases h

end Gives

variable {s r t : List Char} {u : Json} {d : Nat}

section Depth

theorem depth_canonical (h : u.Distinct) : u.canonical.depth = u.depth := by
  apply Nat.le_antisymm (depth_canonical_le u)
  induction u using nested with
  | null | bool | num | str => exact Nat.le_refl _
  | arr vs ih =>
    simp only [canonical, depth]
    apply Nat.succ_le_succ
    rw [depthItems_le_iff, canonicalItems_eq_map]
    intro v hmem
    have hle := ih v hmem ((all_arr.mp h).2 v hmem)
    exact Nat.le_trans hle (depthItems_le_iff.mp (Nat.le_refl _) _ (List.mem_map_of_mem hmem))
  | obj ms ih =>
    obtain ⟨hkeys, hall⟩ := all_obj.mp h
    simp only [canonical, object, depth]
    apply Nat.succ_le_succ
    rw [depthMembers_le_iff]
    intro m hmem
    have hkept : (m.1, m.2.canonical) ∈ Assoc.ofList (canonicalMembers ms) := by
      rw [(Assoc.ofList_perm (distinct_canonicalMembers hkeys)).mem_iff, canonicalMembers_eq_map]
      exact List.mem_map_of_mem hmem
    exact Nat.le_trans (ih m hmem (hall m hmem)) (depthMembers_le_iff.mp (Nat.le_refl _) _ hkept)

end Depth

section Heads

theorem Reads.null_head (h : Reads (.value .null) s r) : ∃ t, skipBlanks s = 'n' :: t := by
  cases h with
  | scalar h =>
    obtain ⟨c, t, hs, hscalar⟩ := scalar_of_valueWith h
    cases hscalar
    exact ⟨t, hs⟩

theorem Reads.text_head {k : String} (h : Reads (.value (.str k)) s r) :
    ∃ t, skipBlanks s = '"' :: t := by
  cases h with
  | scalar h =>
    obtain ⟨c, t, hs, hscalar⟩ := scalar_of_valueWith h
    cases hscalar
    exact ⟨t, hs⟩

theorem Reads.list_head {vs : List Json} (h : Reads (.value (.arr vs)) s r) :
    ∃ t, skipBlanks s = '[' :: t := by
  cases h with
  | scalar h => cases depth_of_scalar h
  | list h => exact ⟨_, h⟩

theorem Reads.object_head {ms : List (String × Json)} (h : Reads (.value (.obj ms)) s r) :
    ∃ t, skipBlanks s = '\x7b' :: t := by
  cases h with
  | scalar h => cases depth_of_scalar h
  | object h => exact ⟨_, h⟩

/-- Null is read from its own word only. -/
theorem Reads.eq_null (h : Reads (.value u) s r) (hs : skipBlanks s = 'n' :: t) :
    u = .null ∧ ident ['u', 'l', 'l'] t = .ok r := by
  cases h with
  | scalar h =>
    obtain ⟨c, t', hs', hscalar⟩ := scalar_of_valueWith h
    cases hs.symm.trans hs'
    cases hscalar with
    | null h => exact ⟨rfl, h⟩
    | digit hc => cases hc
  | list h => cases hs.symm.trans h
  | object h => cases hs.symm.trans h

theorem Reads.eq_text (h : Reads (.value u) s r) (hs : skipBlanks s = '"' :: t) :
    ∃ k, u = .str k ∧ text t = .ok (k, r) := by
  cases h with
  | scalar h =>
    obtain ⟨c, t', hs', hscalar⟩ := scalar_of_valueWith h
    cases hs.symm.trans hs'
    cases hscalar with
    | text h => exact ⟨_, rfl, h⟩
    | digit hc => cases hc
  | list h => cases hs.symm.trans h
  | object h => cases hs.symm.trans h

theorem Reads.eq_list (h : Reads (.value u) s r) (hs : skipBlanks s = '[' :: t) :
    ∃ vs, u = .arr vs ∧ Reads (.items true vs) t r := by
  cases h with
  | scalar h =>
    obtain ⟨c, t', hs', hscalar⟩ := scalar_of_valueWith h
    cases hs.symm.trans hs'
    exact absurd rfl hscalar.ne_bracket.1
  | list h hvs =>
    cases hs.symm.trans h
    exact ⟨_, rfl, hvs⟩
  | object h => cases hs.symm.trans h

theorem Reads.eq_object (h : Reads (.value u) s r) (hs : skipBlanks s = '\x7b' :: t) :
    ∃ ms, u = .obj ms ∧ Reads (.members true ms) t r := by
  cases h with
  | scalar h =>
    obtain ⟨c, t', hs', hscalar⟩ := scalar_of_valueWith h
    cases hs.symm.trans hs'
    exact absurd rfl hscalar.ne_bracket.2
  | list h => cases hs.symm.trans h
  | object h hms =>
    cases hs.symm.trans h
    exact ⟨_, rfl, hms⟩

end Heads

section Leaf
variable {leaf : Leaf} {x : Json}

/-- Only scalars are leaves. -/
theorem Leaf.depth_of_decode (h : leaf.decode u = .ok x) : u.depth = 0 := by
  cases u with
  | arr vs | obj ms => cases leaf <;> cases h
  | _ => rfl

theorem Leaf.gives_read (leaf : Leaf) (h : Reads (.value u) s r) :
    Gives (leaf.read s) r (fun x => leaf.decode u.canonical = .ok x) := by
  cases h with
  | scalar h =>
    obtain ⟨c, t, hs, hscalar⟩ := scalar_of_valueWith h
    obtain ⟨hlist, hobject⟩ := hscalar.ne_bracket
    rw [← valueWith_skipBlanks, hs] at h
    simp only [read, hs, hlist, hobject, or_self, if_false, h, canonical_of_scalar hscalar.depth_eq]
    exact gives_fitting (leaf.decode u) r
  | list h =>
    simp only [read, h, true_or, if_true]
    exact gives_nothing (wrongType_ne_ok _ _) fun x hx => by
      simpa [canonical, depth] using depth_of_decode hx
  | object h =>
    simp only [read, h, or_true, if_true]
    exact gives_nothing (wrongType_ne_ok _ _) fun x hx => by
      simpa [canonical, object, depth] using depth_of_decode hx

end Leaf

section Depth
variable {form : Form} {names : List String} {x : Json}

theorem decodeTexts_eq_ok_iff {ms xs : List (String × Json)} :
    Form.decodeTexts ms = .ok xs ↔ xs = ms ∧ ∀ m ∈ ms, ∃ k, m.2 = .str k := by
  induction ms generalizing xs with
  | nil => simp [Form.decodeTexts, eq_comm]
  | cons m ms ih =>
    obtain ⟨k, v⟩ := m
    rw [Form.decodeTexts, bind_eq_ok_iff]
    cases v with
    | str s =>
      constructor
      · rintro ⟨y, hy, h⟩
        cases hy
        obtain ⟨ys, hys, h⟩ := bind_eq_ok_iff.mp h
        cases h
        obtain ⟨rfl, hall⟩ := ih.mp hys
        exact ⟨rfl, List.forall_mem_cons.mpr ⟨⟨s, rfl⟩, hall⟩⟩
      · rintro ⟨rfl, hall⟩
        exact ⟨_, rfl, bind_eq_ok_iff.mpr
          ⟨ms, ih.mpr ⟨rfl, (List.forall_mem_cons.mp hall).2⟩, rfl⟩⟩
    | _ =>
      constructor
      · rintro ⟨y, hy, -⟩
        cases hy
      · rintro ⟨-, hall⟩
        obtain ⟨s, hs⟩ := hall _ List.mem_cons_self
        cases hs

theorem mapM_cons_eq_ok_iff {ε α β : Type} {f : α → Except ε β} {a : α} {as : List α}
    {bs : List β} :
    (a :: as).mapM f = .ok bs ↔
      ∃ b, f a = .ok b ∧ ∃ bs', as.mapM f = .ok bs' ∧ bs = b :: bs' := by
  rw [List.mapM_cons, bind_eq_ok_iff]
  exact exists_congr fun b => and_congr_right fun _ => bind_ok_eq_ok_iff

theorem mem_of_mapM {ε α β : Type} {f : α → Except ε β} {as : List α} {bs : List β}
    (h : as.mapM f = .ok bs) : ∀ a ∈ as, ∃ b, f a = .ok b := by
  induction as generalizing bs with
  | nil => exact nofun
  | cons a as ih =>
    obtain ⟨b, hb, bs', hbs, -⟩ := mapM_cons_eq_ok_iff.mp h
    exact List.forall_mem_cons.mpr ⟨⟨b, hb⟩, ih hbs⟩

theorem decode_choice_of_length {ms : List (String × Json)} (h : ms.length ≠ 1) :
    (Form.choice names).decode (.obj ms) ≠ .ok x := by
  match ms with
  | [] => exact nofun
  | [m] => exact absurd rfl h
  | _ :: _ :: _ => exact nofun

theorem decode_choice_of_ne_null {k : String} {v : Json} (h : v ≠ .null) :
    (Form.choice names).decode (.obj [(k, v)]) ≠ .ok x := by
  intro hx
  obtain ⟨name, -, hx⟩ := bind_eq_ok_iff.mp hx
  cases v with
  | null => exact h rfl
  | _ => cases hx

/-- Every form but the most general one is of scalars, or of one level above them. -/
theorem Form.depth_of_decode (hform : form ≠ .any) (h : form.decode u = .ok x) :
    u.depth ≤ 1 := by
  have scalar {l : Leaf} {v y : Json} (hv : l.decode v = .ok y) : v.depth ≤ 1 := by
    rw [Leaf.depth_of_decode hv]
    exact Nat.zero_le 1
  cases form with
  | any => exact absurd rfl hform
  | leaf l => exact scalar h
  | optional l =>
    cases u with
    | null => exact Nat.zero_le 1
    | _ => exact scalar h
  | choice names =>
    cases u with
    | obj ms =>
      match ms with
      | [] => cases h
      | [(k, v)] =>
        by_cases hv : v = .null
        · subst hv
          exact Nat.le_refl 1
        · exact absurd h (decode_choice_of_ne_null hv)
      | _ :: _ :: _ => cases h
    | arr vs => cases h
    | _ => exact Nat.zero_le 1
  | list l =>
    cases u with
    | arr vs =>
      obtain ⟨xs, hxs, -⟩ := map_eq_ok_iff.mp h
      refine Nat.succ_le_succ (depthItems_le_iff.mpr fun v hv => ?_)
      obtain ⟨y, hy⟩ := mem_of_mapM hxs v hv
      exact Nat.le_of_eq (Leaf.depth_of_decode hy)
    | obj ms => cases h
    | _ => exact Nat.zero_le 1
  | texts =>
    cases u with
    | obj ms =>
      obtain ⟨xs, hxs, -⟩ := map_eq_ok_iff.mp h
      refine Nat.succ_le_succ (depthMembers_le_iff.mpr fun m hm => ?_)
      obtain ⟨k, hk⟩ := (decodeTexts_eq_ok_iff.mp hxs).2 m hm
      rw [hk]
      exact Nat.le_refl 0
    | arr vs => cases h
    | _ => exact Nat.zero_le 1

end Depth

section Choice
variable {names : List String} {x : Json}

theorem gives_text {k : String} (h : text t = .ok (k, r)) : Gives (readName names t) r
    (fun x => Form.pick names k = .ok x) := by
  rw [readName, h]
  exact gives_fitting (Form.pick names k) r

theorem canonical_eq_null (h : u.canonical = .null) : u = .null := by
  cases u with
  | null => rfl
  | _ => cases h

theorem length_canonical_obj {ms : List (String × Json)} (h : Assoc.Distinct ms) :
    (Assoc.ofList (canonicalMembers ms)).length = ms.length := by
  rw [(Assoc.ofList_perm (distinct_canonicalMembers h)).length_eq, canonicalMembers_eq_map,
    List.length_map]

/-- The null behind a name, and the brace if nothing else follows. -/
theorem gives_readUnitEnd {v name : Json} {ms : List (String × Json)} {r₁ : List Char}
    (hv : Reads (.value v) s r₁) (hms : Reads (.members false ms) r₁ r) :
    Gives (readUnitEnd name s) r (fun x => v = .null ∧ ms = [] ∧ x = name) := by
  unfold readUnitEnd
  split
  next t hs =>
    obtain ⟨rfl, hident⟩ := hv.eq_null hs
    rw [hident]
    cases hms with
    | membersEnd h =>
      obtain ⟨t', hbrace, rfl⟩ := nextKey_end h
      simp only [bind, Except.bind, hbrace, if_true]
      exact (gives_ok name t').congr (by simp)
    | member h =>
      obtain ⟨u, hcomma, -⟩ := nextKey_later h
      simp only [bind, Except.bind, hcomma, Char.reduceEq, if_false]
      exact gives_error (by simp)
  next hs =>
    refine gives_nothing (wrongType_ne_ok _ _) ?_
    rintro x ⟨rfl, -, -⟩
    obtain ⟨t, ht⟩ := hv.null_head
    exact hs t ht

theorem gives_readUnit {ms : List (String × Json)} (h : Reads (.members true ms) t r)
    (hkeys : Assoc.Distinct ms) :
    Gives (readUnit names t) r (fun x =>
      (Form.choice names).decode (Json.obj ms).canonical = .ok x) := by
  cases h with
  | membersEnd h =>
    obtain ⟨t', hs, rfl⟩ := nextKey_end h
    simp only [readUnit, hs, Char.reduceEq, if_false, if_true]
    exact gives_error fun x => decode_choice_of_length (by decide)
  | @member _ k v ms _ r₁ r₂ r₃ r₄ _ hquote hk hc hv hms =>
    simp only [readUnit, nextKey_first hquote, if_true]
    have hname : Gives (readName names r₁) r₂ (fun x => Form.pick names k = .ok x) :=
      gives_text hk
    have hend (name : Json) : Gives (colon r₂ >>= readUnitEnd name) r
        (fun x => v = .null ∧ ms = [] ∧ x = name) := by
      rw [hc]
      exact gives_readUnitEnd hv hms
    refine (hname.bind fun name _ => hend name).congr fun x => ?_
    constructor
    · rintro ⟨name, hpick, rfl, rfl, rfl⟩
      exact bind_eq_ok_iff.mpr ⟨x, hpick, rfl⟩
    · intro hx
      cases ms with
      | cons m ms =>
        refine absurd hx (decode_choice_of_length ?_)
        rw [length_canonical_obj hkeys, List.length_cons, List.length_cons]
        omega
      | nil =>
        by_cases hnull : v = .null
        · subst hnull
          obtain ⟨name, hpick, hx⟩ := bind_eq_ok_iff.mp hx
          cases hx
          exact ⟨x, hpick, rfl, rfl, rfl⟩
        · exact absurd hx (decode_choice_of_ne_null (mt canonical_eq_null hnull))

theorem gives_choice (names : List String) (h : Reads (.value u) s r) (hkeys : u.Distinct) :
    Gives ((Form.choice names).read d s) r
      (fun x => u.depth ≤ d ∧ (Form.choice names).decode u.canonical = .ok x) := by
  cases h with
  | scalar h =>
    obtain ⟨c, t, hs, hscalar⟩ := scalar_of_valueWith h
    have hdepth := hscalar.depth_eq
    simp only [Form.read, hs, hscalar.ne_bracket.2, if_false, hdepth, Nat.zero_le, true_and]
    rw [canonical_of_scalar hdepth]
    cases hscalar with
    | text h =>
      simp only [if_true]
      exact gives_text h
    | digit hc =>
      simp only [ne_of_isDigit hc (d := '"') (by decide), if_false]
      exact gives_error nofun
    | _ =>
      simp only [Char.reduceEq, if_false]
      exact gives_error nofun
  | list h =>
    simp only [Form.read, h, Char.reduceEq, if_false]
    exact gives_error fun x hx => by cases hx.2
  | @object ms _ t _ h hms =>
    simp only [Form.read, h, Char.reduceEq, if_false, if_true]
    split
    next hd =>
      refine gives_error fun x hx => ?_
      simp [depth, hd] at hx
    next hd =>
      refine (gives_readUnit hms (all_obj.mp hkeys).1).congr fun x => ?_
      refine ⟨fun hx => ⟨?_, hx⟩, And.right⟩
      have hle := Form.depth_of_decode (by simp) hx
      rw [depth_canonical hkeys] at hle
      omega

end Choice

section Containers
variable {count : List Char} {first : Bool}

/-- The items of a list are read as they are decoded. -/
theorem gives_items (leaf : Leaf) {vs : List Json} (h : Reads (.items first vs) s r)
    (hcount : s.length ≤ count.length) :
    Gives (items leaf.read count first s) r
      (fun xs => (canonicalItems vs).mapM leaf.decode = .ok xs) := by
  have hlt := h.length_lt
  obtain ⟨y, count, rfl⟩ := List.exists_cons_of_length_pos (l := count) (by omega)
  simp only [List.length_cons] at hcount
  induction vs generalizing first s y count with
  | nil =>
    cases h with
    | @itemsEnd _ _ r h =>
      rw [items, h]
      exact gives_decoded rfl (r.drop 1)
  | cons v vs ih =>
    cases h with
    | @item _ _ _ _ r₁ r₂ _ h hv hs =>
      have := length_of_nextItem h
      have := hv.length_lt
      have := hs.length_lt
      obtain ⟨y', count, rfl⟩ := List.exists_cons_of_length_pos (l := count) (by omega)
      simp only [List.length_cons] at hcount
      have hrest := ih hs hs.length_lt y' count (by omega)
      rw [items, h]
      refine ((leaf.gives_read hv).bind fun x _ =>
        hrest.bind fun xs _ => gives_ok (x :: xs) r).congr fun xs => ?_
      rw [canonicalItems, mapM_cons_eq_ok_iff]

theorem gives_members {ms : List (String × Json)} (h : Reads (.members first ms) s r)
    (hcount : s.length ≤ count.length) :
    Gives (members Leaf.text.read count first s) r
      (fun xs => Form.decodeTexts (canonicalMembers ms) = .ok xs) := by
  have hlt := h.length_lt
  obtain ⟨y, count, rfl⟩ := List.exists_cons_of_length_pos (l := count) (by omega)
  simp only [List.length_cons] at hcount
  induction ms generalizing first s y count with
  | nil =>
    cases h with
    | @membersEnd _ _ r h =>
      rw [members, h]
      exact gives_decoded rfl (r.drop 1)
  | cons m ms ih =>
    cases h with
    | @member _ k v _ _ r₁ r₂ r₃ r₄ _ h hk hc hv hs =>
      have := length_of_nextKey h
      have := consumes_text _ _ _ hk
      have := length_of_skipBlanks (skipBlanks_of_colon hc)
      have := hv.length_lt
      have := hs.length_lt
      obtain ⟨y', count, rfl⟩ := List.exists_cons_of_length_pos (l := count) (by omega)
      simp only [List.length_cons] at hcount
      have hrest := ih hs hs.length_lt y' count (by omega)
      rw [members, h]
      simp only [bind, Except.bind, if_true, hk, hc]
      refine ((Leaf.text.gives_read hv).bind fun x _ => hrest.bind fun xs _ =>
        gives_ok ((k, x) :: xs) r).congr fun xs => ?_
      rw [canonicalMembers, Form.decodeTexts, bind_eq_ok_iff]
      exact exists_congr fun x => and_congr_right fun _ => bind_ok_eq_ok_iff.symm

end Containers

/-- The value of a text is decoded, if it is not nested too deep. -/
theorem gives_value (h : Reads (.value u) s r) (hkeys : u.Distinct) :
    Gives (value d s) r (fun x => u.depth ≤ d ∧ x = u.canonical) := by
  intro x r'
  constructor
  · intro hx
    obtain ⟨hcanonical, hrest, hdepth⟩ := h.of_value hx
    exact ⟨hrest, depth_canonical hkeys ▸ hdepth, hcanonical⟩
  · rintro ⟨rfl, hd, rfl⟩
    exact h.kept d hd

theorem decode_optional {l : Leaf} (h : u ≠ .null) : (Form.optional l).decode u = l.decode u := by
  cases u with
  | null => exact absurd rfl h
  | _ => rfl

theorem Form.gives_read (form : Form) (h : Reads (.value u) s r) (hkeys : u.Distinct) :
    Gives (form.read d s) r (fun x => u.depth ≤ d ∧ form.decode u.canonical = .ok x) := by
  -- what is nested deeper than the form allows is refused, whatever the limit
  have shallow {x : Json} (hform : form ≠ .any) (hx : form.decode u.canonical = .ok x) :
      u.depth ≤ 1 := by
    rw [← depth_canonical hkeys]
    exact depth_of_decode hform hx
  cases form with
  | any =>
    refine (gives_value h hkeys).congr fun x => and_congr_right fun _ => ?_
    exact ⟨fun hx => congrArg Except.ok hx.symm, fun hx => (Except.ok.inj hx).symm⟩
  | leaf l =>
    refine (l.gives_read h).congr fun x => ⟨fun hx => ⟨?_, hx⟩, And.right⟩
    rw [← depth_canonical hkeys, Leaf.depth_of_decode hx]
    exact Nat.zero_le d
  | choice names => exact gives_choice names h hkeys
  | optional l =>
    simp only [read]
    split
    next t hs =>
      obtain ⟨rfl, hident⟩ := h.eq_null hs
      rw [hident]
      exact (gives_decoded rfl r).congr fun x => (and_iff_right (Nat.zero_le d)).symm
    next hs =>
      have hnull : u.canonical ≠ .null := by
        intro hnull
        obtain rfl := canonical_eq_null hnull
        obtain ⟨t, ht⟩ := h.null_head
        exact hs t ht
      refine (l.gives_read h).congr fun x => ?_
      rw [decode_optional hnull]
      refine ⟨fun hx => ⟨?_, hx⟩, And.right⟩
      rw [← depth_canonical hkeys, Leaf.depth_of_decode hx]
      exact Nat.zero_le d
  | list l =>
    simp only [read]
    split
    next t hs =>
      obtain ⟨vs, rfl, hvs⟩ := h.eq_list hs
      split
      next hd => exact gives_error fun x hx => by simp [depth, hd] at hx
      next hd =>
        refine ((gives_items l hvs (Nat.le_refl _)).bind fun xs _ =>
          gives_ok (Json.arr xs) r).congr fun x => ?_
        rw [canonical, decode, map_eq_ok_iff]
        constructor
        · rintro ⟨xs, hxs, rfl⟩
          have := shallow (by simp) (map_eq_ok_iff.mpr ⟨xs, hxs, rfl⟩)
          exact ⟨by omega, xs, hxs, rfl⟩
        · rintro ⟨-, xs, hxs, rfl⟩
          exact ⟨xs, hxs, rfl⟩
    next hs =>
      refine gives_nothing (wrongType_ne_ok _ _) ?_
      rintro x ⟨-, hx⟩
      cases u with
      | arr vs =>
        obtain ⟨t, ht⟩ := h.list_head
        exact hs t ht
      | _ => cases hx
  | texts =>
    simp only [read]
    split
    next t hs =>
      obtain ⟨ms, rfl, hms⟩ := h.eq_object hs
      split
      next hd => exact gives_error fun x hx => by simp [depth, hd] at hx
      next hd =>
        refine ((gives_members hms (Nat.le_refl _)).bind fun xs _ =>
          gives_ok (object xs) r).congr fun x => ?_
        rw [canonical, object, decode, map_eq_ok_iff]
        -- sorting keeps the members, so both lists hold texts only or neither does
        have hsame : (∀ m ∈ Assoc.ofList (canonicalMembers ms), ∃ k, m.2 = .str k) ↔
            ∀ m ∈ canonicalMembers ms, ∃ k, m.2 = .str k := by
          have hperm := Assoc.ofList_perm (distinct_canonicalMembers (all_obj.mp hkeys).1)
          simp only [hperm.mem_iff]
        simp only [decodeTexts_eq_ok_iff, hsame]
        constructor
        · rintro ⟨xs, ⟨rfl, htexts⟩, rfl⟩
          have :=
            shallow (by simp) (map_eq_ok_iff.mpr
              ⟨_, decodeTexts_eq_ok_iff.mpr ⟨rfl, hsame.mpr htexts⟩, rfl⟩)
          exact ⟨by omega, _, ⟨rfl, htexts⟩, rfl⟩
        · rintro ⟨-, xs, ⟨rfl, htexts⟩, rfl⟩
          exact ⟨_, ⟨rfl, htexts⟩, rfl⟩
    next hs =>
      refine gives_nothing (wrongType_ne_ok _ _) ?_
      rintro x ⟨-, hx⟩
      cases u with
      | obj ms =>
        obtain ⟨t, ht⟩ := h.object_head
        exact hs t ht
      | _ => cases hx

end Workflow.Json
