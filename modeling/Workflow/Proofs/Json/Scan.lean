import Workflow.Json.Reader
import Workflow.Proofs.Json.Canonical

/-! The readers of the single parts of a text: what they accept, and
that they consume what they accept. -/
namespace Workflow

theorem ok_bind {ε α β : Type} (a : α) (f : α → Except ε β) : (Except.ok a >>= f) = f a :=
  rfl

theorem bind_eq_ok_iff {ε α β : Type} {x : Except ε α} {f : α → Except ε β} {b : β} :
    x >>= f = .ok b ↔ ∃ a, x = .ok a ∧ f a = .ok b := by
  cases x with
  | error e => exact ⟨nofun, nofun⟩
  | ok a =>
    constructor
    · exact fun h => ⟨a, rfl, h⟩
    · rintro ⟨a, ⟨⟩, h⟩
      exact h

theorem bind_ok_eq_ok_iff {ε α β : Type} {x : Except ε α} {f : α → β} {b : β} :
    (x >>= fun a => .ok (f a)) = .ok b ↔ ∃ a, x = .ok a ∧ b = f a := by
  rw [bind_eq_ok_iff]
  refine exists_congr fun a => and_congr_right fun _ => ?_
  exact ⟨fun h => (Except.ok.inj h).symm, fun h => congrArg Except.ok h.symm⟩

theorem map_eq_ok_iff {ε α β : Type} {x : Except ε α} {f : α → β} {b : β} :
    x.map f = .ok b ↔ ∃ a, x = .ok a ∧ f a = b := by
  cases x <;> simp [Except.map]

theorem mapError_eq_ok_iff {ε ε' α : Type} {x : Except ε α} {f : ε → ε'} {a : α} :
    x.mapError f = .ok a ↔ x = .ok a := by
  cases x with
  | ok b =>
    change Except.ok b = Except.ok a ↔ _
    rw [Except.ok.injEq, Except.ok.injEq]
  | error e =>
    constructor
    · intro h
      cases h
    · intro h
      cases h

namespace Json
variable {s r : List Char}

section Blanks

theorem length_skipBlanks_le (s : List Char) : (skipBlanks s).length ≤ s.length :=
  (List.dropWhile_suffix isBlank).length_le

theorem skipBlanks_of_not_isBlank {c : Char} (h : isBlank c = false) (r : List Char) :
    skipBlanks (c :: r) = c :: r := by
  simp [skipBlanks, h]

theorem not_isBlank_of_skipBlanks {c : Char} (h : skipBlanks s = c :: r) : isBlank c = false := by
  induction s with
  | nil => cases h
  | cons d s ih =>
    by_cases hd : isBlank d = true
    · exact ih (by simpa [skipBlanks, hd] using h)
    · simp only [skipBlanks, List.dropWhile_cons, hd] at h
      cases h
      simpa using hd

/-- After the blanks there are no more. -/
theorem skipBlanks_skipBlanks (s : List Char) : skipBlanks (skipBlanks s) = skipBlanks s := by
  cases h : skipBlanks s with
  | nil => rfl
  | cons c r => exact skipBlanks_of_not_isBlank (not_isBlank_of_skipBlanks h) r

theorem length_of_skipBlanks {c : Char} (h : skipBlanks s = c :: r) : r.length < s.length := by
  have := length_skipBlanks_le s
  rw [h, List.length_cons] at this
  omega

end Blanks

section Consumption

/-- What the reader accepts has at least one character. -/
def Consumes {α : Type} (scan : Scan α) : Prop :=
  ∀ s a r, scan s = .ok (a, r) → r.length < s.length

theorem length_of_ident {es : List Char} (h : ident es s = .ok r) : r.length ≤ s.length := by
  induction es generalizing s with
  | nil =>
    cases h
    exact Nat.le_refl _
  | cons e es ih =>
    cases s with
    | nil => cases h
    | cons c s =>
      simp only [ident] at h
      split at h
      · exact Nat.le_succ_of_le (ih h)
      · cases h

theorem consumes_hexCode : Consumes hexCode := by
  intro s n r h
  unfold hexCode at h
  split at h
  next a b c d t =>
    split at h
    · cases h
      simp only [List.length_cons]
      omega
    · cases h
  next => split at h <;> cases h

theorem consumes_lowSurrogate (high : Nat) : Consumes (lowSurrogate high) := by
  intro s c r h
  unfold lowSurrogate at h
  split at h
  · cases h
  · cases h
  next t =>
    obtain ⟨⟨low, t'⟩, hcode, h⟩ := bind_eq_ok_iff.mp h
    have hlt := consumes_hexCode _ _ _ hcode
    simp only at h
    split at h
    · obtain ⟨-, rfl⟩ := Prod.mk.inj (Except.ok.inj h)
      simp only [List.length_cons]
      omega
    · cases h
  · cases h
  · cases h

/-- A choice has taken one of its ways. -/
theorem ite_cases {α : Type} {p : Prop} [Decidable p] {a b c : α} (h : (if p then a else b) = c) :
    p ∧ a = c ∨ ¬ p ∧ b = c := by
  by_cases hp : p
  · exact .inl ⟨hp, (if_pos hp).symm.trans h⟩
  · exact .inr ⟨hp, (if_neg hp).symm.trans h⟩

theorem consumes_escape : Consumes escape := by
  intro s c r h
  unfold escape at h
  split at h
  · cases h
  next x t =>
    have one {y : Char} (h : (.ok (y, t) : Except Failure (Char × List Char)) = .ok (c, r)) :
        r.length < (x :: t).length := by
      cases h
      exact Nat.lt_succ_self _
    obtain ⟨-, h⟩ | ⟨-, h⟩ := ite_cases h
    · exact one h
    obtain ⟨-, h⟩ | ⟨-, h⟩ := ite_cases h
    · exact one h
    obtain ⟨-, h⟩ | ⟨-, h⟩ := ite_cases h
    · exact one h
    obtain ⟨-, h⟩ | ⟨-, h⟩ := ite_cases h
    · exact one h
    obtain ⟨-, h⟩ | ⟨-, h⟩ := ite_cases h
    · exact one h
    obtain ⟨-, h⟩ | ⟨-, h⟩ := ite_cases h
    · exact one h
    obtain ⟨-, h⟩ | ⟨-, h⟩ := ite_cases h
    · obtain ⟨⟨code, t'⟩, hcode, h⟩ := bind_eq_ok_iff.mp h
      have hlt := consumes_hexCode _ _ _ hcode
      simp only [List.length_cons]
      obtain ⟨-, h⟩ | ⟨-, h⟩ := ite_cases h
      · cases h
      obtain ⟨-, h⟩ | ⟨-, h⟩ := ite_cases h
      · have := consumes_lowSurrogate code _ _ _ h
        omega
      · cases h
        omega
    · cases h

theorem consumes_textBody (count : List Char) : Consumes (textBody count) := by
  induction count with
  | nil => exact nofun
  | cons _ count ih =>
    intro s cs r h
    unfold textBody at h
    split at h
    · cases h
    next c t =>
      split at h
      · cases h
        exact Nat.lt_succ_self _
      split at h
      · obtain ⟨⟨x, t₁⟩, hx, h⟩ := bind_eq_ok_iff.mp h
        obtain ⟨⟨xs, t₂⟩, hxs, h⟩ := bind_eq_ok_iff.mp h
        cases h
        have := consumes_escape _ _ _ hx
        have := ih _ _ _ hxs
        simp only [List.length_cons]
        omega
      split at h
      · cases h
      · obtain ⟨⟨xs, t₁⟩, hxs, h⟩ := bind_eq_ok_iff.mp h
        cases h
        have := ih _ _ _ hxs
        simp only [List.length_cons]
        omega

theorem consumes_text : Consumes text := by
  intro s t r h
  obtain ⟨⟨cs, r'⟩, hcs, h⟩ := bind_eq_ok_iff.mp h
  cases h
  exact consumes_textBody s _ _ _ hcs

variable {negative : Bool} {sig : Number.Significand} {n : Number}

theorem rest_of_float (h : float negative sig s = .ok (n, r)) : r = s := by
  unfold float at h
  split at h <;> cases h
  rfl

theorem rest_of_integer (h : integer negative sig s = .ok (n, r)) : r = s := by
  simp only [integer] at h
  generalize (if negative then -(sig.value : Int) else sig.value) = k at h
  split at h
  · cases h
    rfl
  · exact rest_of_float h

/-- Only digits are consumed, and at least one. -/
theorem length_dropWhile_isDigit {c : Char} (hc : c.isDigit = true) (s : List Char) :
    ((c :: s).dropWhile Char.isDigit).length < (c :: s).length := by
  rw [List.dropWhile_cons_of_pos hc]
  exact Nat.lt_succ_of_le (List.dropWhile_suffix Char.isDigit).length_le

theorem consumes_exponent : Consumes (exponent negative sig) := by
  intro s n r h
  unfold exponent at h
  simp only at h
  generalize hd : (if s.head? = some '+' ∨ s.head? = some '-' then s.drop 1 else s) = digits at h
  have hle : digits.length ≤ s.length := by
    rw [← hd]
    split
    · simp
    · exact Nat.le_refl _
  split at h
  · cases h
  next c t =>
    split at h
    next hc =>
      have hlt := length_dropWhile_isDigit hc t
      split at h
      · have := rest_of_float h
        subst this
        omega
      · split at h
        · cases h
        · have := rest_of_float h
          subst this
          omega
    · cases h

theorem length_of_scaled (h : scaled negative sig s = .ok (n, r)) : r.length ≤ s.length := by
  unfold scaled at h
  split at h
  · exact Nat.le_succ_of_le (Nat.le_of_lt (consumes_exponent _ _ _ h))
  · exact Nat.le_succ_of_le (Nat.le_of_lt (consumes_exponent _ _ _ h))
  · exact Nat.le_of_eq (congrArg List.length (rest_of_float h))

theorem consumes_fractional : Consumes (fractional negative sig) := by
  intro s n r h
  unfold fractional at h
  split at h
  · cases h
  next c t =>
    split at h
    next hc => exact Nat.lt_of_le_of_lt (length_of_scaled h) (length_dropWhile_isDigit hc t)
    · cases h

theorem consumes_number : Consumes (number negative) := by
  intro s n r h
  unfold number at h
  split at h
  · cases h
  next c t =>
    split at h
    next hc =>
      simp only at h
      generalize hrest : (if c = '0' then t else (c :: t).dropWhile Char.isDigit) = rest at h
      have hlt : rest.length < (c :: t).length := by
        rw [← hrest]
        split
        · exact Nat.lt_succ_self _
        · exact length_dropWhile_isDigit hc t
      split at h
      · cases h
      · split at h
        · have := consumes_fractional _ _ _ h
          simp only [List.length_cons] at hlt ⊢
          omega
        · have := consumes_exponent _ _ _ h
          simp only [List.length_cons] at hlt ⊢
          omega
        · have := consumes_exponent _ _ _ h
          simp only [List.length_cons] at hlt ⊢
          omega
        · rw [rest_of_integer h]
          exact hlt
    · cases h

end Consumption

section Values
variable {item : Scan Json} {nested : Option (Scan Json)} {v : Json} {c : Char}

theorem valueWith_skipBlanks (nested : Option (Scan Json)) (s : List Char) :
    valueWith nested (skipBlanks s) = valueWith nested s := by
  unfold valueWith
  rw [skipBlanks_skipBlanks]

theorem valueWith_list (h : skipBlanks s = '[' :: r) : valueWith (some item) s =
    items item r true r >>= fun x => .ok (.arr x.1, x.2) := by
  have hd : '['.isDigit = false := by decide
  simp [valueWith, h, hd]

theorem valueWith_object (h : skipBlanks s = '\x7b' :: r) : valueWith (some item) s =
    members item r true r >>= fun x => .ok (object x.1, x.2) := by
  have hd : '\x7b'.isDigit = false := by decide
  simp [valueWith, h, hd]

theorem valueWith_quote (nested : Option (Scan Json)) (r : List Char) :
    valueWith nested ('"' :: r) =
    text r >>= fun x => .ok (.str x.1, x.2) := by
  have hd : '"'.isDigit = false := by decide
  have hs : skipBlanks ('"' :: r) = '"' :: r := skipBlanks_of_not_isBlank (by decide) r
  simp [valueWith, hs, hd]

theorem valueWith_minus (nested : Option (Scan Json)) (r : List Char) :
    valueWith nested ('-' :: r) =
    number true r >>= fun x => .ok (.num x.1, x.2) := by
  have hs : skipBlanks ('-' :: r) = '-' :: r := skipBlanks_of_not_isBlank (by decide) r
  simp [valueWith, hs]

theorem ne_of_isDigit {d : Char} (h : c.isDigit = true) (hd : d.isDigit = false) : c ≠ d := by
  rintro rfl
  rw [h] at hd
  cases hd

theorem not_isBlank_of_isDigit (h : c.isDigit = true) : isBlank c = false := by
  have hspace : c ≠ ' ' := ne_of_isDigit h (by decide)
  have htab : c ≠ '\t' := ne_of_isDigit h (by decide)
  have hline : c ≠ '\n' := ne_of_isDigit h (by decide)
  have hreturn : c ≠ '\r' := ne_of_isDigit h (by decide)
  simp [isBlank, hspace, htab, hline, hreturn]

theorem valueWith_digit (nested : Option (Scan Json)) (h : c.isDigit = true) (r : List Char) :
    valueWith nested (c :: r) = number false (c :: r) >>= fun x => .ok (.num x.1, x.2) := by
  have hs : skipBlanks (c :: r) = c :: r := skipBlanks_of_not_isBlank (not_isBlank_of_isDigit h) r
  have hnull : c ≠ 'n' := ne_of_isDigit h (by decide)
  have htrue : c ≠ 't' := ne_of_isDigit h (by decide)
  have hfalse : c ≠ 'f' := ne_of_isDigit h (by decide)
  have hminus : c ≠ '-' := ne_of_isDigit h (by decide)
  simp [valueWith, hs, h, hnull, htrue, hfalse, hminus]

/-- Away from brackets it does not matter how the values inside them are read. -/
theorem valueWith_congr (h : ∀ r, skipBlanks s ≠ '[' :: r)
    (h' : ∀ r, skipBlanks s ≠ '\x7b' :: r) :
    valueWith nested s = valueWith none s := by
  cases hs : skipBlanks s with
  | nil => simp [valueWith, hs]
  | cons c r =>
    have hc : c ≠ '[' := by
      rintro rfl
      exact h r hs
    have hc' : c ≠ '\x7b' := by
      rintro rfl
      exact h' r hs
    simp [valueWith, hs, hc, hc']

/-- A value that is read without the help of others: its first character, what follows it, the
value, and what it leaves. -/
inductive Scalar : Char → List Char → Json → List Char → Prop
  | null {t r : List Char} (h : ident ['u', 'l', 'l'] t = .ok r) : Scalar 'n' t .null r
  | yes {t r : List Char} (h : ident ['r', 'u', 'e'] t = .ok r) : Scalar 't' t (.bool true) r
  | no {t r : List Char} (h : ident ['a', 'l', 's', 'e'] t = .ok r) : Scalar 'f' t (.bool false) r
  | negative {t r : List Char} {n : Number} (h : number true t = .ok (n, r)) :
    Scalar '-' t (.num n) r
  | digit {c : Char} {t r : List Char} {n : Number} (hc : c.isDigit = true)
    (h : number false (c :: t) = .ok (n, r)) : Scalar c t (.num n) r
  | text {t r : List Char} {k : String} (h : text t = .ok (k, r)) : Scalar '"' t (.str k) r

theorem scalar_of_valueWith (h : valueWith none s = .ok (v, r)) :
    ∃ c t, skipBlanks s = c :: t ∧ Scalar c t v r := by
  unfold valueWith at h
  split at h
  · cases h
  next c t hs =>
    refine ⟨c, t, hs, ?_⟩
    obtain ⟨hc, h⟩ | ⟨-, h⟩ := ite_cases h
    · obtain ⟨t', ht', h⟩ := bind_eq_ok_iff.mp h
      cases h
      exact hc ▸ .null ht'
    obtain ⟨hc, h⟩ | ⟨-, h⟩ := ite_cases h
    · obtain ⟨t', ht', h⟩ := bind_eq_ok_iff.mp h
      cases h
      exact hc ▸ .yes ht'
    obtain ⟨hc, h⟩ | ⟨-, h⟩ := ite_cases h
    · obtain ⟨t', ht', h⟩ := bind_eq_ok_iff.mp h
      cases h
      exact hc ▸ .no ht'
    obtain ⟨hc, h⟩ | ⟨-, h⟩ := ite_cases h
    · obtain ⟨⟨n, t'⟩, ht', h⟩ := bind_eq_ok_iff.mp h
      cases h
      exact hc ▸ .negative ht'
    obtain ⟨hc, h⟩ | ⟨-, h⟩ := ite_cases h
    · obtain ⟨⟨n, t'⟩, ht', h⟩ := bind_eq_ok_iff.mp h
      cases h
      exact .digit hc ht'
    obtain ⟨hc, h⟩ | ⟨-, h⟩ := ite_cases h
    · obtain ⟨⟨k, t'⟩, ht', h⟩ := bind_eq_ok_iff.mp h
      cases h
      exact hc ▸ .text ht'
    obtain ⟨-, h⟩ | ⟨-, h⟩ := ite_cases h
    · cases h
    obtain ⟨-, h⟩ | ⟨-, h⟩ := ite_cases h
    · cases h
    · cases h

namespace Scalar
variable {t : List Char}

theorem depth_eq (h : Scalar c t v r) : v.depth = 0 := by
  cases h <;> rfl

/-- No list and no object. -/
theorem ne_bracket (h : Scalar c t v r) : c ≠ '[' ∧ c ≠ '\x7b' := by
  cases h with
  | digit hc => exact ⟨ne_of_isDigit hc (by decide), ne_of_isDigit hc (by decide)⟩
  | _ => decide

theorem length_le (h : Scalar c t v r) : r.length ≤ t.length := by
  cases h with
  | null h | yes h | no h => exact length_of_ident h
  | negative h => exact Nat.le_of_lt (consumes_number _ _ _ h)
  | digit _ h => exact Nat.le_of_lt_succ (consumes_number _ _ _ h)
  | text h => exact Nat.le_of_lt (consumes_text _ _ _ h)

end Scalar

theorem depth_of_scalar (h : valueWith none s = .ok (v, r)) : v.depth = 0 := by
  obtain ⟨c, t, -, hscalar⟩ := scalar_of_valueWith h
  exact hscalar.depth_eq

theorem canonical_of_scalar (h : v.depth = 0) : v.canonical = v := by
  cases v with
  | arr | obj => simp [depth] at h
  | _ => rfl

theorem consumes_scalar : Consumes (valueWith none) := by
  intro s v r h
  obtain ⟨c, t, hs, hscalar⟩ := scalar_of_valueWith h
  exact Nat.lt_of_le_of_lt hscalar.length_le (length_of_skipBlanks hs)

theorem valueWith_of_scalar (h : valueWith none s = .ok (v, r)) :
    valueWith nested s = .ok (v, r) := by
  obtain ⟨c, t, hs, hscalar⟩ := scalar_of_valueWith h
  obtain ⟨hlist, hobject⟩ := hscalar.ne_bracket
  rw [valueWith_congr _ _, h]
  · intro r' h'
    cases hs.symm.trans h'
    exact hlist rfl
  · intro r' h'
    cases hs.symm.trans h'
    exact hobject rfl

/-- A value is a scalar, a list or an object. -/
theorem valueWith_cases (h : valueWith (some item) s = .ok (v, r)) :
    valueWith none s = .ok (v, r) ∨
    (∃ t vs, skipBlanks s = '[' :: t ∧ items item t true t = .ok (vs, r) ∧ v = .arr vs) ∨
    ∃ t ms, skipBlanks s = '\x7b' :: t ∧ members item t true t = .ok (ms, r) ∧
      v = object ms := by
  by_cases hlist : ∃ t, skipBlanks s = '[' :: t
  · obtain ⟨t, ht⟩ := hlist
    rw [valueWith_list ht] at h
    obtain ⟨⟨vs, r'⟩, hvs, h⟩ := bind_eq_ok_iff.mp h
    cases h
    exact .inr (.inl ⟨t, vs, ht, hvs, rfl⟩)
  by_cases hobject : ∃ t, skipBlanks s = '\x7b' :: t
  · obtain ⟨t, ht⟩ := hobject
    rw [valueWith_object ht] at h
    obtain ⟨⟨ms, r'⟩, hms, h⟩ := bind_eq_ok_iff.mp h
    cases h
    exact .inr (.inr ⟨t, ms, ht, hms, rfl⟩)
  · left
    rw [← h]
    exact (valueWith_congr (fun t ht => hlist ⟨t, ht⟩) fun t ht => hobject ⟨t, ht⟩).symm

end Values

section Tokens
variable {first more : Bool} {c : Char} {t : List Char}

theorem nextItem_end (h : nextItem first s = .ok (false, r)) :
    ∃ t, skipBlanks s = ']' :: t ∧ r = ']' :: t := by
  unfold nextItem at h
  split at h
  · cases h
  next c t hs =>
    split at h
    next hc =>
      cases h
      subst hc
      exact ⟨t, hs, rfl⟩
    split at h
    · cases h
    split at h
    · split at h
      · cases h
      · split at h <;> cases h
    · cases h

theorem nextItem_first (h : nextItem true s = .ok (true, r)) :
    skipBlanks s = r ∧ ∃ c t, r = c :: t ∧ c ≠ ']' := by
  unfold nextItem at h
  split at h
  · cases h
  next c t hs =>
    split at h
    · cases h
    next hc =>
      cases h
      exact ⟨hs, c, t, rfl, hc⟩

theorem nextItem_later (h : nextItem false s = .ok (true, r)) :
    (∃ u, skipBlanks s = ',' :: u ∧ skipBlanks u = r) ∧
    ∃ c t, r = c :: t ∧ c ≠ ']' := by
  unfold nextItem at h
  split at h
  · cases h
  next c t hs =>
    split at h
    · cases h
    split at h
    · cases ‹false = true›
    split at h
    next hc =>
      subst hc
      split at h
      · cases h
      next d u hu =>
        split at h
        · cases h
        next hd =>
          cases h
          exact ⟨⟨t, hs, hu⟩, d, u, rfl, hd⟩
    · cases h

theorem nextKey_end (h : nextKey first s = .ok (false, r)) :
    ∃ t, skipBlanks s = '\x7d' :: t ∧ r = '\x7d' :: t := by
  unfold nextKey at h
  split at h
  · cases h
  next c t hs =>
    split at h
    next hc =>
      cases h
      subst hc
      exact ⟨t, hs, rfl⟩
    split at h
    · split at h <;> cases h
    split at h
    · split at h
      · cases h
      · split at h
        · cases h
        · split at h <;> cases h
    · cases h

theorem nextKey_first (h : nextKey true s = .ok (true, r)) : skipBlanks s = '"' :: r := by
  unfold nextKey at h
  split at h
  · cases h
  next c t hs =>
    split at h
    · cases h
    split at h
    · split at h
      next hc =>
        cases h
        subst hc
        exact hs
      · cases h
    · exact absurd rfl ‹¬ true = true›

theorem nextKey_later (h : nextKey false s = .ok (true, r)) :
    ∃ u, skipBlanks s = ',' :: u ∧ skipBlanks u = '"' :: r := by
  unfold nextKey at h
  split at h
  · cases h
  next c t hs =>
    split at h
    · cases h
    split at h
    · cases ‹false = true›
    split at h
    next hc =>
      subst hc
      split at h
      · cases h
      next d u hu =>
        split at h
        next hd =>
          cases h
          subst hd
          exact ⟨t, hs, hu⟩
        · split at h <;> cases h
    · cases h

/-- Before a value the reader of items stops at once. -/
theorem nextItem_at (hblank : isBlank c = false) (hc : c ≠ ']') (t : List Char) :
    nextItem true (c :: t) = .ok (true, c :: t) := by
  simp [nextItem, skipBlanks_of_not_isBlank hblank, hc]

theorem nextItem_comma (hblank : isBlank c = false) (hc : c ≠ ']') (t : List Char) :
    nextItem false (',' :: c :: t) = .ok (true, c :: t) := by
  have hcomma : skipBlanks (',' :: c :: t) = ',' :: c :: t :=
    skipBlanks_of_not_isBlank (by decide) _
  simp [nextItem, hcomma, skipBlanks_of_not_isBlank hblank, hc]

theorem nextKey_quote (t : List Char) : nextKey true ('"' :: t) = .ok (true, t) := by
  have hquote : skipBlanks ('"' :: t) = '"' :: t := skipBlanks_of_not_isBlank (by decide) _
  simp [nextKey, hquote]

theorem nextKey_comma (t : List Char) : nextKey false (',' :: '"' :: t) = .ok (true, t) := by
  have hcomma : skipBlanks (',' :: '"' :: t) = ',' :: '"' :: t :=
    skipBlanks_of_not_isBlank (by decide) _
  have hquote : skipBlanks ('"' :: t) = '"' :: t := skipBlanks_of_not_isBlank (by decide) _
  simp [nextKey, hcomma, hquote]

theorem length_of_nextItem (h : nextItem first s = .ok (more, r)) : r.length ≤ s.length := by
  have hle := length_skipBlanks_le s
  cases more with
  | false =>
    obtain ⟨t, hs, rfl⟩ := nextItem_end h
    rwa [hs] at hle
  | true =>
    cases first with
    | true => rwa [(nextItem_first h).1] at hle
    | false =>
      obtain ⟨⟨u, hs, rfl⟩, -⟩ := nextItem_later h
      have := length_skipBlanks_le u
      have := length_of_skipBlanks hs
      omega

theorem length_of_nextKey (h : nextKey first s = .ok (true, r)) : r.length < s.length := by
  cases first with
  | true => exact length_of_skipBlanks (nextKey_first h)
  | false =>
    obtain ⟨u, hs, hu⟩ := nextKey_later h
    have := length_of_skipBlanks hs
    have := length_of_skipBlanks hu
    omega

theorem skipBlanks_of_colon (h : colon s = .ok r) : skipBlanks s = ':' :: r := by
  unfold colon at h
  split at h
  · cases h
  next c t hs =>
    split at h
    next hc =>
      cases h
      subst hc
      exact hs
    · cases h

end Tokens

end Json

end Workflow
