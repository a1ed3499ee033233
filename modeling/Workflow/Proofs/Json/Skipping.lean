import Workflow.Json.Skip
import Workflow.Proofs.Json.Reads

/-! A value that is passed over ends where it ends when it is read. -/
namespace Workflow.Json
variable {s r : List Char}

section Text

/-- An escape is passed over in one step, or in two if it is a pair. -/
theorem skipEscape_of_escape {c : Char} (h : escape s = .ok (c, r)) :
    skipEscape s = .ok r ∨ ∃ t, skipEscape s = .ok ('\\' :: t) ∧ skipEscape t = .ok r := by
  unfold escape at h
  split at h
  · cases h
  next x t =>
    have one {y : Char} (h : (.ok (y, t) : Except Failure (Char × List Char)) = .ok (c, r))
        (hu : x ≠ 'u')
        (hx : x = '"' ∨ x = '\\' ∨ x = '/' ∨ x = 'b' ∨ x = 'f' ∨ x = 'n' ∨
          x = 'r' ∨ x = 't') :
        skipEscape (x :: t) = .ok r := by
      cases h
      simp only [skipEscape, hu, if_false, hx, if_true]
    obtain ⟨hx, h⟩ | ⟨-, h⟩ := ite_cases h
    · left
      apply one h
      · rintro rfl
        simp at hx
      · obtain hx | hx | hx := hx <;> simp [hx]
    obtain ⟨hx, h⟩ | ⟨-, h⟩ := ite_cases h
    · exact .inl (one h (by simp [hx]) (by simp [hx]))
    obtain ⟨hx, h⟩ | ⟨-, h⟩ := ite_cases h
    · exact .inl (one h (by simp [hx]) (by simp [hx]))
    obtain ⟨hx, h⟩ | ⟨-, h⟩ := ite_cases h
    · exact .inl (one h (by simp [hx]) (by simp [hx]))
    obtain ⟨hx, h⟩ | ⟨-, h⟩ := ite_cases h
    · exact .inl (one h (by simp [hx]) (by simp [hx]))
    obtain ⟨hx, h⟩ | ⟨-, h⟩ := ite_cases h
    · exact .inl (one h (by simp [hx]) (by simp [hx]))
    obtain ⟨hx, h⟩ | ⟨-, h⟩ := ite_cases h
    · obtain ⟨⟨code, t'⟩, hcode, h⟩ := bind_eq_ok_iff.mp h
      have hskip : skipEscape (x :: t) = .ok t' := by
        rw [skipEscape, if_pos hx, hcode]
        rfl
      obtain ⟨-, h⟩ | ⟨-, h⟩ := ite_cases h
      · cases h
      obtain ⟨-, h⟩ | ⟨-, h⟩ := ite_cases h
      · unfold lowSurrogate at h
        split at h
        · cases h
        · cases h
        next t₁ =>
          right
          obtain ⟨⟨low, t₂⟩, hlow, h⟩ := bind_eq_ok_iff.mp h
          simp only at h
          split at h
          · obtain ⟨-, rfl⟩ := Prod.mk.inj (Except.ok.inj h)
            refine ⟨_, hskip, ?_⟩
            rw [skipEscape, if_pos rfl, hlow]
            rfl
          · cases h
        · cases h
        · cases h
      · cases h
        exact .inl hskip
    · cases h

theorem skipTextBody_escape {t t' : List Char} (h : skipEscape t = .ok t') (x : Char)
    (count : List Char) :
    skipTextBody (x :: count) ('\\' :: t) = skipTextBody count t' := by
  simp only [skipTextBody, Char.reduceEq, if_false, if_true, h]
  rfl

/-- A pair takes two rounds here and one there, so the counts differ. -/
theorem skipTextBody_of_textBody {count cs : List Char} (h : textBody count s = .ok (cs, r))
    {count' : List Char} (hcount : s.length ≤ count'.length) : skipTextBody count' s = .ok r := by
  induction count generalizing s cs count' with
  | nil => cases h
  | cons _ count ih =>
    unfold textBody at h
    split at h
    · cases h
    next c t =>
      cases count' with
      | nil => cases hcount
      | cons x count' =>
        simp only [List.length_cons, Nat.add_le_add_iff_right] at hcount
        split at h
        next hc =>
          cases h
          simp only [skipTextBody, hc, if_true]
        next hquote =>
          split at h
          next hc =>
            obtain ⟨⟨y, t₁⟩, hy, h⟩ := bind_eq_ok_iff.mp h
            obtain ⟨⟨ys, t₂⟩, hys, h⟩ := bind_eq_ok_iff.mp h
            cases h
            have hlt := consumes_escape _ _ _ hy
            subst hc
            obtain hskip | ⟨t', hfirst, hsecond⟩ := skipEscape_of_escape hy
            · rw [skipTextBody_escape hskip]
              exact ih hys (by omega)
            · rw [skipTextBody_escape hfirst]
              cases count' with
              | nil =>
                simp only [List.length_nil] at hcount
                omega
              | cons x' count' =>
                simp only [List.length_cons] at hcount
                rw [skipTextBody_escape hsecond]
                exact ih hys (by omega)
          next hback =>
            split at h
            · cases h
            next hcontrol =>
              obtain ⟨⟨xs, t₁⟩, hxs, h⟩ := bind_eq_ok_iff.mp h
              cases h
              simp only [skipTextBody, hquote, hback, hcontrol, if_false]
              exact ih hxs hcount

theorem skipText_of_text {k : String} (h : text s = .ok (k, r)) : skipText s = .ok r := by
  obtain ⟨⟨cs, r'⟩, hcs, h⟩ := bind_eq_ok_iff.mp h
  cases h
  exact skipTextBody_of_textBody hcs (Nat.le_refl _)

end Text

section Numbers
variable {negative : Bool} {sig : Number.Significand} {n : Number}

theorem skipDigits_of_isDigit {c : Char} {t : List Char} (hc : c.isDigit = true) :
    skipDigits (c :: t) = .ok ((c :: t).dropWhile Char.isDigit) := by
  simp only [skipDigits, hc, if_true]

theorem skipDigits_of_exponent (h : exponent negative sig s = .ok (n, r)) :
    skipDigits (if s.head? = some '+' ∨ s.head? = some '-' then s.drop 1 else s) = .ok r := by
  unfold exponent at h
  simp only at h
  generalize (if s.head? = some '+' ∨ s.head? = some '-' then s.drop 1 else s) = digits at h ⊢
  split at h
  · cases h
  next c t =>
    split at h
    next hc =>
      rw [skipDigits_of_isDigit hc]
      split at h
      · rw [rest_of_float h]
      · split at h
        · cases h
        · rw [rest_of_float h]
    · cases h

theorem skipExponent_of_ne (hlower : ∀ t, s ≠ 'e' :: t) (hupper : ∀ t, s ≠ 'E' :: t) :
    skipExponent s = .ok s := by
  unfold skipExponent
  split
  next t => exact absurd rfl (hlower t)
  next t => exact absurd rfl (hupper t)
  · rfl

theorem skipExponent_of_scaled (h : scaled negative sig s = .ok (n, r)) :
    skipExponent s = .ok r := by
  unfold scaled at h
  split at h
  · exact skipDigits_of_exponent h
  · exact skipDigits_of_exponent h
  next hlower hupper => rw [skipExponent_of_ne hlower hupper, rest_of_float h]

theorem skipDigits_of_fractional (h : fractional negative sig s = .ok (n, r)) :
    ∃ t, skipDigits s = .ok t ∧ skipExponent t = .ok r := by
  unfold fractional at h
  split at h
  · cases h
  next c t =>
    split at h
    next hc => exact ⟨_, skipDigits_of_isDigit hc, skipExponent_of_scaled h⟩
    · cases h

theorem skipNumber_of_number (h : number negative s = .ok (n, r)) : skipNumber s = .ok r := by
  unfold number at h
  split at h
  · cases h
  next c t =>
    split at h
    next hc =>
      simp only at h
      generalize hrest : (if c = '0' then t else (c :: t).dropWhile Char.isDigit) = rest at h
      generalize Number.Significand.whole ⟨0, 0⟩ _ = sig at h
      split at h
      · cases h
      next hzero =>
        have hfraction : skipFraction rest = .ok r := by
          unfold skipFraction
          split at h
          next t' =>
            obtain ⟨u, hdigits, hexponent⟩ := skipDigits_of_fractional h
            exact bind_eq_ok_iff.mpr ⟨u, hdigits, hexponent⟩
          · exact skipDigits_of_exponent h
          · exact skipDigits_of_exponent h
          next hdot hlower hupper =>
            rw [rest_of_integer h]
            split
            next t' => exact absurd rfl (hdot t')
            · unfold skipExponent
              split
              next t' _ => exact absurd rfl (hlower t')
              next t' _ => exact absurd rfl (hupper t')
              · rfl
        by_cases hc0 : c = '0'
        · subst hc0
          simp only [if_true] at hrest
          subst hrest
          simp only [true_and] at hzero
          simp only [skipNumber, hzero, Bool.false_eq_true, if_false, hfraction]
        · simp only [hc0, if_false] at hrest
          subst hrest
          unfold skipNumber
          split
          next heq =>
            cases heq
            exact absurd rfl hc0
          · exact bind_eq_ok_iff.mpr ⟨_, skipDigits_of_isDigit hc, hfraction⟩
    · cases h

end Numbers

section Values
variable {v : Json} {outer : List Bracket} {count : List Char}

theorem skipScalar_of_scalar {c : Char} {t : List Char} (h : Scalar c t v r) :
    skipScalar c t = .ok r := by
  cases h with
  | null h | yes h | no h => simpa [skipScalar] using h
  | negative h => simpa [skipScalar] using skipNumber_of_number h
  | digit hc h =>
    have hnull : c ≠ 'n' := ne_of_isDigit hc (by decide)
    have htrue : c ≠ 't' := ne_of_isDigit hc (by decide)
    have hfalse : c ≠ 'f' := ne_of_isDigit hc (by decide)
    have hminus : c ≠ '-' := ne_of_isDigit hc (by decide)
    simpa [skipScalar, hnull, htrue, hfalse, hminus, hc] using skipNumber_of_number h
  | text h =>
    have hd : '"'.isDigit = false := by decide
    simpa [skipScalar, hd] using skipText_of_text h

section Loop
variable {x c : Char} {t : List Char}

attribute [local simp] skipLoop

theorem skipLoop_skipBlanks (x : Char) (count : List Char) (outer : List Bracket) (s : List Char) :
    skipLoop (x :: count) false outer (skipBlanks s) = skipLoop (x :: count) false outer s := by
  simp [skipBlanks_skipBlanks]

theorem skipLoop_scalar (h : valueWith none s = .ok (v, r)) :
    skipLoop (x :: count) false outer s = skipLoop count true outer r := by
  obtain ⟨c, t, hs, hscalar⟩ := scalar_of_valueWith h
  obtain ⟨hlist, hobject⟩ := hscalar.ne_bracket
  simp only [skipLoop, hs, hlist, hobject, if_false, skipScalar_of_scalar hscalar]
  rfl

theorem skipBlanks_bracket (t : List Char) : skipBlanks ('[' :: t) = '[' :: t :=
  skipBlanks_of_not_isBlank (by decide) t

theorem skipBlanks_brace (t : List Char) : skipBlanks ('\x7b' :: t) = '\x7b' :: t :=
  skipBlanks_of_not_isBlank (by decide) t

theorem skipLoop_list_empty (h : skipBlanks s = ']' :: t) :
    skipLoop (x :: count) false outer ('[' :: s) = skipLoop count true outer t := by
  simp [skipBlanks_bracket, h]

theorem skipLoop_list (h : skipBlanks s = c :: t) (hc : c ≠ ']') :
    skipLoop (x :: count) false outer ('[' :: s) =
      skipLoop count false (.list :: outer) (c :: t) := by
  simp [skipBlanks_bracket, h, hc]

theorem skipLoop_list_comma (h : skipBlanks s = ',' :: t) :
    skipLoop (x :: count) true (.list :: outer) s = skipLoop count false (.list :: outer) t := by
  simp [h]

theorem skipLoop_list_end (h : skipBlanks s = ']' :: t) :
    skipLoop (x :: count) true (.list :: outer) s = skipLoop count true outer t := by
  simp [h]

theorem skipKey_of_text {k : String} {r₁ r₂ : List Char} (h : skipBlanks s = '"' :: r₁)
    (hk : text r₁ = .ok (k, r₂)) (hc : colon r₂ = .ok r) : skipKey s = .ok r := by
  simp only [skipKey, h, if_true]
  exact bind_eq_ok_iff.mpr ⟨r₂, skipText_of_text hk, hc⟩

theorem skipLoop_object_empty (h : skipBlanks s = '\x7d' :: t) :
    skipLoop (x :: count) false outer ('\x7b' :: s) = skipLoop count true outer t := by
  simp [skipBlanks_brace, h]

theorem skipLoop_object (h : skipBlanks s = '"' :: t) (hk : skipKey ('"' :: t) = .ok r) :
    skipLoop (x :: count) false outer ('\x7b' :: s) =
      skipLoop count false (.object :: outer) r := by
  simp only [skipLoop, skipBlanks_brace, h, Char.reduceEq, if_true, if_false, hk]
  rfl

theorem skipLoop_object_comma (h : skipBlanks s = ',' :: t) (hk : skipKey t = .ok r) :
    skipLoop (x :: count) true (.object :: outer) s =
      skipLoop count false (.object :: outer) r := by
  simp only [skipLoop, h, if_true, hk]
  rfl

theorem skipLoop_object_end (h : skipBlanks s = '\x7d' :: t) :
    skipLoop (x :: count) true (.object :: outer) s = skipLoop count true outer t := by
  simp [h]

end Loop

/-- The loop gets to this text with these brackets still open, and can go on from there. -/
def GetsTo (loop : Except Failure (List Char)) (outer : List Bracket) (r : List Char) : Prop :=
  ∃ count : List Char, r.length ≤ count.length ∧ loop = skipLoop count true outer r

/-- The loop passes over a part. The count is enough if it is no shorter than the text. -/
def Part.Passed (s r : List Char) : Part → Prop
  | .value _ => ∀ (count : List Char) outer, s.length ≤ count.length →
    GetsTo (skipLoop count false outer s) outer r
  | .items true _ => ∀ x (count : List Char) outer, s.length ≤ count.length →
    GetsTo (skipLoop (x :: count) false outer ('[' :: s)) outer r
  | .items false _ => ∀ (count : List Char) outer, s.length ≤ count.length →
    GetsTo (skipLoop count true (.list :: outer) s) outer r
  | .members true _ => ∀ x (count : List Char) outer, s.length ≤ count.length →
    GetsTo (skipLoop (x :: count) false outer ('\x7b' :: s)) outer r
  | .members false _ => ∀ (count : List Char) outer, s.length ≤ count.length →
    GetsTo (skipLoop count true (.object :: outer) s) outer r

theorem Reads.passed {p : Part} (h : Reads p s r) : p.Passed s r := by
  induction h with
  | @scalar v s r h =>
    intro count outer hcount
    have := consumes_scalar _ _ _ h
    obtain ⟨x, count, rfl⟩ := List.exists_cons_of_length_pos (l := count) (by omega)
    exact ⟨count, by simp only [List.length_cons] at hcount; omega, skipLoop_scalar h⟩
  | @list vs s t r h _ ih =>
    intro count outer hcount
    have := length_of_skipBlanks h
    obtain ⟨x, count, rfl⟩ := List.exists_cons_of_length_pos (l := count) (by omega)
    rw [← skipLoop_skipBlanks, h]
    exact ih x count outer (by simp only [List.length_cons] at hcount; omega)
  | @object ms s t r h _ ih =>
    intro count outer hcount
    have := length_of_skipBlanks h
    obtain ⟨x, count, rfl⟩ := List.exists_cons_of_length_pos (l := count) (by omega)
    rw [← skipLoop_skipBlanks, h]
    exact ih x count outer (by simp only [List.length_cons] at hcount; omega)
  | @itemsEnd first s r h =>
    obtain ⟨t, hs, rfl⟩ := nextItem_end h
    have hlt := length_of_skipBlanks hs
    rw [List.drop_one, List.tail_cons]
    cases first with
    | true =>
      intro x count outer hcount
      exact ⟨count, by omega, skipLoop_list_empty hs⟩
    | false =>
      intro count outer hcount
      obtain ⟨x, count, rfl⟩ := List.exists_cons_of_length_pos (l := count) (by omega)
      exact ⟨count, by simp only [List.length_cons] at hcount; omega, skipLoop_list_end hs⟩
  | @item first v vs s r₁ r₂ r h hv hs ihv ihs =>
    have hlt := length_of_nextItem h
    cases first with
    | true =>
      intro x count outer hcount
      obtain ⟨hblanks, c, t, rfl, hc⟩ := nextItem_first h
      rw [skipLoop_list hblanks hc]
      obtain ⟨count', hcount', hskip⟩ := ihv count (.list :: outer) (by omega)
      rw [hskip]
      exact ihs count' outer hcount'
    | false =>
      intro count outer hcount
      obtain ⟨⟨u, hcomma, rfl⟩, -⟩ := nextItem_later h
      have := length_of_skipBlanks hcomma
      have := length_skipBlanks_le u
      have := hv.length_lt
      obtain ⟨x, count, rfl⟩ := List.exists_cons_of_length_pos (l := count) (by omega)
      simp only [List.length_cons] at hcount
      obtain ⟨y, count, rfl⟩ := List.exists_cons_of_length_pos (l := count) (by omega)
      rw [skipLoop_list_comma hcomma, ← skipLoop_skipBlanks]
      obtain ⟨count', hcount', hskip⟩ := ihv (y :: count) (.list :: outer) (by omega)
      rw [hskip]
      exact ihs count' outer hcount'
  | @membersEnd first s r h =>
    obtain ⟨t, hs, rfl⟩ := nextKey_end h
    have hlt := length_of_skipBlanks hs
    rw [List.drop_one, List.tail_cons]
    cases first with
    | true =>
      intro x count outer hcount
      exact ⟨count, by omega, skipLoop_object_empty hs⟩
    | false =>
      intro count outer hcount
      obtain ⟨x, count, rfl⟩ := List.exists_cons_of_length_pos (l := count) (by omega)
      exact ⟨count, by simp only [List.length_cons] at hcount; omega, skipLoop_object_end hs⟩
  | @member first k v ms s r₁ r₂ r₃ r₄ r h hk hc hv hs ihv ihs =>
    have := length_of_nextKey h
    have := consumes_text _ _ _ hk
    have := length_of_skipBlanks (skipBlanks_of_colon hc)
    cases first with
    | true =>
      intro x count outer hcount
      have hquote := nextKey_first h
      have hkey : skipKey ('"' :: r₁) = .ok r₃ :=
        skipKey_of_text (skipBlanks_of_not_isBlank (by decide) r₁) hk hc
      rw [skipLoop_object hquote hkey]
      obtain ⟨count', hcount', hskip⟩ := ihv count (.object :: outer) (by omega)
      rw [hskip]
      exact ihs count' outer hcount'
    | false =>
      intro count outer hcount
      obtain ⟨u, hcomma, hquote⟩ := nextKey_later h
      obtain ⟨x, count, rfl⟩ := List.exists_cons_of_length_pos (l := count) (by omega)
      simp only [List.length_cons] at hcount
      rw [skipLoop_object_comma hcomma (skipKey_of_text hquote hk hc)]
      obtain ⟨count', hcount', hskip⟩ := ihv count (.object :: outer) (by omega)
      rw [hskip]
      exact ihs count' outer hcount'

theorem skipValue_of_reads (h : Reads (.value v) s r) : skipValue s = .ok r := by
  obtain ⟨count, hcount, hskip⟩ := h.passed s [] (Nat.le_refl _)
  rw [skipValue, hskip]
  cases count <;> rfl

end Values

end Workflow.Json
