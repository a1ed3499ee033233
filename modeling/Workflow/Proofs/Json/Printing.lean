import Workflow.Json.Printer
import Workflow.Proofs.Json.Reads

/-! The compact text of a value reads as the value again. -/
namespace Workflow

namespace Json
variable {tail : List Char}

section Text

theorem hexNumber?_control : ∀ n < 0x20,
    Text.hexNumber? ['0', '0', Nat.digitChar (n / 16), Nat.digitChar (n % 16)] = some n := by
  decide

/-- A control character is read from its code. -/
theorem escape_control {c : Char} (h : c.toNat < 0x20) (rest : List Char) :
    escape ('u' :: '0' :: '0' :: Nat.digitChar (c.toNat / 16) ::
      Nat.digitChar (c.toNat % 16) :: rest) =
      .ok (c, rest) := by
  have hcode :
      hexCode ('0' :: '0' :: Nat.digitChar (c.toNat / 16) :: Nat.digitChar (c.toNat % 16) :: rest) =
      .ok (c.toNat, rest) := by
    simp only [hexCode, hexNumber?_control c.toNat h]
  have hlow : ¬ (0xDC00 ≤ c.toNat ∧ c.toNat ≤ 0xDFFF) := by omega
  have hhigh : ¬ (0xD800 ≤ c.toNat ∧ c.toNat ≤ 0xDBFF) := by omega
  simp only [escape, Char.reduceEq, or_self, if_false, if_true, hcode]
  refine bind_eq_ok_iff.mpr ⟨_, rfl, ?_⟩
  simp only [hlow, hhigh, if_false, Char.ofNat_toNat]

/-- A character is written behind a backslash, as its number, or as it stands. -/
theorem writeChar_cases (c : Char) (rest : List Char) :
    (∃ e, escape (e :: rest) = .ok (c, rest) ∧ '\\' :: e :: rest = writeChar c rest) ∨
      (c.toNat < 0x20 ∧ '\\' :: 'u' :: '0' :: '0' :: Nat.digitChar (c.toNat / 16) ::
        Nat.digitChar (c.toNat % 16) :: rest = writeChar c rest) ∨
      c ≠ '"' ∧ c ≠ '\\' ∧ ¬ c.toNat < 0x20 ∧ c :: rest = writeChar c rest := by
  obtain ⟨rfl, h⟩ | ⟨hq, h⟩ := ite_cases (Eq.refl (writeChar c rest))
  · exact .inl ⟨_, rfl, h⟩
  obtain ⟨rfl, h⟩ | ⟨hb, h⟩ := ite_cases h
  · exact .inl ⟨_, rfl, h⟩
  obtain ⟨rfl, h⟩ | ⟨-, h⟩ := ite_cases h
  · exact .inl ⟨_, rfl, h⟩
  obtain ⟨rfl, h⟩ | ⟨-, h⟩ := ite_cases h
  · exact .inl ⟨_, rfl, h⟩
  obtain ⟨rfl, h⟩ | ⟨-, h⟩ := ite_cases h
  · exact .inl ⟨_, rfl, h⟩
  obtain ⟨rfl, h⟩ | ⟨-, h⟩ := ite_cases h
  · exact .inl ⟨_, rfl, h⟩
  obtain ⟨rfl, h⟩ | ⟨-, h⟩ := ite_cases h
  · exact .inl ⟨_, rfl, h⟩
  obtain hu | ⟨hc, h⟩ := ite_cases h
  · exact .inr (.inl hu)
  · exact .inr (.inr ⟨hq, hb, hc, h⟩)

/-- Whatever a character is written as, it is read in one round. -/
theorem textBody_writeChar (x c : Char) (count rest : List Char) :
    textBody (x :: count) (writeChar c rest) =
      textBody count rest >>= fun y => .ok (c :: y.1, y.2) := by
  obtain ⟨e, he, h⟩ | ⟨hc, h⟩ | ⟨hq, hb, hc, h⟩ := writeChar_cases c rest
  · rw [← h]
    simp only [textBody, Char.reduceEq, if_false, if_true, he]
    rfl
  · rw [← h]
    simp only [textBody, Char.reduceEq, if_false, if_true, escape_control hc]
    rfl
  · rw [← h]
    simp only [textBody, hq, hb, hc, if_false]

theorem length_writeChar (c : Char) (rest : List Char) :
    rest.length < (writeChar c rest).length := by
  obtain ⟨e, -, h⟩ | ⟨-, h⟩ | ⟨-, -, -, h⟩ := writeChar_cases c rest
  all_goals
    rw [← h]
    simp only [List.length_cons]
    omega

theorem length_writeChars (cs tail : List Char) : cs.length < (writeChars cs tail).length := by
  induction cs with
  | nil => simp [writeChars]
  | cons c cs ih =>
    have := length_writeChar c (writeChars cs tail)
    simp only [writeChars, List.length_cons]
    omega

theorem textBody_writeChars {count : List Char} (cs tail : List Char)
    (h : cs.length < count.length) :
    textBody count (writeChars cs tail) = .ok (cs, tail) := by
  induction cs generalizing count with
  | nil =>
    cases count with
    | nil => cases h
    | cons x count => simp [writeChars, textBody]
  | cons c cs ih =>
    cases count with
    | nil => cases h
    | cons x count =>
      rw [writeChars, textBody_writeChar, ih (Nat.lt_of_succ_lt_succ h)]
      rfl

/-- A text is read as it was written, after its opening quote. -/
theorem text_writeChars (k : String) (tail : List Char) :
    text (writeChars k.toList tail) = .ok (k, tail) := by
  unfold text
  rw [textBody_writeChars _ _ (length_writeChars _ _)]
  exact congrArg (fun t => Except.ok (t, tail)) String.ofList_toList

end Text

section Numbers

/-- What may stand behind a value: nothing, or a mark that ends or separates values. -/
def Closes (tail : List Char) : Prop :=
  ∀ c t, tail = c :: t → c = ',' ∨ c = ']' ∨ c = '\x7d'

theorem closes_nil : Closes [] := nofun

theorem Closes.not_isDigit {c : Char} {t : List Char} (h : Closes (c :: t)) :
    c.isDigit = false := by
  obtain rfl | rfl | rfl := h c t rfl <;> decide

theorem head_toDigits {n : Nat} (h : n ≠ 0) : (Nat.toDigits 10 n).head? ≠ some '0' := by
  induction n using Nat.strongRecOn with
  | _ n ih =>
    rw [Nat.toDigits_eq_if (by decide)]
    split
    · simpa [Nat.digitChar_eq_zero] using h
    · have hdiv : n / 10 ≠ 0 := by omega
      have hhead := ih (n / 10) (by omega) hdiv
      cases hds : Nat.toDigits 10 (n / 10) with
      | nil => exact absurd hds Nat.toDigits_ne_nil
      | cons d ds =>
        rw [hds] at hhead
        exact hhead

theorem le_ofDigitChars (ds : List Char) (n : Nat) : n ≤ Nat.ofDigitChars 10 ds n := by
  induction ds generalizing n with
  | nil => exact Nat.le_refl n
  | cons d ds ih =>
    rw [Nat.ofDigitChars_cons]
    have := ih (10 * n + (d.toNat - '0'.toNat))
    omega

/-- Digits of a number that fits a word are collected to the number. -/
theorem whole_ofDigitChars (ds : List Char) (n : Nat)
    (h : Nat.ofDigitChars 10 ds n < 0x10000000000000000) :
    Number.Significand.whole ⟨n, 0⟩ ds = ⟨Nat.ofDigitChars 10 ds n, 0⟩ := by
  induction ds generalizing n with
  | nil => rfl
  | cons d ds ih =>
    rw [Nat.ofDigitChars_cons] at h ⊢
    have hle := le_ofDigitChars ds (10 * n + (d.toNat - '0'.toNat))
    have hnext : n * 10 + Number.Significand.digitValue d = 10 * n + (d.toNat - '0'.toNat) := by
      rw [Number.Significand.digitValue, Nat.mul_comm]
    have hfits : Number.Significand.fits ⟨n, 0⟩ (Number.Significand.digitValue d) = true := by
      apply decide_eq_true
      show n * 10 + Number.Significand.digitValue d < _
      omega
    simp only [Number.Significand.whole, hfits, if_true, hnext]
    exact ih _ h

/-- Digits behind which nothing of a number follows are read as an
integer. A leading zero stands alone. -/
theorem number_of_digits {ds : List Char} {negative : Bool} (hne : ds ≠ [])
    (hdigits : ∀ d ∈ ds, d.isDigit = true) (hzero : ds.head? = some '0' → ds = ['0'])
    (htail : Closes tail) :
    number negative (ds ++ tail) =
      integer negative (Number.Significand.whole ⟨0, 0⟩ ds) tail := by
  cases ds with
  | nil => exact absurd rfl hne
  | cons d ds =>
    have hd := hdigits d List.mem_cons_self
    by_cases hd0 : d = '0'
    · subst hd0
      cases hzero rfl
      cases tail with
      | nil => rfl
      | cons c t => obtain rfl | rfl | rfl := htail c t rfl <;> rfl
    · have hstop : tail.takeWhile Char.isDigit = [] ∧ tail.dropWhile Char.isDigit = tail := by
        cases tail with
        | nil => exact ⟨rfl, rfl⟩
        | cons c t => simp [htail.not_isDigit]
      have htake : (d :: (ds ++ tail)).takeWhile Char.isDigit = d :: ds := by
        rw [← List.cons_append, List.takeWhile_append_of_pos hdigits, hstop.1, List.append_nil]
      have hdrop : (d :: (ds ++ tail)).dropWhile Char.isDigit = tail := by
        rw [← List.cons_append, List.dropWhile_append_of_pos hdigits, hstop.2]
      simp only [number, List.cons_append, hd, if_true, hd0, false_and, if_false, htake, hdrop]
      cases tail with
      | nil => rfl
      | cons c t => obtain rfl | rfl | rfl := htail c t rfl <;> rfl

theorem number_toDigits {n : Nat} {negative : Bool} (h : n < 0x10000000000000000)
    (htail : Closes tail) :
    number negative (Nat.toDigits 10 n ++ tail) = integer negative ⟨n, 0⟩ tail := by
  have hwhole := whole_ofDigitChars (Nat.toDigits 10 n) 0 (by rwa [Nat.ofDigitChars_ten_toDigits])
  rw [Nat.ofDigitChars_ten_toDigits] at hwhole
  rw [number_of_digits Nat.toDigits_ne_nil _ _ htail, hwhole]
  · intro c hc
    exact Nat.isDigit_of_mem_toDigits (by decide) (by decide) hc
  · intro hhead
    by_cases hn : n = 0
    · subst hn
      rfl
    · exact absurd hhead (head_toDigits hn)

theorem toDigits_cons (n : Nat) : ∃ d ds, Nat.toDigits 10 n = d :: ds ∧ d.isDigit = true := by
  cases hds : Nat.toDigits 10 n with
  | nil => exact absurd hds Nat.toDigits_ne_nil
  | cons d ds =>
    exact ⟨d, ds, rfl, Nat.isDigit_of_mem_toDigits (by decide) (by decide)
      (hds ▸ List.mem_cons_self)⟩

theorem integer_of_isWord {negative : Bool} {k : Nat} {n : Int}
    (hn : (if negative then -(k : Int) else k) = n) (h : Number.isWord n = true)
    (hzero : ¬ (negative = true ∧ n = 0)) :
    integer negative ⟨k, 0⟩ tail = .ok (.int n, tail) := by
  unfold integer
  simp only [hn, true_and]
  exact if_pos ⟨h, hzero⟩

/-- A word is read as it is written. -/
theorem reads_intText {n : Int} (h : Number.isWord n = true) (htail : Closes tail) :
    Reads (.value (.num (.int n))) (Number.intText n ++ tail) tail := by
  apply Reads.scalar
  have hrange : -0x8000000000000000 ≤ n ∧ n < 0x10000000000000000 := by
    simpa [Number.isWord] using h
  have hfits : n.natAbs < 0x10000000000000000 := by omega
  unfold Number.intText
  split
  next hn =>
    have hvalue : -((n.natAbs : Nat) : Int) = n := by omega
    have hint : integer true ⟨n.natAbs, 0⟩ tail = .ok (.int n, tail) :=
      integer_of_isWord hvalue h (fun ⟨_, hzero⟩ => Int.ne_of_lt hn hzero)
    rw [List.cons_append, valueWith_minus, number_toDigits hfits htail, hint]
    rfl
  next hn =>
    have hvalue : ((n.natAbs : Nat) : Int) = n := by omega
    have hint : integer false ⟨n.natAbs, 0⟩ tail = .ok (.int n, tail) :=
      integer_of_isWord hvalue h (fun ⟨hnegative, _⟩ => Bool.false_ne_true hnegative)
    have hnumber :
        number false (Nat.toDigits 10 n.natAbs ++ tail) = integer false ⟨n.natAbs, 0⟩ tail :=
      number_toDigits hfits htail
    obtain ⟨d, ds, hds, hd⟩ := toDigits_cons n.natAbs
    rw [hds, List.cons_append] at hnumber ⊢
    rw [valueWith_digit none hd, hnumber, hint]
    rfl

end Numbers

section Values

variable {v : Json} {vs : List Json} {ms : List (String × Json)}

/-- The text of a value begins with a mark of its own. -/
theorem write_head (h : v.Integral) (tail : List Char) :
    ∃ c t, v.write tail = c :: t ∧ isBlank c = false ∧ c ≠ ']' := by
  cases v with
  | null => exact ⟨_, _, rfl, by decide, by decide⟩
  | bool b => cases b <;> exact ⟨_, _, rfl, by decide, by decide⟩
  | str s => exact ⟨_, _, rfl, by decide, by decide⟩
  | arr vs => cases vs <;> exact ⟨_, _, rfl, by decide, by decide⟩
  | obj ms => cases ms <;> exact ⟨_, _, rfl, by decide, by decide⟩
  | num n =>
    cases n with
    | float x => exact absurd h id
    | int n =>
      simp only [write, Number.text, Number.intText]
      split
      · exact ⟨_, _, rfl, by decide, by decide⟩
      · obtain ⟨d, ds, hds, hd⟩ := toDigits_cons n.natAbs
        exact ⟨d, ds ++ tail, by rw [hds, List.cons_append], not_isBlank_of_isDigit hd,
          ne_of_isDigit hd (by decide)⟩

theorem closes_writeItems (vs : List Json) (tail : List Char) : Closes (writeItems vs tail) := by
  intro c t h
  cases vs with
  | nil =>
    cases h
    exact .inr (.inl rfl)
  | cons v vs =>
    cases h
    exact .inl rfl

theorem closes_writeMembers (ms : List (String × Json)) (tail : List Char) :
    Closes (writeMembers ms tail) := by
  intro c t h
  cases ms with
  | nil =>
    cases h
    exact .inr (.inr rfl)
  | cons m ms =>
    cases h
    exact .inl rfl

theorem reads_writeItems (hvs : ∀ v ∈ vs, v.Integral)
    (ih : ∀ v ∈ vs, ∀ tail, Closes tail → Reads (.value v) (v.write tail) tail)
    (tail : List Char) :
    Reads (.items false vs) (writeItems vs tail) tail := by
  induction vs with
  | nil => exact .itemsEnd (r := ']' :: tail) rfl
  | cons v vs ihs =>
    obtain ⟨hv, hvs⟩ := List.forall_mem_cons.mp hvs
    obtain ⟨ihv, ih⟩ := List.forall_mem_cons.mp ih
    have hread := ihv (writeItems vs tail) (closes_writeItems vs tail)
    obtain ⟨c, t, hhead, hblank, hc⟩ := write_head hv (writeItems vs tail)
    refine .item ?_ hread (ihs hvs ih)
    rw [writeItems, hhead]
    exact nextItem_comma hblank hc t

theorem colon_cons (t : List Char) : colon (':' :: t) = .ok t := by
  have hcolon : skipBlanks (':' :: t) = ':' :: t := skipBlanks_of_not_isBlank (by decide) _
  simp [colon, hcolon]

theorem reads_writeMembers
    (ih : ∀ m ∈ ms, ∀ tail, Closes tail → Reads (.value m.2) (m.2.write tail) tail)
    (tail : List Char) :
    Reads (.members false ms) (writeMembers ms tail) tail := by
  induction ms with
  | nil => exact .membersEnd (r := '\x7d' :: tail) rfl
  | cons m ms ihs =>
    obtain ⟨k, v⟩ := m
    obtain ⟨ihv, ih⟩ := List.forall_mem_cons.mp ih
    have hread := ihv (writeMembers ms tail) (closes_writeMembers ms tail)
    exact .member (nextKey_comma _) (text_writeChars k _) (colon_cons _) hread (ihs ih)

/-- A value is read as it is written. -/
theorem reads_write (h : v.Integral) (htail : Closes tail) :
    Reads (.value v) (v.write tail) tail := by
  induction v using nested generalizing tail with
  | null => exact .scalar rfl
  | bool b => cases b <;> exact .scalar rfl
  | num n =>
    cases n with
    | float x => exact absurd h id
    | int n => exact reads_intText h htail
  | str s =>
    apply Reads.scalar
    rw [write, writeText, valueWith_quote, text_writeChars]
    rfl
  | arr vs ih =>
    obtain ⟨-, hvs⟩ := all_arr.mp h
    refine .list (t := ((Json.arr vs).write tail).drop 1) ?_ ?_
    · cases vs <;> exact skipBlanks_of_not_isBlank (by decide) _
    · cases vs with
      | nil => exact .itemsEnd (r := ']' :: tail) rfl
      | cons v vs =>
        obtain ⟨hv, hvs⟩ := List.forall_mem_cons.mp hvs
        obtain ⟨ihv, ih⟩ := List.forall_mem_cons.mp ih
        obtain ⟨c, t, hhead, hblank, hc⟩ := write_head hv (writeItems vs tail)
        refine .item ?_ (ihv hv (closes_writeItems vs tail))
          (reads_writeItems hvs (fun w hw tail => ih w hw (hvs w hw)) tail)
        rw [write, List.drop_one, List.tail_cons, hhead]
        exact nextItem_at hblank hc t
  | obj ms ih =>
    obtain ⟨-, hms⟩ := all_obj.mp h
    refine .object (t := ((Json.obj ms).write tail).drop 1) ?_ ?_
    · cases ms <;> exact skipBlanks_of_not_isBlank (by decide) _
    · cases ms with
      | nil => exact .membersEnd (r := '\x7d' :: tail) rfl
      | cons m ms =>
        obtain ⟨k, v⟩ := m
        obtain ⟨hv, hms⟩ := List.forall_mem_cons.mp hms
        obtain ⟨ihv, ih⟩ := List.forall_mem_cons.mp ih
        exact .member (nextKey_quote _) (text_writeChars k _) (colon_cons _)
          (ihv hv (closes_writeMembers ms tail))
          (reads_writeMembers (fun w hw tail => ih w hw (hms w hw)) tail)

theorem spells_compact (h : v.Integral) : Spells v.compact.toList v :=
  ⟨[], String.toList_ofList ▸ reads_write h closes_nil, rfl⟩

end Values

end Json

end Workflow
