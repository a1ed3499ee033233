import Mathlib.Data.Nat.Digits.Defs
import Workflow.Fault
import Workflow.Text

/-! Quoted text can be read back.

Reading a character after its quoting gives the character and the rest, so a quoted text and what
follows it are known from the whole. The debug text of a fault, which quotes all its texts,
therefore tells the fault. -/
namespace Workflow

namespace Text
variable {n : Nat} {c : Char} {s t x y : String} {cs ds xs ys : List Char}

theorem hexValue?_digitChar : ∀ n < 16, hexValue? (Nat.digitChar n) = some n := by decide

theorem hexDigits_eq (n : Nat) : hexDigits n =
    if n < 16 then [Nat.digitChar n] else hexDigits (n / 16) ++ [Nat.digitChar (n % 16)] :=
  Nat.toDigits_eq_if (by decide)

theorem hexNumber?_hexDigits (n : Nat) : hexNumber? (hexDigits n) = some n := by
  induction n using Nat.strongRecOn with
  | ind n ih =>
    rw [hexDigits_eq]
    split
    next h => simp [hexNumber?, hexValue?_digitChar n h]
    next h =>
      have hlow := hexValue?_digitChar (n % 16) (Nat.mod_lt n (by decide))
      have hhigh := ih (n / 16) (by omega)
      unfold hexNumber? at hhigh ⊢
      rw [List.foldlM_append, hhigh]
      simp only [Option.bind_eq_bind, Option.bind_some, List.foldlM_cons, hlow, Option.map_some,
        List.foldlM_nil, Option.pure_def, Option.some.injEq]
      omega

/-- No digit closes the brace around a code. -/
theorem ne_brace_of_mem_hexDigits (h : c ∈ hexDigits n) : c ≠ '\x7d' := by
  have hdigit : ∀ k < 16, Nat.digitChar k ≠ '\x7d' := by decide
  induction n using Nat.strongRecOn with
  | ind n ih =>
    rw [hexDigits_eq] at h
    split at h
    next hn =>
      rw [List.mem_singleton.mp h]
      exact hdigit n hn
    next hn =>
      obtain h | h := List.mem_append.mp h
      · exact ih (n / 16) (by omega) h
      · rw [List.mem_singleton.mp h]
        exact hdigit _ (Nat.mod_lt n (by decide))

/-- Reads what stands after a backslash: a code in braces, a letter for a blank,
or a mark that stands for itself. -/
def unescape : List Char → Option (Char × List Char)
  | [] => none
  | e :: rest =>
    if e = 'u' then
      (hexNumber? (rest.tail.takeWhile (· ≠ '\x7d'))).map fun n =>
        (Char.ofNat n, (rest.tail.dropWhile (· ≠ '\x7d')).tail)
    else if e = 'n' then some ('\n', rest)
    else if e = 'r' then some ('\r', rest)
    else if e = 't' then some ('\t', rest)
    else if e = '0' then some ('\x00', rest)
    else some (e, rest)

/-- Reads a character from inside double quotes. The closing quote is none. -/
def unquoteChar : List Char → Option (Char × List Char)
  | [] => none
  | c :: rest =>
    if c = '\\' then unescape rest
    else if c = '"' then none
    else some (c, rest)

theorem unescape_code (c : Char) (rest : List Char) :
    unescape (['u', '\x7b'] ++ hexDigits c.toNat ++ ['\x7d'] ++ rest) = some (c, rest) := by
  have hdigits : ∀ d ∈ hexDigits c.toNat, decide (d ≠ '\x7d') = true :=
    fun d hd => decide_eq_true (ne_brace_of_mem_hexDigits hd)
  simp only [List.append_assoc, List.cons_append, List.nil_append, unescape, if_true,
    List.tail_cons, List.takeWhile_append_of_pos hdigits, List.dropWhile_append_of_pos hdigits]
  simp [hexNumber?_hexDigits, Char.ofNat_toNat]

theorem unquoteChar_quoteChar (c : Char) (rest : List Char) :
    unquoteChar (quoteChar c ++ rest) = some (c, rest) := by
  unfold quoteChar
  split
  next h => simp [unquoteChar, unescape, h]
  next hquote =>
  split
  next h => simp [unquoteChar, unescape, h]
  next hslash =>
  split
  next h => simp [unquoteChar, unescape, h]
  next =>
  split
  next h => simp [unquoteChar, unescape, h]
  next =>
  split
  next h => simp [unquoteChar, unescape, h]
  next =>
  split
  next h => simp [unquoteChar, unescape, h]
  next =>
  split
  next => exact unescape_code c rest
  next => simp [unquoteChar, hquote, hslash]

theorem unquoteChar_quote (rest : List Char) : unquoteChar ('"' :: rest) = none := rfl

/-- Where the quoting of a text ends is seen from its marks. -/
theorem quoteChars_append_inj
    (h : cs.flatMap quoteChar ++ '"' :: xs = ds.flatMap quoteChar ++ '"' :: ys) :
    cs = ds ∧ xs = ys := by
  induction cs generalizing ds with
  | nil =>
    cases ds with
    | nil => simpa using h
    | cons d ds =>
      have hread := congrArg unquoteChar h
      simp only [List.flatMap_nil, List.nil_append, List.flatMap_cons, List.append_assoc,
        unquoteChar_quoteChar, unquoteChar_quote, reduceCtorEq] at hread
  | cons c cs ih =>
    have hread := congrArg unquoteChar h
    cases ds with
    | nil =>
      simp only [List.flatMap_nil, List.nil_append, List.flatMap_cons, List.append_assoc,
        unquoteChar_quoteChar, unquoteChar_quote, reduceCtorEq] at hread
    | cons d ds =>
      simp only [List.flatMap_cons, List.append_assoc, unquoteChar_quoteChar, Option.some.injEq,
        Prod.mk.injEq] at hread
      obtain ⟨rfl, hrest⟩ := hread
      obtain ⟨rfl, rfl⟩ := ih hrest
      exact ⟨rfl, rfl⟩

theorem quoted_append_inj (h : quoted s ++ x = quoted t ++ y) : s = t ∧ x = y := by
  have hlist := congrArg String.toList h
  simp only [quoted, String.toList_append, String.toList_ofList, List.cons_append,
    List.append_assoc, List.nil_append, List.cons.injEq, true_and] at hlist
  obtain ⟨hs, hx⟩ := quoteChars_append_inj hlist
  exact ⟨String.toList_inj.mp hs, String.toList_inj.mp hx⟩

end Text

theorem Collaborator.debug_append_inj {who who' : Collaborator} {x y : String}
    (h : who.debug ++ x = who'.debug ++ y) : who = who' ∧ x = y := by
  -- the first letters differ
  have hlength (who : Collaborator) : 1 ≤ who.debug.toList.length := by cases who <;> simp [debug]
  have hfirst : who.debug.toList.take 1 = who'.debug.toList.take 1 := by
    have htake := congrArg (·.toList.take 1) h
    simpa only [String.toList_append, List.take_append_of_le_length (hlength _)] using htake
  obtain rfl : who = who' := by
    cases who <;> cases who' <;> simp [debug] at hfirst ⊢
  exact ⟨rfl, (String.append_right_inj _).mp h⟩

namespace Fault

/-- The letters that tell the causes apart. -/
def initials : Fault → List Char
  | .decode .. => ['D', 'e', 'c']
  | .collaborator .. => ['C', 'o', 'l']
  | .explicit _ => ['E', 'x', 'p']
  | .serialization _ => ['S', 'e', 'r']
  | .forkAbandoned _ => ['F', 'o', 'r']
  | .taskFailed _ => ['T', 'a', 's']
  | .emptyRace => ['E', 'm', 'p']
  | .configuration _ => ['C', 'o', 'n']
  | .typeMismatch _ => ['T', 'y', 'p']

/-- A debug text begins with the name of the cause. -/
theorem debug_eq_kind_append (e : Fault) : ∃ rest, e.debug = e.kind ++ rest := by
  cases e with
  | decode payload reason =>
    have hsplit : "Decode \x7b payload: " = "Decode" ++ " \x7b payload: " := rfl
    refine ⟨" \x7b payload: " ++ Text.quoted payload ++ ", reason: " ++ Text.quoted reason ++
      " \x7d", ?_⟩
    show "Decode \x7b payload: " ++ _ ++ _ ++ _ ++ _ = "Decode" ++ _
    rw [hsplit]
    simp only [String.append_assoc]
  | collaborator who message =>
    have hsplit :
        "Collaborator \x7b collaborator: " = "Collaborator" ++ " \x7b collaborator: " := rfl
    refine ⟨" \x7b collaborator: " ++ who.debug ++ ", message: " ++ Text.quoted message ++
      " \x7d", ?_⟩
    show "Collaborator \x7b collaborator: " ++ _ ++ _ ++ _ ++ _ = "Collaborator" ++ _
    rw [hsplit]
    simp only [String.append_assoc]
  | emptyRace => exact ⟨"", rfl⟩
  | _ => exact ⟨_, String.append_assoc.trans String.append_assoc⟩

theorem take_debug (e : Fault) : e.debug.toList.take 3 = e.initials := by
  have hkind : e.kind.toList.take 3 = e.initials := by cases e <;> simp [kind, initials]
  have hlength : 3 ≤ e.kind.toList.length := by
    have hinitials : e.initials.length = 3 := by cases e <;> rfl
    rw [← hkind, List.length_take] at hinitials
    omega
  obtain ⟨rest, hrest⟩ := e.debug_eq_kind_append
  rw [hrest, String.toList_append, List.take_append_of_le_length hlength, hkind]

theorem text_inj {tag s t : String}
    (h : tag ++ "(" ++ Text.quoted s ++ ")" = tag ++ "(" ++ Text.quoted t ++ ")") : s = t := by
  simp only [String.append_assoc, String.append_right_inj] at h
  exact (Text.quoted_append_inj h).1

theorem debug_decode_inj {payload reason payload' reason' : String}
    (h : (decode payload reason).debug = (decode payload' reason').debug) :
    payload = payload' ∧ reason = reason' := by
  replace h : "Decode \x7b payload: " ++ Text.quoted payload ++ ", reason: " ++
    Text.quoted reason ++ " \x7d" =
    "Decode \x7b payload: " ++ Text.quoted payload' ++ ", reason: " ++
      Text.quoted reason' ++ " \x7d" := h
  simp only [String.append_assoc, String.append_right_inj] at h
  obtain ⟨hpayload, h⟩ := Text.quoted_append_inj h
  rw [String.append_right_inj] at h
  exact ⟨hpayload, (Text.quoted_append_inj h).1⟩

theorem debug_collaborator_inj {who who' : Collaborator} {message message' : String}
    (h : (collaborator who message).debug = (collaborator who' message').debug) :
    who = who' ∧ message = message' := by
  replace h : "Collaborator \x7b collaborator: " ++ who.debug ++ ", message: " ++
    Text.quoted message ++ " \x7d" =
    "Collaborator \x7b collaborator: " ++ who'.debug ++ ", message: " ++
      Text.quoted message' ++ " \x7d" := h
  simp only [String.append_assoc, String.append_right_inj] at h
  obtain ⟨hwho, h⟩ := Collaborator.debug_append_inj h
  rw [String.append_right_inj] at h
  exact ⟨hwho, (Text.quoted_append_inj h).1⟩

theorem debug_injective : Function.Injective debug := by
  intro e e' h
  have hinitials : e.initials = e'.initials := by rw [← take_debug, h, take_debug]
  cases e with
  | decode payload reason =>
    cases e' with
    | decode payload' reason' =>
      obtain ⟨rfl, rfl⟩ := debug_decode_inj h
      rfl
    | _ => simp [initials] at hinitials
  | collaborator who message =>
    cases e' with
    | collaborator who' message' =>
      obtain ⟨rfl, rfl⟩ := debug_collaborator_inj h
      rfl
    | _ => simp [initials] at hinitials
  | emptyRace =>
    cases e' with
    | emptyRace => rfl
    | _ => simp [initials] at hinitials
  | explicit s =>
    cases e' with
    | explicit t => exact congrArg explicit (text_inj h)
    | _ => simp [initials] at hinitials
  | serialization s =>
    cases e' with
    | serialization t => exact congrArg serialization (text_inj h)
    | _ => simp [initials] at hinitials
  | forkAbandoned s =>
    cases e' with
    | forkAbandoned t => exact congrArg forkAbandoned (text_inj h)
    | _ => simp [initials] at hinitials
  | taskFailed s =>
    cases e' with
    | taskFailed t => exact congrArg taskFailed (text_inj h)
    | _ => simp [initials] at hinitials
  | configuration s =>
    cases e' with
    | configuration t => exact congrArg configuration (text_inj h)
    | _ => simp [initials] at hinitials
  | typeMismatch s =>
    cases e' with
    | typeMismatch t => exact congrArg typeMismatch (text_inj h)
    | _ => simp [initials] at hinitials

end Fault

end Workflow
