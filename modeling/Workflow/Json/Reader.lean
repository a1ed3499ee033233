import Workflow.Json.Failure
import Workflow.Text

/-! Reading JSON text. Every reader takes the text that is left and returns what it leaves.

Loops over the text count down a second list, which starts as the text they are given: a loop
consumes at least one character a round, so the count never runs out before the text does. -/
namespace Workflow.Json

/-- A reader of one thing at the head of the text. -/
abbrev Scan (α : Type) := List Char → Except Failure (α × List Char)

def isBlank (c : Char) : Bool := c = ' ' || c = '\t' || c = '\n' || c = '\r'

def skipBlanks (s : List Char) : List Char := s.dropWhile isBlank

/-- The rest of a word whose first letter has been seen. -/
def ident : List Char → List Char → Except Failure (List Char)
  | [], s => .ok s
  | _ :: _, [] => .error (.read .eofValue [])
  | e :: es, c :: s => if c = e then ident es s else .error (.seen .expectedIdent (c :: s))

section Text

/-- Four hexadecimal digits. Fewer than four bytes are an unfinished string; other characters among
the four bytes are noticed only after all of them. -/
def hexCode (s : List Char) : Except Failure (Nat × List Char) :=
  match s with
  | a :: b :: c :: d :: r =>
    match Text.hexNumber? [a, b, c, d] with
    | some code => .ok (code, r)
    | none => .error ⟨.invalidEscape, s, 4⟩
  | _ =>
    if Text.byteCount s < 4 then .error (.read .eofText []) else .error ⟨.invalidEscape, s, 4⟩

/-- The second half of a pair of escapes that stand for one character above the first plane. -/
def lowSurrogate (high : Nat) (s : List Char) : Except Failure (Char × List Char) :=
  match s with
  | [] | ['\\'] => .error (.read .eofText [])
  | '\\' :: 'u' :: r => do
    let (low, r) ← hexCode r
    if 0xDC00 ≤ low ∧ low ≤ 0xDFFF then
      .ok (Char.ofNat ((high - 0xD800) * 1024 + (low - 0xDC00) + 0x10000), r)
    else .error (.read .loneSurrogate r)
  | '\\' :: r => .error (.seen .unexpectedEscapeEnd r)
  | _ => .error (.seen .unexpectedEscapeEnd s)

/-- The character that an escape stands for, after its backslash. -/
def escape (s : List Char) : Except Failure (Char × List Char) :=
  match s with
  | [] => .error (.read .eofText [])
  | c :: r =>
    if c = '"' ∨ c = '\\' ∨ c = '/' then .ok (c, r)
    else if c = 'b' then .ok ('\x08', r)
    else if c = 'f' then .ok ('\x0c', r)
    else if c = 'n' then .ok ('\n', r)
    else if c = 'r' then .ok ('\r', r)
    else if c = 't' then .ok ('\t', r)
    else if c = 'u' then do
      let (code, r) ← hexCode r
      if 0xDC00 ≤ code ∧ code ≤ 0xDFFF then .error (.read .loneSurrogate r)
      else if 0xD800 ≤ code ∧ code ≤ 0xDBFF then lowSurrogate code r
      else .ok (Char.ofNat code, r)
    else .error (.seen .invalidEscape s)

/-- The characters of a string up to its closing quote, which is consumed. -/
def textBody : (count : List Char) → Scan (List Char)
  | [], s => .error (.read .eofText s)
  | _ :: count, s =>
    match s with
    | [] => .error (.read .eofText [])
    | c :: r =>
      if c = '"' then .ok ([], r)
      else if c = '\\' then do
        let (x, r) ← escape r
        let (xs, r) ← textBody count r
        .ok (x :: xs, r)
      else if c.toNat < 0x20 then .error (.read .controlCharacter r)
      else do
        let (xs, r) ← textBody count r
        .ok (c :: xs, r)

/-- A string after its opening quote. -/
def text : Scan String := fun s => do
  let (cs, r) ← textBody s s
  .ok (String.ofList cs, r)

end Text

section Numbers

/-- The double of a significand, at the end of its number. -/
def float (negative : Bool) (sig : Number.Significand) : Scan Number := fun rest =>
  match sig.toDouble? negative with
  | some x => .ok (.float x, rest)
  | none => .error (.read .numberOutOfRange rest)

/-- The value of exponent digits, or the digits left after the one that goes beyond 32 bits. -/
def power (n : Nat) : List Char → Except (List Char) Nat
  | [] => .ok n
  | c :: cs =>
    let m := n * 10 + Number.Significand.digitValue c
    if m < 0x80000000 then power m cs else .error cs

/-- An exponent after its letter. An exponent beyond 32 bits leaves only zero, or no number. -/
def exponent (negative : Bool) (sig : Number.Significand) : Scan Number := fun s =>
  let up := s.head? ≠ some '-'
  let digits := if s.head? = some '+' ∨ s.head? = some '-' then s.drop 1 else s
  match digits with
  | [] => .error (.read .eofValue [])
  | c :: _ =>
    if c.isDigit then
      let rest := digits.dropWhile Char.isDigit
      match power 0 (digits.takeWhile Char.isDigit) with
      | .ok n =>
        float negative ⟨sig.value, if up then sig.exponent + n else sig.exponent - n⟩ rest
      | .error left =>
        if sig.value ≠ 0 ∧ up then .error (.read .numberOutOfRange (left ++ rest))
        else float negative ⟨0, 0⟩ rest
    else .error (.seen .invalidNumber digits)

/-- Whether an exponent follows, and the number if none does. -/
def scaled (negative : Bool) (sig : Number.Significand) : Scan Number := fun s =>
  match s with
  | 'e' :: r | 'E' :: r => exponent negative sig r
  | _ => float negative sig s

/-- The digits after a point. -/
def fractional (negative : Bool) (sig : Number.Significand) : Scan Number := fun s =>
  match s with
  | [] => .error (.seen .eofValue [])
  | c :: _ =>
    if c.isDigit then
      scaled negative (sig.part (s.takeWhile Char.isDigit)) (s.dropWhile Char.isDigit)
    else .error (.seen .invalidNumber s)

/-- The integer of a significand without point and exponent, if it is one: minus zero and what goes
beyond the words are doubles. -/
def integer (negative : Bool) (sig : Number.Significand) : Scan Number := fun rest =>
  let n : Int := if negative then -sig.value else sig.value
  if sig.exponent = 0 ∧ Number.isWord n ∧ ¬ (negative ∧ n = 0) then .ok (.int n, rest)
  else float negative sig rest

/-- A number after its sign. A leading zero stands alone. -/
def number (negative : Bool) : Scan Number := fun s =>
  match s with
  | [] => .error (.read .eofValue [])
  | c :: r =>
    if c.isDigit then
      let digits := if c = '0' then [c] else s.takeWhile Char.isDigit
      let rest := if c = '0' then r else s.dropWhile Char.isDigit
      if c = '0' ∧ (rest.head?.any Char.isDigit) then .error (.seen .invalidNumber rest)
      else
        let sig := Number.Significand.whole ⟨0, 0⟩ digits
        match rest with
        | '.' :: r => fractional negative sig r
        | 'e' :: r | 'E' :: r => exponent negative sig r
        | _ => integer negative sig rest
    else .error (.seen .invalidNumber s)

end Numbers

section Containers

/-- Whether another item follows, with the text at that item or at the closing bracket. -/
def nextItem (first : Bool) (s : List Char) : Except Failure (Bool × List Char) :=
  match skipBlanks s with
  | [] => .error (.seen .eofList [])
  | c :: r =>
    if c = ']' then .ok (false, c :: r)
    else if first then .ok (true, c :: r)
    else if c = ',' then
      match skipBlanks r with
      | [] => .error (.seen .eofValue [])
      | d :: r' => if d = ']' then .error (.seen .trailingComma (d :: r')) else .ok (true, d :: r')
    else .error (.seen .expectedListEnd (c :: r))

/-- The closing bracket of a list of which no more items are wanted. -/
def endItems (s : List Char) : Except Failure (List Char) :=
  match skipBlanks s with
  | [] => .error (.seen .eofList [])
  | c :: r =>
    if c = ']' then .ok r
    else if c = ',' then
      match skipBlanks r with
      | ']' :: r' => .error (.seen .trailingComma (']' :: r'))
      | r' => .error (.seen .trailingCharacters r')
    else .error (.seen .trailingCharacters (c :: r))

/-- Whether another member follows, with the text after the quote of its key or at the brace. -/
def nextKey (first : Bool) (s : List Char) : Except Failure (Bool × List Char) :=
  match skipBlanks s with
  | [] => .error (.seen .eofObject [])
  | c :: r =>
    if c = '\x7d' then .ok (false, c :: r)
    else if first then
      if c = '"' then .ok (true, r) else .error (.seen .keyMustBeText (c :: r))
    else if c = ',' then
      match skipBlanks r with
      | [] => .error (.seen .eofValue [])
      | d :: r' =>
        if d = '"' then .ok (true, r')
        else if d = '\x7d' then .error (.seen .trailingComma (d :: r'))
        else .error (.seen .keyMustBeText (d :: r'))
    else .error (.seen .expectedObjectEnd (c :: r))

/-- The colon between key and value. -/
def colon (s : List Char) : Except Failure (List Char) :=
  match skipBlanks s with
  | [] => .error (.seen .eofObject [])
  | c :: r => if c = ':' then .ok r else .error (.seen .expectedColon (c :: r))

/-- The items of a list up to its closing bracket, which is consumed. -/
def items {α : Type} (item : Scan α) : (count : List Char) → (first : Bool) → Scan (List α)
  | [], _, s => .error (.seen .eofList s)
  | _ :: count, first, s => do
    let (more, r) ← nextItem first s
    if more then
      let (x, r) ← item r
      let (xs, r) ← items item count false r
      .ok (x :: xs, r)
    else .ok ([], r.drop 1)

/-- The members of an object in reading order, up to its closing brace, which is consumed. -/
def members {α : Type} (item : Scan α) :
    (count : List Char) → (first : Bool) → Scan (List (String × α))
  | [], _, s => .error (.seen .eofObject s)
  | _ :: count, first, s => do
    let (more, r) ← nextKey first s
    if more then
      let (key, r) ← text r
      let r ← colon r
      let (x, r) ← item r
      let (xs, r) ← members item count false r
      .ok ((key, x) :: xs, r)
    else .ok ([], r.drop 1)

end Containers

/-- A value whose items, if it has any, are read by `nested`; without it no list or object is
allowed. -/
def valueWith (nested : Option (Scan Json)) : Scan Json := fun s =>
  match skipBlanks s with
  | [] => .error (.seen .eofValue [])
  | c :: r =>
    if c = 'n' then do
      let r ← ident ['u', 'l', 'l'] r
      .ok (.null, r)
    else if c = 't' then do
      let r ← ident ['r', 'u', 'e'] r
      .ok (.bool true, r)
    else if c = 'f' then do
      let r ← ident ['a', 'l', 's', 'e'] r
      .ok (.bool false, r)
    else if c = '-' then do
      let (n, r) ← number true r
      .ok (.num n, r)
    else if c.isDigit then do
      let (n, r) ← number false (c :: r)
      .ok (.num n, r)
    else if c = '"' then do
      let (t, r) ← text r
      .ok (.str t, r)
    else if c = '[' then
      match nested with
      | none => .error (.seen .tooDeep (c :: r))
      | some item => do
        let (vs, r) ← items item r true r
        .ok (.arr vs, r)
    else if c = '\x7b' then
      match nested with
      | none => .error (.seen .tooDeep (c :: r))
      | some item => do
        let (ms, r) ← members item r true r
        .ok (object ms, r)
    else .error (.seen .expectedValue (c :: r))

/-- A value with at most `depth` lists and objects inside one another. -/
def value : (depth : Nat) → Scan Json
  | 0 => valueWith none
  | depth + 1 => valueWith (some (value depth))

/-- The nesting that is still read. -/
def maxDepth : Nat := 127

/-- The whole text is one thing, up to blanks. -/
def whole {α : Type} (scan : Scan α) (s : List Char) : Except Failure α := do
  let (x, r) ← scan s
  match skipBlanks r with
  | [] => .ok x
  | r => .error (.seen .trailingCharacters r)

/-- Reads a text that is one JSON value. -/
def parse (s : String) : Except Failure Json := whole (value maxDepth) s.toList

/-- Reads a text that is one JSON value, or says in words why it is none. -/
def parseText (s : String) : Except String Json :=
  (parse s).mapError fun f => f.message s.toList

end Workflow.Json
