import Workflow.Json.Reader

/-! Passing over a JSON value without keeping it. Nothing is limited in depth or range here, and an
escape only has to be complete. -/
namespace Workflow.Json

/-- An escape after its backslash. -/
def skipEscape (s : List Char) : Except Failure (List Char) :=
  match s with
  | [] => .error (.read .eofText [])
  | c :: r =>
    if c = 'u' then do
      let (_, r) ← hexCode r
      .ok r
    else if c = '"' ∨ c = '\\' ∨ c = '/' ∨ c = 'b' ∨ c = 'f' ∨ c = 'n' ∨ c = 'r' ∨
      c = 't' then .ok r
    else .error (.seen .invalidEscape s)

def skipTextBody : (count : List Char) → List Char → Except Failure (List Char)
  | [], s => .error (.read .eofText s)
  | _ :: count, s =>
    match s with
    | [] => .error (.read .eofText [])
    | c :: r =>
      if c = '"' then .ok r
      else if c = '\\' then do
        let r ← skipEscape r
        skipTextBody count r
      else if c.toNat < 0x20 then .error (.read .controlCharacter s)
      else skipTextBody count r

/-- A string after its opening quote. -/
def skipText (s : List Char) : Except Failure (List Char) := skipTextBody s s

/-- At least one digit, and all that follow. -/
def skipDigits (s : List Char) : Except Failure (List Char) :=
  match s with
  | [] => .error (.read .invalidNumber [])
  | c :: _ =>
    if c.isDigit then .ok (s.dropWhile Char.isDigit) else .error (.seen .invalidNumber s)

def skipExponent (s : List Char) : Except Failure (List Char) :=
  match s with
  | 'e' :: r | 'E' :: r =>
    skipDigits (if r.head? = some '+' ∨ r.head? = some '-' then r.drop 1 else r)
  | _ => .ok s

/-- What follows the digits before the point. -/
def skipFraction (s : List Char) : Except Failure (List Char) :=
  match s with
  | '.' :: r => do
    let r ← skipDigits r
    skipExponent r
  | _ => skipExponent s

/-- A number after its sign. A leading zero stands alone. -/
def skipNumber (s : List Char) : Except Failure (List Char) :=
  match s with
  | '0' :: r => if r.head?.any Char.isDigit then .error (.seen .invalidNumber r) else skipFraction r
  | _ => do
    let r ← skipDigits s
    skipFraction r

inductive Bracket where
  | list
  | object
deriving DecidableEq

/-- A key and its colon. -/
def skipKey (s : List Char) : Except Failure (List Char) :=
  match skipBlanks s with
  | [] => .error (.seen .eofObject [])
  | c :: r =>
    if c = '"' then do
      let r ← skipText r
      colon r
    else .error (.seen .keyMustBeText (c :: r))

/-- A scalar that begins with `c`. -/
def skipScalar (c : Char) (r : List Char) : Except Failure (List Char) :=
  if c = 'n' then ident ['u', 'l', 'l'] r
  else if c = 't' then ident ['r', 'u', 'e'] r
  else if c = 'f' then ident ['a', 'l', 's', 'e'] r
  else if c = '-' then skipNumber r
  else if c.isDigit then skipNumber (c :: r)
  else if c = '"' then skipText r
  else .error (.seen .expectedValue (c :: r))

/-- Passes over the values that close all open brackets, the innermost first. With `done` a value
has just ended, otherwise one must begin. -/
def skipLoop : (count : List Char) → (done : Bool) → (open_ : List Bracket) → List Char →
    Except Failure (List Char)
  | _, true, [], s => .ok s
  | [], true, .list :: _, s => .error (.seen .eofList s)
  | [], true, .object :: _, s => .error (.seen .eofObject s)
  | [], false, _, s => .error (.seen .eofValue s)
  | _ :: count, true, .list :: outer, s =>
    match skipBlanks s with
    | [] => .error (.seen .eofList [])
    | c :: r =>
      if c = ',' then skipLoop count false (.list :: outer) r
      else if c = ']' then skipLoop count true outer r
      else .error (.seen .expectedListEnd (c :: r))
  | _ :: count, true, .object :: outer, s =>
    match skipBlanks s with
    | [] => .error (.seen .eofObject [])
    | c :: r =>
      if c = ',' then do
        let r ← skipKey r
        skipLoop count false (.object :: outer) r
      else if c = '\x7d' then skipLoop count true outer r
      else .error (.seen .expectedObjectEnd (c :: r))
  | _ :: count, false, outer, s =>
    match skipBlanks s with
    | [] => .error (.seen .eofValue [])
    | c :: r =>
      if c = '[' then
        match skipBlanks r with
        | [] => .error (.seen .eofList [])
        | d :: r' =>
          if d = ']' then skipLoop count true outer r'
          else skipLoop count false (.list :: outer) (d :: r')
      else if c = '\x7b' then
        match skipBlanks r with
        | [] => .error (.seen .eofObject [])
        | d :: r' =>
          if d = '\x7d' then skipLoop count true outer r'
          else do
            let r ← skipKey (d :: r')
            skipLoop count false (.object :: outer) r
      else do
        let r ← skipScalar c r
        skipLoop count true outer r

/-- Passes over one value. -/
def skipValue (s : List Char) : Except Failure (List Char) := skipLoop s false [] s

end Workflow.Json
