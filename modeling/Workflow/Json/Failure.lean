import Workflow.Json.Basic
import Workflow.Text

/-! Why a text or a value could not be decoded, and where. -/
namespace Workflow.Json

/-- What stood where something else was expected. -/
inductive Found where
  | null
  | flag (value : Bool)
  | number (value : Number)
  | text (value : String)
  | list
  | object
deriving DecidableEq

/-- A well-formed value of the wrong kind. -/
inductive Mismatch where
  | invalidType (found : Found) (expected : String)
  | invalidValue (found : Found) (expected : String)
  | invalidLength (length : Nat) (expected : String)
  | missingField (name : String)
  | duplicateField (name : String)
  | unknownVariant (name : String) (known : List String)
deriving DecidableEq

inductive Cause where
  | eofValue
  | eofList
  | eofObject
  | eofText
  | expectedValue
  | expectedIdent
  | expectedColon
  | expectedListEnd
  | expectedObjectEnd
  | trailingComma
  | trailingCharacters
  | keyMustBeText
  | invalidNumber
  | numberOutOfRange
  | controlCharacter
  | invalidEscape
  | loneSurrogate
  | unexpectedEscapeEnd
  | tooDeep
  | mismatch (what : Mismatch)
deriving DecidableEq

def found : Json → Found
  | .null => .null
  | .bool b => .flag b
  | .num n => .number n
  | .str s => .text s
  | .arr _ => .list
  | .obj _ => .object

/-- A name between grave accents. -/
def ticked (s : String) : String := "`" ++ s ++ "`"

def Found.message : Found → String
  | .null => "null"
  | .flag b => "boolean " ++ ticked (if b then "true" else "false")
  | .number (.int n) => "integer " ++ ticked (String.ofList (Number.intText n))
  | .number (.float x) => "floating point " ++ ticked (String.ofList x.text)
  | .text s => "string " ++ Text.quoted s
  | .list => "sequence"
  | .object => "map"

/-- One name as it is, two joined by "or", more as a list. -/
def oneOf : List String → String
  | [] => "there are no variants"
  | [a] => "expected " ++ ticked a
  | [a, b] => "expected " ++ ticked a ++ " or " ++ ticked b
  | names => "expected one of " ++ ", ".intercalate (names.map ticked)

def Mismatch.message : Mismatch → String
  | .invalidType f e => "invalid type: " ++ f.message ++ ", expected " ++ e
  | .invalidValue f e => "invalid value: " ++ f.message ++ ", expected " ++ e
  | .invalidLength n e => "invalid length " ++ toString n ++ ", expected " ++ e
  | .missingField f => "missing field " ++ ticked f
  | .duplicateField f => "duplicate field " ++ ticked f
  | .unknownVariant v known => "unknown variant " ++ ticked v ++ ", " ++ oneOf known

def Cause.message : Cause → String
  | .eofValue => "EOF while parsing a value"
  | .eofList => "EOF while parsing a list"
  | .eofObject => "EOF while parsing an object"
  | .eofText => "EOF while parsing a string"
  | .expectedValue => "expected value"
  | .expectedIdent => "expected ident"
  | .expectedColon => "expected `:`"
  | .expectedListEnd => "expected `,` or `]`"
  | .expectedObjectEnd => "expected `,` or `\x7d`"
  | .trailingComma => "trailing comma"
  | .trailingCharacters => "trailing characters"
  | .keyMustBeText => "key must be a string"
  | .invalidNumber => "invalid number"
  | .numberOutOfRange => "number out of range"
  | .controlCharacter => "control character (\\u0000-\\u001F) found while parsing a string"
  | .invalidEscape => "invalid escape"
  | .loneSurrogate => "lone leading surrogate in hex escape"
  | .unexpectedEscapeEnd => "unexpected end of hex escape"
  | .tooDeep => "recursion limit exceeded"
  | .mismatch m => m.message

/-- A cause and its place: the text that was not consumed, and
how many bytes of it were looked at. -/
structure Failure where
  cause : Cause
  rest : List Char
  ahead : Nat
deriving DecidableEq

namespace Failure

/-- Noticed after everything before `rest` was consumed. -/
def read (cause : Cause) (rest : List Char) : Failure := ⟨cause, rest, 0⟩

/-- Noticed at the first byte of `rest`, which counts too. -/
def seen (cause : Cause) (rest : List Char) : Failure := ⟨cause, rest, 1⟩

end Failure

/-- Line and column after the first `offset` bytes: lines count from one, columns are the bytes
since the last line break. -/
def placeFrom (line column : Nat) : List Char → (offset : Nat) → Nat × Nat
  | _, 0 | [], _ => (line, column)
  | c :: cs, offset =>
    if c = '\n' then placeFrom (line + 1) 0 cs (offset - 1)
    else placeFrom line (column + min c.utf8Size offset) cs (offset - c.utf8Size)

/-- The error text, with the place in the whole text that was read. -/
def Failure.message (f : Failure) (text : List Char) : String :=
  let left := Text.byteCount f.rest
  let (line, column) := placeFrom 1 0 text (Text.byteCount text - left + min f.ahead left)
  f.cause.message ++ " at line " ++ toString line ++ " column " ++ toString column

end Workflow.Json
