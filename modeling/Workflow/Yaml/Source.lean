import Workflow.Text

/-! Positions in a YAML text, and the classes of characters that its layout is made of. -/
namespace Workflow.Yaml

def isBlank (c : Char) : Bool := c = ' ' || c = '\t'

def isBreak (c : Char) : Bool :=
  c = '\n' || c = '\r' || c = '\u0085' || c = '\u2028' || c = '\u2029'

/-- A character that may stand in a text. -/
def isAllowed (c : Char) : Bool :=
  isBlank c || isBreak c || (0x20 ≤ c.toNat && c.toNat ≤ 0x7E)
    || (0xA0 ≤ c.toNat && c.toNat ≤ 0xFFFD) || 0x10000 ≤ c.toNat

/-- The unread part of a text and where it starts. -/
structure Source where
  rest : List Char
  /-- How many bytes were read. -/
  index : Nat
  line : Nat
  column : Nat

namespace Source

def ofText (text : String) : Source := ⟨text.toList, 0, 0, 0⟩

/-- Past some characters of the current line. -/
def skip (s : Source) (n : Nat) : Source :=
  { s with
    rest := s.rest.drop n
    index := s.index + Text.byteCount (s.rest.take n)
    column := s.column + n }

/-- Past a line break; a carriage return and a line feed make one. -/
def skipBreak (s : Source) : Source :=
  match s.rest with
  | '\r' :: '\n' :: rest => ⟨rest, s.index + 2, s.line + 1, 0⟩
  | c :: rest => ⟨rest, s.index + c.utf8Size, s.line + 1, 0⟩
  | [] => s

/-- To the end of the line. -/
def skipLine (s : Source) : Source :=
  s.skip (s.rest.takeWhile fun c => !isBreak c).length

/-- The text is blank, breaks or ends at the given distance. -/
def gapAt (s : Source) (n : Nat) : Bool :=
  match s.rest.drop n with
  | c :: _ => isBlank c || isBreak c
  | [] => true

/-- A line starts with the given mark of a document, which stands on its own. -/
def atMark (s : Source) (c : Char) : Bool :=
  s.column = 0 && s.rest.take 3 = [c, c, c] && s.gapAt 3

def atDocumentMark (s : Source) : Bool := s.atMark '-' || s.atMark '.'

end Source

end Workflow.Yaml
