import Workflow.Json.Basic
import Workflow.Text

/-! The compact text of a JSON value: no blanks, and only those characters escaped that must be.

Every writer takes the text that follows, so that reading can be compared with writing in any
context. -/
namespace Workflow.Json

/-- The escape of a character below the blank, or of a quote or a
backslash, as it stands in a string. -/
def writeChar (c : Char) (tail : List Char) : List Char :=
  if c = '"' then '\\' :: '"' :: tail
  else if c = '\\' then '\\' :: '\\' :: tail
  else if c = '\n' then '\\' :: 'n' :: tail
  else if c = '\r' then '\\' :: 'r' :: tail
  else if c = '\t' then '\\' :: 't' :: tail
  else if c = '\x08' then '\\' :: 'b' :: tail
  else if c = '\x0c' then '\\' :: 'f' :: tail
  else if c.toNat < 0x20 then
    '\\' :: 'u' :: '0' :: '0' :: Nat.digitChar (c.toNat / 16) ::
      Nat.digitChar (c.toNat % 16) :: tail
  else c :: tail

def writeChars : List Char → List Char → List Char
  | [], tail => '"' :: tail
  | c :: cs, tail => writeChar c (writeChars cs tail)

def writeText (s : String) (tail : List Char) : List Char := '"' :: writeChars s.toList tail

mutual
def write : Json → List Char → List Char
  | .null, tail => 'n' :: 'u' :: 'l' :: 'l' :: tail
  | .bool true, tail => 't' :: 'r' :: 'u' :: 'e' :: tail
  | .bool false, tail => 'f' :: 'a' :: 'l' :: 's' :: 'e' :: tail
  | .num n, tail => n.text ++ tail
  | .str s, tail => writeText s tail
  | .arr [], tail => '[' :: ']' :: tail
  | .arr (v :: vs), tail => '[' :: write v (writeItems vs tail)
  | .obj [], tail => '\x7b' :: '\x7d' :: tail
  | .obj ((k, v) :: ms), tail => '\x7b' :: writeText k (':' :: write v (writeMembers ms tail))

/-- The items after the first, and the bracket. -/
def writeItems : List Json → List Char → List Char
  | [], tail => ']' :: tail
  | v :: vs, tail => ',' :: write v (writeItems vs tail)

/-- The members after the first, and the brace. -/
def writeMembers : List (String × Json) → List Char → List Char
  | [], tail => '\x7d' :: tail
  | (k, v) :: ms, tail => ',' :: writeText k (':' :: write v (writeMembers ms tail))
end

/-- The compact text. -/
def compact (v : Json) : String := String.ofList (v.write [])

/-- The text a value contributes to a joined text: a string is taken as it is. -/
def asText : Json → String
  | .str s => s
  | v => v.compact

end Workflow.Json
