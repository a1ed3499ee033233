import Workflow.Text

/-! Ids of 128 bits, written as 32 hexadecimal digits in five groups. -/
namespace Workflow

structure Ident where
  value : Nat
deriving DecidableEq

namespace Ident

/-- The lengths of the groups. -/
def groups : List Nat := [8, 4, 4, 4, 12]

/-- The digits cut into groups of the given lengths; the last group takes what is left. -/
def cut : List Nat → List Char → List (List Char)
  | [], _ => []
  | [_], ds => [ds]
  | n :: ns, ds => ds.take n :: cut ns (ds.drop n)

/-- At least 32 lower case digits. -/
def digits (i : Ident) : List Char :=
  let ds := Nat.toDigits 16 i.value
  List.replicate (32 - ds.length) '0' ++ ds

def text (i : Ident) : String :=
  "-".intercalate ((cut groups i.digits).map String.ofList)

def ofDigits? (ds : List Char) : Option Ident :=
  if ds.length = 32 then (Text.hexNumber? ds).map Ident.mk else none

/-- Five groups of digits with a hyphen between them. -/
def ofGroups? (s : List Char) : Option Ident :=
  let parts := s.splitOn '-'
  if parts.map List.length = groups then ofDigits? parts.flatten else none

/-- Plain digits, or groups that may stand in braces or behind a name space, in either case. -/
def parse? (s : String) : Option Ident :=
  let cs := s.toList
  if cs.length = 32 then ofDigits? cs
  else if cs.head? = some '\x7b' ∧ cs.getLast? = some '\x7d' then
    ofGroups? (cs.drop 1).dropLast
  else if (cs.take 9).map Char.toLower = "urn:uuid:".toList then ofGroups? (cs.drop 9)
  else ofGroups? cs

end Ident

end Workflow
