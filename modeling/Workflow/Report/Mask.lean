import Workflow.Text

/-! Hiding what differs from run to run: ids of handles and numbers of tasks. -/
namespace Workflow.Report

/-- The places of the hyphens in an id of 36 characters. -/
def hyphens : List Nat := [8, 13, 18, 23]

def isId (s : List Char) : Bool :=
  s.length = 36 && s.zipIdx.all fun (c, i) =>
    if i ∈ hyphens then c = '-' else (Text.hexValue? c).isSome

def placeholder : List Char := ['<', 'i', 'd', '>']

/-- The text after a task number that is followed by the report of a panic. -/
def afterTaskNumber? (s : List Char) : Option (List Char) :=
  if "task ".toList.isPrefixOf s then
    let digits := (s.drop 5).takeWhile Char.isDigit
    let rest := (s.drop 5).dropWhile Char.isDigit
    if !digits.isEmpty && " panicked".toList.isPrefixOf rest then some rest else none
  else none

def maskFrom : (count : List Char) → List Char → List Char
  | [], s => s
  | _ :: count, s =>
    match s with
    | [] => []
    | c :: r =>
      if isId (s.take 36) then placeholder ++ maskFrom count (s.drop 36)
      else
        match afterTaskNumber? s with
        | some rest => "task ".toList ++ placeholder ++ maskFrom count rest
        | none => c :: maskFrom count r

/-- Every id, and every number of a panicked task, replaced by a placeholder. -/
def mask (s : String) : String := String.ofList (maskFrom s.toList s.toList)

end Workflow.Report
