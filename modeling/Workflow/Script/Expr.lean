import Workflow.Program.Flow
import Workflow.Report.Fault

/-! Expressions of scripts, over the values that earlier steps were given names for. -/
namespace Workflow

/-- A value with a name in a script. -/
inductive Binding where
  | json (value : Json)
  | handle (handle : Handle)
  /-- What a recovery boundary handed on. -/
  | attempt (result : Except Fault Json)
  | outcome (outcome : Outcome)

namespace Binding

/-- The kind of result that steps of scripts end with. -/
def kind : Kind := .either .json (.either .handle (.either (.attempt .json) .outcome))

def pack : Binding → kind.Carrier
  | .json v => .inl v
  | .handle h => .inr (.inl h)
  | .attempt r => .inr (.inr (.inl r))
  | .outcome o => .inr (.inr (.inr o))

def unpack (c : kind.Carrier) : Binding :=
  match (c : Json ⊕ (Handle ⊕ (Except Fault Json ⊕ Outcome))) with
  | .inl v => .json v
  | .inr (.inl h) => .handle h
  | .inr (.inr (.inl r)) => .attempt r
  | .inr (.inr (.inr o)) => .outcome o

/-- The value as expressions see it. -/
def toJson : Binding → Json
  | .json v => v
  | .handle _ => .str "<control>"
  | .attempt r => Report.result id r
  | .outcome o => Wire.toJson o

end Binding

/-- The values with names, the latest first. -/
abbrev Scope := List (String × Binding)

namespace Scope

def find? (scope : Scope) (name : String) : Option Binding := Assoc.find? name scope

/-- Gives a value a name, if there is one. -/
def bind (scope : Scope) (name : Option String) (value : Binding) : Scope :=
  match name with
  | some name => (name, value) :: scope
  | none => scope

end Scope

inductive Expr where
  | literal (value : Json)
  | list (items : List Expr)
  | object (members : List (String × Expr))
  /-- A name; without a value it stands for null. -/
  | name (name : String)
  /-- Follows keys and indexes into a value; null if it leads nowhere. -/
  | get (source : Expr) (path : List Json)
  /-- Joins texts. -/
  | cat (parts : List Expr)
  /-- The sum of 64-bit integers; null if there is none. -/
  | add (parts : List Expr)
  | eq (left right : Expr)

namespace Expr

instance : Inhabited Expr := ⟨.literal .null⟩

/-- One step of a path. -/
def child (v key : Json) : Json :=
  match v, key with
  | .obj _, .str k => (v.get? k).getD .null
  | .arr items, key => (key.nat?.bind (items[·]?)).getD .null
  | _, _ => .null

def isInt64 (n : Int) : Bool := -0x8000000000000000 ≤ n && n < 0x8000000000000000

/-- The sum so far and one more summand. -/
def plus (sum : Option Int) (v : Json) : Option Int := do
  let s ← sum
  let n ← v.int?
  if isInt64 n && isInt64 (s + n) then some (s + n) else none

def sum (vs : List Json) : Json := (vs.foldl plus (some 0)).elim .null .int

mutual
def eval (scope : Scope) : Expr → Json
  | .literal v => v
  | .list items => .arr (evalItems scope items)
  | .object members => Json.object (evalMembers scope members)
  | .name n => (scope.find? n).elim .null Binding.toJson
  | .get source path => path.foldl child (source.eval scope)
  | .cat parts => .str ("".intercalate ((evalItems scope parts).map Json.asText))
  | .add parts => sum (evalItems scope parts)
  | .eq left right => .bool ((left.eval scope).same (right.eval scope))

def evalItems (scope : Scope) : List Expr → List Json
  | [] => []
  | e :: es => e.eval scope :: evalItems scope es

def evalMembers (scope : Scope) : List (String × Expr) → List (String × Json)
  | [] => []
  | (k, e) :: es => (k, e.eval scope) :: evalMembers scope es
end

/-- The value as text. -/
def text (e : Expr) (scope : Scope) : String := (e.eval scope).asText

end Expr

end Workflow
