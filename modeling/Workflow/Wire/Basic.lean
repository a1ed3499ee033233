import Workflow.Json.Printer
import Workflow.Json.Shape.Reader

/-! Data with a JSON form. Decoding goes through the full form, in which all fields are present. -/
namespace Workflow
open Json

class Wire (α : Type) where
  shape : Shape
  toJson : α → Json
  /-- Reads the full form. -/
  ofFull? : Json → Option α

namespace Wire
variable {α : Type} [Wire α]

/-- Takes a full form apart; every full form of the shape can be. -/
def ofFull (v : Json) : Except Mismatch α :=
  match ofFull? v with
  | some x => .ok x
  | none => .error (.invalidType (found v) "a full form")

def decode (v : Json) : Except Mismatch α := (shape α).decode v >>= ofFull

/-- Decodes a text that is one value. -/
def parse (s : String) : Except Failure α := do
  let full ← (shape α).parse s
  fitting (ofFull full) []

end Wire

namespace Json

def text? : Json → Option String
  | .str s => some s
  | _ => none

def flag? : Json → Option Bool
  | .bool b => some b
  | _ => none

def nat? : Json → Option Nat
  | .num (.int n) => if 0 ≤ n then some n.toNat else none
  | _ => none

def int? : Json → Option Int
  | .num (.int n) => some n
  | _ => none

def list? : Json → Option (List Json)
  | .arr vs => some vs
  | _ => none

def members? : Json → Option (List (String × Json))
  | .obj ms => some ms
  | _ => none

/-- An object whose values are all texts. -/
def texts? (v : Json) : Option (Table String) := do
  let ms ← v.members?
  let es ← ms.mapM fun m => m.2.text?.map fun t => (m.1, t)
  some (Table.ofList es)

end Json

/-- A type of named constants. -/
structure Names (α : Type) where
  all : List α
  name : α → String

def Names.ofName? {α : Type} (n : Names α) (name : String) : Option α :=
  n.all.find? fun a => n.name a = name

def Names.form {α : Type} (n : Names α) : Form := .choice (n.all.map n.name)

abbrev Names.wire {α : Type} (n : Names α) : Wire α where
  shape := .plain n.form
  toJson a := .str (n.name a)
  ofFull? v := v.text?.bind n.ofName?

end Workflow
