import Workflow.Json.Basic

/-! The state that all tasks of a run share: named texts, and foreign
values that programs only pass on. -/
namespace Workflow

structure Container where
  named : Table String
  foreign : Table Json
deriving DecidableEq

namespace Container

def empty : Container := ⟨.empty, .empty⟩

instance : Inhabited Container := ⟨empty⟩

def getNamed (c : Container) (key : String) : Option String := c.named.find? key

def updateNamed (c : Container) (key value : String) : Container :=
  { c with named := c.named.insert key value }

def deleteNamed (c : Container) (key : String) : Container :=
  { c with named := c.named.erase key }

def writeForeign (c : Container) (key : String) (value : Json) : Container :=
  { c with foreign := c.foreign.insert key value }

def toJson (c : Container) : Json :=
  .object [("named", .ofTexts c.named), ("foreign", .ofTable c.foreign)]

end Container

end Workflow
