import Workflow.Wire.Basic

/-! How a guarded program ends, and the stores it works on. -/
namespace Workflow
open Json

/-- Which key-value space an operation means. -/
inductive Store where
  | persistent
  | ephemeral
deriving DecidableEq

def Store.names : Names Store where
  all := [.persistent, .ephemeral]
  name
    | .persistent => "persistent"
    | .ephemeral => "ephemeral"

instance : Wire Store := Store.names.wire

/-- The last value of a guarded program: end the enclosing program, or go on with a value. -/
inductive Outcome where
  | fail (message : String)
  | succeed (value : Json)
deriving DecidableEq

instance : Wire Outcome where
  shape := .tagged "Outcome" "outcome" "value" [("fail", .leaf .text), ("succeed", .any)]
  toJson
    | .fail message => object [("outcome", .str "fail"), ("value", .str message)]
    | .succeed value => object [("outcome", .str "succeed"), ("value", value)]
  ofFull? v := do
    let tag ← (← v.get? "outcome").text?
    let content ← v.get? "value"
    if tag = "fail" then content.text?.map .fail
    else if tag = "succeed" then some (.succeed content)
    else none

end Workflow
