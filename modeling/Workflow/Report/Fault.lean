import Workflow.Fault
import Workflow.Json.Printer
import Workflow.Report.Mask

/-! Failures as JSON. -/
namespace Workflow
open Json

/-- The data of a failure besides its message. -/
def Fault.details : Fault → List (String × Json)
  | .decode payload reason => [("payload", .str payload), ("reason", .str reason)]
  | .collaborator who _ => [("collaborator", .str who.name)]
  | _ => []

/-- Ids and task numbers are hidden where the program itself puts them. -/
def Fault.shownMessage (fault : Fault) : List (String × Json) :=
  match fault with
  | .configuration _ => []
  | .forkAbandoned _ | .taskFailed _ => [("message", .str (Report.mask fault.message))]
  | _ => [("message", .str fault.message)]

def Fault.report (fault : Fault) : Json :=
  object ([("error", .str fault.kind)] ++ fault.shownMessage ++ fault.details)

namespace Report

/-- A result as JSON: the value under its own key, or the failure. -/
def result {α : Type} (f : α → Json) : Except Fault α → Json
  | .ok a => object [("ok", f a)]
  | .error fault => fault.report

/-- An error text of JSON decoding. -/
def jsonError (message : String) : Json :=
  object [("error", .str "Json"), ("message", .str message)]

end Report

end Workflow
