import Workflow.Fault
import Workflow.Text
import Workflow.Wire.Config
import Workflow.Yaml.Node

/-! Runner configurations written in YAML. -/
namespace Workflow
open Yaml

/-- A scalar is taken as text, whatever it looks like. -/
def Yaml.Node.text? : Node → Option String
  | .scalar text _ => some text
  | _ => none

/-- The entries of a mapping. Nothing at all is a mapping without entries. -/
def Yaml.Node.entries? : Node → Option (List (Node × Node))
  | .mapping es => some es
  | .scalar "" true => some []
  | _ => none

namespace RunnerConfig

/-- The value of a field, or its default; a field may be given once. -/
def field (entries : List (String × Node)) (name default : String) : Except Fault String :=
  match entries.filter fun e => e.1 = name with
  | [] => .ok default
  | [(_, v)] =>
    match v.text? with
    | some text => .ok text
    | none => .error (.configuration (name ++ ": expected a string"))
  | _ => .error (.configuration ("duplicate field " ++ name))

/-- The configuration that a document describes. Entries with other keys are skipped. -/
def ofNode (node : Node) : Except Fault RunnerConfig := do
  let some entries := node.entries? | .error (.configuration "expected a mapping")
  let some entries := entries.mapM fun (k, v) => k.text?.map (·, v)
    | .error (.configuration "expected a string as key")
  let name ← field entries "name" default.name
  let logLevel ← field entries "log_level" default.logLevel
  let absentSentinel ← field entries "absent_sentinel" default.absentSentinel
  .ok ⟨name, logLevel, absentSentinel⟩

/-- Text of white space alone leaves the defaults as they are. -/
def ofYaml (text : String) : Except Fault RunnerConfig :=
  if text.toList.all Text.isSpace then .ok default
  else match Node.ofText? text with
    | some node => ofNode node
    | none => .error (.configuration "not a document")

end RunnerConfig

end Workflow
