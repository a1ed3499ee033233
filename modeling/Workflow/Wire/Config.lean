import Workflow.Wire.Basic

/-! The configuration of a runner. -/
namespace Workflow
open Json

structure RunnerConfig where
  name : String
  logLevel : String
  /-- The value by which a persistent store reports an absent key. -/
  absentSentinel : String
deriving DecidableEq

namespace RunnerConfig

def default : RunnerConfig := ⟨"flow", "info", "__failed"⟩

instance : Inhabited RunnerConfig := ⟨default⟩

/-- The defaults, overridden by the variables that are set. -/
def ofEnvironment (env : Table String) : RunnerConfig where
  name := (env.find? "FLOW_RUNNER_NAME").getD default.name
  logLevel := (env.find? "FLOW_LOG_LEVEL").getD default.logLevel
  absentSentinel := (env.find? "FLOW_ABSENT_SENTINEL").getD default.absentSentinel

def withName (c : RunnerConfig) (name : String) : RunnerConfig := { c with name }

instance : Wire RunnerConfig where
  shape := .record "RunnerConfig" [
    ⟨"name", .leaf .text, .value (.str default.name)⟩,
    ⟨"log_level", .leaf .text, .value (.str default.logLevel)⟩,
    ⟨"absent_sentinel", .leaf .text, .value (.str default.absentSentinel)⟩]
  toJson c := object [
    ("name", .str c.name),
    ("log_level", .str c.logLevel),
    ("absent_sentinel", .str c.absentSentinel)]
  ofFull? v := do
    let name ← (← v.get? "name").text?
    let logLevel ← (← v.get? "log_level").text?
    let absentSentinel ← (← v.get? "absent_sentinel").text?
    some ⟨name, logLevel, absentSentinel⟩

end RunnerConfig

end Workflow
