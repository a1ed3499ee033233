import Workflow.Service.Memory
import Workflow.Service.Permissions
import Workflow.Service.Ui
import Workflow.Session

/-! A bench to try programs on: collaborators of its own, which keep what they are asked. -/
namespace Workflow

structure Bench where
  ui : ScriptedUi
  /-- How the API answers. -/
  handler : ApiRequest → Except Fault ApiResponse
  permissions : StaticPermissions
  storage : MemoryStore
  config : RunnerConfig

namespace Bench

/-- The interface answers null, the API an empty object, and nothing is granted or stored. -/
def new : Bench where
  ui := .always "null"
  handler _ := .ok (RecordingApi.response 200 "\x7b\x7d")
  permissions := .granting []
  storage := .empty
  config := RunnerConfig.default.withName "test"

/-- Every bench is made with an empty store, which tells so even if other entries replace it. -/
def setup (b : Bench) (container : Container) (handles : List HostHandle) : Setup where
  config := b.config
  ui := ⟨ScriptedUi.service, b.ui⟩
  api := ⟨RecordingApi.service b.handler, ⟨#[]⟩⟩
  permissions := ⟨StaticPermissions.service, b.permissions⟩
  storage := ⟨MemoryStore.service, b.storage⟩
  entries (s : MemoryStore) := some s.entries
  events := [.storeCreated]
  container := container
  handles := handles

end Bench

end Workflow
