import Workflow.Service.Basic

/-! Collaborators in memory: a persistent store, and an API that keeps the requests it was sent and
answers them by a fixed rule. -/
namespace Workflow

structure MemoryStore where
  entries : Table String

namespace MemoryStore

def empty : MemoryStore := ⟨.empty⟩

def get (s : MemoryStore) (key : String) : Option String := s.entries.find? key

def set (s : MemoryStore) (key value : String) : MemoryStore := ⟨s.entries.insert key value⟩

def delete (s : MemoryStore) (key : String) : MemoryStore := ⟨s.entries.erase key⟩

/-- The state after a call, what the store tells about it, and the reply. -/
def call (s : MemoryStore) : (call : StorageCall) → MemoryStore × List Event × call.Reply
  | .get key => (s, [], s.get key)
  | .set key value => (s.set key value, [.storeSet key], ())
  | .delete key => (s.delete key, if s.entries.contains key then [.storeDeleted key] else [], ())

def service : StorageService where
  State := MemoryStore
  accept s call :=
    let (s, events, reply) := s.call call
    ⟨s, events, .now (.value reply)⟩
  answer s call :=
    let (s, events, reply) := s.call call
    ⟨s, events, .value reply⟩

end MemoryStore

/-- The requests received so far. -/
structure RecordingApi where
  requests : Array ApiRequest

namespace RecordingApi

def response (code : UInt16) (body : String) : ApiResponse := ⟨code, "", body, .empty⟩

/-- A request is kept also if the handler fails. -/
def service (handler : ApiRequest → Except Fault ApiResponse) : ApiService where
  State := RecordingApi
  accept api request :=
    ⟨⟨api.requests.push request⟩, [.apiRequest request], .now (.ofExcept (handler request))⟩
  answer api request := ⟨api, [], .ofExcept (handler request)⟩

end RecordingApi

end Workflow
