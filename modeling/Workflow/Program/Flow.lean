import Workflow.Program.Basic

/-! Programs with a known kind of result, one constructor for each operation. -/
namespace Workflow

/-- A program that ends with a result of kind `kind`, or fails. -/
structure Flow (kind : Kind) where
  program : Program

namespace Flow
variable {a b : Kind}

def pure (v : a.Carrier) : Flow a := ⟨.done ⟨a, v⟩⟩

def throw (e : Fault) : Flow a := ⟨.throw e⟩

/-- Goes on with the result of a program. -/
def andThen (f : Flow a) (next : a.Carrier → Flow b) : Flow b :=
  ⟨f.program.andThen fun d =>
    match d.take a with
    | .ok v => (next v).program
    | .error e => .throw e⟩

def map (f : Flow a) (g : a.Carrier → b.Carrier) : Flow b := f.andThen fun v => pure (g v)

/-- Runs another program afterwards and drops the result of this one. -/
def followedBy (f : Flow a) (next : Flow b) : Flow b := f.andThen fun _ => next

/-- The result as JSON, or why it has no JSON form. -/
def intoValue (f : Flow a) (encode : a.Carrier → Except String Json) : Flow .json :=
  f.andThen fun v =>
    match encode v with
    | .ok j => pure j
    | .error reason => throw (.serialization reason)

def isTerminal (f : Flow a) : Bool := f.program.isTerminal

def debug (f : Flow a) : String := f.program.debug

def ofExcept : Except Fault a.Carrier → Flow a
  | .ok v => pure v
  | .error e => throw e

def callApi (request : ApiRequest) : Flow .response := ⟨.step (.callApi request)⟩

def runUi (interaction : Json) : Flow .json := ⟨.step (.runUi interaction)⟩

def forkUi (interaction : Json) : Flow .unit := ⟨.step (.forkUi interaction)⟩

def read (store : Store) (key : String) : Flow (.option .text) := ⟨.step (.read store key)⟩

def write (store : Store) (key value : String) : Flow .unit := ⟨.step (.write store key value)⟩

def delete (store : Store) (key : String) : Flow .unit := ⟨.step (.delete store key)⟩

def readForeignAll : Flow .foreign := ⟨.step .readForeignAll⟩

def writeForeign (key : String) (value : Json) : Flow .unit := ⟨.step (.writeForeign key value)⟩

def fork (f : Flow .json) : Flow .handle := ⟨.step (.fork f.program)⟩

def runExternal (action : External) : Flow .json := ⟨.step (.runExternal action)⟩

def await (handle : Handle) : Flow .json := ⟨.step (.await handle)⟩

def peek (handle : Handle) : Flow (.option (.attempt .json)) := ⟨.step (.peek handle)⟩

def delay (duration : Nat) : Flow .unit := ⟨.step (.delay duration)⟩

def race (branches : List (Flow .json)) : Flow .json :=
  ⟨.step (.race (branches.map Flow.program))⟩

def recover (f : Flow .outcome) : Flow (.attempt .json) := ⟨.step (.recover f.program)⟩

def checkPermissions (permissions : List Permission) : Flow .status :=
  ⟨.step (.checkPermissions permissions)⟩

def requestPermissions (permissions : List Permission) : Flow (.list .answer) :=
  ⟨.step (.requestPermissions permissions)⟩

def log (tag message : String) : Flow .unit := ⟨.step (.log tag message)⟩

/-- An interaction with typed data. It has to be encoded first, and its response is decoded. -/
def runUiAs (shape : Json.Shape) (interaction : Except String Json) : Flow (.decoded shape) :=
  match interaction with
  | .error reason => throw (.serialization reason)
  | .ok interaction => (runUi interaction).andThen fun response =>
    match shape.decodeText response with
    | .ok decoded => pure decoded
    | .error reason => throw (.decode response.compact reason)

/-- A request whose successful response is decoded from its body. -/
def callEndpoint (shape : Json.Shape) (request : ApiRequest) :
    Flow (.either .errorResponse (.decoded shape)) :=
  (callApi request).andThen fun (response : ApiResponse) =>
    if response.isSuccess then
      match shape.parseText response.body with
      | .ok decoded => pure (.inr decoded)
      | .error reason => throw (.decode response.body reason)
    else pure (.inl response.toError)

end Flow

end Workflow
