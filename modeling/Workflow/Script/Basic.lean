import Workflow.Script.Expr

/-! Scripts: programs as data, the programs they stand for, and a bound on the moves they take. -/
namespace Workflow

/-- The ways to wrap a program so that its result stays the same. -/
inductive Wrapper where
  | recover
  | fork
  | race
deriving DecidableEq

/-- How an external action of a script ends. -/
inductive ScriptedEnd where
  | value (value : Expr)
  /-- A message under contexts, the innermost first. -/
  | failure (message : String) (contexts : List String)
  | panic (message : String)

mutual

/-- What a step of a script does. -/
inductive Act where
  | pure (value : Expr)
  /-- Passes on what a name stands for, whatever it is. -/
  | pass (name : String)
  | throw (fault : Fault)
  | succeed (value : Expr)
  | fail (message : Expr)
  /-- The value of a recovered result, or its failure. -/
  | unwrap (name : String)
  | branch (condition : Expr) (yes no : Block)
  | block (body : Block)
  /-- Repeats a body; it sees the number of the round and the value of the round before. -/
  | iterate (count : Nat) (body : Block) (round previous : String) (init : Expr)
  | nest (wrapper : Wrapper) (depth : Nat) (body : Block)
  | read (store : Store) (key : Expr)
  | write (store : Store) (key value : Expr)
  | delete (store : Store) (key : Expr)
  | readForeignAll
  | writeForeign (key value : Expr)
  | runUi (interaction : Expr)
  | forkUi (interaction : Expr)
  | runUiAs (shape : Json.Shape) (interaction : Expr)
  /-- An interaction with a map whose keys are no texts. -/
  | runUiMap (shape : Json.Shape) (entries : List (Json × Json))
  /-- Turns a map whose keys are no texts into JSON, after a delay if there is one. -/
  | encodeMap (delay : Option Nat) (entries : List (Json × Json))
  | callApi (request : ApiRequest)
  | callEndpoint (shape : Json.Shape) (request : ApiRequest) (headers : Expr)
  | fork (body : Block)
  | await (name : String)
  | peek (name : String)
  | delay (duration : Expr)
  | race (branches : Blocks)
  | recover (body : Block)
  | checkPermissions (permissions : List Permission)
  | requestPermissions (permissions : List Permission)
  | log (tag message : Expr)
  | external (wait : Nat) (ending : ScriptedEnd)

/-- Steps one after the other; a step's value may be given a name for the later ones. -/
inductive Block where
  | nil
  | cons (name : Option String) (act : Act) (rest : Block)

inductive Blocks where
  | nil
  | cons (block : Block) (rest : Blocks)

end

instance : Inhabited Act := ⟨.pure default⟩

instance : Inhabited Block := ⟨.nil⟩

/-- A program as a script has it. -/
abbrev ScriptFlow := Flow Binding.kind

/-- JSON from a map with JSON keys; keys that are lists, objects or null have no text. -/
def Json.ofPairs (entries : List (Json × Json)) : Except String Json := do
  let members ← entries.mapM fun (key, value) =>
    match key with
    | .str k => .ok (k, value)
    | .num n => .ok (String.ofList n.text, value)
    | .bool b => .ok (if b then "true" else "false", value)
    | _ => .error "key must be a string"
  .ok (Json.object members)

namespace ScriptFlow

def give (b : Binding) : ScriptFlow := Flow.pure b.pack

def fail (e : Fault) : ScriptFlow := Flow.throw e

/-- Goes on with the value of a step. -/
def next (f : ScriptFlow) (g : Binding → ScriptFlow) : ScriptFlow :=
  f.andThen fun v => g (Binding.unpack v)

/-- A program whose result becomes a value of the script. -/
def of {k : Kind} (f : Flow k) (g : k.Carrier → Binding) : ScriptFlow := f.map fun v => (g v).pack

/-- The program with its result as JSON. -/
def toJson (f : ScriptFlow) : Flow .json := f.map fun v => (Binding.unpack v).toJson

/-- The outcome that a guarded program ends with; any other value is a success. -/
def toOutcome (f : ScriptFlow) : Flow .outcome :=
  f.map fun v =>
    match Binding.unpack v with
    | .outcome o => o
    | b => .succeed b.toJson

def json (f : Flow .json) : ScriptFlow := of f Binding.json

/-- The program with nothing but JSON as its result. -/
def plain (f : ScriptFlow) : ScriptFlow := json f.toJson

/-- A program whose result is of no interest. -/
def silent (f : Flow .unit) : ScriptFlow := of f fun _ => .json .null

/-- The value of an attempt, or its failure. -/
def unwrap : Except Fault Json → ScriptFlow
  | .ok v => give (.json v)
  | .error e => fail e

/-- Wraps a program so that its result stays the same. -/
def wrap (f : ScriptFlow) : Wrapper → ScriptFlow
  | .recover => (Flow.recover (f.toJson.map Outcome.succeed)).andThen unwrap
  | .fork => (Flow.fork f.toJson).andThen fun h => json (Flow.await h)
  | .race => json (Flow.race [f.toJson])

/-- Wraps a program a number of times. -/
def wrapTimes (f : ScriptFlow) (wrapper : Wrapper) : Nat → ScriptFlow
  | 0 => f
  | depth + 1 => (f.wrapTimes wrapper depth).wrap wrapper

end ScriptFlow

/-- The results of operations as scripts see them. -/
def responseJson (r : ApiResponse) : Json := Wire.toJson r

def statusJson (s : PermissionStatus) : Json := Wire.toJson s

def answersJson (answers : List PermissionResponse) : Json := .arr (answers.map Wire.toJson)

def endpointJson : ErrorResponse ⊕ Json → Json
  | .inl e => .object [("err", Wire.toJson e)]
  | .inr v => .object [("ok", v)]

def glanceJson (r : Option (Except Fault Json)) : Json :=
  .object [("filled", .bool r.isSome), ("value", .ofOption (Report.result id) r)]

/-- The action that an external step runs. -/
def ScriptedEnd.action (wait : Nat) (scope : Scope) : ScriptedEnd → External
  | .value e => ⟨.ms wait, .value (e.eval scope)⟩
  | .failure message contexts => ⟨.ms wait, .failure message contexts⟩
  | .panic message => ⟨.ms wait, .panic message⟩

open ScriptFlow in
mutual

/-- The program of one step. -/
def Act.flow (scope : Scope) : Act → ScriptFlow
  | .pure value => give (.json (value.eval scope))
  | .pass name => give ((scope.find? name).getD (.json .null))
  | .throw fault => ScriptFlow.fail fault
  | .succeed value => give (.outcome (.succeed (value.eval scope)))
  | .fail message => give (.outcome (.fail (message.text scope)))
  | .unwrap name =>
    match scope.find? name with
    | some (.attempt result) => ScriptFlow.unwrap result
    | _ => ScriptFlow.fail (.typeMismatch (Kind.attempt .json).name)
  | .branch condition yes no =>
    if condition.eval scope = .bool true then yes.flow scope (.json .null)
    else no.flow scope (.json .null)
  | .block body => body.flow scope (.json .null)
  | .iterate count body round previous init =>
    (List.range count).foldl
      (fun f i => f.next fun b =>
        (body.flow ((previous, b) :: (round, .json (.nat i)) :: scope) (.json .null)).plain)
      (give (.json (init.eval scope)))
  | .nest wrapper depth body => (body.flow scope (.json .null)).plain.wrapTimes wrapper depth
  | .read store key =>
    of (Flow.read store (key.text scope)) fun v => .json (Json.ofOption Json.str v)
  | .write store key value => silent (Flow.write store (key.text scope) (value.text scope))
  | .delete store key => silent (Flow.delete store (key.text scope))
  | .readForeignAll => of Flow.readForeignAll fun t => .json (Json.ofTable t)
  | .writeForeign key value => silent (Flow.writeForeign (key.text scope) (value.eval scope))
  | .runUi interaction => json (Flow.runUi (interaction.eval scope))
  | .forkUi interaction => silent (Flow.forkUi (interaction.eval scope))
  | .runUiAs shape interaction =>
    of (Flow.runUiAs shape (.ok (interaction.eval scope))) Binding.json
  | .runUiMap shape entries => of (Flow.runUiAs shape (Json.ofPairs entries)) Binding.json
  | .encodeMap none entries =>
    json ((Flow.pure () : Flow .unit).intoValue fun _ => Json.ofPairs entries)
  | .encodeMap (some duration) entries =>
    json ((Flow.delay duration).intoValue fun _ => Json.ofPairs entries)
  | .callApi request => of (Flow.callApi request) fun v => .json (responseJson v)
  | .callEndpoint shape request headers =>
    let request := request.withHeaders ((headers.eval scope).texts?.getD .empty)
    of (Flow.callEndpoint shape request) fun v => .json (endpointJson v)
  | .fork body => of (Flow.fork (body.flow scope (.json .null)).toJson) Binding.handle
  | .await name =>
    match scope.find? name with
    | some (.handle h) => json (Flow.await h)
    | _ => ScriptFlow.fail (.typeMismatch Kind.handle.name)
  | .peek name =>
    match scope.find? name with
    | some (.handle h) =>
      of (Flow.peek h) fun v => .json (glanceJson v)
    | _ => ScriptFlow.fail (.typeMismatch Kind.handle.name)
  | .delay duration => silent (Flow.delay ((duration.eval scope).nat?.getD 0))
  | .race branches => json (Flow.race (branches.flows scope))
  | .recover body =>
    of (Flow.recover (body.flow scope (.json .null)).toOutcome) Binding.attempt
  | .checkPermissions permissions =>
    of (Flow.checkPermissions permissions) fun v => .json (statusJson v)
  | .requestPermissions permissions =>
    of (Flow.requestPermissions permissions) fun v => .json (answersJson v)
  | .log tag message => silent (Flow.log (tag.text scope) (message.text scope))
  | .external wait ending => json (Flow.runExternal (ending.action wait scope))

/-- The program of a block; `last` is the value of the step before. -/
def Block.flow (scope : Scope) (last : Binding) : Block → ScriptFlow
  | .nil => give last
  | .cons name act rest => (act.flow scope).next fun v => rest.flow (scope.bind name v) v

def Blocks.flows (scope : Scope) : Blocks → List (Flow .json)
  | .nil => []
  | .cons block rest => (block.flow scope (.json .null)).toJson :: rest.flows scope

end

mutual

/-- More than the moves that a step and the tasks it launches take. -/
def Act.weight : Act → Nat
  | .branch _ yes no => yes.weight + no.weight + 8
  | .block body | .fork body | .recover body => body.weight + 8
  | .iterate count body _ _ _ => count * (body.weight + 8) + 8
  | .nest _ depth body => depth * 8 + body.weight + 8
  | .race branches => branches.weight + 8
  | _ => 8

def Block.weight : Block → Nat
  | .nil => 8
  | .cons _ act rest => act.weight + rest.weight

def Blocks.weight : Blocks → Nat
  | .nil => 8
  | .cons block rest => block.weight + 8 + rest.weight

end

end Workflow
