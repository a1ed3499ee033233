import Workflow.Yaml.Token

/-! The document that the tokens of a YAML text make. -/
namespace Workflow.Yaml

inductive Node where
  | scalar (text : String) (isPlain : Bool)
  | sequence (items : List Node)
  | mapping (entries : List (Node × Node))

namespace Node

/-- What stands where nothing is written. -/
def empty : Node := .scalar "" true

/-- Where a node stands. -/
inductive Place where
  /-- Between brackets. -/
  | flow
  /-- In a block. -/
  | block
  /-- After the mark of a key or value, where the entries of a sequence need no indentation. -/
  | entry
deriving DecidableEq

/-- Past the comma between two elements in brackets. -/
def flowNext? : List Token → Option (List Token)
  | .flowEntry :: ts => some ts
  | _ => none

mutual

/-- The node at the head of the tokens, and the tokens after it. -/
def read : Nat → Place → List Token → Option (Node × List Token)
  | 0, _, _ => none
  | n + 1, place, ts =>
    match ts with
    | .scalar text isPlain :: ts => some (.scalar text isPlain, ts)
    | .flowSequence :: ts => do
      let (xs, ts) ← flowItems n true ts
      some (.sequence xs, ts)
    | .flowMapping :: ts => do
      let (es, ts) ← flowEntries n true ts
      some (.mapping es, ts)
    | .blockSequence :: ts => do
      if place = .flow then none
      let (xs, ts) ← items n ts
      some (.sequence xs, ts)
    | .blockMapping :: ts => do
      if place = .flow then none
      let (es, ts) ← entries n ts
      some (.mapping es, ts)
    | .blockEntry :: _ => do
      if place ≠ .entry then none
      let (xs, ts) ← bareItems n ts
      some (.sequence xs, ts)
    | _ => none

/-- A node that may be left out in front of some tokens. -/
def readUnless : Nat → Place → List Token → List Token → Option (Node × List Token)
  | 0, _, _, _ => none
  | n + 1, place, stops, ts =>
    if ts.head?.any stops.contains then some (empty, ts) else read n place ts

/-- The key of a mapping of one entry. Where it is left out, the token
after its mark counts as part of it. -/
def readPairKey : Nat → List Token → Option (Node × List Token)
  | 0, _ => none
  | n + 1, ts =>
    match ts with
    | .value :: ts | .flowEntry :: ts | .flowSequenceEnd :: ts => some (empty, ts)
    | ts => read n .flow ts

/-- The value of a key, if there is one. -/
def readValue : Nat → Place → List Token → List Token → Option (Node × List Token)
  | 0, _, _, _ => none
  | n + 1, place, stops, ts =>
    match ts with
    | .value :: ts => readUnless n place stops ts
    | ts => some (empty, ts)

/-- The items of a block sequence, up to its end. -/
def items : Nat → List Token → Option (List Node × List Token)
  | 0, _ => none
  | n + 1, ts =>
    match ts with
    | .blockEnd :: ts => some ([], ts)
    | .blockEntry :: ts => do
      let (x, ts) ← readUnless n .block [.blockEntry, .blockEnd] ts
      let (xs, ts) ← items n ts
      some (x :: xs, ts)
    | _ => none

/-- The items of a sequence that is no further in than the key it belongs to. -/
def bareItems : Nat → List Token → Option (List Node × List Token)
  | 0, _ => none
  | n + 1, ts =>
    match ts with
    | .blockEntry :: ts => do
      let (x, ts) ← readUnless n .block [.blockEntry, .key, .value, .blockEnd] ts
      let (xs, ts) ← bareItems n ts
      some (x :: xs, ts)
    | ts => some ([], ts)

/-- The entries of a block mapping, up to its end. -/
def entries : Nat → List Token → Option (List (Node × Node) × List Token)
  | 0, _ => none
  | n + 1, ts =>
    match ts with
    | .blockEnd :: ts => some ([], ts)
    | .key :: ts => do
      let (k, ts) ← readUnless n .entry [.key, .value, .blockEnd] ts
      let (v, ts) ← readValue n .entry [.key, .value, .blockEnd] ts
      let (es, ts) ← entries n ts
      some ((k, v) :: es, ts)
    | _ => none

/-- The items of a sequence in brackets. An item with a key is a mapping of one entry. -/
def flowItems : Nat → Bool → List Token → Option (List Node × List Token)
  | 0, _, _ => none
  | n + 1, isFirst, ts =>
    match ts with
    | .flowSequenceEnd :: ts => some ([], ts)
    | ts => do
      let ts ← if isFirst then some ts else flowNext? ts
      match ts with
      | .flowSequenceEnd :: ts => some ([], ts)
      | .key :: ts =>
        let (k, ts) ← readPairKey n ts
        let (v, ts) ← readValue n .flow [.flowEntry, .flowSequenceEnd] ts
        let (xs, ts) ← flowItems n false ts
        some (.mapping [(k, v)] :: xs, ts)
      | ts =>
        let (x, ts) ← read n .flow ts
        let (xs, ts) ← flowItems n false ts
        some (x :: xs, ts)

/-- The entries of a mapping in brackets. -/
def flowEntries : Nat → Bool → List Token → Option (List (Node × Node) × List Token)
  | 0, _, _ => none
  | n + 1, isFirst, ts =>
    match ts with
    | .flowMappingEnd :: ts => some ([], ts)
    | ts => do
      let ts ← if isFirst then some ts else flowNext? ts
      match ts with
      | .flowMappingEnd :: ts => some ([], ts)
      | .key :: ts =>
        let (k, ts) ← readUnless n .flow [.value, .flowEntry, .flowMappingEnd] ts
        let (v, ts) ← readValue n .flow [.flowEntry, .flowMappingEnd] ts
        let (es, ts) ← flowEntries n false ts
        some ((k, v) :: es, ts)
      | ts =>
        let (k, ts) ← read n .flow ts
        let (es, ts) ← flowEntries n false ts
        some ((k, empty) :: es, ts)

end

/-- The one document of a text; nothing but marks of its end may follow it. A reader goes at most
four calls deep for each token. -/
def ofTokens? (ts : List Token) : Option Node := do
  let n := 4 * ts.length + 4
  let (node, ts) ←
    match ts with
    | [] | [.documentStart] => some (empty, [])
    | .documentStart :: ts => readUnless n .block [.documentStart, .documentEnd] ts
    | ts => read n .block ts
  if ts.all (· = .documentEnd) then some node else none

def ofText? (text : String) : Option Node := (Token.ofText? text).bind ofTokens?

end Node

end Workflow.Yaml
