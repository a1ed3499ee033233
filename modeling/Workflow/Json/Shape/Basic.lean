import Workflow.Ident
import Workflow.Json.Failure

/-! The shapes of JSON values that typed data is decoded from, and decoding of a value.

Decoding answers the value in its full form: all fields present, nothing else. -/
namespace Workflow.Json

/-- A scalar of one type. -/
inductive Leaf where
  | text
  | flag
  /-- An id, in any of the forms in which ids are written. -/
  | ident
  /-- An integer from `low` to `high`. -/
  | integer (name : String) (low high : Int)
deriving DecidableEq

inductive Form where
  | any
  | leaf (leaf : Leaf)
  /-- One of several names: the name itself, or an object with that name and null. -/
  | choice (names : List String)
  /-- A scalar or null. -/
  | optional (leaf : Leaf)
  | list (leaf : Leaf)
  /-- An object with arbitrary keys and texts. -/
  | texts
deriving DecidableEq

/-- What a record has for a field that is not there. -/
inductive Fallback where
  | required
  /-- Null in an object; in a list the field has to be there. -/
  | nullable
  | value (value : Json)
deriving DecidableEq

structure Field where
  name : String
  form : Form
  fallback : Fallback
deriving DecidableEq

inductive Shape where
  | plain (form : Form)
  /-- An object with these fields and any others, or the list of the fields in this order. -/
  | record (name : String) (fields : List Field)
  /-- A tag under one key decides the form of the content under another. -/
  | tagged (name tagKey contentKey : String) (variants : List (String × Form))
deriving DecidableEq

namespace Leaf

def expected : Leaf → String
  | .text => "a string"
  | .flag => "a boolean"
  | .ident => "a formatted id"
  | .integer name _ _ => name

def decode (leaf : Leaf) (v : Json) : Except Mismatch Json :=
  match leaf, v with
  | .text, .str s => .ok (.str s)
  | .flag, .bool b => .ok (.bool b)
  | .ident, .str s =>
    match Ident.parse? s with
    | some i => .ok (.str i.text)
    | none => .error (.invalidValue (found v) Leaf.ident.expected)
  | .integer name low high, .num (.int n) =>
    if low ≤ n ∧ n ≤ high then .ok v else .error (.invalidValue (found v) name)
  | leaf, v => .error (.invalidType (found v) leaf.expected)

end Leaf

namespace Form

/-- A name of a choice. -/
def pick (names : List String) (name : String) : Except Mismatch Json :=
  if name ∈ names then .ok (.str name) else .error (.unknownVariant name names)

def decodeTexts : List (String × Json) → Except Mismatch (List (String × Json))
  | [] => .ok []
  | (k, v) :: ms => do
    let v ← Leaf.text.decode v
    let ms ← decodeTexts ms
    .ok ((k, v) :: ms)

def decode (form : Form) (v : Json) : Except Mismatch Json :=
  match form, v with
  | .any, v => .ok v
  | .leaf l, v => l.decode v
  | .choice names, .str s => pick names s
  | .choice names, .obj [(s, content)] => do
    let name ← pick names s
    match content with
    | .null => .ok name
    | v => .error (.invalidType (found v) "unit")
  | .choice _, .obj _ => .error (.invalidValue .object "map with a single key")
  | .choice _, v => .error (.invalidType (found v) "string or map")
  | .optional _, .null => .ok .null
  | .optional l, v => l.decode v
  | .list l, .arr vs => (vs.mapM l.decode).map .arr
  | .list _, v => .error (.invalidType (found v) "a sequence")
  | .texts, .obj ms => (decodeTexts ms).map .obj
  | .texts, v => .error (.invalidType (found v) "a map")

end Form

/-- What stands for a field that an object does not have. -/
def Field.missing (f : Field) : Except Mismatch Json :=
  match f.fallback with
  | .required => .error (.missingField f.name)
  | .nullable => .ok .null
  | .value v => .ok v

namespace Shape

/-- What the data of a shape is called. -/
def title : Shape → String
  | .plain _ => "data"
  | .record name _ | .tagged name _ _ _ => name

/-- The fields of a record as an error text counts them. -/
def recordLength (name : String) (count : Nat) : String :=
  "struct " ++ name ++ " with " ++ toString count ++ (if count = 1 then " element" else " elements")

def taggedName (name : String) : String := "adjacently tagged enum " ++ name

/-- The values of the leading fields, and the items beyond the last field. -/
def decodeItems (length : String) :
    (index : Nat) → List Field → List Json →
    Except Mismatch (List (String × Json) × List Json)
  | _, [], items => .ok ([], items)
  | index, f :: fs, [] =>
    match f.fallback with
    | .value v => do
      let (ms, rest) ← decodeItems length (index + 1) fs []
      .ok ((f.name, v) :: ms, rest)
    | _ => .error (.invalidLength index length)
  | index, f :: fs, v :: vs => do
    let v ← f.form.decode v
    let (ms, rest) ← decodeItems length (index + 1) fs vs
    .ok ((f.name, v) :: ms, rest)

/-- The values of the members that are fields, in the order of the members. -/
def decodeMembers (fields : List Field) :
    List (String × Json) → Except Mismatch (List (String × Json))
  | [] => .ok []
  | (k, v) :: ms =>
    match fields.find? fun f => f.name = k with
    | none => decodeMembers fields ms
    | some f => do
      let v ← f.form.decode v
      let ms ← decodeMembers fields ms
      .ok ((k, v) :: ms)

/-- Every field with its value or what stands for it, in the order of the fields. -/
def complete (present : List (String × Json)) :
    List Field → Except Mismatch (List (String × Json))
  | [] => .ok []
  | f :: fs => do
    let v ←
      match Assoc.find? f.name present with
      | some v => .ok v
      | none => f.missing
    let ms ← complete present fs
    .ok ((f.name, v) :: ms)

/-- The content form of a variant that `Form.pick` has accepted. -/
def contentForm (variants : List (String × Form)) (tag : Json) : Form :=
  match tag with
  | .str name => (variants.find? fun v => v.1 = name).elim .any (·.2)
  | _ => .any

/-- What the tag of a tagged list has to be. -/
def tagExpected : String := "variant identifier"

/-- The tag at the head of a tagged list, which has to be a name. -/
def decodeTag (variants : List (String × Form)) : Json → Except Mismatch Json
  | .str s => Form.pick (variants.map (·.1)) s
  | v => .error (.invalidType (found v) tagExpected)

/-- The tag of a tagged object. -/
def tagForm (variants : List (String × Form)) : Form := .choice (variants.map (·.1))

def decode (shape : Shape) (v : Json) : Except Mismatch Json :=
  match shape, v with
  | .plain form, v => form.decode v
  | .record name fields, .arr items => do
    let (ms, extra) ← decodeItems (recordLength name fields.length) 0 fields items
    if extra.isEmpty then .ok (object ms)
    else .error (.invalidLength items.length "fewer elements in array")
  | .record _ fields, .obj members => do
    let present ← decodeMembers fields members
    let ms ← complete present fields
    .ok (object ms)
  | .record name _, v => .error (.invalidType (found v) ("struct " ++ name))
  | .tagged name _ _ _, .arr [] => .error (.invalidLength 0 (taggedName name))
  | .tagged name _ _ variants, .arr [tag] => do
    let _ ← decodeTag variants tag
    .error (.invalidLength 1 (taggedName name))
  | .tagged _ tagKey contentKey variants, .arr (tag :: content :: extra) => do
    let tag ← decodeTag variants tag
    let content ← (contentForm variants tag).decode content
    if extra.isEmpty then .ok (object [(tagKey, tag), (contentKey, content)])
    else .error (.invalidLength (extra.length + 2) "fewer elements in array")
  | .tagged _ tagKey contentKey variants, .obj members =>
    match Assoc.find? tagKey members, Assoc.find? contentKey members with
    | none, _ => .error (.missingField tagKey)
    | some tag, none => do
      let _ ← (tagForm variants).decode tag
      .error (.missingField contentKey)
    | some tag, some content => do
      let tag ← (tagForm variants).decode tag
      let content ← (contentForm variants tag).decode content
      .ok (object [(tagKey, tag), (contentKey, content)])
  | .tagged name _ _ _, v => .error (.invalidType (found v) (taggedName name))

end Shape

end Workflow.Json
