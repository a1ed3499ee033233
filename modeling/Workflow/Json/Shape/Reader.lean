import Workflow.Json.Shape.Basic
import Workflow.Json.Skip

/-! Decoding typed data straight from text. What does not fit is noticed in reading order, together
with errors of the text itself. -/
namespace Workflow.Json

/-- A value of another type at the head of the text: a scalar is consumed
first, a list or an object is not. -/
def wrongType {α : Type} (expected : String) (s : List Char) : Except Failure (α × List Char) :=
  match skipBlanks s with
  | [] => .error (.seen .eofValue [])
  | c :: r =>
    if c = '[' then .error (.read (.mismatch (.invalidType .list expected)) (c :: r))
    else if c = '\x7b' then .error (.read (.mismatch (.invalidType .object expected)) (c :: r))
    else do
      let (v, r) ← valueWith none (c :: r)
      .error (.read (.mismatch (.invalidType (found v) expected)) r)

/-- A mismatch that is noticed once everything before `rest` has been consumed. -/
def fitting {α : Type} (e : Except Mismatch α) (rest : List Char) : Except Failure α :=
  e.mapError fun m => .read (.mismatch m) rest

namespace Leaf

def read (leaf : Leaf) : Scan Json := fun s =>
  match skipBlanks s with
  | [] => .error (.seen .eofValue [])
  | c :: r =>
    if c = '[' ∨ c = '\x7b' then wrongType leaf.expected (c :: r)
    else do
      let (v, r) ← valueWith none (c :: r)
      let v ← fitting (leaf.decode v) r
      .ok (v, r)

end Leaf

/-- The name of a choice, after its opening quote. -/
def readName (names : List String) : Scan Json := fun s => do
  let (name, r) ← text s
  let v ← fitting (Form.pick names name) r
  .ok (v, r)

/-- The null behind the name of a choice, and the closing brace. -/
def readUnitEnd (name : Json) : Scan Json := fun s =>
  match skipBlanks s with
  | 'n' :: r => do
    let r ← ident ['u', 'l', 'l'] r
    match skipBlanks r with
    | [] => .error (.read .eofObject [])
    | c :: r => if c = '\x7d' then .ok (name, r) else .error (.read .expectedValue (c :: r))
  | _ => wrongType "unit" s

/-- The object form of a choice, after its opening brace. -/
def readUnit (names : List String) : Scan Json := fun s =>
  match skipBlanks s with
  | [] => .error (.seen .eofObject [])
  | c :: r =>
    if c = '"' then do
      let (name, r) ← readName names r
      let r ← colon r
      readUnitEnd name r
    else if c = '\x7d' then .error (.seen .expectedValue (c :: r))
    else .error (.seen .keyMustBeText (c :: r))

/-- The tag at the head of a tagged list, which has to be a name. -/
def readTag (variants : List (String × Form)) : Scan Json := fun s =>
  match skipBlanks s with
  | '"' :: r => readName (variants.map (·.1)) r
  | _ => wrongType Shape.tagExpected s

namespace Form

def read (depth : Nat) (form : Form) : Scan Json := fun s =>
  match form with
  | .any => value depth s
  | .leaf l => l.read s
  | .choice names =>
    match skipBlanks s with
    | [] => .error (.seen .eofValue [])
    | c :: r =>
      if c = '"' then readName names r
      else if c = '\x7b' then
        if depth = 0 then .error (.seen .tooDeep (c :: r)) else readUnit names r
      else .error (.seen .expectedValue (c :: r))
  | .optional l =>
    match skipBlanks s with
    | 'n' :: r => do
      let r ← ident ['u', 'l', 'l'] r
      .ok (.null, r)
    | _ => l.read s
  | .list l =>
    match skipBlanks s with
    | '[' :: r =>
      if depth = 0 then .error (.seen .tooDeep ('[' :: r))
      else do
        let (vs, r) ← items l.read r true r
        .ok (.arr vs, r)
    | _ => wrongType "a sequence" s
  | .texts =>
    match skipBlanks s with
    | '\x7b' :: r =>
      if depth = 0 then .error (.seen .tooDeep ('\x7b' :: r))
      else do
        let (ms, r) ← members Leaf.text.read r true r
        .ok (object ms, r)
    | _ => wrongType "a map" s

end Form

/-- Where reading stands once a list is left early. -/
def leaveItems (s : List Char) : List Char :=
  match skipBlanks s with
  | ']' :: r => r
  | ',' :: r => skipBlanks r
  | r => r

/-- Where reading stands once an object is left early. -/
def leaveMembers (s : List Char) : List Char :=
  match skipBlanks s with
  | '\x7d' :: r => r
  | r => r

namespace Shape

/-- The leading fields of a record written as a list. -/
def readItems (depth : Nat) (length : String) :
    (index : Nat) → List Field → Scan (List (String × Json))
  | _, [], s => .ok ([], s)
  | index, f :: fs, s => do
    let (more, r) ← nextItem (index = 0) s
    if more then
      let (v, r) ← f.form.read depth r
      let (ms, r) ← readItems depth length (index + 1) fs r
      .ok ((f.name, v) :: ms, r)
    else
      match f.fallback with
      | .value v => do
        let (ms, r) ← readItems depth length (index + 1) fs r
        .ok ((f.name, v) :: ms, r)
      | _ => .error (.read (.mismatch (.invalidLength index length)) (leaveItems r))

/-- The members of a record up to its brace, which is not consumed. Members
that are no fields are passed over. -/
def readMembers (depth : Nat) (fields : List Field) :
    (count : List Char) → (first : Bool) → (present : List (String × Json)) →
    Scan (List (String × Json))
  | [], _, _, s => .error (.seen .eofObject s)
  | _ :: count, first, present, s => do
    let (more, r) ← nextKey first s
    if more then
      let (key, r) ← text r
      match fields.find? fun f => f.name = key with
      | none => do
        let r ← colon r
        let r ← skipValue r
        readMembers depth fields count false present r
      | some f =>
        if (Assoc.find? key present).isSome then
          .error (.read (.mismatch (.duplicateField key)) (leaveMembers r))
        else do
          let r ← colon r
          let (v, r) ← f.form.read depth r
          readMembers depth fields count false (present ++ [(key, v)]) r
    else .ok (present, r)

/-- The next member of a tagged object that is its tag or its content, after its key; `none` at the
brace. Other members are passed over. -/
def nextRelevant (tagKey contentKey : String) :
    (count : List Char) → (first : Bool) → Scan (Option String)
  | [], _, s => .error (.seen .eofObject s)
  | _ :: count, first, s => do
    let (more, r) ← nextKey first s
    if more then
      let (key, r) ← text r
      if key = tagKey ∨ key = contentKey then .ok (some key, r)
      else do
        let r ← colon r
        let r ← skipValue r
        nextRelevant tagKey contentKey count false r
    else .ok (none, r)

/-- Tag and content are known: no second one of either may follow. -/
def readTaggedEnd (tagKey contentKey : String) (result : Json) : Scan Json := fun s => do
  let (again, r) ← nextRelevant tagKey contentKey s false s
  match again with
  | some key => .error (.read (.mismatch (.duplicateField key)) (leaveMembers r))
  | none => .ok (result, r.drop 1)

/-- The rest of a tagged object whose tag is known: its content, and
nothing of either kind behind it. -/
def readContent (depth : Nat) (tagKey contentKey : String) (variants : List (String × Form))
    (tag : Json) : Scan Json := fun s => do
  let (second, r) ← nextRelevant tagKey contentKey s false s
  match second with
  | none => .error (.read (.mismatch (.missingField contentKey)) (leaveMembers r))
  | some key =>
    if key = tagKey then .error (.read (.mismatch (.duplicateField key)) (leaveMembers r))
    else do
      let r ← colon r
      let (content, r) ← (contentForm variants tag).read depth r
      readTaggedEnd tagKey contentKey (object [(tagKey, tag), (contentKey, content)]) r

/-- The rest of a tagged object whose content came first: its
tag, which decides about the content. -/
def readLateTag (depth : Nat) (tagKey contentKey : String) (variants : List (String × Form))
    (content : Json) : Scan Json := fun s => do
  let (second, r) ← nextRelevant tagKey contentKey s false s
  match second with
  | none => .error (.read (.mismatch (.missingField tagKey)) (leaveMembers r))
  | some key =>
    if key = contentKey then .error (.read (.mismatch (.duplicateField key)) (leaveMembers r))
    else do
      let r ← colon r
      let (tag, r) ← (tagForm variants).read depth r
      let content ← fitting ((contentForm variants tag).decode content) (leaveMembers r)
      readTaggedEnd tagKey contentKey (object [(tagKey, tag), (contentKey, content)]) r

/-- A tagged object after its brace. The content may come before the tag; then
it is kept until the tag is known. -/
def readTagged (depth : Nat) (tagKey contentKey : String) (variants : List (String × Form)) :
    Scan Json := fun s => do
  let (first, r) ← nextRelevant tagKey contentKey s true s
  match first with
  | none => .error (.read (.mismatch (.missingField tagKey)) (leaveMembers r))
  | some key => do
    let r ← colon r
    if key = tagKey then
      let (tag, r) ← (tagForm variants).read depth r
      readContent depth tagKey contentKey variants tag r
    else
      let (content, r) ← value depth r
      readLateTag depth tagKey contentKey variants content r

/-- A tagged list after its bracket. -/
def readPair (depth : Nat) (name tagKey contentKey : String) (variants : List (String × Form)) :
    Scan Json := fun s => do
  let (more, r) ← nextItem true s
  if more then
    let (tag, r) ← readTag variants r
    let (more, r) ← nextItem false r
    if more then
      let (content, r) ← (contentForm variants tag).read depth r
      let r ← endItems r
      .ok (object [(tagKey, tag), (contentKey, content)], r)
    else .error (.read (.mismatch (.invalidLength 1 (taggedName name))) (leaveItems r))
  else .error (.read (.mismatch (.invalidLength 0 (taggedName name))) (leaveItems r))

def read (depth : Nat) (shape : Shape) : Scan Json := fun s =>
  match shape with
  | .plain form => form.read depth s
  | .record name fields =>
    match skipBlanks s with
    | [] => .error (.seen .eofValue [])
    | c :: r =>
      if c = '[' then
        if depth = 0 then .error (.seen .tooDeep (c :: r))
        else do
          let (ms, r) ←
            readItems (depth - 1) (recordLength name fields.length) 0 fields r
          let r ← endItems r
          .ok (object ms, r)
      else if c = '\x7b' then
        if depth = 0 then .error (.seen .tooDeep (c :: r))
        else do
          let (present, r) ← readMembers (depth - 1) fields r true [] r
          let ms ← fitting (complete present fields) (leaveMembers r)
          .ok (object ms, r.drop 1)
      else wrongType ("struct " ++ name) (c :: r)
  | .tagged name tagKey contentKey variants =>
    match skipBlanks s with
    | [] => .error (.seen .eofValue [])
    | c :: r =>
      if c = '[' then
        if depth = 0 then .error (.seen .tooDeep (c :: r))
        else readPair (depth - 1) name tagKey contentKey variants r
      else if c = '\x7b' then
        if depth = 0 then .error (.seen .tooDeep (c :: r))
        else readTagged (depth - 1) tagKey contentKey variants r
      else wrongType (taggedName name) (c :: r)

/-- Decodes a text that is one value of this shape. -/
def parse (shape : Shape) (s : String) : Except Failure Json := whole (shape.read maxDepth) s.toList

/-- Decodes a text, or says in words why it does not fit. -/
def parseText (shape : Shape) (s : String) : Except String Json :=
  (shape.parse s).mapError fun f => f.message s.toList

/-- Decodes a value, or says in words why it does not fit. -/
def decodeText (shape : Shape) (v : Json) : Except String Json :=
  (shape.decode v).mapError Mismatch.message

end Shape

end Workflow.Json
