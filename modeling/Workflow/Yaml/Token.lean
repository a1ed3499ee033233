import Workflow.Yaml.Scalar

/-! The tokens of a YAML text. Indentation opens and closes block collections, and an element turns
out to be a key only when a colon follows it, so that the tokens in front of it are put in
afterwards. Anchors, aliases, tags, block scalars and directives are refused. -/
namespace Workflow.Yaml

inductive Token where
  | documentStart
  | documentEnd
  | blockSequence
  | blockMapping
  | blockEnd
  | flowSequence
  | flowSequenceEnd
  | flowMapping
  | flowMappingEnd
  | blockEntry
  | flowEntry
  | key
  | value
  | scalar (text : String) (isPlain : Bool)
deriving DecidableEq

/-- An element that is a key if a colon follows it. -/
structure Candidate where
  /-- Where its first token stands among the tokens. -/
  position : Nat
  index : Nat
  line : Nat
  column : Nat
  /-- It stands where only a key can. -/
  required : Bool

/-- A key ends on the line where it starts, and within 1024 bytes. -/
def Candidate.expired (k : Candidate) (s : Source) : Bool :=
  k.line < s.line || k.index + 1024 < s.index

structure Scan where
  source : Source
  tokens : Array Token
  /-- The columns of the open block collections, innermost first. -/
  indents : List Nat
  candidate : Option Candidate
  /-- The candidates outside the open brackets, innermost first. -/
  enclosing : List (Option Candidate)
  keyAllowed : Bool

namespace Scan

def start (text : String) : Scan := ⟨.ofText text, #[], [], none, [], true⟩

def inFlow (s : Scan) : Bool := !s.enclosing.isEmpty

def push (s : Scan) (t : Token) : Scan := { s with tokens := s.tokens.push t }

/-- Adds a token for some characters of the text. -/
def take (s : Scan) (n : Nat) (t : Token) : Scan := { s.push t with source := s.source.skip n }

/-- On to the next token, over blanks, comments and line breaks. A tab does not indent, and a byte
order mark may start a line. -/
def skipIdle : Nat → Scan → Scan
  | 0, s => s
  | n + 1, s =>
    match s.source.rest with
    | [] => s
    | c :: _ =>
      if c = ' ' || (c = '\t' && (s.inFlow || !s.keyAllowed)) ||
          (c = '\ufeff' && s.source.column = 0) then
        skipIdle n { s with source := s.source.skip 1 }
      else if c = '#' then skipIdle n { s with source := s.source.skipLine }
      else if isBreak c then
        skipIdle n { s with source := s.source.skipBreak, keyAllowed := s.keyAllowed || !s.inFlow }
      else s

/-- Gives up the candidates that can no longer be keys. -/
def expire (s : Scan) : Option Scan :=
  let kept (k : Option Candidate) := k.filter fun k => !k.expired s.source
  if (s.candidate :: s.enclosing).any fun k =>
      k.any fun k => k.required && k.expired s.source then none
  else some { s with candidate := kept s.candidate, enclosing := s.enclosing.map kept }

/-- Gives up the candidate, which must not have been required. -/
def dropCandidate (s : Scan) : Option Scan :=
  if s.candidate.any (·.required) then none else some { s with candidate := none }

/-- Notes that a key may start here. -/
def saveCandidate (s : Scan) : Option Scan :=
  if s.keyAllowed then do
    let s ← s.dropCandidate
    let here := s.source
    some { s with candidate := some {
      position := s.tokens.size
      index := here.index
      line := here.line
      column := here.column
      required := !s.inFlow && s.indents.head? = some here.column } }
  else some s

/-- Opens a block collection at a column that is further in; its token goes in at a position. -/
def indentTo (s : Scan) (column position : Nat) (t : Token) : Scan :=
  if !s.inFlow && s.indents.head?.all (· < column) then
    { s with indents := column :: s.indents, tokens := s.tokens.insertIdxIfInBounds position t }
  else s

/-- Closes the block collections that are further in than a column, or all of them. -/
def outdentTo (s : Scan) (column : Option Nat) : Scan :=
  if s.inFlow then s
  else
    let closed := s.indents.takeWhile fun i => column.all (· < i)
    { s with
      indents := s.indents.drop closed.length
      tokens := s.tokens ++ Array.replicate closed.length .blockEnd }

def document (s : Scan) (t : Token) : Option Scan := do
  let s ← (s.outdentTo none).dropCandidate
  some { s.take 3 t with keyAllowed := false }

def openFlow (s : Scan) (t : Token) : Option Scan := do
  let s ← s.saveCandidate
  some { s.take 1 t with
    candidate := none, enclosing := s.candidate :: s.enclosing, keyAllowed := true }

def closeFlow (s : Scan) (t : Token) : Option Scan := do
  let s ← s.dropCandidate
  some { s.take 1 t with
    candidate := s.enclosing.head?.getD s.candidate
    enclosing := s.enclosing.tail
    keyAllowed := false }

def flowEntry (s : Scan) : Option Scan := do
  let s ← s.dropCandidate
  some { s.take 1 .flowEntry with keyAllowed := true }

/-- The mark of an entry or of a key, in front of what it marks. -/
def mark (s : Scan) (collection t : Token) (keyAllowed : Bool) : Option Scan :=
  if !s.inFlow && !s.keyAllowed then none
  else do
    let s ← (s.indentTo s.source.column s.tokens.size collection).dropCandidate
    some { s.take 1 t with keyAllowed }

/-- The colon after a key. -/
def value (s : Scan) : Option Scan :=
  match s.candidate with
  | some k =>
    let s := { s with tokens := s.tokens.insertIdxIfInBounds k.position .key }
    let s := s.indentTo k.column k.position .blockMapping
    some { s.take 1 .value with candidate := none, keyAllowed := false }
  | none =>
    if !s.inFlow && !s.keyAllowed then none
    else
      let s := s.indentTo s.source.column s.tokens.size .blockMapping
      some { s.take 1 .value with keyAllowed := !s.inFlow }

def quotedScalar (s : Scan) (quote : Char) : Option Scan := do
  let s ← s.saveCandidate
  let (text, source) ← quoted quote s.source
  some { s.push (.scalar (String.ofList text) false) with source, keyAllowed := false }

def plainScalar (s : Scan) : Option Scan := do
  let s ← s.saveCandidate
  let e ← plain s.inFlow (s.indents.head?.elim 0 (· + 1)) s.source
  some { s.push (.scalar (String.ofList e.text) true) with
    source := e.source, keyAllowed := e.gap.broken }

/-- A plain scalar may not start with one of these. -/
def indicators : List Char :=
  ['-', '?', ':', ',', '[', ']', '\x7b', '\x7d', '#', '&', '*', '!', '|', '>', '\'', '"',
    '%', '@', '`']

def startsPlain (s : Scan) (c : Char) : Bool :=
  (!isBlank c && !indicators.contains c)
    || (c = '-' && !s.source.gapAt 1)
    || (!s.inFlow && (c = '?' || c = ':') && !s.source.gapAt 1)

/-- The token that starts with a character. -/
def token (s : Scan) (c : Char) : Option Scan :=
  if s.source.atMark '-' then s.document .documentStart
  else if s.source.atMark '.' then s.document .documentEnd
  else if c = '[' then s.openFlow .flowSequence
  else if c = '\x7b' then s.openFlow .flowMapping
  else if c = ']' then s.closeFlow .flowSequenceEnd
  else if c = '\x7d' then s.closeFlow .flowMappingEnd
  else if c = ',' then s.flowEntry
  else if c = '-' && s.source.gapAt 1 then s.mark .blockSequence .blockEntry true
  else if c = '?' && (s.inFlow || s.source.gapAt 1) then s.mark .blockMapping .key (!s.inFlow)
  else if c = ':' && (s.inFlow || s.source.gapAt 1) then s.value
  else if c = '\'' || c = '"' then s.quotedScalar c
  else if s.startsPlain c then s.plainScalar
  else none

/-- Every round reads a token, which takes at least one character. -/
def run : Nat → Scan → Option (List Token)
  | 0, _ => none
  | n + 1, s => do
    let s ← (skipIdle (s.source.rest.length + 1) s).expire
    match s.source.rest with
    | [] =>
      let s ← (s.outdentTo none).dropCandidate
      some s.tokens.toList
    | c :: _ => ((s.outdentTo (some s.source.column)).token c).bind (run n)

end Scan

/-- The tokens of a text, if it can be divided into tokens. -/
def Token.ofText? (text : String) : Option (List Token) :=
  if text.toList.all isAllowed then Scan.run (text.length + 1) (.start text) else none

end Workflow.Yaml
