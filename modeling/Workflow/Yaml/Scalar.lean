import Workflow.Text
import Workflow.Yaml.Source

/-! The scalars of a YAML text: plain words, which may go on over several lines, and quoted text.

Each loop takes the number of rounds it may run, which its callers set to the length of the text. -/
namespace Workflow.Yaml

/-- Blanks and line breaks inside a scalar. -/
structure Gap where
  /-- The blanks in front of the first line break. -/
  blanks : List Char
  /-- The line breaks, each as the character that it stands for. -/
  breaks : List Char
  /-- The first line break was escaped, and is not among `breaks`. -/
  escaped : Bool

namespace Gap

def empty : Gap := ⟨[], [], false⟩

def broken (g : Gap) : Bool := g.escaped || !g.breaks.isEmpty

/-- Blanks stand for themselves. A line break alone stands for a
space; with others it is dropped. -/
def text (g : Gap) : List Char :=
  if g.escaped then g.breaks
  else match g.breaks with
    | [] => g.blanks
    | ['\n'] => [' ']
    | '\n' :: more => more
    | all => all

/-- Reads on to the next visible character. A tab may not indent a line less than `least`. -/
def read (least : Nat) : Nat → Gap → Source → Option (Gap × Source)
  | 0, g, s => some (g, s)
  | n + 1, g, s =>
    match s.rest with
    | [] => some (g, s)
    | c :: _ =>
      if isBlank c then
        if g.broken then
          if c = '\t' && s.column < least then none else read least n g (s.skip 1)
        else read least n { g with blanks := g.blanks ++ [c] } (s.skip 1)
      else if isBreak c then
        let b := if c = '\u2028' || c = '\u2029' then c else '\n'
        read least n { g with breaks := g.breaks ++ [b] } s.skipBreak
      else some (g, s)

end Gap

/-- A scalar, where it ends, and the gap in front of that. -/
structure ScalarEnd where
  text : List Char
  gap : Gap
  source : Source

section Plain

def isFlowMark (c : Char) : Bool := c = ',' || c = '[' || c = ']' || c = '\x7b' || c = '\x7d'

/-- The next visible characters of a plain scalar. A colon ends it in front of a gap; inside
brackets commas and brackets do, and a colon may not stand in front of one. -/
def plainRun (flow : Bool) : Nat → Source → Option (List Char × Source)
  | 0, s => some ([], s)
  | n + 1, s =>
    match s.rest with
    | [] => some ([], s)
    | c :: more =>
      if s.gapAt 0 then some ([], s)
      else if flow && c = ':' && more.head?.any (fun d => isFlowMark d || d = '?') then none
      else if (c = ':' && s.gapAt 1) || (flow && isFlowMark c) then some ([], s)
      else do
        let (run, s) ← plainRun flow n (s.skip 1)
        some (c :: run, s)

/-- A plain scalar after the gap read so far. It ends at a comment, at the mark of a document and at
a line that is indented less than `least`. -/
def plainFrom (flow : Bool) (least : Nat) : Nat → Gap → Source → Option ScalarEnd
  | 0, g, s => some ⟨[], g, s⟩
  | n + 1, g, s =>
    if s.atDocumentMark || s.rest.head? = some '#' then some ⟨[], g, s⟩
    else do
      let (run, s) ← plainRun flow (s.rest.length + 1) s
      if run.isEmpty then some ⟨[], g, s⟩
      else
        let (next, s) ← Gap.read least (s.rest.length + 1) .empty s
        if s.rest.isEmpty || (!flow && s.column < least) then some ⟨g.text ++ run, next, s⟩
        else
          let tail ← plainFrom flow least n next s
          some { tail with text := g.text ++ run ++ tail.text }

def plain (flow : Bool) (least : Nat) (s : Source) : Option ScalarEnd :=
  plainFrom flow least (s.rest.length + 1) .empty s

end Plain

section Quoted

/-- The characters that one letter after a backslash stands for. -/
def escapes : List (Char × Char) := [
  ('0', '\x00'), ('a', '\x07'), ('b', '\x08'), ('t', '\t'), ('\t', '\t'), ('n', '\n'),
  ('v', '\x0b'), ('f', '\x0c'), ('r', '\r'), ('e', '\x1b'), (' ', ' '), ('"', '"'), ('/', '/'),
  ('\\', '\\'), ('N', '\u0085'), ('_', '\u00a0'), ('L', '\u2028'), ('P', '\u2029')]

/-- The escapes that give a character by its number, with how many digits. -/
def numericEscapes : List (Char × Nat) := [('x', 2), ('u', 4), ('U', 8)]

/-- The character with the number written in hexadecimal. -/
def charOfHex? (digits : List Char) : Option Char := do
  let n ← Text.hexNumber? digits
  if n.isValidChar then some (Char.ofNat n) else none

/-- The character that the escape with this letter stands for, and
its length without the backslash. -/
def escape? (letter : Char) (more : List Char) : Option (Char × Nat) :=
  match escapes.lookup letter with
  | some c => some (c, 1)
  | none => do
    let n ← numericEscapes.lookup letter
    if more.length < n then none
    else some (← charOfHex? (more.take n), n + 1)

/-- The next visible characters between quotes, and whether an escaped line break ended them. -/
def quotedRun (quote : Char) : Nat → Source → Option (List Char × Bool × Source)
  | 0, s => some ([], false, s)
  | n + 1, s =>
    if s.gapAt 0 then some ([], false, s)
    else match s.rest with
      | [] => some ([], false, s)
      | c :: more =>
        if c = quote then
          if quote = '\'' && more.head? = some '\'' then do
            let (run, ended, s) ← quotedRun quote n (s.skip 2)
            some (c :: run, ended, s)
          else some ([], false, s)
        else if quote = '"' && c = '\\' then
          match more with
          | [] => none
          | d :: more =>
            if isBreak d then some ([], true, (s.skip 1).skipBreak)
            else do
              let (e, length) ← escape? d more
              let (run, ended, s) ← quotedRun quote n (s.skip (length + 1))
              some (e :: run, ended, s)
        else do
          let (run, ended, s) ← quotedRun quote n (s.skip 1)
          some (c :: run, ended, s)

/-- A quoted scalar after its first quote. The mark of a document may not start one of its lines. -/
def quotedFrom (quote : Char) : Nat → Source → Option (List Char × Source)
  | 0, _ => none
  | n + 1, s =>
    if s.atDocumentMark || s.rest.isEmpty then none
    else do
      let (run, escaped, s) ← quotedRun quote (s.rest.length + 1) s
      if s.rest.head? = some quote then some (run, s.skip 1)
      else
        let (gap, s) ← Gap.read 0 (s.rest.length + 1) { Gap.empty with escaped } s
        let (tail, s) ← quotedFrom quote n s
        some (run ++ gap.text ++ tail, s)

def quoted (quote : Char) (s : Source) : Option (List Char × Source) :=
  quotedFrom quote (s.rest.length + 1) (s.skip 1)

end Quoted

end Workflow.Yaml
