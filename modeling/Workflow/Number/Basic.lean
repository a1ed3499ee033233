import Workflow.Number.Shortest

/-! Numbers as JSON has them: integers of the 64-bit ranges, and doubles for all others. -/
namespace Workflow

inductive Number where
  | int (value : Int)
  | float (value : Double)
deriving DecidableEq

namespace Number

/-- The integers that stay integers: those of a signed or an unsigned 64-bit word. -/
def isWord (n : Int) : Bool := -0x8000000000000000 ≤ n && n < 0x10000000000000000

/-- Equality of numbers: an integer never equals a double, and the two zero doubles are equal. -/
def same : Number → Number → Bool
  | .int m, .int n => m = n
  | .float x, .float y => x.same y
  | _, _ => false

def intText (n : Int) : List Char :=
  if n < 0 then '-' :: Nat.toDigits 10 n.natAbs else Nat.toDigits 10 n.natAbs

def text : Number → List Char
  | .int n => intText n
  | .float x => x.text

/-- A number read digit by digit: as many leading digits as fit a 64-bit word, and the power of ten
they are multiplied by. -/
structure Significand where
  value : Nat
  exponent : Int

namespace Significand

/-- Appending the digit keeps the value within a 64-bit word. -/
def fits (s : Significand) (digit : Nat) : Bool := s.value * 10 + digit < 0x10000000000000000

def digitValue (c : Char) : Nat := c.toNat - '0'.toNat

/-- Digits before the point. Once a digit does not fit, it and all later ones only count. -/
def whole (s : Significand) : List Char → Significand
  | [] => s
  | c :: cs =>
    if s.fits (digitValue c) then whole ⟨s.value * 10 + digitValue c, s.exponent⟩ cs
    else ⟨s.value, s.exponent + (cs.length + 1)⟩

/-- Digits after the point. Once a digit does not fit, it and all later ones are dropped. -/
def part (s : Significand) : List Char → Significand
  | [] => s
  | c :: cs =>
    if s.fits (digitValue c) then part ⟨s.value * 10 + digitValue c, s.exponent - 1⟩ cs else s

/-- Divides by the greatest power of ten while the exponent is out of reach; a value that has become
zero stays zero. -/
def descend (x : Float) (exponent : Int) : (rounds : Nat) → Float × Int
  | 0 => (x, exponent)
  | rounds + 1 =>
    if exponent < -308 && x != 0 then
      descend (x / Float.ofScientific 1 false 308) (exponent + 308) rounds
    else (x, exponent)

/-- The double a significand stands for: the value is rounded to a double, then scaled with one
rounding for each power of ten. There is none if the result is infinite. -/
def toDouble? (negative : Bool) (s : Significand) : Option Double :=
  let x := s.value.toUInt64.toFloat
  let (x, e) := descend x s.exponent 8
  let signed (y : Float) : Double := ⟨(if negative then -y else y).toBits⟩
  if 0 ≤ e then
    if 308 < e then if x == 0 then some (signed x) else none
    else
      let y := x * Float.ofScientific 1 false e.toNat
      if y.isInf then none else some (signed y)
  else if e < -308 then some (signed x)
  else some (signed (x / Float.ofScientific 1 false e.natAbs))

end Significand

end Number

end Workflow
