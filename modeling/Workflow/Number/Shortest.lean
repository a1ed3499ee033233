/-! The shortest decimal that stands for a double.

A double is a mantissa times a power of two. Every decimal strictly between the midpoints to its two
neighbours reads back as that double, and so do the midpoints themselves if the mantissa is even. -/
namespace Workflow

/-- A number `digits * 10 ^ exponent`. -/
structure Decimal where
  digits : Nat
  exponent : Int
deriving DecidableEq

/-- A 64-bit binary floating point number, held by its bit pattern. -/
structure Double where
  bits : UInt64
deriving DecidableEq

namespace Decimal

/-- The non-negative fraction `num / den`. -/
structure Fraction where
  num : Nat
  den : Nat

/-- `c * 10 ^ e` as a fraction. -/
def toFraction (c : Nat) (e : Int) : Fraction :=
  if 0 ≤ e then ⟨c * Nat.pow 10 e.toNat, 1⟩ else ⟨c, Nat.pow 10 (-e).toNat⟩

def Fraction.le (a b : Fraction) : Bool := a.num * b.den ≤ b.num * a.den

def Fraction.lt (a b : Fraction) : Bool := a.num * b.den < b.num * a.den

/-- The distance of two fractions. -/
def Fraction.dist (a b : Fraction) : Fraction :=
  let x := a.num * b.den
  let y := b.num * a.den
  ⟨if x ≤ y then y - x else x - y, a.den * b.den⟩

/-- The number of decimal digits of `n`; zero has one. -/
def width (n : Nat) : Nat := (Nat.toDigits 10 n).length

/-- The decimal places of a positive fraction below one that are zero before its first digit. -/
def leadingZeros (f : Fraction) : (fuel : Nat) → Nat
  | 0 => 0
  | fuel + 1 => if f.num * 10 < f.den then leadingZeros ⟨f.num * 10, f.den⟩ fuel + 1 else 0

/-- The exponent `k` with `10 ^ k ≤ f < 10 ^ (k + 1)`, for a positive fraction. -/
def magnitude (f : Fraction) : Int :=
  if f.den ≤ f.num then (width (f.num / f.den) : Int) - 1
  else -(leadingZeros f 400 : Int) - 1

/-- The numbers that read back as one double: an interval around it, with or without its ends. -/
structure Span where
  low : Fraction
  mid : Fraction
  high : Fraction
  closed : Bool

def Span.holds (s : Span) (f : Fraction) : Bool :=
  if s.closed then s.low.le f && f.le s.high else s.low.lt f && f.lt s.high

/-- Of the digits next below and next above the middle, those nearer to it. Of two equally near ones
the even digits are taken. -/
def Span.nearer (s : Span) (e : Int) (below : Nat) : Decimal :=
  let down := (toFraction below e).dist s.mid
  let up := (toFraction (below + 1) e).dist s.mid
  if down.lt up || (!up.lt down && below % 2 = 0) then ⟨below, e⟩ else ⟨below + 1, e⟩

/-- The decimal with `n` significant digits nearest to the middle that lies in the span. -/
def Span.withDigits? (s : Span) (k : Int) (n : Nat) : Option Decimal :=
  let e := k + 1 - n
  let unit := toFraction 1 e
  let below := (s.mid.num * unit.den) / (s.mid.den * unit.num)
  match s.holds (toFraction below e), s.holds (toFraction (below + 1) e) with
  | true, true => some (s.nearer e below)
  | true, false => some ⟨below, e⟩
  | false, true => some ⟨below + 1, e⟩
  | false, false => none

/-- Drops trailing zeros of the digits into the exponent. -/
def strip (d : Decimal) : (fuel : Nat) → Decimal
  | 0 => d
  | fuel + 1 =>
    if d.digits ≠ 0 ∧ d.digits % 10 = 0 then
      strip ⟨d.digits / 10, d.exponent + 1⟩ fuel else d

/-- Seventeen digits always suffice, so the first hit on the way there is the shortest decimal. -/
def Span.shortest (s : Span) : Decimal :=
  let k := magnitude s.mid
  match (List.range' 1 17).findSome? (s.withDigits? k) with
  | some d => d.strip 20
  | none => ⟨0, 0⟩

end Decimal

namespace Double

def isNegative (x : Double) : Bool := x.bits.toNat / Nat.pow 2 63 = 1

def biased (x : Double) : Nat := x.bits.toNat / Nat.pow 2 52 % Nat.pow 2 11

def fraction (x : Double) : Nat := x.bits.toNat % Nat.pow 2 52

def isZero (x : Double) : Bool := x.biased = 0 && x.fraction = 0

/-- Equal as numbers: the two zeros are the same number. -/
def same (x y : Double) : Bool := x.bits == y.bits || (x.isZero && y.isZero)

def mantissa (x : Double) : Nat :=
  if x.biased = 0 then x.fraction else Nat.pow 2 52 + x.fraction

/-- The power of two that the mantissa is multiplied by. -/
def exponent (x : Double) : Int :=
  if x.biased = 0 then -1074 else (x.biased : Int) - 1075

/-- The numbers that read back as the absolute value of `x`. The gap below a power of two is half as
wide as the gap above it. -/
def span (x : Double) : Decimal.Span :=
  let m := 4 * x.mantissa
  let below := if x.fraction = 0 ∧ 1 < x.biased then 1 else 2
  let e := x.exponent - 2
  let scale (n : Nat) : Decimal.Fraction :=
    if 0 ≤ e then ⟨n * Nat.pow 2 e.toNat, 1⟩ else ⟨n, Nat.pow 2 (-e).toNat⟩
  ⟨scale (m - below), scale m, scale (m + 2), x.mantissa % 2 = 0⟩

/-- The digits of a decimal between a hundred-thousandth and ten to the sixteenth are
written in full with at least one decimal place; others are written with one digit
before the point and a signed exponent. -/
def layout (d : Decimal) : List Char :=
  let ds := Nat.toDigits 10 d.digits
  let point : Int := ds.length + d.exponent
  if -4 ≤ point ∧ point ≤ 16 then
    if point ≤ 0 then '0' :: '.' :: (List.replicate (-point).toNat '0' ++ ds)
    else
      let whole := ds.take point.toNat
      let part := ds.drop point.toNat
      whole ++ List.replicate (point.toNat - whole.length) '0' ++
        '.' :: (if part.isEmpty then ['0'] else part)
  else
    let power := point - 1
    let tail := ds.drop 1
    ds.take 1 ++ (if tail.isEmpty then [] else '.' :: tail) ++
      'e' :: (if power < 0 then '-' else '+') :: Nat.toDigits 10 power.natAbs

/-- The text of a finite double. -/
def text (x : Double) : List Char :=
  let digits := if x.isZero then ['0', '.', '0'] else layout x.span.shortest
  if x.isNegative then '-' :: digits else digits

end Double

end Workflow
