import PlanarSketch.Scalar

/-!
Doubles as scalars. A finite double is `±digits · 2^exponent` with `digits < 2^53`; the exact
remainder of a truncating division is computed on these integers, so no quotient is rounded.
-/

namespace PlanarSketch.Binary64

structure Parts where
  negative : Bool
  digits : Nat
  exponent : Int
  deriving DecidableEq, Repr

/-- The leading digit that a normal double does not write down: `2^52`. -/
def hiddenBit : Nat := 0x10000000000000

def signBit : Nat := 0x8000000000000000

/-- The integers of a finite double; for an infinity or a value that is not a number the result
has no meaning. -/
def parts (x : Float) : Parts :=
  let bits := x.toBits.toNat
  let field := bits / hiddenBit % 2048
  let fraction := bits % hiddenBit
  let negative := decide (signBit ≤ bits)
  if field = 0 then ⟨negative, fraction, -1074⟩
  else ⟨negative, fraction + hiddenBit, Int.ofNat field - 1075⟩

/-- The double with the given parts, when `digits < 2^53` and the exponent is at least `-1074`. -/
def ofParts (p : Parts) : Float :=
  let sign := if p.negative then signBit else 0
  let shift := min (52 - p.digits.log2) (p.exponent + 1074).toNat
  let digits := p.digits <<< shift
  let magnitude :=
    if digits < hiddenBit then digits
    else (p.exponent - shift + 1075).toNat * hiddenBit + (digits - hiddenBit)
  Float.ofBits (sign + magnitude).toUInt64

/-- Remainder of the division of two finite doubles that truncates toward zero: exact, with the
sign of the dividend. -/
def remainderParts (a b : Parts) : Parts :=
  let exponent := min a.exponent b.exponent
  { negative := a.negative
    digits := (a.digits <<< (a.exponent - exponent).toNat) %
      (b.digits <<< (b.exponent - exponent).toNat)
    exponent := exponent }

def remainder (x y : Float) : Float :=
  if !x.isFinite || y.isNaN || y == 0.0 then 0.0 / 0.0
  else if y.isInf then x
  else ofParts (remainderParts (parts x) (parts y))

def toIndex? (x : Float) : Option UInt32 :=
  if 0.0 ≤ x ∧ x ≤ 4294967295.0 ∧ x.toUInt32.toFloat == x then some x.toUInt32 else none

instance : Scalar Float where
  decLt := fun a b => Float.decLt a b
  decLe := fun a b => Float.decLe a b
  sqrt := Float.sqrt
  abs := Float.abs
  sin := Float.sin
  cos := Float.cos
  atan2 := Float.atan2
  pi := 3.141592653589793
  rem := remainder
  isFinite := Float.isFinite
  ofInt := Float.ofInt
  toIndex? := toIndex?

end PlanarSketch.Binary64
