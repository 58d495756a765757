import PlanarSketch.Binary64
import PlanarSketch.Decimal.Shortest

/-!
Numbers as JSON text. A double is written with the fewest digits that round to it: positionally
from `10^-5` up to `10^16`, always with a point, and with an exponent beyond. It is read from the
leading digits that fit into a 64-bit word and one power of ten, each rounded to a double, so a
number of many digits may be read one unit in the last place off.
-/

namespace PlanarSketch.Json

def zeros (n : Nat) : List Char := List.replicate n '0'

def exponentText (e : Int) : String :=
  if e < 0 then s!"e-{e.natAbs}" else s!"e+{e.natAbs}"

def decimalText (d : Decimal) : String :=
  let digits := Nat.toDigits 10 d.digits
  let leading := d.exponent + digits.length - 1
  if leading < -5 ∨ 16 ≤ leading then
    let fraction := if digits.length = 1 then [] else '.' :: digits.drop 1
    String.ofList (digits.take 1 ++ fraction) ++ exponentText leading
  else if 0 ≤ d.exponent then
    String.ofList (digits ++ zeros d.exponent.toNat ++ ['.', '0'])
  else if 0 ≤ leading then
    let whole := leading.toNat + 1
    String.ofList (digits.take whole ++ '.' :: digits.drop whole)
  else
    String.ofList ('0' :: '.' :: zeros (-leading - 1).toNat ++ digits)

/-- The text of a finite double. -/
def floatText (x : Float) : String :=
  let p := Binary64.parts x
  let magnitude :=
    if p.digits = 0 then "0.0"
    else decimalText (Decimal.shortest
      ⟨p.digits, p.exponent, decide (p.digits = Binary64.hiddenBit ∧ -1074 < p.exponent)⟩)
  if p.negative then "-" ++ magnitude else magnitude

/-- The largest 64-bit word. -/
def wordLimit : Nat := UInt64.size - 1

/-- A significand and the power of ten that it is to be scaled by. -/
structure Scaled where
  significand : Nat
  exponent : Int

/-- Takes digits before the point; once one does not fit, it and all later ones only raise the
exponent. -/
def wholeDigits : List Nat → Scaled → Scaled
  | [], s => s
  | d :: ds, s =>
      if s.exponent = 0 ∧ s.significand * 10 + d ≤ wordLimit then
        wholeDigits ds ⟨s.significand * 10 + d, 0⟩
      else wholeDigits ds ⟨s.significand, s.exponent + 1⟩

/-- Takes digits behind the point up to the first that does not fit. -/
def fractionDigits : List Nat → Scaled → Scaled
  | [], s => s
  | d :: ds, s =>
      if s.significand * 10 + d ≤ wordLimit then
        fractionDigits ds ⟨s.significand * 10 + d, s.exponent - 1⟩
      else s

def powerOfTen (n : Nat) : Float := Float.ofScientific 1 false n

/-- Scales by a power of ten in steps that a double can hold; no value if the result is not
finite. Three steps reach every exponent that leaves a value above zero. -/
def scale? : Nat → Float → Int → Option Float
  | 0, f, _ => some f
  | steps + 1, f, e =>
      if e.natAbs ≤ 308 then
        if 0 ≤ e then
          let g := f * powerOfTen e.natAbs
          if g.isInf then none else some g
        else some (f / powerOfTen e.natAbs)
      else if f == 0.0 then some f
      else if 0 ≤ e then none
      else scale? steps (f / 1e308) (e + 308)

/-- The largest exponent that is read as a number. -/
def exponentLimit : Nat := 2147483647

def clampExponent (e : Int) : Int := max (-2147483648) (min 2147483647 e)

def Scaled.toFloat? (s : Scaled) : Option Float := scale? 4 (Float.ofNat s.significand) s.exponent

def digitsValue (ds : List Nat) : Nat := ds.foldl (fun n d => n * 10 + d) 0

/-- A number as its sign and three runs of digits. -/
structure Literal where
  negative : Bool
  whole : List Nat
  fraction : Option (List Nat)
  exponent : Option (Bool × List Nat)

def signed (negative : Bool) (x : Float) : Float := if negative then -x else x

/-- The value of a literal with a point or an exponent, or of one that no word can hold. -/
def Literal.toFloat? (l : Literal) : Option Float :=
  let s := fractionDigits (l.fraction.getD []) (wholeDigits l.whole ⟨0, 0⟩)
  match l.exponent with
  | none => s.toFloat?.map (signed l.negative)
  | some (below, ds) =>
      let e := digitsValue ds
      if exponentLimit < e then
        if s.significand ≠ 0 ∧ !below then none else some (signed l.negative 0.0)
      else
        let shifted := clampExponent (if below then s.exponent - e else s.exponent + e)
        ({ s with exponent := shifted } : Scaled).toFloat?.map (signed l.negative)

/-- Integers are those literals without point and exponent that fit a word of their sign. Minus
zero is not an integer. -/
def Literal.toInt? (l : Literal) : Option Int :=
  let n := digitsValue l.whole
  if l.fraction.isSome ∨ l.exponent.isSome then none
  else if l.negative then (if 0 < n ∧ n ≤ 0x8000000000000000 then some (-n) else none)
  else if n ≤ wordLimit then some n else none

end PlanarSketch.Json
