/-!
The shortest decimal that stands for a binary number. Reals that lie closer to `m · 2^q` than to
its two neighbours round to it, and so do the midpoints when `m` is even; among the decimals in
that interval the search takes the coarsest grid that has one, and on it the one nearest to the
number. All comparisons are between integers.
-/

namespace PlanarSketch

/-- `digits · 10^exponent`. -/
structure Decimal where
  digits : Nat
  exponent : Int
  deriving DecidableEq, Repr

/-- The positive number `mantissa · 2^exponent`. Below a power of two the neighbour is half as
far away as above it, unless the numbers are denormal. -/
structure Binary where
  mantissa : Nat
  exponent : Int
  narrowBelow : Bool
  deriving DecidableEq, Repr

namespace Decimal

def powerOfTen (n : Nat) : Nat := Nat.pow 10 n

/-- Order of `a · 10^i` and `n · 2^j`. -/
def compareScaled (a : Nat) (i : Int) (n : Nat) (j : Int) : Ordering :=
  compare ((a * powerOfTen i.toNat) <<< (-j).toNat) ((n <<< j.toNat) * powerOfTen (-i).toNat)

/-- Whether a decimal rounds to the binary number. -/
def roundsTo (d : Decimal) (x : Binary) : Bool :=
  let low := if x.narrowBelow then 4 * x.mantissa - 1 else 4 * x.mantissa - 2
  let high := 4 * x.mantissa + 2
  let even := x.mantissa % 2 = 0
  let fromLow := compareScaled d.digits d.exponent low (x.exponent - 2)
  let fromHigh := compareScaled d.digits d.exponent high (x.exponent - 2)
  (fromLow = .gt || even && fromLow = .eq) && (fromHigh = .lt || even && fromHigh = .eq)

/-- The largest multiple of `10^i` that is not above the number. -/
def floorOn (x : Binary) (i : Int) : Decimal :=
  ⟨(x.mantissa <<< x.exponent.toNat) * powerOfTen (-i).toNat /
    (powerOfTen i.toNat <<< (-x.exponent).toNat), i⟩

def next (d : Decimal) : Decimal := ⟨d.digits + 1, d.exponent⟩

/-- Of a decimal below the number and its successor the nearer one; halfway, the even one. -/
def nearer (d : Decimal) (x : Binary) : Decimal :=
  match compareScaled (2 * d.digits + 1) d.exponent (2 * x.mantissa) x.exponent with
  | .lt => d.next
  | .gt => d
  | .eq => if d.digits % 2 = 0 then d else d.next

/-- A multiple of `10^i` that rounds to the number, if there is one. -/
def onGrid? (x : Binary) (i : Int) : Option Decimal :=
  let below := floorOn x i
  match below.roundsTo x, below.next.roundsTo x with
  | true, true => some (below.nearer x)
  | true, false => some below
  | false, true => some below.next
  | false, false => none

/-- Not below the exponent of the leading decimal digit. -/
def topExponent (x : Binary) : Int :=
  (Int.ofNat x.mantissa.log2 + 1 + x.exponent) * 30103 / 100000 + 1

/-- Searches ever finer grids, past the seventeen digits that tell all doubles apart; the number
itself is the decimal of last resort. -/
def shortest (x : Binary) : Decimal :=
  let grids := (List.range 24).map fun n => topExponent x - Int.ofNat n
  (grids.findSome? (onGrid? x)).getD
    (if 0 ≤ x.exponent then ⟨x.mantissa <<< x.exponent.toNat, 0⟩
     else ⟨x.mantissa * Nat.pow 5 (-x.exponent).toNat, x.exponent⟩)

end Decimal

end PlanarSketch
