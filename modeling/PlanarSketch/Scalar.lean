/-!
The numbers that a sketch is measured in. The whole library is written over this class: it runs
on doubles (`Binary64`), and its laws can be read over an exact field. Comparisons are relations
of their own, because a value that is not a number is neither below, equal to nor above another.
-/

namespace PlanarSketch

class Scalar (α : Type) extends
    Add α, Sub α, Mul α, Div α, Neg α, LT α, LE α, BEq α, OfScientific α where
  decLt : DecidableLT α
  decLe : DecidableLE α
  sqrt : α → α
  abs : α → α
  sin : α → α
  cos : α → α
  /-- Angle of the vector with the given ordinate and abscissa. -/
  atan2 : α → α → α
  pi : α
  /-- Remainder of the division that truncates toward zero. -/
  rem : α → α → α
  isFinite : α → Bool
  ofInt : Int → α
  /-- The index that a whole number in the range of an index stands for. -/
  toIndex? : α → Option UInt32

attribute [reducible, instance] Scalar.decLt Scalar.decLe

namespace Scalar

variable {α : Type} [Scalar α]

def tau : α := pi * 2.0

def ofIndex (n : UInt32) : α := ofInt n.toNat

/-- The larger of two numbers; a value that is not a number gives way to the other. -/
def larger (a b : α) : α := if a < b then b else if a == a then a else b

end Scalar

end PlanarSketch
