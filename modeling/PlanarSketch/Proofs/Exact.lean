import Mathlib.Analysis.SpecialFunctions.Complex.Arg
import Mathlib.Data.Rat.Sqrt
import PlanarSketch.LeastSquares.Minimize
import PlanarSketch.Linear.Standard

/-!
Exact arithmetic. An `ExactScalar` computes as in an ordered field, and its decimals are the numbers
that they write; roots and angles may be anything, since a field need not have them. In a Euclidean
field there are roots as well. The reals are one, with angles as they should be. The rationals are
exact, so that a minimisation can be run on them. What is shown here is what comparisons and sums of
squares say once nothing is rounded.
-/

namespace PlanarSketch

class ExactScalar (α : Type) extends Scalar α, Field α, LinearOrder α, IsStrictOrderedRing α,
    LawfulBEq α where
  decimal_fraction (m e : Nat) : (OfScientific.ofScientific m true e : α) = (m : α) / 10 ^ e
  decimal_whole (m e : Nat) : (OfScientific.ofScientific m false e : α) = (m : α) * 10 ^ e

attribute [simp] ExactScalar.decimal_fraction ExactScalar.decimal_whole

/-- Every number that is not negative has a root; what is given as the root of another is no
matter. -/
class EuclideanScalar (α : Type) extends ExactScalar α where
  sqrt_nonneg {a : α} (h : 0 ≤ a) : 0 ≤ Scalar.sqrt a
  sq_sqrt {a : α} (h : 0 ≤ a) : Scalar.sqrt a ^ 2 = a
  abs_eq (a : α) : Scalar.abs a = |a|

/-- The exact scalars of an ordered field, with what is to be taken for roots and angles. -/
@[reducible] def ExactScalar.ofField {α : Type} [Field α] [LinearOrder α] [IsStrictOrderedRing α]
    [FloorRing α] (sqrt sin cos : α → α) (atan2 : α → α → α) (pi : α) : ExactScalar α where
  __ := (inferInstance : Field α)
  __ := (inferInstance : LinearOrder α)
  __ := (inferInstance : IsStrictOrderedRing α)
  ofScientific m negative e := if negative then (m : α) / 10 ^ e else (m : α) * 10 ^ e
  decimal_fraction _ _ := rfl
  decimal_whole _ _ := rfl
  beq a b := decide (a = b)
  eq_of_beq h := of_decide_eq_true h
  rfl := decide_eq_true rfl
  decLt := inferInstance
  decLe := inferInstance
  sqrt := sqrt
  abs := abs
  sin := sin
  cos := cos
  atan2 := atan2
  pi := pi
  rem a b := a - b * (if 0 ≤ a / b then ⌊a / b⌋ else ⌈a / b⌉ : ℤ)
  isFinite _ := true
  ofInt n := n
  toIndex? a := if (⌊a⌋₊ : α) = a ∧ ⌊a⌋₊ < UInt32.size then some (.ofNat ⌊a⌋₊) else none

noncomputable instance : ExactScalar ℝ :=
  .ofField Real.sqrt Real.sin Real.cos (fun y x => Complex.arg ⟨x, y⟩) Real.pi

noncomputable instance : EuclideanScalar ℝ where
  sqrt_nonneg _ := Real.sqrt_nonneg _
  sq_sqrt := Real.sq_sqrt
  abs_eq _ := rfl

/-- Roots that are not rational are rounded down, and no angle is measured. -/
instance : ExactScalar ℚ := .ofField Rat.sqrt (fun _ => 0) (fun _ => 1) (fun _ _ => 0) 3

instance : Decompositions ℚ := .standard

variable {α : Type} [ExactScalar α]

namespace Vec

variable (u : Vec α)

theorem sum_eq : u.sum = List.sum u := by
  simp [sum, List.sum_eq_foldl]

theorem normSq_eq : u.normSq = (u.map fun a => a ^ 2).sum := by
  simp [normSq, dot, sum_eq, List.zipWith_self, sq]

theorem normSq_nonneg : 0 ≤ u.normSq := by
  rw [normSq_eq]
  apply List.sum_nonneg
  simp [sq_nonneg]

variable {u} in
theorem sq_le_normSq {a : α} (h : a ∈ u) : a ^ 2 ≤ u.normSq := by
  rw [normSq_eq]
  apply List.single_le_sum
  · simp [sq_nonneg]
  · exact List.mem_map_of_mem h

end Vec

theorem halfSq_eq (r : Vec α) : halfSq r = r.normSq / 2 := by
  rw [halfSq, ExactScalar.decimal_fraction]
  norm_num
  ring

theorem halfSq_nonneg (r : Vec α) : 0 ≤ halfSq r := by
  rw [halfSq_eq]
  exact div_nonneg r.normSq_nonneg zero_le_two

/-- A magnitude that is not within a root has a square above the radicand. -/
theorem lt_sq_of_not_abs_le {β : Type} [EuclideanScalar β] {a b : β}
    (h : ¬ Scalar.abs b ≤ Scalar.sqrt a) : a < b ^ 2 := by
  obtain hneg | hnonneg := lt_or_ge a 0
  · exact hneg.trans_le (sq_nonneg b)
  · rw [EuclideanScalar.abs_eq, not_le] at h
    have hsq := pow_lt_pow_left₀ h (EuclideanScalar.sqrt_nonneg hnonneg) two_ne_zero
    rwa [EuclideanScalar.sq_sqrt hnonneg, sq_abs] at hsq

/-- A gain is made only where the error falls. -/
theorem lt_of_gain_pos {before after predicted : α} (h : 0.0 < gain before after predicted) :
    after < before := by
  rw [gain] at h
  split at h
  · next hpredicted =>
      simp only [ExactScalar.decimal_fraction, CharP.cast_eq_zero, zero_div] at h hpredicted
      exact sub_pos.1 ((div_pos_iff_of_pos_right hpredicted).1 h)
  · norm_num at h

end PlanarSketch
