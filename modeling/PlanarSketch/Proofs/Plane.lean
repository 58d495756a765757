import Mathlib.Analysis.InnerProductSpace.PiL2
import Mathlib.Geometry.Euclidean.PerpBisector
import Mathlib.Geometry.Euclidean.Projection
import Mathlib.LinearAlgebra.Matrix.NonsingularInverse
import PlanarSketch.Plane
import PlanarSketch.Proofs.Exact

/-!
The measurements of the plane are those of Euclidean geometry. Over the reals a vector is a point of
the Euclidean plane, products and lengths are inner products and norms, and what is computed from
unit directions and signed distances vanishes just where the figures are as they should be. Vectors
must not be too short for that, since short ones have no direction.
-/

namespace PlanarSketch

open scoped RealInnerProductSpace

abbrev EuclideanPlane := EuclideanSpace ℝ (Fin 2)

theorem lengthTolerance_pos : (0 : ℝ) < lengthTolerance := by
  rw [lengthTolerance, ExactScalar.decimal_fraction]
  norm_num

/-- A vector as a point of the Euclidean plane. -/
noncomputable def Vec2.inPlane (a : Vec2 ℝ) : EuclideanPlane := WithLp.toLp _ ![a.x, a.y]

variable (a b p q : Vec2 ℝ)

@[simp] theorem inPlane_zero : a.inPlane 0 = a.x := rfl

@[simp] theorem inPlane_one : a.inPlane 1 = a.y := rfl

theorem plane_ext {u v : EuclideanPlane} (hx : u 0 = v 0) (hy : u 1 = v 1) : u = v := by
  ext i
  fin_cases i
  · exact hx
  · exact hy

/-! ### Products and lengths -/

theorem inPlane_sub : (a.sub b).inPlane = a.inPlane - b.inPlane := by
  apply plane_ext <;> rfl

theorem inPlane_midpoint : (p.midpoint q).inPlane = midpoint ℝ p.inPlane q.inPlane := by
  rw [midpoint_eq_smul_add]
  apply plane_ext
  · simp only [Vec2.midpoint, inPlane_zero, PiLp.smul_apply, PiLp.add_apply, smul_eq_mul,
      ExactScalar.decimal_fraction]
    norm_num
    ring
  · simp only [Vec2.midpoint, inPlane_one, PiLp.smul_apply, PiLp.add_apply, smul_eq_mul,
      ExactScalar.decimal_fraction]
    norm_num
    ring

theorem inner_inPlane : ⟪a.inPlane, b.inPlane⟫ = a.dot b := by
  simp [Vec2.inPlane, Vec2.dot, PiLp.inner_apply, Fin.sum_univ_two, mul_comm]

theorem norm_inPlane : ‖a.inPlane‖ = a.length := by
  rw [Vec2.length, ← inner_inPlane, real_inner_self_eq_norm_sq]
  exact (Real.sqrt_sq (norm_nonneg _)).symm

theorem norm_perp : ‖a.perp.inPlane‖ = ‖a.inPlane‖ := by
  rw [norm_inPlane, norm_inPlane, Vec2.length, Vec2.length]
  congr 1
  simp only [Vec2.perp, Vec2.dot]
  ring

/-! ### Directions -/

section

variable {a b}

theorem unit_of_long (h : lengthTolerance ≤ ‖a.inPlane‖) :
    a.unit = ⟨a.x / ‖a.inPlane‖, a.y / ‖a.inPlane‖⟩ := by
  rw [norm_inPlane] at h ⊢
  exact if_neg h.not_gt

/-- Against a unit direction, a product vanishes like that against any vector of the direction. -/
theorem dot_unit_eq_zero (h : lengthTolerance ≤ ‖b.inPlane‖) :
    a.dot b.unit = 0 ↔ ⟪a.inPlane, b.inPlane⟫ = 0 := by
  have hne : ‖b.inPlane‖ ≠ 0 := (lengthTolerance_pos.trans_le h).ne'
  have hdot : a.dot b.unit = a.dot b / ‖b.inPlane‖ := by
    rw [unit_of_long h]
    simp only [Vec2.dot]
    ring
  rw [inner_inPlane, hdot, div_eq_zero_iff, or_iff_left hne]

theorem cross_unit_eq_zero (ha : lengthTolerance ≤ ‖a.inPlane‖)
    (hb : lengthTolerance ≤ ‖b.inPlane‖) : a.unit.cross b.unit = 0 ↔ a.cross b = 0 := by
  have hane : ‖a.inPlane‖ ≠ 0 := (lengthTolerance_pos.trans_le ha).ne'
  have hbne : ‖b.inPlane‖ ≠ 0 := (lengthTolerance_pos.trans_le hb).ne'
  have hcross : a.unit.cross b.unit = a.cross b / (‖a.inPlane‖ * ‖b.inPlane‖) := by
    rw [unit_of_long ha, unit_of_long hb]
    simp only [Vec2.cross]
    ring
  rw [hcross, div_eq_zero_iff, or_iff_left (mul_ne_zero hane hbne)]

end

/-- A cross product is a determinant. -/
theorem cross_eq_zero : a.cross b = 0 ↔ ¬ LinearIndependent ℝ ![a.inPlane, b.inPlane] := by
  have hrows : WithLp.linearEquiv 2 ℝ (Fin 2 → ℝ) ∘ ![a.inPlane, b.inPlane] =
      (!![a.x, a.y; b.x, b.y] : Matrix (Fin 2) (Fin 2) ℝ).row := by
    ext i j
    fin_cases i <;> fin_cases j <;> rfl
  rw [← LinearEquiv.coe_coe] at hrows
  rw [← LinearMap.linearIndependent_iff _ (LinearEquiv.ker (WithLp.linearEquiv 2 ℝ (Fin 2 → ℝ))),
    hrows, Matrix.linearIndependent_rows_iff_isUnit, Matrix.isUnit_iff_isUnit_det,
    isUnit_iff_ne_zero, not_not, Matrix.det_fin_two_of]
  rfl

/-! ### Lines -/

namespace Vec2

/-- The line through two points, when these differ. -/
noncomputable def line (a b : Vec2 ℝ) : AffineSubspace ℝ EuclideanPlane :=
  line[ℝ, a.inPlane, b.inPlane]

instance : Nonempty (line a b) := ⟨⟨a.inPlane, left_mem_affineSpan_pair ℝ _ _⟩⟩

end Vec2

open EuclideanGeometry

theorem mem_orthogonal_line {v : EuclideanPlane} :
    v ∈ (a.line b).directionᗮ ↔ ⟪v, (b.sub a).inPlane⟫ = 0 := by
  rw [Vec2.line, direction_affineSpan, vectorSpan_pair_rev, vsub_eq_sub, ← inPlane_sub]
  exact Submodule.mem_orthogonal_singleton_iff_inner_left

section

variable {a b} (h : lengthTolerance ≤ ‖(b.sub a).inPlane‖)

include h

/-- The perpendicular from a point to a line is a quarter turn of the direction of the line, as
long as its distance. -/
theorem vsub_orthogonalProjection_line :
    p.inPlane -ᵥ (orthogonalProjection (a.line b) p.inPlane : EuclideanPlane) =
      ((b.sub a).cross (p.sub a) / ‖(b.sub a).inPlane‖ ^ 2) • (b.sub a).perp.inPlane := by
  have hsq : ‖(b.sub a).inPlane‖ ^ 2 = (b.x - a.x) ^ 2 + (b.y - a.y) ^ 2 := by
    rw [← real_inner_self_eq_norm_sq, inner_inPlane]
    simp only [Vec2.dot, Vec2.sub]
    ring
  have hne : (b.x - a.x) ^ 2 + (b.y - a.y) ^ 2 ≠ 0 := by
    rw [← hsq]
    exact pow_ne_zero 2 (lengthTolerance_pos.trans_le h).ne'
  have hdiff : p.inPlane -ᵥ AffineMap.lineMap a.inPlane b.inPlane
      ((p.sub a).dot (b.sub a) / ‖(b.sub a).inPlane‖ ^ 2) =
      ((b.sub a).cross (p.sub a) / ‖(b.sub a).inPlane‖ ^ 2) • (b.sub a).perp.inPlane := by
    rw [hsq, AffineMap.lineMap_apply_module]
    apply plane_ext
    · simp only [Vec2.dot, Vec2.cross, Vec2.sub, Vec2.perp, vsub_eq_sub, PiLp.sub_apply,
        PiLp.add_apply, PiLp.smul_apply, smul_eq_mul, inPlane_zero]
      field_simp
      ring
    · simp only [Vec2.dot, Vec2.cross, Vec2.sub, Vec2.perp, vsub_eq_sub, PiLp.sub_apply,
        PiLp.add_apply, PiLp.smul_apply, smul_eq_mul, inPlane_one]
      field_simp
      ring
  rw [← hdiff]
  congr 1
  apply coe_orthogonalProjection_eq_iff_mem.2
  constructor
  · exact AffineMap.lineMap_mem_affineSpan_pair _ _ _
  · rw [hdiff, mem_orthogonal_line, real_inner_smul_left, inner_inPlane]
    simp only [Vec2.dot, Vec2.perp]
    ring

theorem abs_lineDistance : |a.lineDistance b p| = Metric.infDist p.inPlane (a.line b) := by
  have hpos : 0 < ‖(b.sub a).inPlane‖ := lengthTolerance_pos.trans_le h
  have hlong : a.lineDistance b p = (b.sub a).cross (p.sub a) / ‖(b.sub a).inPlane‖ := by
    rw [norm_inPlane] at h ⊢
    exact if_neg h.not_gt
  rw [← dist_orthogonalProjection_eq_infDist, dist_eq_norm_vsub EuclideanPlane,
    vsub_orthogonalProjection_line p h, norm_smul, norm_perp, hlong, Real.norm_eq_abs, abs_div,
    abs_div, abs_pow, abs_norm]
  field_simp

theorem lineDistance_eq_zero : a.lineDistance b p = 0 ↔ p.inPlane ∈ a.line b := by
  rw [← abs_eq_zero, abs_lineDistance p h, ← dist_orthogonalProjection_eq_infDist,
    dist_orthogonalProjection_eq_zero_iff]

end

/-- A mirror image lies across the line: the midpoint is on the line, and what joins the two is
perpendicular to it. -/
theorem reflection_line_eq_iff : reflection (a.line b) p.inPlane = q.inPlane ↔
    midpoint ℝ p.inPlane q.inPlane ∈ a.line b ∧
      ⟪q.inPlane - p.inPlane, (b.sub a).inPlane⟫ = 0 := by
  have hhalf : p.inPlane -ᵥ midpoint ℝ p.inPlane q.inPlane =
      (-⅟2 : ℝ) • (q.inPlane - p.inPlane) := by
    rw [← neg_vsub_eq_vsub_rev, midpoint_vsub_left, neg_smul, vsub_eq_sub]
  rw [reflection_apply', ← mem_orthogonal_line]
  calc _ ↔ midpoint ℝ p.inPlane q.inPlane = orthogonalProjection (a.line b) p.inPlane :=
        midpoint_eq_iff.symm
    _ ↔ _ := by
      rw [eq_comm, coe_orthogonalProjection_eq_iff_mem, hhalf,
        Submodule.smul_mem_iff _ (by norm_num)]

end PlanarSketch
