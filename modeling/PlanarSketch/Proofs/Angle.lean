import Mathlib.Algebra.Group.ModEq
import PlanarSketch.Proofs.Exact
import PlanarSketch.LeastSquares.Equation

/-!
Angles modulo a full turn. Both representatives are made from a remainder, which has the sign of the
angle, so that of a negative angle may lack a turn. In exact arithmetic `wrap` gives the one angle in
`(-π, π]` that differs from its argument by whole turns. So does `normalize` in `[0, 2π)`, but for
negative angles that fall short of whole turns by less than the tolerance, which become zero. An
equation between angles holds just when the two are the same up to whole turns.
-/

namespace PlanarSketch

/-- What a division that truncates leaves over differs from the dividend by a whole multiple of the
divisor, is smaller than the divisor and has no sign but that of the dividend. -/
class Scalar.Truncates (α : Type) [ExactScalar α] : Prop where
  rem_modEq (a b : α) : Scalar.rem a b ≡ a [PMOD b]
  abs_rem_lt (a : α) {b : α} (hb : b ≠ 0) : |Scalar.rem a b| < |b|
  rem_mul_nonneg (a b : α) : 0 ≤ Scalar.rem a b * a

section

variable {α : Type} [Field α] [LinearOrder α] [IsStrictOrderedRing α] [FloorRing α]

/-- The whole part of a quotient, its sign left aside. -/
def truncated (q : α) : ℤ := if 0 ≤ q then ⌊q⌋ else ⌈q⌉

theorem abs_sub_truncated_lt (q : α) : |q - truncated q| < 1 := by
  unfold truncated
  split
  · rw [abs_lt]
    constructor <;> linarith [Int.floor_le q, Int.lt_floor_add_one q]
  · rw [abs_lt]
    constructor <;> linarith [Int.le_ceil q, Int.ceil_lt_add_one q]

theorem sub_truncated_mul_nonneg (q : α) : 0 ≤ (q - truncated q) * q := by
  unfold truncated
  split
  · next hq => exact mul_nonneg (sub_nonneg.2 (Int.floor_le q)) hq
  · next hq => exact mul_nonneg_of_nonpos_of_nonpos (sub_nonpos.2 (Int.le_ceil q)) (not_le.1 hq).le

theorem Scalar.truncates_ofField (sqrt sin cos : α → α) (atan2 : α → α → α) (pi : α) :
    @Scalar.Truncates α (.ofField sqrt sin cos atan2 pi) := by
  have hrem (a : α) {b : α} (hb : b ≠ 0) :
      a - b * truncated (a / b) = b * (a / b - truncated (a / b)) := by
    rw [mul_sub, mul_div_cancel₀ a hb]
  refine @Scalar.Truncates.mk α (.ofField sqrt sin cos atan2 pi) ?_ ?_ ?_
  · intro a b
    refine AddCommGroup.modEq_iff_eq_add_zsmul.2 ⟨truncated (a / b), ?_⟩
    change a = a - b * truncated (a / b) + truncated (a / b) • b
    rw [zsmul_eq_mul, mul_comm b, sub_add_cancel]
  · intro a b hb
    change |a - b * truncated (a / b)| < |b|
    rw [hrem a hb, abs_mul]
    exact mul_lt_of_lt_one_right (abs_pos.2 hb) (abs_sub_truncated_lt (a / b))
  · intro a b
    change 0 ≤ (a - b * truncated (a / b)) * a
    obtain rfl | hb := eq_or_ne b 0
    · rw [zero_mul, sub_zero]
      exact mul_self_nonneg a
    · have hsplit : b * (a / b - truncated (a / b)) * a =
          b ^ 2 * ((a / b - truncated (a / b)) * (a / b)) := by
        field_simp
      rw [hrem a hb, hsplit]
      exact mul_nonneg (sq_nonneg b) (sub_truncated_mul_nonneg (a / b))

end

noncomputable instance : Scalar.Truncates ℝ := Scalar.truncates_ofField ..

namespace Angle

variable {α : Type} [ExactScalar α]

theorem tau_eq : (Scalar.tau : α) = 2 * Scalar.pi := by
  rw [Scalar.tau, ExactScalar.decimal_fraction, mul_comm]
  norm_num

theorem snapTolerance_pos : (0 : α) < snapTolerance := by
  rw [snapTolerance, ExactScalar.decimal_fraction]
  positivity

theorem normalize_eq (a : α) : normalize a =
    if Scalar.rem a Scalar.tau < 0 ∧ -snapTolerance < Scalar.rem a Scalar.tau then 0
    else if Scalar.rem a Scalar.tau < 0 then Scalar.rem a Scalar.tau + Scalar.tau
    else if Scalar.tau ≤ Scalar.rem a Scalar.tau then Scalar.rem a Scalar.tau - Scalar.tau
    else Scalar.rem a Scalar.tau := by
  simp only [normalize, ExactScalar.decimal_fraction, Nat.cast_zero, zero_div]

theorem tau_pos (hturn : (snapTolerance : α) < Scalar.tau) : (0 : α) < Scalar.tau :=
  snapTolerance_pos.trans hturn

variable {a b p : α}

/-- Numbers that differ by whole multiples, but by less than one, are the same. -/
theorem eq_of_modEq (h : a ≡ b [PMOD p]) (hlt : |b - a| < p) : a = b := by
  obtain ⟨k, rfl⟩ := AddCommGroup.modEq_iff_eq_add_zsmul.1 h
  have hp : 0 < p := (abs_nonneg _).trans_lt hlt
  rw [add_sub_cancel_left, zsmul_eq_mul, abs_mul, abs_of_pos hp, mul_lt_iff_lt_one_left hp,
    ← Int.cast_abs, ← Int.cast_one, Int.cast_lt, Int.abs_lt_one_iff] at hlt
  rw [hlt, zero_zsmul, add_zero]

variable [Scalar.Truncates α]

open Scalar.Truncates

theorem abs_rem_lt_of_pos (a : α) (hp : 0 < p) : |Scalar.rem a p| < p := by
  have hlt := abs_rem_lt a hp.ne'
  rwa [abs_of_pos hp] at hlt

theorem rem_zero (hp : 0 < p) : Scalar.rem (0 : α) p = 0 := by
  refine eq_of_modEq (rem_modEq 0 p) ?_
  rw [zero_sub, abs_neg]
  exact abs_rem_lt_of_pos 0 hp

theorem rem_nonneg (hp : 0 < p) (ha : 0 ≤ a) : 0 ≤ Scalar.rem a p := by
  obtain rfl | hpos := ha.eq_or_lt
  · exact (rem_zero hp).ge
  · exact nonneg_of_mul_nonneg_left (rem_mul_nonneg a p) hpos

theorem rem_nonpos (hp : 0 < p) (ha : a ≤ 0) : Scalar.rem a p ≤ 0 := by
  obtain rfl | hneg := ha.eq_or_lt
  · exact (rem_zero hp).le
  · exact nonpos_of_mul_nonneg_left (rem_mul_nonneg a p) hneg

/-- What is smaller than the divisor, with the sign of the dividend, is the remainder. -/
theorem rem_eq_of_nonneg (h : b ≡ a [PMOD p]) (ha : 0 ≤ a) (hb : 0 ≤ b) (hlt : b < p) :
    Scalar.rem a p = b := by
  have hp : 0 < p := hb.trans_lt hlt
  obtain ⟨-, habove⟩ := abs_lt.1 (abs_rem_lt_of_pos a hp)
  refine eq_of_modEq ((rem_modEq a p).trans h.symm) ?_
  exact abs_sub_lt_of_nonneg_of_lt hb hlt (rem_nonneg hp ha) habove

theorem rem_eq_of_nonpos (h : b ≡ a [PMOD p]) (ha : a ≤ 0) (hb : b ≤ 0) (hlt : -p < b) :
    Scalar.rem a p = b := by
  have hp : 0 < p := by linarith
  have hbelow := (abs_lt.1 (abs_rem_lt_of_pos a hp)).1
  have hrem := rem_nonpos hp ha
  refine eq_of_modEq ((rem_modEq a p).trans h.symm) ?_
  rw [abs_lt]
  constructor <;> linarith

/-! ### Angles that are stored -/

/-- A negative angle that falls short of whole turns by less than the tolerance. -/
def Snapped (a : α) : Prop :=
  a < 0 ∧ ∃ k : ℤ, a < k • Scalar.tau ∧ k • Scalar.tau < a + snapTolerance

section

variable (hturn : (snapTolerance : α) < Scalar.tau)

include hturn

/-- Just these angles leave over less than the tolerance, with a sign. -/
theorem snapped_iff : Snapped a ↔
    Scalar.rem a Scalar.tau < 0 ∧ -snapTolerance < Scalar.rem a Scalar.tau := by
  have hpos := tau_pos hturn
  constructor
  · rintro ⟨hneg, k, hbelow, habove⟩
    have hmod : a - k • Scalar.tau ≡ a [PMOD Scalar.tau] := by
      simpa using (AddCommGroup.modEq_refl a).sub (AddCommGroup.zsmul_modEq_zero k)
    rw [rem_eq_of_nonpos hmod hneg.le (by linarith) (by linarith)]
    constructor <;> linarith
  · rintro ⟨hneg, hsmall⟩
    obtain ⟨k, hk⟩ := AddCommGroup.modEq_iff_eq_add_zsmul.1 (rem_modEq a Scalar.tau)
    refine ⟨?_, k, ?_, ?_⟩
    · by_contra hge
      exact (rem_nonneg hpos (not_lt.1 hge)).not_gt hneg
    · linarith
    · linarith

theorem normalize_of_snapped (h : Snapped a) : normalize a = 0 := by
  rw [normalize_eq, if_pos ((snapped_iff hturn).1 h)]

/-- Other angles become what is left over, or a turn more. -/
theorem normalize_cases (h : ¬ Snapped a) :
    Scalar.rem a Scalar.tau < 0 ∧ normalize a = Scalar.rem a Scalar.tau + Scalar.tau ∨
      0 ≤ Scalar.rem a Scalar.tau ∧ normalize a = Scalar.rem a Scalar.tau := by
  have hlt := (abs_lt.1 (abs_rem_lt_of_pos a (tau_pos hturn))).2
  rw [normalize_eq, if_neg (mt (snapped_iff hturn).2 h)]
  obtain hneg | hnonneg := lt_or_ge (Scalar.rem a Scalar.tau) 0
  · exact .inl ⟨hneg, if_pos hneg⟩
  · rw [if_neg hnonneg.not_gt, if_neg hlt.not_ge]
    exact .inr ⟨hnonneg, rfl⟩

theorem normalize_mem (a : α) : 0 ≤ normalize a ∧ normalize a < Scalar.tau := by
  have hpos := tau_pos hturn
  obtain ⟨hbelow, habove⟩ := abs_lt.1 (abs_rem_lt_of_pos a hpos)
  by_cases h : Snapped a
  · rw [normalize_of_snapped hturn h]
    exact ⟨le_rfl, hpos⟩
  · obtain ⟨hneg, heq⟩ | ⟨hnonneg, heq⟩ := normalize_cases hturn h
    · rw [heq]
      constructor <;> linarith
    · rw [heq]
      exact ⟨hnonneg, habove⟩

theorem normalize_modEq_iff : normalize a ≡ a [PMOD Scalar.tau] ↔ ¬ Snapped a := by
  constructor
  · intro hmod h
    -- zero is not an angle that falls short of it by less than a turn
    rw [normalize_of_snapped hturn h] at hmod
    obtain ⟨hneg, hsmall⟩ := (snapped_iff hturn).1 h
    have hrem : Scalar.rem a Scalar.tau = 0 := by
      refine eq_of_modEq ((rem_modEq a _).trans hmod.symm) ?_
      rw [zero_sub, abs_neg]
      exact abs_rem_lt_of_pos a (tau_pos hturn)
    exact hneg.ne hrem
  · intro h
    have hmod := rem_modEq a (Scalar.tau : α)
    obtain ⟨-, heq⟩ | ⟨-, heq⟩ := normalize_cases hturn h
    · rw [heq]
      simpa using hmod.add AddCommGroup.self_modEq_zero
    · rwa [heq]

theorem normalize_normalize (a : α) : normalize (normalize a) = normalize a := by
  obtain ⟨hnonneg, hlt⟩ := normalize_mem hturn a
  have hrem := rem_eq_of_nonneg (AddCommGroup.modEq_refl (normalize a)) hnonneg hnonneg hlt
  have hno : ¬ Snapped (normalize a) := fun h => h.1.not_ge hnonneg
  obtain ⟨hneg, -⟩ | ⟨-, heq⟩ := normalize_cases hturn hno
  · rw [hrem] at hneg
    exact absurd hneg hnonneg.not_gt
  · rw [heq, hrem]

end

/-! ### Differences of angles -/

theorem wrap_modEq (a : α) : wrap a ≡ a [PMOD Scalar.tau] := by
  have hmod := rem_modEq a (Scalar.tau : α)
  simp only [wrap]
  split
  · simpa using hmod.sub AddCommGroup.self_modEq_zero
  split
  · simpa using hmod.add AddCommGroup.self_modEq_zero
  · exact hmod

section

variable (hpi : (0 : α) < Scalar.pi)

include hpi

theorem wrap_mem (a : α) : -Scalar.pi < wrap a ∧ wrap a ≤ Scalar.pi := by
  have htau : (Scalar.tau : α) = 2 * Scalar.pi := tau_eq
  obtain ⟨hbelow, habove⟩ := abs_lt.1 (abs_rem_lt_of_pos a (show 0 < Scalar.tau by linarith))
  simp only [wrap]
  split
  · constructor <;> linarith
  split
  · constructor <;> linarith
  · next hle hlt => exact ⟨not_le.1 hlt, not_lt.1 hle⟩

/-- There is only one such angle. -/
theorem wrap_eq (h : b ≡ a [PMOD Scalar.tau]) (hlt : -Scalar.pi < b) (hle : b ≤ Scalar.pi) :
    wrap a = b := by
  have htau : (Scalar.tau : α) = 2 * Scalar.pi := tau_eq
  obtain ⟨hbelow, habove⟩ := wrap_mem hpi a
  refine eq_of_modEq ((wrap_modEq a).trans h.symm) ?_
  rw [abs_lt]
  constructor <;> linarith

theorem wrap_eq_zero : wrap a = 0 ↔ a ≡ 0 [PMOD Scalar.tau] := by
  constructor
  · intro h
    rw [← h]
    exact (wrap_modEq a).symm
  · exact fun h => wrap_eq hpi h.symm (neg_lt_zero.2 hpi) hpi.le

theorem wrap_wrap (a : α) : wrap (wrap a) = wrap a := by
  obtain ⟨hbelow, habove⟩ := wrap_mem hpi a
  exact wrap_eq hpi (AddCommGroup.modEq_refl _) hbelow habove

theorem wrap_neg (h : wrap a ≠ Scalar.pi) : wrap (-a) = -wrap a := by
  obtain ⟨hbelow, habove⟩ := wrap_mem hpi a
  exact wrap_eq hpi (wrap_modEq a).neg (neg_lt_neg (habove.lt_of_ne h)) (neg_lt.1 hbelow).le

end

end Angle

/-! ### Equations between angles -/

namespace Equation

section

variable {α : Type} [Scalar α]

/-- The angle that an equation measures, and the one that it should be. -/
def angles? (x : Address → α) : Equation α → Option (α × α)
  | direction p q angle more =>
      let v := (pointAt x q).sub (pointAt x p)
      some (Scalar.atan2 v.y v.x, x angle + more)
  | lineAngle l m angle => some ((along x l).angleTo (along x m), x angle)
  | curveAngle c d p angle =>
      let q := pointAt x p
      some ((tangentAt x q c).angleTo (tangentAt x q d), x angle)
  | _ => none

theorem residuals_of_angles? {x : Address → α} {e : Equation α} {measured target : α}
    (h : e.angles? x = some (measured, target)) :
    e.residuals x = [Angle.wrap (measured - target)] := by
  cases e <;> cases h <;> rfl

end

end Equation

/-- Both representatives of an angle are in their range, stay when they are taken again, and differ
from the angle by whole turns; only that stored angles are zero, and off by less than the tolerance,
where they have been snapped. Differences keep their sign, unless they are half a turn. What is left
of an equation between angles is zero just when these are the same up to whole turns. -/
theorem angle_representatives {α : Type} [ExactScalar α] [Scalar.Truncates α]
    (hturn : (Angle.snapTolerance : α) < Scalar.tau) :
    (∀ a : α, (0 ≤ Angle.normalize a ∧ Angle.normalize a < Scalar.tau) ∧
      (Angle.normalize a ≡ a [PMOD Scalar.tau] ↔ ¬ Angle.Snapped a) ∧
      (Angle.Snapped a → Angle.normalize a = 0) ∧
      Angle.normalize (Angle.normalize a) = Angle.normalize a) ∧
    (∀ a : α, (-Scalar.pi < Angle.wrap a ∧ Angle.wrap a ≤ Scalar.pi) ∧
      Angle.wrap a ≡ a [PMOD Scalar.tau] ∧
      (Angle.wrap a = 0 ↔ a ≡ 0 [PMOD Scalar.tau]) ∧
      Angle.wrap (Angle.wrap a) = Angle.wrap a ∧
      (Angle.wrap a ≠ Scalar.pi → Angle.wrap (-a) = -Angle.wrap a)) ∧
    ∀ (x : Address → α) (e : Equation α) (measured target : α),
      e.angles? x = some (measured, target) →
        (e.residuals x = [0] ↔ measured ≡ target [PMOD Scalar.tau]) := by
  have hpi : (0 : α) < Scalar.pi := by
    have htau := Angle.tau_pos hturn
    rw [Angle.tau_eq] at htau
    exact (mul_pos_iff_of_pos_left two_pos).1 htau
  refine ⟨fun a => ⟨Angle.normalize_mem hturn a, Angle.normalize_modEq_iff hturn,
    Angle.normalize_of_snapped hturn, Angle.normalize_normalize hturn a⟩,
    fun a => ⟨Angle.wrap_mem hpi a, Angle.wrap_modEq a, Angle.wrap_eq_zero hpi,
    Angle.wrap_wrap hpi a, Angle.wrap_neg hpi⟩, ?_⟩
  intro x e measured target h
  rw [Equation.residuals_of_angles? h, List.cons.injEq, and_iff_left rfl, Angle.wrap_eq_zero hpi]
  exact AddCommGroup.sub_modEq_zero

/-- Two unit vectors along the axes, and three right angles the other way. -/
noncomputable def squareCorner (a : Address) : ℝ :=
  [0, 0, 1, 0, 0, 1, -Real.pi - Real.pi / 2].getD a 0

theorem representatives_squareCorner :
    (Angle.snapTolerance : ℝ) < Scalar.tau ∧
    Angle.normalize (-(10 ^ 9)⁻¹ : ℝ) = 0 ∧
    ¬ Angle.normalize (-(10 ^ 9)⁻¹ : ℝ) ≡ -(10 ^ 9)⁻¹ [PMOD Scalar.tau] ∧
    (Equation.lineAngle ⟨⟨0, 1⟩, ⟨2, 3⟩⟩ ⟨⟨0, 1⟩, ⟨4, 5⟩⟩ 6).residuals squareCorner = [0] := by
  have hturn : (Angle.snapTolerance : ℝ) < Scalar.tau := by
    rw [Angle.tau_eq, Angle.snapTolerance, ExactScalar.decimal_fraction]
    have hpi : (2 : ℝ) ≤ Scalar.pi := Real.two_le_pi
    norm_num
    linarith
  obtain ⟨hnormalize, -, hresidual⟩ := angle_representatives hturn
  have hsnapped : Angle.Snapped (-(10 ^ 9)⁻¹ : ℝ) := by
    refine ⟨by norm_num, 0, ?_, ?_⟩
    · norm_num
    · rw [Angle.snapTolerance, ExactScalar.decimal_fraction]
      norm_num
  obtain ⟨-, hmodEq, hzero, -⟩ := hnormalize (-(10 ^ 9)⁻¹)
  refine ⟨hturn, hzero hsnapped, fun h => hmodEq.1 h hsnapped, ?_⟩
  refine (hresidual squareCorner _ (Real.pi / 2) (-Real.pi - Real.pi / 2) ?_).2 ?_
  · have hup : Complex.arg ⟨0, 1⟩ = Real.pi / 2 := Complex.arg_I
    have hcross : (Equation.along squareCorner ⟨⟨0, 1⟩, ⟨2, 3⟩⟩).angleTo
        (Equation.along squareCorner ⟨⟨0, 1⟩, ⟨4, 5⟩⟩) = Complex.arg ⟨0, 1⟩ := by
      simp [Equation.along, Equation.pointAt, Vec2.sub, Vec2.angleTo, Vec2.cross, Vec2.dot,
        squareCorner, Scalar.atan2]
    rw [Equation.angles?, hcross, hup]
    rfl
  · refine AddCommGroup.modEq_iff_eq_add_zsmul.2 ⟨-1, ?_⟩
    rw [Angle.tau_eq]
    change -Real.pi - Real.pi / 2 = Real.pi / 2 + (-1 : ℤ) • (2 * Real.pi)
    rw [neg_one_zsmul]
    ring

end PlanarSketch
