import Mathlib
import PlanarSketch.Binary64

/-!
The integers of a machine word as doubles. They lie so far below the largest double that it does
not matter how they are rounded: a bound on the exponent alone, kept loosely through every step,
shows that the result is finite.
-/

namespace PlanarSketch

/-- Scalars among which the integers of a machine word, signed or not, are finite. -/
class Scalar.HoldsWords (α : Type) [Scalar α] : Prop where
  isFinite_ofInt : ∀ n : Int, -2 ^ 63 ≤ n → n < 2 ^ 64 → Scalar.isFinite (Scalar.ofInt n : α)

namespace Binary64

open Float.Model UnpackedFloat

/-- Zero, or a finite number whose exponent is at most this. -/
inductive Below (top : Int) : UnpackedFloat → Prop where
  | zero (s : Sign) : Below top (.zero s)
  | finite {s : Sign} {m : Nat} {e : Int} {hm : 0 < m} (h : e ≤ top) : Below top (.finite s m e hm)

theorem Below.mono {top top' : Int} {f : UnpackedFloat} (h : Below top f) (htop : top ≤ top') :
    Below top' f := by
  cases h with
  | zero s => exact .zero s
  | finite h => exact .finite (Int.le_trans h htop)

theorem Below.isFinite {top : Int} {f : UnpackedFloat} (h : Below top f) : f.isFinite = true := by
  cases h <;> rfl

theorem Below.neg {top : Int} {f : UnpackedFloat} (h : Below top f) : Below top f.neg := by
  cases h with
  | zero s => exact .zero _
  | finite h => exact .finite h

/-! ### Rounding -/

theorem mantissa_shift_le (m : ExtendedMantissa) (k : Nat) : (m >>> k).mantissa ≤ m.mantissa := by
  induction k with
  | zero => exact Nat.le_refl _
  | succ k ih => exact Nat.le_trans (Nat.div_le_self _ 2) ih

theorem roundedMantissa_le (m : ExtendedMantissa) : m.roundedMantissa ≤ m.mantissa + 1 := by
  obtain ⟨n, round, sticky⟩ := m
  cases round <;> cases sticky <;>
    simp only [ExtendedMantissa.roundedMantissa, ExtendedMantissa.accuracy,
      Accuracy.roundToNearestEven] <;> omega

/-- A mantissa of `k` digits is shifted by at most `k`, once the exponent has reached the least. -/
theorem shiftToTargetExponent_le {m k : Nat} {e top : Int} (accuracy : Accuracy) (hm : m < 2 ^ k)
    (he : e ≤ top) (htop : -1074 ≤ top) :
    (shiftToTargetExponent .binary64 m e accuracy).1.mantissa ≤ m ∧
      (shiftToTargetExponent .binary64 m e accuracy).2 ≤ top + k := by
  constructor
  · have hinitial : (ExtendedMantissa.ofMantissaAndAccuracy m accuracy).mantissa = m := by
      cases accuracy with
      | exact => rfl
      | inexact o => cases o <;> rfl
    exact Nat.le_trans (mantissa_shift_le _ _) (Nat.le_of_eq hinitial)
  · have hlog : m.log2 ≤ k := by
      by_cases hzero : m = 0
      · rw [hzero]
        exact Nat.zero_le k
      · exact Nat.le_of_lt ((Nat.log2_lt hzero).2 hm)
    simp only [shiftToTargetExponent, shiftToExponent, Format.targetExponent, totalExponent,
      Format.mantissaBits, Format.minExponent]
    omega

theorem below_roundWithAccuracy {m k : Nat} {e : Int} (top : Int) (s : Sign)
    (accuracy : Accuracy) (hm : m < 2 ^ k) (he : e ≤ top) (htop : -1074 ≤ top) :
    Below (top + (2 * k + 1)) (roundWithAccuracy .binary64 s m e accuracy) := by
  obtain ⟨hmantissa, hexponent⟩ := shiftToTargetExponent_le accuracy hm he htop
  rw [roundWithAccuracy]
  generalize shiftToTargetExponent .binary64 m e accuracy = shifted at hmantissa hexponent ⊢
  obtain ⟨em, d⟩ := shifted
  dsimp only at hmantissa
  -- rounding up may take one more digit
  have hrounded : em.roundedMantissa < 2 ^ (k + 1) := by
    have := roundedMantissa_le em
    have := Nat.pow_succ (n := 2) (m := k)
    omega
  obtain ⟨-, hlast⟩ := shiftToTargetExponent_le .exact hrounded hexponent (by omega)
  dsimp only at hlast ⊢
  split
  · exact .zero s
  · exact .finite (Int.le_trans hlast (by omega))

/-! ### Packing -/

theorem below_unpack {b : BitVec Format.binary64.numBits} {top : Int}
    (hfinite : (unpackExponent b).toNat < 2047) (htop : (unpackExponent b).toNat ≤ top + 1075)
    (hlow : -1074 ≤ top) : Below top (unpack .binary64 b) := by
  have hne : unpackExponent b ≠ -1#_ := by
    intro heq
    rw [heq] at hfinite
    exact absurd hfinite (by decide)
  rw [UnpackedFloat.unpack, if_neg hne]
  split
  · next hzero =>
      split
      · exact .zero _
      · rw [hzero]
        exact .finite hlow
  · have hexponent : ((unpackExponent b).toNat : Int) - 1075 ≤ top := by omega
    exact .finite hexponent

theorem mantissa_unpack_lt {b : BitVec Format.binary64.numBits} {s : Sign} {m : Nat} {e : Int}
    {hm : 0 < m} (h : unpack .binary64 b = .finite s m e hm) : m < 2 ^ 53 := by
  rw [UnpackedFloat.unpack] at h
  split at h
  · split at h <;> cases h
  · split at h
    · split at h <;> cases h
      exact Nat.lt_trans (BitVec.isLt _) (by decide)
    · cases h
      exact BitVec.isLt _

theorem below_unpack_pack {top : Int} {f : UnpackedFloat} (h : Below top f) (hlow : -1074 ≤ top)
    (hhigh : top ≤ 971) :
    Below top (unpack .binary64 (UnpackedFloat.pack .binary64 f)) := by
  have hzero : ∀ b : BitVec Format.binary64.numBits, unpackExponent b = 0#_ →
      Below top (unpack .binary64 b) := by
    intro b hb
    refine below_unpack (by rw [hb]; decide) ?_ hlow
    rw [hb]
    show (0 : Int) ≤ _
    omega
  cases h with
  | zero s => exact hzero _ unpackExponent_packComponents
  | @finite s m e hm he =>
      have hbiased : (e + 1023 + 52).toNat < 2047 ∧ (e + 1023 + 52).toNat ≤ top + 1075 := by
        omega
      rw [UnpackedFloat.pack, show (Format.binary64.exponentBias : Int) = 1023 from rfl,
        show ((52 : Nat) : Int) = 52 from rfl]
      generalize (e + 1023 + 52).toNat = biased at hbiased ⊢
      have hfits : ¬ 2 ^ Format.binary64.exponentBits ≤ biased + 1 :=
        show ¬ 2048 ≤ biased + 1 by omega
      have hexponent : (BitVec.ofNat Format.binary64.exponentBits biased).toNat = biased :=
        Nat.mod_eq_of_lt (show biased < 2048 by omega)
      rw [if_neg hfits]
      split
      · refine below_unpack ?_ ?_ hlow <;> rw [unpackExponent_packComponents, hexponent]
        · exact hbiased.1
        · exact hbiased.2
      · exact hzero _ unpackExponent_packComponents

/-! ### Words -/

theorem below_round {m k : Nat} {e : Int} (top : Int) (s : Sign) (hm : m < 2 ^ k)
    (he : e ≤ top) (htop : -1074 ≤ top) :
    Below (top + (2 * (k + 52 : Nat) + 1)) (UnpackedFloat.round .binary64 s m e) := by
  have hshift :
      (e - Format.binary64.targetExponent (totalExponent m e)).toNat ≤ 52 := by
    simp only [Format.targetExponent, totalExponent, Format.mantissaBits]
    omega
  rw [UnpackedFloat.round]
  simp only [decreaseExponent]
  generalize (e - Format.binary64.targetExponent (totalExponent m e)).toNat = shift at hshift ⊢
  refine below_roundWithAccuracy top s .exact ?_ (by omega) htop
  rw [Nat.shiftLeft_eq, Nat.pow_add]
  exact Nat.mul_lt_mul_of_lt_of_le hm (Nat.pow_le_pow_right (by decide) hshift) (Nat.two_pow_pos _)

theorem below_ofNat {n k : Nat} (h : n < 2 ^ k) :
    Below (2 * (k + 52 : Nat) + 1) (UnpackedFloat.ofNat .binary64 n) := by
  rw [UnpackedFloat.ofNat, UnpackedFloat.ofInt, UnpackedFloat.normalize]
  have hround := below_round 0 .positive h (Int.le_refl 0) (by omega)
  rw [Int.zero_add] at hround
  split
  · next hneg =>
      rw [Int.compare_eq_lt] at hneg
      omega
  · exact .zero _
  · exact hround

theorem unpack_one : (Float.ofBits 0x3FF0000000000000).toModel.unpack =
    .finite .positive 0x10000000000000 (-52) (by decide) := rfl

/-- An integer of 53 digits is multiplied by one, and a longer one read as a decimal. -/
theorem below_natCast {n : Nat} (h : n < 2 ^ 64) : Below 971 (Float.ofNat n).toModel.unpack := by
  by_cases hshort : n < 2 ^ 53
  · have hword : n.toUInt64.toNat = n := UInt64.toNat_ofNat_of_lt' h
    have hvalue : (Float.ofNat n).toModel =
        n.toUInt64.toFloat.toModel * (Float.ofBits 0x3FF0000000000000).toModel := by
      change (Float.ofScientific n false 0).toModel = _
      rw [Float.ofScientific, dif_pos ⟨hshort, Nat.zero_le _⟩]
      rfl
    have hfloat : Below 211 n.toUInt64.toFloat.toModel.unpack := by
      refine below_unpack_pack ?_ (by omega) (by omega)
      show Below 211 (UnpackedFloat.ofNat .binary64 n.toUInt64.toNat)
      rw [hword]
      exact below_ofNat hshort
    rw [hvalue]
    refine below_unpack_pack (f := UnpackedFloat.mul .binary64 _ _) ?_ (by omega) (by omega)
    rw [unpack_one]
    generalize hunpack : n.toUInt64.toFloat.toModel.unpack = f at hfloat
    cases hfloat with
    | zero s => exact .zero _
    | @finite s m e hm he =>
        have hm53 : m < 2 ^ 53 := mantissa_unpack_lt hunpack
        have hproduct : m * 0x10000000000000 < 2 ^ 105 := by omega
        exact (below_roundWithAccuracy 159 _ .exact hproduct (by omega) (by omega)).mono
          (by omega)
  · have hvalue : (Float.ofNat n).toModel = Float.Model.ofScientific n 0 := by
      change (Float.ofScientific n false 0).toModel = _
      rw [Float.ofScientific, dif_neg fun hno => hshort hno.1]
      rfl
    rw [hvalue]
    refine below_unpack_pack (f := UnpackedFloat.ofScientific .binary64 n 0) ?_ (by omega)
      (by omega)
    have hlow : ¬ (0 : Int) < -((2 ^ Format.binary64.exponentBits : Int) + n.log2) := by
      show ¬ (0 : Int) < -(2048 + n.log2)
      omega
    rw [UnpackedFloat.ofScientific, dif_neg (by omega), if_neg (by decide), if_neg hlow,
      if_pos (Int.le_refl 0), UnpackedFloat.mul]
    have hdigits : n <<< Format.binary64.mantissaBits * 10 ^ (0 : Int).toNat < 2 ^ 117 := by
      rw [Nat.shiftLeft_eq]
      show n * 2 ^ 53 * 1 < 2 ^ 117
      omega
    exact (below_roundWithAccuracy 0 _ .exact hdigits (by decide) (by omega)).mono
      (by omega)

instance : Scalar.HoldsWords Float where
  isFinite_ofInt := by
    intro n hlow hhigh
    cases n with
    | ofNat n =>
        have hbelow := below_natCast (Int.ofNat_lt.1 hhigh)
        exact hbelow.isFinite
    | negSucc n =>
        have hn : n + 1 < 2 ^ 64 := by
          rw [Int.negSucc_eq] at hlow
          omega
        have hbelow := below_unpack_pack (below_natCast hn).neg (by omega) (by omega)
        exact hbelow.isFinite

end Binary64

end PlanarSketch
