import PlanarSketch.Proofs.Words

/-!
The ids of a sketch as doubles. A whole number of at most 53 digits is exact: written with its
leading digit in front it leaves nothing to round, neither when it is made, nor when it is
multiplied by one, nor when it is cut back to an integer.
-/

namespace PlanarSketch

/-- Scalars that hold every index exactly. -/
class Scalar.HoldsIndices (α : Type) [Scalar α] : Prop where
  toIndex?_ofIndex : ∀ n : UInt32, Scalar.toIndex? (Scalar.ofIndex n : α) = some n

namespace Binary64

open Float.Model UnpackedFloat

/-- Digits that fill the mantissa of a normal double. -/
structure Full (m : Nat) : Prop where
  low : 2 ^ 52 ≤ m
  high : m < 2 ^ 53

theorem Full.pos {m : Nat} (h : Full m) : 0 < m := by
  have := h.low
  omega

theorem Full.log2_shiftLeft {m : Nat} (h : Full m) (k : Nat) : (m <<< k).log2 = 52 + k := by
  have hlow : 2 ^ (52 + k) ≤ m * 2 ^ k := by
    rw [Nat.pow_add]
    exact Nat.mul_le_mul_right _ h.low
  have hhigh : m * 2 ^ k < 2 ^ (52 + k + 1) := by
    rw [show 52 + k + 1 = 53 + k by omega, Nat.pow_add]
    exact Nat.mul_lt_mul_of_pos_right h.high (Nat.two_pow_pos k)
  rw [Nat.shiftLeft_eq]
  have hne : m * 2 ^ k ≠ 0 := by
    have := Nat.two_pow_pos (52 + k)
    omega
  exact (Nat.log2_eq_iff hne).2 ⟨hlow, hhigh⟩

theorem log2_le_of_lt {n : Nat} (hpos : 0 < n) (h : n < 2 ^ 53) : n.log2 ≤ 52 :=
  Nat.le_of_lt_succ ((Nat.log2_lt (Nat.ne_of_gt hpos)).2 h)

theorem full_shiftLeft {n : Nat} (hpos : 0 < n) (h : n < 2 ^ 53) : Full (n <<< (52 - n.log2)) := by
  have hlog := log2_le_of_lt hpos h
  obtain ⟨hlow, hhigh⟩ := (Nat.log2_eq_iff (Nat.ne_of_gt hpos)).1 (rfl : n.log2 = n.log2)
  rw [Nat.shiftLeft_eq]
  constructor
  · calc 2 ^ 52 = 2 ^ n.log2 * 2 ^ (52 - n.log2) := by rw [← Nat.pow_add]; congr 1; omega
      _ ≤ n * 2 ^ (52 - n.log2) := Nat.mul_le_mul_right _ hlow
  · calc n * 2 ^ (52 - n.log2) < 2 ^ (n.log2 + 1) * 2 ^ (52 - n.log2) :=
          Nat.mul_lt_mul_of_pos_right hhigh (Nat.two_pow_pos _)
      _ = 2 ^ 53 := by rw [← Nat.pow_add]; congr 1; omega

/-! ### Nothing is rounded -/

theorem shiftLeft_shiftRight (m k : Nat) :
    (⟨m <<< k, false, false⟩ : ExtendedMantissa) >>> k = ⟨m, false, false⟩ := by
  induction k generalizing m with
  | zero => rfl
  | succ k ih =>
      have hone : (m <<< 1) <<< k = m <<< (k + 1) := by
        rw [← Nat.shiftLeft_add, Nat.add_comm]
      change ((⟨m <<< (k + 1), false, false⟩ : ExtendedMantissa) >>> k).shiftRightOne = _
      rw [← hone, ih, ExtendedMantissa.shiftRightOne, Nat.shiftLeft_eq]
      simp

theorem shiftToTargetExponent_full {m : Nat} {e : Int} (h : Full m) (he : -1074 ≤ e) (k : Nat) :
    shiftToTargetExponent .binary64 (m <<< k) (e - k) .exact = (⟨m, false, false⟩, e) := by
  have htarget : Format.targetExponent .binary64 (totalExponent (m <<< k) (e - k)) = e := by
    rw [totalExponent, h.log2_shiftLeft]
    change max (((52 + k : Nat) : Int) + 1 + (e - k) - 53) (-1074) = e
    omega
  rw [shiftToTargetExponent, htarget, shiftToExponent]
  have hamount : (e - (e - (k : Int))).toNat = k := by omega
  simp only [hamount, ExtendedMantissa.ofMantissaAndAccuracy, shiftLeft_shiftRight,
    Int.sub_add_cancel]

theorem roundWithAccuracy_full {m : Nat} {e : Int} (h : Full m) (he : -1074 ≤ e) (k : Nat)
    (s : Sign) :
    roundWithAccuracy .binary64 s (m <<< k) (e - k) .exact = .finite s m e h.pos := by
  have hagain := shiftToTargetExponent_full h he 0
  rw [Nat.shiftLeft_zero, Int.natCast_zero, Int.sub_zero] at hagain
  rw [roundWithAccuracy, shiftToTargetExponent_full h he k]
  simp only [ExtendedMantissa.roundedMantissa, ExtendedMantissa.accuracy,
    Accuracy.roundToNearestEven, hagain, Nat.ne_of_gt h.pos, dite_false]

theorem unpack_pack_full {m : Nat} {e : Int} (h : Full m) (hlow : -1074 ≤ e) (hhigh : e ≤ 971)
    (s : Sign) :
    unpack .binary64 (UnpackedFloat.pack .binary64 (.finite s m e h.pos)) =
      .finite s m e h.pos := by
  have hlog : m.log2 = 52 := h.log2_shiftLeft 0
  have hbiased : ((e + 1023 + 52).toNat : Int) = e + 1075 := by omega
  rw [UnpackedFloat.pack, show (Format.binary64.exponentBias : Int) = 1023 from rfl,
    show ((52 : Nat) : Int) = 52 from rfl]
  generalize (e + 1023 + 52).toNat = biased at hbiased ⊢
  have hfits : ¬ 2 ^ Format.binary64.exponentBits ≤ biased + 1 :=
    show ¬ 2048 ≤ biased + 1 by omega
  have hexponent : (BitVec.ofNat Format.binary64.exponentBits biased).toNat = biased :=
    Nat.mod_eq_of_lt (show biased < 2048 by omega)
  have hnotMax : BitVec.ofNat Format.binary64.exponentBits biased ≠ -1#_ := by
    intro heq
    rw [heq] at hexponent
    have : 2047 = biased := hexponent
    omega
  have hnotMin : BitVec.ofNat Format.binary64.exponentBits biased ≠ 0#_ := by
    intro heq
    rw [heq] at hexponent
    have : 0 = biased := hexponent
    omega
  have hmantissa : (1#1 ++ BitVec.ofNat Format.binary64.mantissaBitsWithoutImplicit m).toNat = m := by
    rw [BitVec.toNat_append, ← Nat.shiftLeft_add_eq_or_of_lt (BitVec.isLt _)]
    change 1 <<< 52 + m % 2 ^ 52 = m
    have := h.low
    have := h.high
    omega
  rw [if_neg hfits, hlog, if_pos (show 52 + 1 = Format.binary64.mantissaBits from rfl),
    UnpackedFloat.unpack]
  simp only [unpackExponent_packComponents, unpackMantissa_packComponents,
    unpackSign_packComponents, hnotMax, hnotMin, if_false, hmantissa, hexponent,
    Sign.ofBitVec_toBitVec]
  have he : (biased : Int) - ((1023 : Nat) + (52 : Nat)) = e := by omega
  congr 1

/-! ### Whole numbers -/

/-- A whole number with its leading digit in front. -/
def whole (n : Nat) (hpos : 0 < n) (h : n < 2 ^ 53) : UnpackedFloat :=
  .finite .positive (n <<< (52 - n.log2)) (n.log2 - 52) (full_shiftLeft hpos h).pos

section

variable {n : Nat} (hpos : 0 < n) (h : n < 2 ^ 53)

theorem ofNat_eq_whole : UnpackedFloat.ofNat .binary64 n = whole n hpos h := by
  have hlog := log2_le_of_lt hpos h
  have hgt : compare (n : Int) 0 = .gt := Int.compare_eq_gt.2 (by omega)
  have hamount :
      (0 - Format.binary64.targetExponent (totalExponent n 0)).toNat = 52 - n.log2 := by
    change (0 - max ((n.log2 : Int) + 1 + 0 - 53) (-1074)).toNat = _
    omega
  have hround := roundWithAccuracy_full (full_shiftLeft hpos h) (e := n.log2 - 52) (by omega) 0
    .positive
  rw [Nat.shiftLeft_zero, Int.natCast_zero, Int.sub_zero] at hround
  rw [UnpackedFloat.ofNat, UnpackedFloat.ofInt, UnpackedFloat.normalize, hgt]
  simp only [UnpackedFloat.round, decreaseExponent, hamount, Int.toNat_natCast]
  rw [show (0 : Int) - ((52 - n.log2 : Nat) : Int) = n.log2 - 52 by omega, hround, whole]

theorem unpack_pack_whole :
    unpack .binary64 (UnpackedFloat.pack .binary64 (whole n hpos h)) = whole n hpos h := by
  have hlog := log2_le_of_lt hpos h
  exact unpack_pack_full (full_shiftLeft hpos h) (by omega) (by omega) .positive

theorem unpack_natCast : (Float.ofNat n).toModel.unpack = whole n hpos h := by
  have hword : n.toUInt64.toNat = n := UInt64.toNat_ofNat_of_lt' (Nat.lt_trans h (by decide))
  have hfloat : n.toUInt64.toFloat.toModel.unpack = whole n hpos h := by
    change unpack .binary64 (UnpackedFloat.pack .binary64
      (UnpackedFloat.ofNat .binary64 n.toUInt64.toNat)) = _
    rw [hword, ofNat_eq_whole hpos h, unpack_pack_whole]
  have hvalue : (Float.ofNat n).toModel =
      n.toUInt64.toFloat.toModel * (Float.ofBits 0x3FF0000000000000).toModel := by
    change (Float.ofScientific n false 0).toModel = _
    rw [Float.ofScientific, dif_pos ⟨h, Nat.zero_le _⟩]
    rfl
  have hproduct : UnpackedFloat.mul .binary64 (whole n hpos h)
      (.finite .positive 0x10000000000000 (-52) (by decide)) = whole n hpos h := by
    have hround := roundWithAccuracy_full (full_shiftLeft hpos h) (e := n.log2 - 52) (by omega) 52
      .positive
    rw [Nat.shiftLeft_eq] at hround
    exact hround
  rw [hvalue]
  change unpack .binary64 (UnpackedFloat.pack .binary64 (UnpackedFloat.mul .binary64
    n.toUInt64.toFloat.toModel.unpack (Float.ofBits 0x3FF0000000000000).toModel.unpack)) = _
  rw [hfloat, unpack_one, hproduct, unpack_pack_whole]

theorem toInt_whole (low high : Int) : toInt low high (whole n hpos h) = n := by
  have hlog := log2_le_of_lt hpos h
  have hup : ((n.log2 : Int) - 52).toNat = 0 := by omega
  have hdown : (0 - ((n.log2 : Int) - 52)).toNat = 52 - n.log2 := by omega
  rw [whole, toInt, roundToInt]
  simp only [decreaseExponent, Int.sub_zero, hup, Nat.shiftLeft_zero, Int.natCast_zero,
    shiftToExponent, hdown, ExtendedMantissa.ofMantissaAndAccuracy, shiftLeft_shiftRight]
  rfl

theorem beq_whole : (whole n hpos h).beq (whole n hpos h) = true := by
  simp [whole, UnpackedFloat.beq, UnpackedFloat.compare]

theorem le_whole (hword : n < 2 ^ 32) :
    (whole n hpos h).le (4294967295.0 : Float).toModel.unpack = true := by
  have hlimit : (4294967295.0 : Float).toModel.unpack =
      .finite .positive (4294967295 <<< 21) (-21) (by decide) := rfl
  have hlog : n.log2 < 32 := (Nat.log2_lt (Nat.ne_of_gt hpos)).2 hword
  rw [hlimit, whole, UnpackedFloat.le, UnpackedFloat.compare]
  rcases Nat.lt_or_eq_of_le (Nat.le_of_lt_succ hlog) with hless | heq
  · rw [Int.compare_eq_lt.2 (show (n.log2 : Int) - 52 < -21 by omega)]
    rfl
  · have hdigits : n <<< (52 - n.log2) ≤ 4294967295 <<< 21 := by
      rw [heq, Nat.shiftLeft_eq, Nat.shiftLeft_eq]
      exact Nat.mul_le_mul_right _ (by omega)
    rw [Int.compare_eq_eq.2 (show (n.log2 : Int) - 52 = -21 by omega)]
    exact Nat.isLE_compare.2 hdigits

end

instance : Scalar.HoldsIndices Float where
  toIndex?_ofIndex := by
    intro n
    by_cases hzero : n = 0
    · subst hzero
      rfl
    have hpos : 0 < n.toNat := by
      rw [Nat.pos_iff_ne_zero]
      exact fun hnat => hzero (UInt32.toNat_inj.1 hnat)
    have hword : n.toNat < 2 ^ 32 := n.toNat_lt
    have h : n.toNat < 2 ^ 53 := Nat.lt_trans hword (by decide)
    have hnumber := unpack_natCast hpos h
    have hback : (Float.ofNat n.toNat).toUInt32 = n := by
      change UInt32.ofNatClamp
        (toInt 0 (UInt32.size - 1) (Float.ofNat n.toNat).toModel.unpack).toNat = n
      rw [hnumber, toInt_whole, Int.toNat_natCast, UInt32.ofNatClamp,
        dif_pos (show n.toNat < UInt32.size from hword)]
      exact UInt32.ofNatLT_toNat n
    have hagain : n.toFloat.toModel.unpack = whole n.toNat hpos h := by
      change unpack .binary64 (UnpackedFloat.pack .binary64
        (UnpackedFloat.ofNat .binary64 n.toNat)) = _
      rw [ofNat_eq_whole hpos h, unpack_pack_whole]
    have hlow : (0.0 : Float) ≤ Float.ofNat n.toNat := by
      refine decide_eq_true (show (0.0 : Float).toModel.unpack.le _ = true from ?_)
      rw [hnumber]
      rfl
    have hhigh : Float.ofNat n.toNat ≤ 4294967295.0 := by
      refine decide_eq_true
        (show UnpackedFloat.le _ (4294967295.0 : Float).toModel.unpack = true from ?_)
      rw [hnumber]
      exact le_whole hpos h hword
    have hsame : (n.toFloat == Float.ofNat n.toNat) = true := by
      change n.toFloat.toModel.unpack.beq (Float.ofNat n.toNat).toModel.unpack = true
      rw [hagain, hnumber, beq_whole]
    change toIndex? (Float.ofNat n.toNat) = some n
    rw [toIndex?, hback, if_pos ⟨hlow, hhigh, hsame⟩]

end Binary64

end PlanarSketch
