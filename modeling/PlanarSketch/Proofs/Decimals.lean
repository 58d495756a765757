import Mathlib.Algebra.Order.Field.Power
import Mathlib.Algebra.Order.Floor.Semifield
import Mathlib.Data.Rat.Floor
import Mathlib.Order.Interval.Set.OrdConnected
import Mathlib.Tactic.FieldSimp
import Mathlib.Tactic.Linarith
import Mathlib.Tactic.Positivity
import PlanarSketch.Decimal.Shortest

/-!
What the search for a decimal finds. The decimals that round to a binary number are those with a
value in an interval around it. On each grid the two neighbours of the number stand for all others:
one that rounds and is further away has a neighbour between itself and the number, and that one
rounds as well. So no coarser grid of the search has a decimal that rounds, and none on the same
grid is nearer.
-/

namespace PlanarSketch

namespace Binary

def value (x : Binary) : ℚ := x.mantissa * 2 ^ x.exponent

/-- Halfway to the neighbour below. -/
def low (x : Binary) : ℚ :=
  ((if x.narrowBelow then 4 * x.mantissa - 1 else 4 * x.mantissa - 2 : ℕ) : ℚ) *
    2 ^ (x.exponent - 2)

/-- Halfway to the neighbour above. -/
def high (x : Binary) : ℚ := ((4 * x.mantissa + 2 : ℕ) : ℚ) * 2 ^ (x.exponent - 2)

/-- The numbers that round to the binary number. -/
def interval (x : Binary) : Set ℚ :=
  if x.mantissa % 2 = 0 then Set.Icc x.low x.high else Set.Ioo x.low x.high

theorem ordConnected_interval (x : Binary) : x.interval.OrdConnected := by
  rw [interval]
  split
  · exact Set.ordConnected_Icc
  · exact Set.ordConnected_Ioo

theorem value_eq (x : Binary) : x.value = ((4 * x.mantissa : ℕ) : ℚ) * 2 ^ (x.exponent - 2) := by
  rw [value, zpow_sub₀ two_ne_zero]
  push_cast
  ring

theorem value_mem_interval {x : Binary} (h : 0 < x.mantissa) : x.value ∈ x.interval := by
  have hscale : (0 : ℚ) < 2 ^ (x.exponent - 2) := by positivity
  have hlow : x.low < x.value := by
    rw [low, value_eq, mul_lt_mul_iff_left₀ hscale, Nat.cast_lt]
    split <;> omega
  have hhigh : x.value < x.high := by
    rw [high, value_eq, mul_lt_mul_iff_left₀ hscale, Nat.cast_lt]
    omega
  rw [interval]
  split
  · exact ⟨hlow.le, hhigh.le⟩
  · exact ⟨hlow, hhigh⟩

end Binary

namespace Decimal

variable {x : Binary} {d : Decimal} {i : ℤ}

def value (d : Decimal) : ℚ := d.digits * ((10 : ℕ) : ℚ) ^ d.exponent

theorem value_eq (d : Decimal) : d.value = d.digits * 10 ^ d.exponent := by
  rw [value, Nat.cast_ofNat]

theorem powerOfTen_eq (n : ℕ) : powerOfTen n = 10 ^ n := rfl

theorem pow_toNat {b : ℚ} (hb : b ≠ 0) (i : ℤ) : b ^ i.toNat = b ^ i * b ^ (-i).toNat := by
  rw [← zpow_natCast, ← zpow_natCast, ← zpow_add₀ hb]
  congr 1
  omega

theorem compareScaled_eq (a : ℕ) (i : ℤ) (n : ℕ) (j : ℤ) :
    compareScaled a i n j = compare ((a : ℚ) * 10 ^ i) (n * 2 ^ j) := by
  have hscale : (0 : ℚ) < 10 ^ (-i).toNat * 2 ^ (-j).toNat := by positivity
  have hleft : (((a * powerOfTen i.toNat) <<< (-j).toNat : ℕ) : ℚ) =
      a * 10 ^ i * (10 ^ (-i).toNat * 2 ^ (-j).toNat) := by
    rw [Nat.shiftLeft_eq, powerOfTen_eq]
    push_cast
    rw [pow_toNat (by norm_num) i]
    ring
  have hright : (((n <<< j.toNat) * powerOfTen (-i).toNat : ℕ) : ℚ) =
      n * 2 ^ j * (10 ^ (-i).toNat * 2 ^ (-j).toNat) := by
    rw [Nat.shiftLeft_eq, powerOfTen_eq]
    push_cast
    rw [pow_toNat two_ne_zero j]
    ring
  rw [compareScaled, ← cmp_eq_compare, ← cmp_eq_compare,
    ← (Nat.strictMono_cast (α := ℚ)).cmp_map_eq, hleft, hright, cmp_mul_pos_right hscale]

theorem roundsTo_iff : d.roundsTo x = true ↔ d.value ∈ x.interval := by
  have hlow : compareScaled d.digits d.exponent
      (if x.narrowBelow then 4 * x.mantissa - 1 else 4 * x.mantissa - 2) (x.exponent - 2) =
      compare d.value x.low := by
    rw [compareScaled_eq, value_eq, Binary.low]
  have hhigh : compareScaled d.digits d.exponent (4 * x.mantissa + 2) (x.exponent - 2) =
      compare d.value x.high := by
    rw [compareScaled_eq, value_eq, Binary.high]
  rw [roundsTo, hlow, hhigh, Binary.interval]
  by_cases heven : x.mantissa % 2 = 0
  · simp [heven, compare_gt_iff_gt, compare_lt_iff_lt, le_iff_lt_or_eq,
      @eq_comm _ x.low d.value]
  · simp [heven, compare_gt_iff_gt, compare_lt_iff_lt]

/-! ### The neighbours on a grid -/

theorem value_next (d : Decimal) : d.next.value = (d.digits + 1) * 10 ^ d.exponent := by
  rw [value_eq, next, Nat.cast_add_one]

theorem exponent_floorOn (x : Binary) (i : ℤ) : (floorOn x i).exponent = i := rfl

theorem digits_floorOn (x : Binary) (i : ℤ) : (floorOn x i).digits = ⌊x.value / 10 ^ i⌋₊ := by
  rw [floorOn, ← Nat.floor_div_eq_div (K := ℚ)]
  rw [Nat.shiftLeft_eq, Nat.shiftLeft_eq, powerOfTen_eq, powerOfTen_eq, Binary.value]
  push_cast
  rw [pow_toNat two_ne_zero x.exponent, pow_toNat (b := 10) (by norm_num) i]
  field_simp

theorem floorOn_le (x : Binary) (i : ℤ) : (floorOn x i).value ≤ x.value := by
  have hgrid : (0 : ℚ) < 10 ^ i := by positivity
  have hvalue : 0 ≤ x.value := by rw [Binary.value]; positivity
  rw [value_eq, exponent_floorOn, digits_floorOn, ← le_div_iff₀ hgrid]
  exact Nat.floor_le (by positivity)

theorem lt_next_floorOn (x : Binary) (i : ℤ) : x.value < (floorOn x i).next.value := by
  have hgrid : (0 : ℚ) < 10 ^ i := by positivity
  rw [value_next, exponent_floorOn, digits_floorOn, ← div_lt_iff₀ hgrid]
  exact Nat.lt_floor_add_one _

/-- Every other decimal of the grid is beyond one of the neighbours. -/
theorem le_floorOn_or_next_le (h : d.exponent = i) :
    d.value ≤ (floorOn x i).value ∨ (floorOn x i).next.value ≤ d.value := by
  have hgrid : (0 : ℚ) ≤ 10 ^ i := by positivity
  subst h
  obtain hle | hlt := le_or_gt d.digits (floorOn x d.exponent).digits
  · exact .inl (mul_le_mul_of_nonneg_right (Nat.cast_le.2 hle) hgrid)
  · exact .inr (mul_le_mul_of_nonneg_right (Nat.cast_le.2 hlt) hgrid)

theorem nearer_eq (d : Decimal) (x : Binary) : d.nearer x = d ∨ d.nearer x = d.next := by
  rw [nearer]
  split
  · exact .inr rfl
  · exact .inl rfl
  · split
    · exact .inl rfl
    · exact .inr rfl

/-- Of two neighbours of the number, neither is nearer than the one chosen. -/
theorem nearer_le (hle : d.value ≤ x.value) (hlt : x.value < d.next.value) :
    |(d.nearer x).value - x.value| ≤ |d.value - x.value| ∧
      |(d.nearer x).value - x.value| ≤ |d.next.value - x.value| := by
  have hcompare : compareScaled (2 * d.digits + 1) d.exponent (2 * x.mantissa) x.exponent =
      compare (d.value + d.next.value) (2 * x.value) := by
    rw [compareScaled_eq, value_next, value_eq, Binary.value]
    push_cast
    ring_nf
  rw [nearer, hcompare, abs_of_nonpos (sub_nonpos.2 hle), abs_of_pos (sub_pos.2 hlt)]
  cases hcmp : compare (d.value + d.next.value) (2 * x.value) with
  | lt =>
      have := compare_lt_iff_lt.1 hcmp
      rw [abs_of_pos (sub_pos.2 hlt)]
      constructor <;> linarith
  | gt =>
      have := compare_gt_iff_gt.1 hcmp
      rw [abs_of_nonpos (sub_nonpos.2 hle)]
      constructor <;> linarith
  | eq =>
      have := compare_eq_iff_eq.1 hcmp
      dsimp only
      split
      · rw [abs_of_nonpos (sub_nonpos.2 hle)]
        constructor <;> linarith
      · rw [abs_of_pos (sub_pos.2 hlt)]
        constructor <;> linarith

/-- A decimal that rounds to the number and is the nearest of its grid. -/
structure Fits (d : Decimal) (x : Binary) : Prop where
  rounds : d.value ∈ x.interval
  nearest : ∀ d' : Decimal, d'.exponent = d.exponent → d'.value ∈ x.interval →
    |d.value - x.value| ≤ |d'.value - x.value|

/-- If the neighbour below does not round to the number, nothing below does. -/
theorem next_le (h : 0 < x.mantissa) (hbelow : (floorOn x i).value ∉ x.interval)
    (hd : d.exponent = i) (hrounds : d.value ∈ x.interval) :
    (floorOn x i).next.value ≤ d.value := by
  refine (le_floorOn_or_next_le hd).resolve_left fun hle => hbelow ?_
  exact x.ordConnected_interval.out hrounds (Binary.value_mem_interval h) ⟨hle, floorOn_le x i⟩

/-- If the neighbour above does not round to the number, nothing above does. -/
theorem le_floorOn (h : 0 < x.mantissa) (habove : (floorOn x i).next.value ∉ x.interval)
    (hd : d.exponent = i) (hrounds : d.value ∈ x.interval) : d.value ≤ (floorOn x i).value := by
  refine (le_floorOn_or_next_le hd).resolve_right fun hle => habove ?_
  exact x.ordConnected_interval.out (Binary.value_mem_interval h) hrounds
    ⟨(lt_next_floorOn x i).le, hle⟩

theorem abs_floorOn_le (hle : d.value ≤ (floorOn x i).value) :
    |(floorOn x i).value - x.value| ≤ |d.value - x.value| := by
  have hfloor := floorOn_le x i
  rw [abs_of_nonpos (sub_nonpos.2 hfloor), abs_of_nonpos (sub_nonpos.2 (hle.trans hfloor))]
  linarith

theorem abs_next_le (hle : (floorOn x i).next.value ≤ d.value) :
    |(floorOn x i).next.value - x.value| ≤ |d.value - x.value| := by
  have hnext := lt_next_floorOn x i
  rw [abs_of_pos (sub_pos.2 hnext), abs_of_pos (sub_pos.2 (hnext.trans_le hle))]
  linarith

theorem fits_nearer (hbelow : (floorOn x i).value ∈ x.interval)
    (habove : (floorOn x i).next.value ∈ x.interval) : ((floorOn x i).nearer x).Fits x := by
  obtain ⟨hle, hle'⟩ := nearer_le (floorOn_le x i) (lt_next_floorOn x i)
  obtain heq | heq := nearer_eq (floorOn x i) x
  all_goals
    rw [heq] at hle hle' ⊢
    refine ⟨‹_›, fun d hd _ => ?_⟩
    obtain hd | hd := le_floorOn_or_next_le (x := x) (i := i) hd
    · exact hle.trans (abs_floorOn_le hd)
    · exact hle'.trans (abs_next_le hd)

/-- A grid either offers its best decimal, or has none that rounds. -/
theorem onGrid?_cases (h : 0 < x.mantissa) (i : ℤ) :
    (∃ d, onGrid? x i = some d ∧ d.exponent = i ∧ d.Fits x) ∨
      onGrid? x i = none ∧ ∀ d : Decimal, d.exponent = i → d.value ∉ x.interval := by
  rw [onGrid?]
  cases hbelow : (floorOn x i).roundsTo x <;> cases habove : (floorOn x i).next.roundsTo x <;>
    simp only [← Bool.not_eq_true, roundsTo_iff] at hbelow habove
  · -- a decimal that rounds would be below one neighbour and above the other
    refine .inr ⟨rfl, fun d hd hrounds => ?_⟩
    exact absurd ((next_le h hbelow hd hrounds).trans (le_floorOn h habove hd hrounds))
      (not_le.2 ((floorOn_le x i).trans_lt (lt_next_floorOn x i)))
  · exact .inl ⟨_, rfl, rfl, habove, fun d hd hrounds => abs_next_le (next_le h hbelow hd hrounds)⟩
  · exact .inl ⟨_, rfl, rfl, hbelow, fun d hd hrounds =>
      abs_floorOn_le (le_floorOn h habove hd hrounds)⟩
  · refine .inl ⟨_, rfl, ?_, fits_nearer hbelow habove⟩
    obtain heq | heq := nearer_eq (floorOn x i) x <;> rw [heq] <;> rfl

theorem fits_of_onGrid? (h : 0 < x.mantissa) (hfound : onGrid? x i = some d) :
    d.exponent = i ∧ d.Fits x := by
  obtain ⟨d', hd', hfits⟩ | ⟨hnone, -⟩ := onGrid?_cases h i
  · cases hfound.symm.trans hd'
    exact hfits
  · cases hfound.symm.trans hnone

theorem notMem_of_onGrid? (h : 0 < x.mantissa) (hmissed : onGrid? x d.exponent = none) :
    d.value ∉ x.interval := by
  obtain ⟨d', hd', -⟩ | ⟨-, hnone⟩ := onGrid?_cases h d.exponent
  · cases hmissed.symm.trans hd'
  · exact hnone d rfl

/-! ### The search -/

/-- The decimal of last resort is the number itself. -/
theorem value_exact (x : Binary) :
    (if 0 ≤ x.exponent then ⟨x.mantissa <<< x.exponent.toNat, 0⟩
      else ⟨x.mantissa * Nat.pow 5 (-x.exponent).toNat, x.exponent⟩ : Decimal).value = x.value := by
  rw [Binary.value]
  split
  · rename_i hexponent
    rw [value_eq, Nat.shiftLeft_eq]
    push_cast
    rw [mul_one, ← zpow_natCast, Int.toNat_of_nonneg hexponent]
  · -- `2 ^ (-n)` is `5 ^ n` times `10 ^ (-n)`
    rename_i hexponent
    obtain ⟨n, hn⟩ : ∃ n : ℕ, x.exponent = -n := ⟨(-x.exponent).toNat, by omega⟩
    rw [value_eq, hn, neg_neg, Int.toNat_natCast]
    simp only [Nat.pow_eq, zpow_neg, zpow_natCast]
    push_cast
    rw [show (10 : ℚ) = 5 * 2 by norm_num, mul_pow]
    field_simp

/-- The decimal rounds to the number and is the nearest of its grid; nothing on a coarser grid of
the search rounds to the number. -/
theorem shortest_fits (h : 0 < x.mantissa) : (shortest x).Fits x ∧
    ∀ d : Decimal, d.value ∈ x.interval →
      topExponent x - 24 < d.exponent → d.exponent ≤ topExponent x →
        d.exponent ≤ (shortest x).exponent := by
  rw [shortest]
  generalize hgrids : ((List.range 24).map fun n => topExponent x - Int.ofNat n) = grids
  have hmem : ∀ {i}, topExponent x - 24 < i → i ≤ topExponent x → i ∈ grids := by
    intro i hlow hhigh
    rw [← hgrids, List.mem_map]
    exact ⟨(topExponent x - i).toNat, by rw [List.mem_range]; omega, by simp; omega⟩
  have hdown : grids.Pairwise (· > ·) := by
    rw [← hgrids, List.pairwise_map]
    exact List.pairwise_lt_range.imp fun hlt => by simp; omega
  cases hfind : grids.findSome? (onGrid? x) with
  | none =>
      have hmissed := List.findSome?_eq_none_iff.1 hfind
      refine ⟨⟨?_, fun d _ _ => ?_⟩, fun d hd hlow hhigh => ?_⟩
      · rw [Option.getD_none, value_exact]
        exact Binary.value_mem_interval h
      · rw [Option.getD_none, value_exact, sub_self, abs_zero]
        exact abs_nonneg _
      · exact absurd hd (notMem_of_onGrid? h (hmissed _ (hmem hlow hhigh)))
  | some d =>
      obtain ⟨coarser, i, finer, rfl, hfound, hmissed⟩ := List.findSome?_eq_some_iff.1 hfind
      obtain ⟨rfl, hfits⟩ := fits_of_onGrid? h hfound
      -- nothing on the grids tried before, and those behind are finer
      refine ⟨hfits, fun d' hd' hlow hhigh => ?_⟩
      obtain hcoarser | hrest := List.mem_append.1 (hmem hlow hhigh)
      · exact absurd hd' (notMem_of_onGrid? h (hmissed _ hcoarser))
      obtain heq | hfiner := List.mem_cons.1 hrest
      · exact heq.le
      · exact ((List.pairwise_cons.1 (List.pairwise_append.1 hdown).2.1).1 _ hfiner).le

example : shortest ⟨0x10000000000000, -1074, false⟩ = ⟨22250738585072014, -324⟩ := by decide +kernel

example : shortest ⟨1, -1074, false⟩ = ⟨5, -324⟩ := by decide +kernel

example : shortest ⟨0x10000000000000, 0, true⟩ = ⟨4503599627370496, 0⟩ := by decide +kernel

end Decimal

end PlanarSketch
