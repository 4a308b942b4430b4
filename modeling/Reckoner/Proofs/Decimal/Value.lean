import Mathlib.Tactic
import Mathlib.Algebra.Order.Field.Power
import Reckoner.Decimal.Rescale

/-!
# The value of a decimal

A decimal as the rational number it stands for. Sums, differences and moved points have the values
they should have, and the number of digits less the scale is the same for all representations of
one value.
-/

namespace Reckoner

/-! ## Counting digits -/

namespace Integer

theorem digitCount_zero : digitCount 0 = 1 := by
  simp [digitCount, logEstimate, climb, pow10]

theorem digitCount_le_iff {n k : Nat} (hk : 0 < k) : digitCount n ≤ k ↔ n < 10 ^ k := by
  constructor
  · intro h
    exact (lt_pow10_digitCount n).trans_le (Nat.pow_le_pow_right (by decide) h)
  · intro h
    by_contra hlonger
    by_cases hn : n = 0
    · rw [hn, digitCount_zero] at hlonger
      omega
    · have hle : 10 ^ k ≤ 10 ^ (digitCount n - 1) := Nat.pow_le_pow_right (by decide) (by omega)
      exact absurd (hle.trans (pow10_digitCount_le hn)) (by omega)

theorem lt_digitCount_iff {n k : Nat} (hk : 0 < k) : k < digitCount n ↔ 10 ^ k ≤ n := by
  rw [← not_le, digitCount_le_iff hk, not_lt]

theorem digitCount_mul_pow {n : Nat} (hn : n ≠ 0) (k : Nat) :
    digitCount (n * 10 ^ k) = digitCount n + k := by
  have hpos := digitCount_pos n
  have hupper : n * 10 ^ k < 10 ^ (digitCount n + k) := by
    rw [pow_add]
    exact Nat.mul_lt_mul_of_pos_right (lt_pow10_digitCount n) (by positivity)
  have hlower : 10 ^ (digitCount n - 1 + k) ≤ n * 10 ^ k := by
    rw [pow_add]
    exact Nat.mul_le_mul_right _ (pow10_digitCount_le hn)
  have hle := (digitCount_le_iff (by omega)).2 hupper
  have hge : digitCount n - 1 + k < digitCount (n * 10 ^ k) := by
    by_cases hzero : digitCount n - 1 + k = 0
    · rw [hzero]
      exact digitCount_pos _
    · exact (lt_digitCount_iff (by omega)).2 hlower
  omega

theorem digitCount_pow (k : Nat) : digitCount (10 ^ k) = k + 1 := by
  have hone : digitCount 1 = 1 :=
    le_antisymm ((digitCount_le_iff one_pos).2 (by decide)) (digitCount_pos 1)
  have hpow := digitCount_mul_pow one_ne_zero k
  rw [one_mul, hone] at hpow
  omega

end Integer

namespace Decimal

open Integer

theorem ten_zpow_ne_zero (k : Int) : (10 : ℚ) ^ k ≠ 0 := zpow_ne_zero k (by norm_num)

/-- The value of a decimal. -/
def toRat (x : Decimal) : ℚ := x.unscaled * (10 : ℚ) ^ (-x.scale)

theorem toRat_ofScaled (u : Int) {s : Int} (hs : Word.Fits s) :
    (ofScaled u s).toRat = u * (10 : ℚ) ^ (-s) := by
  rw [toRat, scale_ofScaled, Word.saturate_of_fits hs, unscaled_ofScaled]

theorem toRat_ofInt (n : Int) : (ofInt n).toRat = n := by simp [toRat, ofInt]

theorem toRat_zero : (0 : Decimal).toRat = 0 := toRat_ofInt 0

theorem toRat_eq_zero {x : Decimal} : x.toRat = 0 ↔ x.unscaled = 0 := by
  rw [toRat, mul_eq_zero, or_iff_left (ten_zpow_ne_zero _), Int.cast_eq_zero]

theorem toRat_neg (x : Decimal) : (-x).toRat = -x.toRat := by
  change ((-x.unscaled : Int) : ℚ) * 10 ^ (-x.scale) = _
  rw [toRat, Int.cast_neg, neg_mul]

theorem toRat_movePoint {x : Decimal} {places : Int} (h : Word.Fits (x.scale - places)) :
    (x.movePoint places).toRat = x.toRat * (10 : ℚ) ^ places := by
  rw [movePoint, toRat_ofScaled _ h, toRat, mul_assoc, ← zpow_add₀ (by norm_num)]
  congr 2
  ring

/-! ## Common scales -/

theorem zpow_ten_natAbs {s t : Int} (h : s ≤ t) :
    (10 : ℚ) ^ (t - s).natAbs * 10 ^ (-t) = 10 ^ (-s) := by
  have hcast : ((t - s).natAbs : Int) = t - s := by omega
  rw [← zpow_natCast, hcast, ← zpow_add₀ (by norm_num)]
  congr 1
  ring

theorem integerAt_toRat {x : Decimal} {s : Int} (h : x.scale ≤ s) :
    (x.integerAt s : ℚ) * 10 ^ (-s) = x.toRat := by
  have hpower : ((pow10 (s - x.scale).natAbs : Nat) : ℚ) = 10 ^ (s - x.scale).natAbs := by
    simp [pow10]
  rw [integerAt, Int.cast_mul, Int.cast_natCast, hpower, mul_assoc, zpow_ten_natAbs h, toRat]

theorem fits_max (x y : Decimal) : Word.Fits (max x.scale y.scale) := by
  obtain h | h := max_choice x.scale y.scale <;> rw [h]
  · exact x.scale_fits
  · exact y.scale_fits

theorem toRat_add (x y : Decimal) : (x + y).toRat = x.toRat + y.toRat := by
  change (ofScaled _ _).toRat = _
  rw [toRat_ofScaled _ (fits_max x y), Int.cast_add, add_mul, integerAt_toRat (le_max_left _ _),
    integerAt_toRat (le_max_right _ _)]

theorem toRat_sub (x y : Decimal) : (x - y).toRat = x.toRat - y.toRat := by
  change (ofScaled _ _).toRat = _
  rw [toRat_ofScaled _ (fits_max x y), Int.cast_sub, sub_mul, integerAt_toRat (le_max_left _ _),
    integerAt_toRat (le_max_right _ _)]

/-! ## Representations of one value -/

/-- Of two representations, the one with the greater scale has zeros appended. -/
theorem unscaled_of_value_eq {u v s t : Int} (hst : s ≤ t)
    (h : (u : ℚ) * 10 ^ (-s) = v * 10 ^ (-t)) : v = u * 10 ^ (t - s).natAbs := by
  rw [← zpow_ten_natAbs hst, ← mul_assoc] at h
  exact_mod_cast (mul_right_cancel₀ (ten_zpow_ne_zero _) h).symm

theorem digitCount_sub_scale {u v s t : Int} (hu : u ≠ 0)
    (h : (u : ℚ) * 10 ^ (-s) = v * 10 ^ (-t)) :
    (Integer.digitCount u.natAbs : Int) - s = Integer.digitCount v.natAbs - t := by
  have hgrown {u v s t : Int} (hu : u ≠ 0) (hst : s ≤ t)
      (h : (u : ℚ) * 10 ^ (-s) = v * 10 ^ (-t)) :
      (Integer.digitCount u.natAbs : Int) - s = Integer.digitCount v.natAbs - t := by
    rw [unscaled_of_value_eq hst h, Int.natAbs_mul, Int.natAbs_pow,
      show (10 : Int).natAbs = 10 from rfl, digitCount_mul_pow (by simpa using hu)]
    omega
  obtain hst | hts := le_total s t
  · exact hgrown hu hst h
  · have hv : v ≠ 0 := by
      rintro rfl
      rw [Int.cast_zero, zero_mul, mul_eq_zero, or_iff_left (ten_zpow_ne_zero _),
        Int.cast_eq_zero] at h
      exact hu h
    exact (hgrown hv hts h.symm).symm

end Decimal

end Reckoner
