import Reckoner.Expression.FunctionTable
import Reckoner.Proofs.Decimal.Canonical
import Reckoner.Proofs.Domain.Inverses
import Reckoner.Proofs.Rounding.Prescriptions

/-!
# Rounding to a scale

A number is brought to a lower scale by rounding it to a whole number of units of that scale, as the
mode prescribes. If more digits go than the number has, what is left is less than half a unit. How
much less no mode can see, so the power of ten that is divided by need not grow any further. The floor,
the ceiling and the rounding of a number are the cases of scale zero.
-/

namespace Reckoner

open Integer

variable {mode : Rounding}

/-! ## Less than half a unit -/

namespace Rounding

theorem nearest_of_below_half {q r : ℚ} (hq : 2 * |q| < 1) (hr : 2 * |r| < 1) (hside : 0 < q * r) :
    mode.nearest q = mode.nearest r := by
  have hsize {q : ℚ} (hq : 2 * |q| < 1) : |2 * q| < 1 := by rwa [abs_mul, abs_two]
  have hwhole {q : ℚ} (hq : 2 * |q| < 1) (hne : q ≠ 0) (n : Int) : 2 * q ≠ n := by
    have hoff := add_ne_intCast (hsize hq) (mul_ne_zero two_ne_zero hne) 0 n
    rwa [Int.cast_zero, zero_add] at hoff
  refine nearest_congr mode (floor_eq_of_side (hsize hq) (hsize hr) ?_)
    (hwhole hq (left_ne_zero_of_mul hside.ne')) (hwhole hr (right_ne_zero_of_mul hside.ne'))
  linarith

/-- More zeros than the integer has digits make it less than a tenth. -/
theorem abs_div_pow_lt {u : Int} {k : Nat} (hk : digitCount u.natAbs < k) :
    2 * |(u : ℚ) / 10 ^ k| < 1 := by
  have hdigits : |(u : ℚ)| < 10 ^ digitCount u.natAbs := by
    have hlt : u.natAbs < 10 ^ digitCount u.natAbs := lt_pow10_digitCount _
    rw [← Int.cast_abs, Int.abs_eq_natAbs]
    exact_mod_cast hlt
  have hpow : (10 : ℚ) ^ digitCount u.natAbs * 10 ≤ 10 ^ k := by
    rw [← pow_succ]
    exact pow_le_pow_right₀ (by norm_num) hk
  rw [abs_div, abs_of_pos (show (0 : ℚ) < 10 ^ k by positivity), ← mul_div_assoc,
    div_lt_one (by positivity)]
  linarith [abs_nonneg (u : ℚ)]

/-- To divide by one power of ten more than the integer has digits is to divide by any greater one. -/
theorem quotient_dropped (u : Int) (k : Nat) :
    mode.quotient u (pow10 (min k (digitCount u.natAbs + 1)) : Nat) =
      mode.nearest ((u : ℚ) / 10 ^ k) := by
  have hexact (j : Nat) : mode.quotient u (pow10 j : Nat) = mode.nearest ((u : ℚ) / 10 ^ j) := by
    rw [quotient_eq_nearest (K := ℚ) mode u (Int.natCast_pos.2 (pow10_pos j))]
    simp [pow10]
  rw [hexact]
  obtain hle | hlt := le_or_gt k (digitCount u.natAbs + 1)
  · rw [min_eq_left hle]
  obtain rfl | hu := eq_or_ne u 0
  · rw [Int.cast_zero, zero_div, zero_div]
  rw [min_eq_right hlt.le]
  refine nearest_of_below_half (abs_div_pow_lt (Nat.lt_succ_self _)) (abs_div_pow_lt (by omega)) ?_
  rw [div_mul_div_comm]
  have hsquare : 0 < (u : ℚ) * u := mul_self_pos.2 (Int.cast_ne_zero.2 hu)
  positivity

end Rounding

/-! ## Scales -/

namespace Decimal

variable {x : Decimal} {scale : Int}

theorem toRat_mul_pow (x : Decimal) (scale : Int) :
    x.toRat * 10 ^ scale = x.unscaled * 10 ^ (scale - x.scale) := by
  rw [toRat, mul_assoc, ← zpow_add₀ (by norm_num), neg_add_eq_sub]

theorem rescale_refused (h : 1000000 < scale - x.scale) :
    x.rescale scale mode = .error .exponentTooLarge := by
  rw [rescale, if_neg (by omega), if_pos (by omega), shiftFactor_eq_error (by omega)]
  rfl

theorem rescale_succeeds (mode : Rounding) (hscale : Word.Fits scale) (h : scale - x.scale ≤ 1000000) :
    Succeeds (x.rescale scale mode) fun y =>
      y.scale = scale ∧ y.unscaled = mode.nearest (x.toRat * 10 ^ scale) := by
  rw [toRat_mul_pow]
  rcases lt_trichotomy scale x.scale with hlower | hsame | hhigher
  · -- digits are dropped
    have hunits : (x.unscaled : ℚ) * 10 ^ (scale - x.scale) =
        x.unscaled / 10 ^ (scale - x.scale).natAbs := by
      rw [← zpow_natCast, div_eq_mul_inv, ← zpow_neg]
      congr 2
      omega
    rw [rescale, if_neg hlower.ne, if_neg hlower.not_gt, hunits, ← Rounding.quotient_dropped]
    exact succeeds_ok ⟨Word.saturate_of_fits hscale, rfl⟩
  · rw [rescale, if_pos hsame, hsame, sub_self, zpow_zero, mul_one, Rounding.nearest_intCast]
    exact succeeds_ok ⟨rfl, rfl⟩
  · -- zeros are appended
    have hunits : (x.unscaled : ℚ) * 10 ^ (scale - x.scale) =
        ((x.unscaled * pow10 (scale - x.scale).natAbs : Int) : ℚ) := by
      obtain ⟨k, hk⟩ := Int.eq_ofNat_of_zero_le (show 0 ≤ scale - x.scale by omega)
      rw [hk, zpow_natCast]
      simp [pow10]
    rw [rescale, if_neg hhigher.ne', if_pos hhigher, shiftFactor_eq_ok (by omega), hunits,
      Rounding.nearest_intCast]
    exact succeeds_ok ⟨Word.saturate_of_fits hscale, rfl⟩

/-- A whole number that a rounding to scale zero comes to is the one that the mode prescribes. -/
theorem prescribed_of_rescale (mode : Rounding) {y : Decimal} (h : x.rescale 0 mode = .ok y) :
    ∃ n, y = ofInt n ∧ mode.Prescribes x.toRat n := by
  obtain hrefused | hlimit := lt_or_ge 1000000 (0 - x.scale)
  · rw [rescale_refused hrefused] at h
    cases h
  obtain ⟨z, hz, hscale, hn⟩ := rescale_succeeds mode Word.zero_fits hlimit
  obtain rfl : y = z := Except.ok.inj (h.symm.trans hz)
  rw [zpow_zero, mul_one] at hn
  exact ⟨_, (ext_iff y (ofInt _)).2 ⟨hn, hscale⟩, (mode.prescribes_iff _ _).2 rfl⟩

/-- A number is brought to any scale of the word range unless that takes more than a million further
digits. It then has that scale, and its unscaled integer is the number of units that the mode
prescribes, however many digits are dropped. So the builtin functions come to the greatest integer that
is not above the number, the least that is not below it, and the nearest, the outer one of two that are
equally near. -/
theorem rescale_eq_prescribed (x : Decimal) (scale : Int) (mode : Rounding)
    (hscale : Word.Fits scale) :
    (x.rescale scale mode = .error .exponentTooLarge ↔ 1000000 < scale - x.scale) ∧
    (scale - x.scale ≤ 1000000 → ∃ y, x.rescale scale mode = .ok y ∧ y.scale = scale ∧
      ∀ n, mode.Prescribes (x.toRat * 10 ^ scale) n ↔ n = y.unscaled) ∧
    ∀ ctx y,
      (Builtin.Unary.floor.apply ctx x = .ok y → ∃ n, y = ofInt n ∧
        IsGreatest {m : Int | (m : ℚ) ≤ x.toRat} n) ∧
      (Builtin.Unary.ceiling.apply ctx x = .ok y → ∃ n, y = ofInt n ∧
        IsLeast {m : Int | x.toRat ≤ m} n) ∧
      (Builtin.Unary.round.apply ctx x = .ok y → ∃ n, y = ofInt n ∧
        (∀ m : Int, |x.toRat - n| ≤ |x.toRat - m|) ∧
          ∀ m : Int, |x.toRat - m| = |x.toRat - n| → |m| ≤ |n|) := by
  refine ⟨⟨fun herror => ?_, rescale_refused⟩, fun hlimit => ?_, fun ctx y => ⟨?_, ?_, ?_⟩⟩
  · by_contra hlimit
    obtain ⟨y, hy, -⟩ := rescale_succeeds mode hscale (not_lt.1 hlimit)
    rw [hy] at herror
    cases herror
  · obtain ⟨y, hy, hyscale, hn⟩ := rescale_succeeds mode hscale hlimit
    exact ⟨y, hy, hyscale, fun n => hn ▸ mode.prescribes_iff _ n⟩
  · exact prescribed_of_rescale .floor
  · exact prescribed_of_rescale .ceiling
  · intro hround
    obtain ⟨n, hn, hclosest, houter⟩ := prescribed_of_rescale .halfUp hround
    exact ⟨n, hn, hclosest, fun m hm => houter m fun k => hm.trans_le (hclosest k)⟩

/-- A speck that loses a thousand digits more than it has, upward and to the nearest integer. -/
theorem rescale_eq_prescribed_speck :
    let speck := ofScaled 7 1001
    Word.Fits 0 ∧ 0 - speck.scale ≤ 1000000 ∧
      speck.rescale 0 .up = .ok (ofInt 1) ∧ Rounding.up.Prescribes (speck.toRat * 10 ^ (0 : Int)) 1 ∧
      ∃ n, ofInt 0 = ofInt n ∧ ∀ m : Int, |speck.toRat - n| ≤ |speck.toRat - m| := by
  intro speck
  obtain ⟨-, hup, -⟩ := rescale_eq_prescribed speck 0 .up Word.zero_fits
  obtain ⟨-, -, hbuiltin⟩ := rescale_eq_prescribed speck 0 .halfUp Word.zero_fits
  have hlimit : 0 - speck.scale ≤ 1000000 := by decide
  have hresult : speck.rescale 0 .up = .ok (ofInt 1) := by decide +kernel
  obtain ⟨y, hy, -, hprescribed⟩ := hup hlimit
  obtain rfl := Except.ok.inj (hresult.symm.trans hy)
  obtain ⟨n, hn, hclosest, -⟩ := (hbuiltin .standard (ofInt 0)).2.2 (by decide +kernel)
  exact ⟨Word.zero_fits, hlimit, hresult, (hprescribed 1).2 rfl, n, hn, hclosest⟩

end Decimal

end Reckoner
