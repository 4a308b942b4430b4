import Mathlib.Order.Std
import Reckoner.Proofs.Decimal.Exact

/-!
# The order of decimals is the order of their values

Each step of a comparison is sound on its own: the sign is that of the value, an exponent puts the
value between two powers of ten, and what is left is compared at one scale. An exponent that stops
at the end of the word range still goes up with the value, so it can only fail to decide.
-/

namespace Reckoner.Decimal

open Integer

variable {x y : Decimal}

/-! ## Signs -/

theorem toRat_pos : 0 < x.toRat ↔ 0 < x.unscaled := by
  unfold toRat
  rw [mul_pos_iff_of_pos_right (by positivity), Int.cast_pos]

theorem toRat_nonpos : x.toRat ≤ 0 ↔ x.unscaled ≤ 0 := by
  rw [← not_lt, toRat_pos, not_lt]

theorem toRat_lt_zero : x.toRat < 0 ↔ x.unscaled < 0 := by
  rw [lt_iff_le_and_ne, toRat_nonpos, Ne, toRat_eq_zero, lt_iff_le_and_ne]

theorem sign_pos : 0 < x.sign ↔ 0 < x.unscaled := by
  unfold sign
  exact Int.sign_pos_iff

theorem toRat_lt_of_sign_lt (h : x.sign < y.sign) : x.toRat < y.toRat := by
  unfold sign at h
  rcases lt_trichotomy 0 y.unscaled with hy | hy | hy
  · have hx : ¬ 0 < x.unscaled := by
      intro hx
      rw [Int.sign_eq_one_of_pos hx, Int.sign_eq_one_of_pos hy] at h
      omega
    exact (toRat_nonpos.2 (not_lt.1 hx)).trans_lt (toRat_pos.2 hy)
  · rw [← hy, Int.sign_zero, Int.sign_neg_iff] at h
    exact (toRat_lt_zero.2 h).trans_eq (toRat_eq_zero.2 hy.symm).symm
  · rw [Int.sign_eq_neg_one_of_neg hy] at h
    rcases Int.sign_trichotomy x.unscaled with hx | hx | hx <;> omega

/-! ## Exponents -/

theorem pow_le_toRat (hx : 0 < x.unscaled) :
    (10 : ℚ) ^ ((x.digitCount : Int) - 1 - x.scale) ≤ x.toRat := by
  have hpos : 0 < x.digitCount := digitCount_pos _
  have hle : (10 : ℚ) ^ ((x.digitCount : Int) - 1) ≤ x.unscaled := by
    have h : 10 ^ (x.digitCount - 1) ≤ x.unscaled.natAbs := pow10_digitCount_le (by omega)
    have hcast : ((x.digitCount : Int) - 1) = (x.digitCount - 1 : Nat) := by omega
    rw [hcast, zpow_natCast]
    exact_mod_cast (show ((10 ^ (x.digitCount - 1) : Nat) : Int) ≤ x.unscaled by omega)
  unfold toRat
  rw [sub_eq_add_neg _ x.scale, zpow_add₀ (by norm_num)]
  exact mul_le_mul_of_nonneg_right hle (by positivity)

theorem toRat_lt_pow (hx : 0 < x.unscaled) :
    x.toRat < (10 : ℚ) ^ ((x.digitCount : Int) - x.scale) := by
  have hlt : (x.unscaled : ℚ) < 10 ^ (x.digitCount : Int) := by
    have h : x.unscaled.natAbs < 10 ^ x.digitCount := lt_pow10_digitCount _
    rw [zpow_natCast]
    exact_mod_cast (show x.unscaled < ((10 ^ x.digitCount : Nat) : Int) by omega)
  unfold toRat
  rw [sub_eq_add_neg, zpow_add₀ (by norm_num)]
  exact mul_lt_mul_of_pos_right hlt (by positivity)

theorem toRat_lt_of_exponent_lt (hx : 0 < x.unscaled) (hy : 0 < y.unscaled)
    (h : x.exponent < y.exponent) : x.toRat < y.toRat := by
  rw [exponent_eq_saturate hx.ne', exponent_eq_saturate hy.ne'] at h
  -- an exponent that stopped at the end of the range is still no greater than a greater one
  have hlt : (x.digitCount : Int) - 1 - x.scale < y.digitCount - 1 - y.scale :=
    Word.lt_of_saturate_lt h
  calc x.toRat < (10 : ℚ) ^ ((x.digitCount : Int) - x.scale) := toRat_lt_pow hx
    _ ≤ 10 ^ ((y.digitCount : Int) - 1 - y.scale) := zpow_le_zpow_right₀ (by norm_num) (by omega)
    _ ≤ y.toRat := pow_le_toRat hy

theorem digitCount_neg (x : Decimal) : (-x).digitCount = x.digitCount := by
  change Integer.digitCount (-x.unscaled).natAbs = _
  rw [Int.natAbs_neg]
  rfl

theorem exponent_neg (x : Decimal) : (-x).exponent = x.exponent := by
  have hunscaled : (-x).unscaled = -x.unscaled := rfl
  have hscale : (-x).scale = x.scale := rfl
  unfold exponent digitCount
  simp only [hunscaled, hscale, neg_eq_zero, Int.natAbs_neg]

/-- Of negative numbers, the one with the greater exponent is the smaller one. -/
theorem toRat_lt_of_exponent_gt (hx : x.unscaled < 0) (hy : y.unscaled < 0)
    (h : y.exponent < x.exponent) : x.toRat < y.toRat := by
  have hneg {z : Decimal} (hz : z.unscaled < 0) : 0 < (-z).unscaled := Int.neg_pos_of_neg hz
  have hlt : (-y).toRat < (-x).toRat := by
    refine toRat_lt_of_exponent_lt (hneg hy) (hneg hx) ?_
    rwa [exponent_neg, exponent_neg]
  rwa [toRat_neg, toRat_neg, neg_lt_neg_iff] at hlt

/-! ## Comparing -/

theorem compare_integerAt {s : Int} (hx : x.scale ≤ s) (hy : y.scale ≤ s) :
    compare (x.integerAt s) (y.integerAt s) = compare x.toRat y.toRat := by
  have hpow : (0 : ℚ) < 10 ^ (-s) := by positivity
  rw [← integerAt_toRat hx, ← integerAt_toRat hy, ← cmp_eq_compare, ← cmp_eq_compare,
    cmp_mul_pos_right hpow]
  exact (Int.cast_strictMono.cmp_map_eq _ _).symm

theorem compare_of_strict {α β : Type} [LinearOrder α] [LinearOrder β] {a b : α} {c d : β}
    (hne : a ≠ b) (hlt : a < b → c < d) (hgt : b < a → d < c) : compare a b = compare c d := by
  rcases lt_or_gt_of_ne hne with h | h
  · rw [compare_lt_iff_lt.2 h, compare_lt_iff_lt.2 (hlt h)]
  · rw [compare_gt_iff_gt.2 h, compare_gt_iff_gt.2 (hgt h)]

theorem compareValue_eq_compare (x y : Decimal) :
    compareValue x y = compare x.toRat y.toRat := by
  unfold compareValue
  split
  · next hsign => exact compare_of_strict hsign toRat_lt_of_sign_lt toRat_lt_of_sign_lt
  next hsign =>
  rw [not_not] at hsign
  split
  · next hzero =>
    have hx : x.toRat = 0 := toRat_eq_zero.2 (Int.sign_eq_zero_iff_zero.1 hzero)
    have hy : y.toRat = 0 := toRat_eq_zero.2 (Int.sign_eq_zero_iff_zero.1 (hsign.symm.trans hzero))
    rw [hx, hy, compare_eq_iff_eq.2 rfl]
  next hzero =>
  split
  · next hexponent =>
    split
    · next hpos =>
      have hx := sign_pos.1 hpos
      have hy := sign_pos.1 (hsign ▸ hpos)
      exact compare_of_strict hexponent (toRat_lt_of_exponent_lt hx hy)
        (toRat_lt_of_exponent_lt hy hx)
    · next hneg =>
      have hx : x.unscaled < 0 := Int.sign_neg_iff.1 (show x.sign < 0 by omega)
      have hy : y.unscaled < 0 := Int.sign_neg_iff.1 (show y.sign < 0 by omega)
      exact compare_of_strict (Ne.symm hexponent) (toRat_lt_of_exponent_gt hx hy)
        (toRat_lt_of_exponent_gt hy hx)
  · exact compare_integerAt (le_max_left _ _) (le_max_right _ _)

theorem sameValue_iff : x.sameValue y = true ↔ x.toRat = y.toRat := by
  change (compareValue x y == .eq) = true ↔ _
  rw [beq_iff_eq, compareValue_eq_compare, compare_eq_iff_eq]

instance : Std.TransCmp compareValue where
  eq_swap := by
    intro a b
    rw [compareValue_eq_compare, compareValue_eq_compare]
    exact Std.OrientedCmp.eq_swap
  isLE_trans := by
    intro a b c hab hbc
    rw [compareValue_eq_compare] at hab hbc ⊢
    exact Std.TransCmp.isLE_trans hab hbc

/-- Decimals are compared as the rational numbers they stand for, whatever their scales. So they
are in a total order, in which the representations of one value are equal. -/
theorem compareValue_orders_values :
    (∀ x y : Decimal, compareValue x y = compare x.toRat y.toRat) ∧
      (∀ x y : Decimal, x.sameValue y = true ↔ x.toRat = y.toRat) ∧
      Std.TransCmp compareValue ∧ Equivalence fun x y : Decimal => x.sameValue y = true := by
  refine ⟨compareValue_eq_compare, fun _ _ => sameValue_iff, inferInstance, ?_⟩
  constructor
  · exact fun x => sameValue_iff.2 rfl
  · exact fun h => sameValue_iff.2 (sameValue_iff.1 h).symm
  · exact fun h h' => sameValue_iff.2 ((sameValue_iff.1 h).trans (sameValue_iff.1 h'))

end Reckoner.Decimal
