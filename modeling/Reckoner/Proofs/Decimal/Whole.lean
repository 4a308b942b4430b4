import Reckoner.Proofs.Decimal.Parts
import Reckoner.Proofs.Decimal.Tests
import Reckoner.Proofs.Rounding.Nearest

/-!
# Whole values

Whether a decimal is whole, which word it is and what its whole part is depend on its value. Only
zero is an exception: with too many zeros left to the scale it is not read as a word, and then it is
taken for a number that is too long to be written out.
-/

namespace Reckoner.Decimal

open Integer

variable {x y : Decimal}

theorem pow10_cast (k : Nat) : ((pow10 k : Nat) : ℚ) = 10 ^ k := by simp [pow10]

theorem toRat_of_scale_nonpos (h : x.scale ≤ 0) :
    x.toRat = (x.unscaled * pow10 x.scale.natAbs : Int) := by
  have hexponent : -x.scale = (x.scale.natAbs : Int) := by omega
  rw [toRat, hexponent, zpow_natCast, Int.cast_mul, Int.cast_natCast, pow10_cast]

theorem toRat_of_scale_pos (h : 0 < x.scale) :
    x.toRat = (x.unscaled : ℚ) / ((pow10 x.scale.natAbs : Nat) : Int) := by
  have hexponent : -x.scale = -(x.scale.natAbs : Int) := by omega
  rw [toRat, hexponent, zpow_neg, zpow_natCast, Int.cast_natCast, pow10_cast, div_eq_mul_inv]

theorem unscaled_of_toRat {n : Int} (h : x.toRat = n) (hscale : 0 < x.scale) :
    x.unscaled = n * pow10 x.scale.natAbs := by
  rw [toRat_of_scale_pos hscale, div_eq_iff (by exact_mod_cast (pow10_pos _).ne')] at h
  exact_mod_cast h

/-- The digits of a whole number are those in front of the point. -/
theorem digitCount_of_toRat {n : Int} (hx : x.unscaled ≠ 0) (h : x.toRat = n) :
    (x.digitCount : Int) = Integer.digitCount n.natAbs + x.scale := by
  have hvalue : (x.unscaled : ℚ) * 10 ^ (-x.scale) = n * 10 ^ (-(0 : Int)) := by
    rw [neg_zero, zpow_zero, mul_one]
    exact h
  have hcount := digitCount_sub_scale hx hvalue
  unfold digitCount
  omega

theorem isWhole_iff : x.isWhole = true ↔ ∃ n : Int, x.toRat = n := by
  unfold isWhole
  constructor
  · intro h
    rw [Bool.or_eq_true, Bool.or_eq_true, decide_eq_true_eq, Bool.and_eq_true, beq_iff_eq] at h
    obtain (hzero | hscale) | ⟨-, hmod⟩ := h
    · exact ⟨0, by rw [isZero_iff.1 hzero, Int.cast_zero]⟩
    · exact ⟨_, toRat_of_scale_nonpos hscale⟩
    obtain hscale | hscale := le_or_gt x.scale 0
    · exact ⟨_, toRat_of_scale_nonpos hscale⟩
    · refine ⟨x.unscaled.tdiv (pow10 x.scale.natAbs), ?_⟩
      rw [toRat_of_scale_pos hscale, div_eq_iff (by exact_mod_cast (pow10_pos _).ne')]
      exact_mod_cast (Int.tdiv_mul_cancel (Int.dvd_of_tmod_eq_zero hmod)).symm
  · rintro ⟨n, h⟩
    rw [Bool.or_eq_true, Bool.or_eq_true, decide_eq_true_eq, Bool.and_eq_true, beq_iff_eq,
      decide_eq_true_eq]
    by_cases hzero : x.unscaled = 0
    · exact .inl (.inl (beq_iff_eq.2 hzero))
    obtain hscale | hscale := le_or_gt x.scale 0
    · exact .inl (.inr hscale)
    · right
      have hcount := digitCount_of_toRat hzero h
      have hpos := digitCount_pos n.natAbs
      exact ⟨by omega, Int.tmod_eq_zero_of_dvd ⟨n, by rw [unscaled_of_toRat h hscale, mul_comm]⟩⟩

theorem toRat_of_toInt? {n : Int} (h : x.toInt? = some n) : x.toRat = n := by
  unfold toInt? at h
  split at h
  · simp at h
  next hwhole =>
  split at h
  · next hscale =>
    split at h
    · simp at h
    · rw [toRat_of_scale_nonpos hscale, Option.some.inj h]
  · next hscale =>
    obtain ⟨m, hm⟩ := isWhole_iff.1 (by simpa using hwhole)
    have hne : ((pow10 x.scale.natAbs : Nat) : Int) ≠ 0 := mod_cast (pow10_pos _).ne'
    rw [unscaled_of_toRat hm (not_le.1 hscale), Int.mul_tdiv_cancel _ hne] at h
    rw [hm, Option.some.inj h]

theorem toRat_of_toWord? {n : Int} (h : x.toWord? = some n) : x.toRat = n := by
  unfold toWord? at h
  split at h
  · simp at h
  · exact toRat_of_toInt? (Option.filter_eq_some_iff.1 h).1

theorem toInt?_of_toRat {n : Int} (h : x.toRat = n)
    (hscale : x.scale.natAbs ≤ shiftLimit ∨ 0 < x.scale) : x.toInt? = some n := by
  have hwhole : (!x.isWhole) = false := by rw [isWhole_iff.2 ⟨n, h⟩]; rfl
  unfold toInt?
  rw [hwhole, if_neg Bool.false_ne_true]
  split
  · next hle =>
    rw [if_neg (by omega)]
    rw [toRat_of_scale_nonpos hle] at h
    rw [Int.cast_injective h]
  · next hpos =>
    have hne : ((pow10 x.scale.natAbs : Nat) : Int) ≠ 0 := mod_cast (pow10_pos _).ne'
    rw [unscaled_of_toRat h (not_le.1 hpos), Int.mul_tdiv_cancel _ hne]

/-- A zero with no more zeros left to its scale than are ever written out. -/
def ZeroWithin (x : Decimal) : Prop := x.toRat = 0 → -(shiftLimit : Int) ≤ x.scale

theorem zeroWithin_of_ne (h : x.toRat ≠ 0) : x.ZeroWithin := fun hzero => absurd hzero h

theorem toWord?_eq_some_iff (hzero : x.ZeroWithin) {n : Int} :
    x.toWord? = some n ↔ x.toRat = n ∧ Word.Fits n := by
  constructor
  · intro h
    refine ⟨toRat_of_toWord? h, ?_⟩
    unfold toWord? at h
    split at h
    · simp at h
    · simpa using (Option.filter_eq_some_iff.1 h).2
  · rintro ⟨h, hfits⟩
    have hdigits : Integer.digitCount n.natAbs ≤ 19 := by
      refine (digitCount_le_iff (by decide)).2 ?_
      unfold Word.Fits Word.least Word.greatest at hfits
      omega
    have hshort : ¬ 19 < x.wholeDigits := by
      by_cases hx : x.unscaled = 0
      · rw [wholeDigits, if_pos hx]
        decide
      · have hcount := digitCount_of_toRat hx h
        have hwhole := x.wholeDigits_le
        omega
    have hscale : x.scale.natAbs ≤ shiftLimit ∨ 0 < x.scale := by
      by_cases hx : x.unscaled = 0
      · have := hzero (toRat_eq_zero.2 hx)
        omega
      · have hcount := digitCount_of_toRat hx h
        have hpos : 0 < x.digitCount := digitCount_pos _
        unfold shiftLimit
        omega
    unfold toWord?
    rw [if_neg hshort, toInt?_of_toRat h hscale]
    exact Option.filter_eq_some_iff.2 ⟨rfl, decide_eq_true hfits⟩

/-- A zero beyond the limit is not written out. -/
theorem toWord?_of_far_zero (h : ¬ x.ZeroWithin) : x.toWord? = none := by
  unfold ZeroWithin at h
  rw [Classical.not_imp, not_le] at h
  obtain ⟨hzero, hfar⟩ := h
  have hwhole : (!x.isWhole) = false := by rw [isWhole_iff.2 ⟨0, by rw [hzero, Int.cast_zero]⟩]; rfl
  have hscale : x.scale ≤ 0 := by unfold shiftLimit at hfar; omega
  have hlimit : shiftLimit < x.scale.natAbs := by omega
  unfold toWord? toInt?
  rw [hwhole, if_neg Bool.false_ne_true, if_pos hscale, if_pos hlimit, Option.filter_none, ite_self]

theorem toWord?_eq_some_iff_within {n : Int} :
    x.toWord? = some n ↔ x.toRat = n ∧ Word.Fits n ∧ x.ZeroWithin := by
  by_cases hx : x.ZeroWithin
  · rw [toWord?_eq_some_iff hx, and_iff_left hx]
  · rw [toWord?_of_far_zero hx]
    simp [hx]

/-- Representations of one value are read alike if a zero is on the same side of the limit. -/
theorem toWord?_eq_iff (h : x.toRat = y.toRat) :
    x.toWord? = y.toWord? ↔ (x.ZeroWithin ↔ y.ZeroWithin) := by
  constructor
  · intro hword
    by_cases hx : x.toRat = 0
    · have hread {z : Decimal} (hz : z.toRat = 0) : z.toWord? = some 0 ↔ z.ZeroWithin := by
        simp [toWord?_eq_some_iff_within, hz, Word.zero_fits]
      rw [← hread hx, hword, hread (h.symm.trans hx)]
    · exact iff_of_true (zeroWithin_of_ne hx) (zeroWithin_of_ne (h ▸ hx))
  · intro hside
    refine Option.ext fun n => ?_
    rw [toWord?_eq_some_iff_within, toWord?_eq_some_iff_within, h, hside]

theorem toWord?_congr (h : x.toRat = y.toRat) (hx : x.ZeroWithin) (hy : y.ZeroWithin) :
    x.toWord? = y.toWord? := (toWord?_eq_iff h).2 (iff_of_true hx hy)

/-! ## The whole part -/

/-- Integers are divided toward zero as the rational numbers that they are. -/
theorem truncate_div (a b : Int) : Rounding.truncate ((a : ℚ) / b) = a.tdiv b := by
  rcases lt_trichotomy 0 b with hpos | rfl | hneg
  · exact Rounding.truncate_div_of_pos a hpos
  · rw [Int.cast_zero, div_zero, Int.tdiv_zero]
    exact Rounding.truncate_intCast 0
  · have hflipped := Rounding.truncate_div_of_pos (K := ℚ) (-a) (Int.neg_pos_of_neg hneg)
    rwa [Int.neg_tdiv_neg, Int.cast_neg, Int.cast_neg, neg_div_neg_eq] at hflipped

theorem toRat_wholePart (x : Decimal) : x.wholePart.toRat = Rounding.truncate x.toRat := by
  unfold wholePart
  split
  · next hscale =>
    rw [toRat_of_scale_nonpos hscale, Rounding.truncate_intCast]
  next hscale =>
  rw [not_le] at hscale
  rw [toRat_of_scale_pos hscale, truncate_div]
  split
  · next hbelow =>
    have hdigits : x.digitCount + 1 ≤ x.scale.natAbs := by simpa [isBelowUnit] using hbelow
    have hlt : x.unscaled.natAbs < pow10 x.scale.natAbs :=
      (lt_pow10_digitCount _).trans_le (Nat.pow_le_pow_right (by decide) (Nat.le_of_succ_le hdigits))
    have hnone : x.unscaled.tdiv (pow10 x.scale.natAbs) = 0 := by
      rw [← Int.natAbs_eq_zero, Int.natAbs_tdiv]
      exact Nat.div_eq_of_lt hlt
    rw [hnone, Int.cast_zero]
    exact toRat_zero
  · exact toRat_ofInt _

end Reckoner.Decimal
