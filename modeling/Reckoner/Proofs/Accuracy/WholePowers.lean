import Mathlib.Data.Nat.Multiplicity
import Reckoner.Proofs.Accuracy.RepeatedSquaring

/-!
# Whole powers

The digits that a whole power carries besides those of the answer make up for the errors of all its
multiplications, so that what is left of them hardly adds to the error of the last rounding. A power
that is short enough is met exactly: it has no zeros in its last places but those of the base, so no
factor on the way to it has more digits.
-/

namespace Reckoner

open Integer Decimal

variable {ctx : Context} {base exponent result square x : Decimal} {digits n k : Nat}

namespace Decimal

theorem Sized.mono {more places : Nat} (h : x.Sized digits places) (hle : digits ≤ more) :
    x.Sized more places :=
  ⟨h.digits_le.trans hle, h.lower, h.upper⟩

theorem sized_of_exponent (hx : x.unscaled ≠ 0) (h : x.exponent < Word.greatest) :
    x.Sized x.digitCount (x.exponent.natAbs + 1) where
  digits_le := le_rfl
  lower := (zpow_le_zpow_right₀ (by norm_num) (by have := exponent_le hx; omega)).trans
    (pow_le_abs_toRat hx)
  upper := (abs_toRat_lt_exponent h).le.trans (zpow_le_zpow_right₀ (by norm_num) (by omega))

end Decimal

/-! ## Powers of short numbers -/

namespace Rounding

theorem not_ten_dvd_pow {m : Int} (hm : ¬ 10 ∣ m) (n : Nat) : ¬ 10 ∣ m ^ n := by
  intro h
  have hfive : Prime (5 : Int) := Nat.prime_iff_prime_int.1 Nat.prime_five
  have h2 : 2 ∣ m := Int.prime_two.dvd_of_dvd_pow (dvd_trans (by decide) h)
  have h5 : 5 ∣ m := hfive.dvd_of_dvd_pow (dvd_trans (by decide) h)
  omega

/-- No way of writing a number is shorter than one that ends in no zero. -/
theorem abs_le_of_not_dvd {a m i j : Int} (h : (m : ℚ) * 10 ^ j = a * 10 ^ i) (hm : ¬ 10 ∣ m) :
    |m| ≤ |a| := by
  obtain hij | hij := le_or_gt i j
  · rw [pow_eq_mul hij, ← mul_assoc] at h
    have ha : a = m * (10 ^ (j - i).toNat : Nat) := by
      exact_mod_cast (mul_right_cancel₀ (ten_zpow_ne_zero i) h).symm
    rw [ha, abs_mul, Nat.abs_cast]
    exact le_mul_of_one_le_right (abs_nonneg m) (by exact_mod_cast Nat.one_le_pow _ _ (by decide))
  · rw [pow_eq_mul hij.le, ← mul_assoc] at h
    have ha : m = a * (10 ^ (i - j).toNat : Nat) := by
      exact_mod_cast mul_right_cancel₀ (ten_zpow_ne_zero j) h
    refine absurd ?_ hm
    rw [ha]
    refine dvd_mul_of_dvd_right ?_ a
    exact_mod_cast dvd_pow_self 10 (by omega)

/-- If a power is short, then so are the smaller powers. -/
theorem Short.pow_of_le {m j : Int} (hm : ¬ 10 ∣ m) (h : Short digits (((m : ℚ) * 10 ^ j) ^ n))
    (hk : k ≤ n) : Short digits (((m : ℚ) * 10 ^ j) ^ k) := by
  have hwritten (k : Nat) : ((m : ℚ) * 10 ^ j) ^ k = (m ^ k : Int) * 10 ^ (j * k) := by
    rw [mul_pow, zpow_mul, zpow_natCast, Int.cast_pow]
  obtain ⟨a, i, ha, hdigits⟩ := h
  have hone : 1 ≤ |m| := Int.one_le_abs (by rintro rfl; exact hm (dvd_zero 10))
  refine ⟨m ^ k, j * k, hwritten k, ?_⟩
  calc |m ^ k| = |m| ^ k := abs_pow m k
    _ ≤ |m| ^ n := pow_le_pow_right₀ hone hk
    _ = |m ^ n| := (abs_pow m n).symm
    _ ≤ |a| := abs_le_of_not_dvd ((hwritten n).symm.trans ha) (not_ten_dvd_pow hm n)
    _ < 10 ^ digits := hdigits

end Rounding

namespace Decimal

/-- Every value but zero can be written without a zero in the last place. -/
theorem exists_stripped (hx : x.unscaled ≠ 0) :
    ∃ m j : Int, ¬ 10 ∣ m ∧ x.toRat = m * 10 ^ j := by
  have hfinite : FiniteMultiplicity 10 x.unscaled :=
    Int.finiteMultiplicity_iff.2 ⟨by decide, hx⟩
  obtain ⟨m, hunscaled, hm⟩ := hfinite.exists_eq_pow_mul_and_not_dvd
  refine ⟨m, multiplicity 10 x.unscaled - x.scale, hm, ?_⟩
  rw [toRat, sub_eq_add_neg, zpow_add₀ (by norm_num), zpow_natCast]
  nth_rewrite 1 [hunscaled]
  push_cast
  ring

theorem short_pow_of_le (hx : x.unscaled ≠ 0) (h : Rounding.Short digits (x.toRat ^ n))
    (hk : k ≤ n) : Rounding.Short digits (x.toRat ^ k) := by
  obtain ⟨m, j, hm, hvalue⟩ := exists_stripped hx
  rw [hvalue] at h ⊢
  exact h.pow_of_le hm hk

end Decimal

namespace Context

/-! ## Guard digits -/

/-- The context in which a whole power is multiplied out. -/
def forPower (ctx : Context) (n : Nat) : Context := ctx.guarded.wider (Integer.digitCount n)

theorem precision_forPower (ctx : Context) (n : Nat) :
    (ctx.forPower n).precision = ctx.precision + 10 + Integer.digitCount n := rfl

/-- All errors of a power together are ten places behind that of the last rounding. -/
theorem errors_forPower_le (ctx : Context) (n : Nat) :
    n * (ctx.forPower n).roundoff ≤ ctx.roundoff / 10 ^ 10 := by
  have hn : (n : ℚ) ≤ 10 ^ Integer.digitCount n := by exact_mod_cast (lt_pow10_digitCount n).le
  have hsplit : (ctx.forPower n).roundoff * 10 ^ Integer.digitCount n = ctx.roundoff / 10 ^ 10 := by
    rw [roundoff, roundoff, precision_forPower, ← zpow_natCast, ← zpow_natCast,
      ← zpow_add₀ (by norm_num), ← zpow_sub₀ (by norm_num)]
    congr 1
    push_cast
    ring
  rw [← hsplit, mul_comm]
  exact mul_le_mul_of_nonneg_left hn (ctx.forPower n).roundoff_pos.le

/-- A power before the last rounding. -/
def multipliedOut (ctx : Context) (base : Decimal) (n : Nat) : Decimal :=
  (ctx.forPower n).squareUp 1 base n

section Errors

variable (hfits : (Traced.squareUp (ctx.forPower n) 1 base n).Fits)
include hfits

theorem abs_multipliedOut_sub_le :
    |(ctx.multipliedOut base n).toRat - base.toRat ^ n| ≤
      2 * (n * (ctx.forPower n).roundoff) * |base.toRat ^ n| := by
  have hguard := ctx.errors_forPower_le n
  have hone := ctx.roundoff_le_one
  exact (near_squareUp hfits).abs_sub_le_mul (ctx.forPower n).roundoff_pos.le (by linarith)

theorem abs_rounded_multipliedOut_sub_le :
    |ctx.rounded (ctx.multipliedOut base n).toRat - base.toRat ^ n| ≤
      1001 / 1000 * ctx.roundoff * |base.toRat ^ n| := by
  have hguard := ctx.errors_forPower_le n
  have hpos := (ctx.forPower n).roundoff_pos
  refine abs_sub_le_of_rounded ctx.roundoff_le_one (by positivity) ?_
    (Rounding.abs_significant_sub_le _) (abs_multipliedOut_sub_le hfits)
  linarith [ctx.roundoff_pos]

theorem abs_rounded_inverse_sub_le (hbase : base.toRat ≠ 0) :
    |ctx.rounded (ctx.multipliedOut base n).toRat⁻¹ - (base.toRat ^ n)⁻¹| ≤
      1001 / 1000 * ctx.roundoff * |(base.toRat ^ n)⁻¹| := by
  have hguard := ctx.errors_forPower_le n
  have hpos := (ctx.forPower n).roundoff_pos
  have hone := ctx.roundoff_le_one
  refine abs_sub_le_of_rounded hone (by positivity) ?_ (Rounding.abs_significant_sub_le _)
    (abs_inv_sub_le (by linarith) (abs_multipliedOut_sub_le hfits) (pow_ne_zero n hbase))
  linarith [ctx.roundoff_pos]

theorem toRat_multipliedOut (hbase : base.unscaled ≠ 0)
    (hshort : Rounding.Short ctx.precision (base.toRat ^ n)) :
    (ctx.multipliedOut base n).toRat = base.toRat ^ n := by
  refine toRat_squareUp (fun k hk => ?_) hfits
  refine (short_pow_of_le hbase hshort hk).mono ?_
  rw [precision_forPower]
  omega

end Errors

/-! ## Success -/

theorem unscaled_mul_ne_zero {y : Decimal} (hx : x.unscaled ≠ 0) (hy : y.unscaled ≠ 0) :
    (ctx.mul x y).unscaled ≠ 0 := by
  have hsign : (ctx.mul x y).sign ≠ 0 := by
    rw [sign_mul, Ne, mul_eq_zero, not_or]
    exact ⟨mt Int.sign_eq_zero_iff_zero.1 hx, mt Int.sign_eq_zero_iff_zero.1 hy⟩
  exact mt Int.sign_eq_zero_iff_zero.2 hsign

theorem unscaled_squareUp_ne_zero (hresult : result.unscaled ≠ 0) (hsquare : square.unscaled ≠ 0) :
    (ctx.squareUp result square n).unscaled ≠ 0 := by
  induction n using Nat.strongRecOn generalizing result square with
  | ind n ih =>
    by_cases hn : n = 0
    · rwa [hn, squareUp, if_pos rfl]
    have hodd : (ctx.multiplyOdd result square n).unscaled ≠ 0 := by
      unfold multiplyOdd
      split
      · exact unscaled_mul_ne_zero hresult hsquare
      · exact hresult
    rw [squareUp_of_ne_zero hn]
    split
    · exact hodd
    · exact ih (n / 2) (by omega) hodd (unscaled_mul_ne_zero hsquare hsquare)

theorem toRat_multipliedOut_ne_zero (ctx : Context) (hbase : base.unscaled ≠ 0) (n : Nat) :
    (ctx.multipliedOut base n).toRat ≠ 0 :=
  mt toRat_eq_zero.1 (unscaled_squareUp_ne_zero (by decide) hbase)

section Reach

variable {n : Int} (hbase : base.unscaled ≠ 0) (hn : n ≠ 0)
  (hreach : (base.exponent.natAbs + 1) * n.natAbs ≤ powerReach)
include hbase hn hreach

theorem wholePow_eq : ctx.wholePow base n =
    if n < 0 then ctx.div 1 (ctx.multipliedOut base n.natAbs)
    else .ok (ctx.round (ctx.multipliedOut base n.natAbs)) := by
  unfold wholePow
  rw [if_neg hn, if_neg (by simpa [isZero] using hbase), if_neg hreach.not_gt]
  rfl

theorem fits_wholePow_iff : (Traced.wholePow ctx base n).Fits ↔
    (Traced.squareUp (ctx.forPower n.natAbs) 1 base n.natAbs).Fits ∧
      (if n < 0 then Traced.div ctx 1 (ctx.multipliedOut base n.natAbs)
        else Traced.round ctx (ctx.multipliedOut base n.natAbs)).Fits := by
  unfold Traced.wholePow
  rw [if_neg hn, if_neg (by simpa [isZero] using hbase), if_neg hreach.not_gt]
  exact Traced.fits_bind_of_ok (Traced.result_squareUp _ _ _)

theorem wholePow_of_pos (hpos : 0 < n) (hfits : (Traced.wholePow ctx base n).Fits) :
    Succeeds (ctx.wholePow base n) fun r =>
      |r.toRat - base.toRat ^ n| ≤ 1001 / 1000 * ctx.roundoff * |base.toRat ^ n| ∧
        (Rounding.Short ctx.precision (base.toRat ^ n) → r.toRat = base.toRat ^ n) := by
  obtain ⟨hsquareUp, hround⟩ := (fits_wholePow_iff hbase hn hreach).1 hfits
  rw [if_neg hpos.not_gt] at hround
  rw [wholePow_eq hbase hn hreach, if_neg hpos.not_gt]
  lift n to Nat using hpos.le
  rw [Int.natAbs_natCast] at hsquareUp hround ⊢
  rw [zpow_natCast]
  refine ⟨_, rfl, ?_, fun hshort => ?_⟩ <;> rw [toRat_round_eq hround]
  · exact abs_rounded_multipliedOut_sub_le hsquareUp
  · rw [toRat_multipliedOut hsquareUp hbase hshort]
    exact hshort.significant

theorem wholePow_of_neg (hneg : n < 0) (hfits : (Traced.wholePow ctx base n).Fits) :
    Succeeds (ctx.wholePow base n) fun r =>
      |r.toRat - base.toRat ^ n| ≤ 1001 / 1000 * ctx.roundoff * |base.toRat ^ n| := by
  obtain ⟨hsquareUp, hdiv⟩ := (fits_wholePow_iff hbase hn hreach).1 hfits
  rw [if_pos hneg] at hdiv
  rw [wholePow_eq hbase hn hreach, if_pos hneg]
  obtain ⟨k, rfl⟩ := Int.exists_eq_neg_ofNat hneg.le
  rw [Int.natAbs_neg, Int.natAbs_natCast] at hsquareUp hdiv ⊢
  refine (div_of_fits hdiv (ctx.toRat_multipliedOut_ne_zero hbase k)).imp fun r hr => ?_
  rw [hr.1, toRat_one, one_div, zpow_neg, zpow_natCast]
  exact abs_rounded_inverse_sub_le hsquareUp (mt toRat_eq_zero.1 hbase)

/-- Far from the limits of the word range, no scale stops on the way to a power. -/
theorem fits_wholePow_of_ne_zero (hprecision : ctx.precision ≤ 5 * 10 ^ 17)
    (hdigits : base.digitCount ≤ 5 * 10 ^ 17) : (Traced.wholePow ctx base n).Fits := by
  have hone : 0 < n.natAbs := Int.natAbs_pos.2 hn
  have hplaces := (Nat.le_mul_of_pos_right (base.exponent.natAbs + 1) hone).trans hreach
  have hcount : Integer.digitCount n.natAbs ≤ 16 := by
    have hn' := (Nat.le_mul_of_pos_left n.natAbs (Nat.succ_pos base.exponent.natAbs)).trans hreach
    exact (digitCount_le_iff (by decide)).2 (hn'.trans_lt (by decide))
  -- one bound for the digits of the base and of everything that is computed from it
  obtain ⟨digits, hlong, hbaseDigits, hwide⟩ : ∃ digits : Nat, digits ≤ 5 * 10 ^ 17 + 26 ∧
      base.digitCount ≤ digits ∧ (ctx.forPower n.natAbs).precision ≤ digits := by
    refine ⟨max (ctx.forPower n.natAbs).precision base.digitCount, ?_, le_max_right _ _,
      le_max_left _ _⟩
    rw [precision_forPower]
    omega
  have hnarrow : ctx.precision ≤ digits := by
    rw [precision_forPower] at hwide
    omega
  have hsized : base.Sized digits (base.exponent.natAbs + 1) := by
    refine (sized_of_exponent hbase ?_).mono hbaseDigits
    unfold powerReach at hplaces
    unfold Word.greatest
    omega
  have hroom : (16 * (digits + (base.exponent.natAbs + 1) * n.natAbs : Nat) + 100 : Int) ≤
      Word.greatest := by
    unfold powerReach at hreach
    unfold Word.greatest
    omega
  obtain ⟨hfits, hpower⟩ := squareUp_of_sized hwide hsized ⟨by omega, hroom⟩
  have hwithin := hpower.within
  refine (fits_wholePow_iff hbase hn hreach).2 ⟨hfits, ?_⟩
  split
  · have hunit : (1 : Decimal).Within (digits + (base.exponent.natAbs + 1) * n.natAbs) :=
      (sized_one (ctx.precision_pos.trans_le hnarrow)).within.mono (by omega)
    exact fits_div hunit hwithin ⟨by omega, hroom⟩
  · exact Traced.fits_round hwithin (by omega)

end Reach

/-- An exponent that denotes a word is multiplied out. -/
theorem pow_of_word (ctx : Context) (base : Decimal) {n : Int}
    (hexponent : exponent.toRat = n) (hword : Word.Fits n) :
    ctx.pow base exponent = ctx.wholePow base n ∧
      Traced.pow ctx base exponent = Traced.wholePow ctx base n := by
  unfold pow Traced.pow
  by_cases hn : n = 0
  · have hzero : exponent.isZero = true := by rw [isZero_iff, hexponent, hn, Int.cast_zero]
    rw [if_pos hzero, if_pos hzero, wholePow, Traced.wholePow, if_pos hn, if_pos hn]
    exact ⟨rfl, rfl⟩
  · have hne : exponent.toRat ≠ 0 := by
      rw [hexponent]
      exact Int.cast_ne_zero.2 hn
    have hread : exponent.toWord? = some n :=
      (toWord?_eq_some_iff (zeroWithin_of_ne hne)).2 ⟨hexponent, hword⟩
    rw [if_neg (mt isZero_iff.1 hne), if_neg (mt isZero_iff.1 hne), hread]
    exact ⟨rfl, rfl⟩

theorem wholePow_too_large (hbase : base.unscaled ≠ 0) {n : Int}
    (hreach : powerReach < (base.exponent.natAbs + 1) * n.natAbs) :
    ctx.wholePow base n = .error .exponentTooLarge := by
  have hn : n ≠ 0 := by
    rintro rfl
    exact absurd hreach (Nat.not_lt_zero _)
  unfold wholePow
  rw [if_neg hn, if_neg (by simpa [isZero] using hbase), if_pos hreach]

theorem wholePow_isDefined (ctx : Context) (hbase : base.unscaled ≠ 0) {n : Int}
    (hreach : (base.exponent.natAbs + 1) * n.natAbs ≤ powerReach) :
    IsDefined (ctx.wholePow base n) := by
  by_cases hn : n = 0
  · exact ⟨1, by rw [wholePow, if_pos hn], trivial⟩
  rw [wholePow_eq hbase hn hreach]
  split
  · exact div_isDefined (ctx.toRat_multipliedOut_ne_zero hbase _)
  · exact ⟨_, rfl, trivial⟩

theorem fits_wholePow (hbase : base.unscaled ≠ 0) {n : Int}
    (hreach : (base.exponent.natAbs + 1) * n.natAbs ≤ powerReach)
    (hprecision : ctx.precision ≤ 5 * 10 ^ 17) (hdigits : base.digitCount ≤ 5 * 10 ^ 17) :
    (Traced.wholePow ctx base n).Fits := by
  by_cases hn : n = 0
  · rw [Traced.wholePow, if_pos hn]
    exact Traced.fits_pure _
  · exact fits_wholePow_of_ne_zero hbase hn hreach hprecision hdigits

theorem wholePow_accurate (hbase : base.unscaled ≠ 0) {n : Int}
    (hreach : (base.exponent.natAbs + 1) * n.natAbs ≤ powerReach)
    (hfits : (Traced.wholePow ctx base n).Fits) :
    Succeeds (ctx.wholePow base n) fun r =>
      |r.toRat - base.toRat ^ n| ≤ 1001 / 1000 * ctx.roundoff * |base.toRat ^ n| ∧
        (0 ≤ n → Rounding.Short ctx.precision (base.toRat ^ n) → r.toRat = base.toRat ^ n) := by
  rcases lt_trichotomy n 0 with hneg | rfl | hpos
  · refine (wholePow_of_neg hbase hneg.ne hreach hneg hfits).imp fun r hr => ⟨hr, fun h => ?_⟩
    exact absurd h hneg.not_ge
  · refine ⟨1, by rw [wholePow, if_pos rfl], ?_, fun _ _ => ?_⟩ <;> rw [toRat_one, zpow_zero]
    rw [sub_self, abs_zero, abs_one, mul_one]
    exact mul_nonneg (by norm_num) ctx.roundoff_pos.le
  · exact (wholePow_of_pos hbase hpos.ne' hreach hpos hfits).imp fun r hr => ⟨hr.1, fun _ => hr.2⟩

end Context

end Reckoner
