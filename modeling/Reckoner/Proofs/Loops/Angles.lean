import Reckoner.Proofs.Loops.Circle
import Reckoner.Proofs.Loops.Reductions

/-!
# Loops of the functions of an angle

Whole turns come off an angle before its series is summed. The quotient that counts them and the
product that is taken off are rounded, but the context has a digit more for every digit of the angle,
so that what is left lies between -10 and 10.
-/

namespace Reckoner

open Integer Decimal

namespace Decimal

theorem Within.wholePart {x : Decimal} {n : Nat} (h : x.Within n) : x.wholePart.Within n := by
  have hpos : 0 < x.digitCount := digitCount_pos _
  have hn : 0 < n := hpos.trans_le h.digits
  unfold Decimal.wholePart
  split
  · exact h
  split
  · exact within_ofNat hn (by positivity)
  refine ⟨(digitCount_le_iff hn).2 ?_, by simp [ofInt], by simp [ofInt]⟩
  change (x.unscaled.tdiv _).natAbs < _
  rw [Int.natAbs_tdiv]
  exact (Nat.div_le_self _ _).trans_lt (natAbs_unscaled_lt h.digits)

theorem wholePart_bounds (x : Decimal) :
    |x.wholePart.toRat - x.toRat| ≤ 1 ∧ |x.wholePart.toRat| ≤ |x.toRat| := by
  rw [toRat_wholePart]
  refine ⟨?_, (Rounding.abs_truncate _).1⟩
  rw [← Rounding.nearest_down]
  exact Rounding.abs_nearest_sub_le _

end Decimal

namespace Context

variable {ctx : Context} {x : Decimal} {n passes : Nat}

/-! ## Whole turns -/

section Turns

variable {x turn quotient turns product error : ℚ}

theorem abs_sub_quotient_le (hturn : 0 < turn)
    (hquotient : |quotient - x / turn| ≤ |x / turn| * error) : |x - quotient * turn| ≤ |x| * error := by
  have hx : |x / turn| * turn = |x| := by
    rw [abs_div, abs_of_pos hturn, div_mul_cancel₀ _ hturn.ne']
  calc |x - quotient * turn| = |quotient - x / turn| * turn := by
        rw [← abs_of_pos hturn, ← abs_mul, abs_of_pos hturn, sub_mul, div_mul_cancel₀ _ hturn.ne',
          abs_sub_comm]
    _ ≤ |x / turn| * error * turn := mul_le_mul_of_nonneg_right hquotient hturn.le
    _ = |x| * error := by rw [← hx]; ring

/-- Fewer turns than a rounded quotient counts are no more than twice the number. -/
theorem abs_turns_le (hturn : 0 < turn) (herror : error ≤ 1)
    (hquotient : |quotient - x / turn| ≤ |x / turn| * error) (hturns : |turns| ≤ |quotient|) :
    |turns * turn| ≤ 2 * |x| := by
  have hfirst := abs_sub_quotient_le hturn hquotient
  calc |turns * turn| ≤ |quotient * turn| := by
        rw [abs_mul, abs_mul]
        exact mul_le_mul_of_nonneg_right hturns (abs_nonneg _)
    _ ≤ |x| + |x - quotient * turn| := by
        have := abs_sub_abs_le_abs_sub (quotient * turn) x
        rw [abs_sub_comm] at this
        linarith
    _ ≤ 2 * |x| := by
        have := mul_le_of_le_one_right (abs_nonneg x) herror
        linarith

/-- What is left of a number after whole turns, in terms of the relative errors on the way. -/
theorem abs_sub_turns_le (hturn : 0 < turn) (herror : 0 ≤ error ∧ error ≤ 1)
    (hquotient : |quotient - x / turn| ≤ |x / turn| * error)
    (hturns : |turns - quotient| ≤ 1 ∧ |turns| ≤ |quotient|)
    (hproduct : |product - turns * turn| ≤ |turns * turn| * error) :
    |x - product| ≤ turn + 3 * (|x| * error) := by
  have hfirst := abs_sub_quotient_le hturn hquotient
  have hsecond : |quotient * turn - turns * turn| ≤ turn := by
    rw [← sub_mul, abs_mul, abs_of_pos hturn, abs_sub_comm]
    exact mul_le_of_le_one_left hturn.le hturns.1
  have hthird : |turns * turn - product| ≤ 2 * (|x| * error) := by
    rw [abs_sub_comm]
    refine hproduct.trans ?_
    rw [← mul_assoc]
    exact mul_le_mul_of_nonneg_right (abs_turns_le hturn herror.2 hquotient hturns.2) herror.1
  have hsum := abs_add_three (x - quotient * turn) (quotient * turn - turns * turn)
    (turns * turn - product)
  rw [show x - quotient * turn + (quotient * turn - turns * turn) + (turns * turn - product) =
    x - product by ring] at hsum
  linarith

end Turns

/-- The error that one rounding brings to an angle, in a context that has so many digits beside those
before the point of the angle. -/
theorem angle_error_le {places : Nat} (hprecision : x.exponent.toNat + places + 2 ≤ ctx.precision)
    (hexponent : x.exponent < Word.greatest) :
    |x.toRat| * 10 ^ (1 - ctx.precision : Int) ≤ 10 ^ (-places : Int) := by
  have hx := (abs_toRat_lt_exponent hexponent).le
  calc |x.toRat| * 10 ^ (1 - ctx.precision : Int)
      ≤ 10 ^ (x.exponent + 1) * 10 ^ (1 - ctx.precision : Int) :=
        mul_le_mul_of_nonneg_right hx (by positivity)
    _ = 10 ^ (x.exponent + 1 + (1 - ctx.precision : Int)) := (zpow_add₀ (by norm_num) _ _).symm
    _ ≤ 10 ^ (-places : Int) := zpow_le_zpow_right₀ (by norm_num) (by omega)

theorem turns_bounds {turn : Decimal} {places : Nat} (hfits : (Traced.div ctx x turn).Fits)
    (hlower : 9 / 10 ≤ |x.toRat|) (hupper : |x.toRat| ≤ 10 ^ places)
    (hbounds : 1 ≤ turn.toRat ∧ turn.toRat ≤ 10) :
    Succeeds (ctx.div x turn) fun quotient =>
      |quotient.toRat - x.toRat / turn.toRat| ≤
        |x.toRat / turn.toRat| * 10 ^ (1 - ctx.precision : Int) ∧
      quotient.Within (ctx.precision + places + 2) := by
  have hpos : 0 < turn.toRat := by linarith [hbounds.1]
  refine (div_of_fits hfits hpos.ne').imp fun quotient hquotient => ?_
  obtain ⟨hvalue, hdigits⟩ := hquotient
  refine ⟨by rw [hvalue]; exact Rounding.abs_significant_sub_le _, ?_⟩
  have hshort : Rounding.Short ctx.precision (9 / 100 : ℚ) :=
    Rounding.short_of_digit (n := 9) (k := -2) ctx.precision_pos (by decide) (by norm_num)
  have hquotientLower : (9 / 100 : ℚ) ≤ |x.toRat / turn.toRat| := by
    rw [abs_div, abs_of_pos hpos, le_div_iff₀ hpos]
    linarith [hbounds.2]
  have hquotientUpper : |x.toRat / turn.toRat| ≤ 10 ^ ((places + 2 : Nat) : Int) := by
    rw [abs_div, abs_of_pos hpos, div_le_iff₀ hpos, zpow_natCast, pow_add]
    have hplaces : (0 : ℚ) < 10 ^ places := by positivity
    nlinarith [hbounds.1]
  refine (within_of_bounds (places + 2) hdigits ?_ ?_).mono (by omega) <;> rw [hvalue]
  · refine le_trans ?_ (hshort.le_abs_significant ctx.precision_pos hquotientLower)
    refine (zpow_le_zpow_right₀ (by norm_num)
      (show -((places + 2 : Nat) : Int) ≤ -2 by omega)).trans ?_
    norm_num
  · exact abs_rounded_le (Rounding.short_pow ctx.precision_pos _) hquotientUpper

theorem sub_turns_bounds {turn quotient : Decimal} (hx : x.Within n) (hturn : turn.Within n)
    (h : ctx.Roomy (8 * n + 9)) (hprecision : x.exponent.toNat + 11 ≤ ctx.precision)
    (hp : ctx.precision ≤ n) (hexponent : x.exponent < Word.greatest)
    (hbounds : 1 ≤ turn.toRat ∧ turn.toRat ≤ 10)
    (hquotient : |quotient.toRat - x.toRat / turn.toRat| ≤
      |x.toRat / turn.toRat| * 10 ^ (1 - ctx.precision : Int))
    (hwithin : quotient.Within (2 * n + 2)) :
    |(ctx.sub x (ctx.mul quotient.wholePart turn)).toRat| ≤ 11 ∧
      (ctx.sub x (ctx.mul quotient.wholePart turn)).Within (48 * n + 64) := by
  have hpos : 0 < turn.toRat := by linarith [hbounds.1]
  have hproduct := mul_of_within hwithin.wholePart (hturn.mono (show n ≤ 2 * n + 2 by omega))
    (h.mono (by omega) (by omega))
  have hproductWithin := (hproduct.2.mono (show 4 * (2 * n + 2) + 1 ≤ 8 * n + 9 by omega)).neg
  have hdifference := add_of_within (hx.mono (show n ≤ 8 * n + 9 by omega)) hproductWithin h
  refine ⟨?_, hdifference.2.mono (by omega)⟩
  have hleft : |x.toRat - (ctx.mul quotient.wholePart turn).toRat| ≤
      turn.toRat + 3 * (|x.toRat| * 10 ^ (1 - ctx.precision : Int)) := by
    refine abs_sub_turns_le hpos ⟨by positivity, ?_⟩ hquotient quotient.wholePart_bounds ?_
    · exact zpow_le_one_of_nonpos₀ (by norm_num) (by omega)
    · rw [value_mul hproduct.1]
      exact Rounding.abs_significant_sub_le _
  -- what is left is a turn at most, and the three roundings cost less than one
  have hangle := angle_error_le (show x.exponent.toNat + 1 + 2 ≤ ctx.precision by omega) hexponent
  rw [Nat.cast_one, zpow_neg_one] at hangle
  have heleven : Rounding.Short ctx.precision (11 : ℚ) := by
    refine ⟨11, 0, by norm_num, ?_⟩
    calc |(11 : Int)| < 10 ^ 2 := by decide
      _ ≤ 10 ^ ctx.precision := pow_le_pow_right₀ (by decide) (by omega)
  rw [sub, value_add hdifference.1, toRat_neg, ← sub_eq_add_neg]
  exact abs_rounded_le heleven (by linarith [hbounds.2])

/-- The number of turns can be one short, and the last one brings the angle below ten. -/
theorem last_turn_bounds {pi turn reduced : Decimal} (hreduced : reduced.Within n)
    (hturn : turn.Within n) (h : ctx.Roomy n)
    (hpi : 9 / 10 ≤ pi.toRat ∧ pi.toRat ≤ 5) (hbounds : 1 ≤ turn.toRat ∧ turn.toRat ≤ 10)
    (hsize : |reduced.toRat| ≤ 11) {r : Decimal}
    (hr : (if pi < reduced then ctx.sub reduced turn
      else if reduced < -pi then ctx.add reduced turn else reduced) = r) :
    |r.toRat| ≤ 10 ∧ r.Within (6 * n + 10) := by
  have hten : Rounding.Short ctx.precision (10 : ℚ) := by
    simpa using Rounding.short_pow (K := ℚ) ctx.precision_pos 1
  have hsize := abs_le.1 hsize
  subst hr
  split
  · next hlarge =>
    rw [lt_iff] at hlarge
    have hdifference := add_of_within hreduced hturn.neg h
    refine ⟨?_, hdifference.2⟩
    rw [sub, value_add hdifference.1, toRat_neg]
    exact abs_rounded_le hten (abs_le.2 ⟨by linarith [hbounds.2], by linarith [hbounds.1]⟩)
  split
  · next hsmall =>
    rw [lt_iff, toRat_neg] at hsmall
    have hsum := add_of_within hreduced hturn h
    refine ⟨?_, hsum.2⟩
    rw [value_add hsum.1]
    exact abs_rounded_le hten (abs_le.2 ⟨by linarith [hbounds.1], by linarith [hbounds.2]⟩)
  · next hsmall hlarge =>
    rw [lt_iff, not_lt] at hsmall
    rw [lt_iff, toRat_neg, not_lt] at hlarge
    exact ⟨abs_le.2 ⟨by linarith [hpi.2], by linarith [hpi.2]⟩, hreduced.mono (by omega)⟩

theorem turn_bounds {pi : Decimal} (h : ctx.Roomy (ctx.precision + 1))
    (hpi : 9 / 10 ≤ pi.toRat ∧ pi.toRat ≤ 5) (hdigits : pi.digitCount ≤ ctx.precision) :
    (1 ≤ (ctx.mul pi 2).toRat ∧ (ctx.mul pi 2).toRat ≤ 10) ∧
      (ctx.mul pi 2).Within (ctx.precision + 1) := by
  have hpos := ctx.precision_pos
  have hten : Rounding.Short ctx.precision (10 : ℚ) := by
    simpa using Rounding.short_pow (K := ℚ) hpos 1
  have hpiWithin : pi.Within (ctx.precision + 1) := by
    refine within_of_pos 1 hdigits ?_ ?_ <;> linarith
  have htwo : (2 : Decimal).Within (ctx.precision + 1) :=
    within_ofNat (by omega) ((by decide : 2 < 10).trans_le (Nat.le_self_pow (by omega) 10))
  have hbounds := mul_bounds hpiWithin htwo h (Rounding.short_one hpos) hten
    (by rw [show (2 : Decimal).toRat = 2 from toRat_ofNat 2]; constructor <;> linarith)
  refine ⟨hbounds, within_of_pos 1 digitCount_mul_le ?_ ?_⟩ <;> linarith

/-- An angle comes between -10 and 10, unchanged or with not many more digits. -/
theorem principalAngle_bounds (hn : x.digitCount + 2 * ctx.precision + 24 ≤ n)
    (hroom : ctx.Roomy (48 * n + 64)) (hprecision : x.exponent.toNat + 11 ≤ ctx.precision)
    (hexponent : x.exponent < Word.greatest) :
    Succeeds (ctx.principalAngle x) fun r =>
      |r.toRat| ≤ 10 ∧ (r = x ∨ r.Within (288 * n + 394)) := by
  obtain ⟨-, hpi⟩ := pi_ends (hroom.mono (by omega) (by omega))
  refine hpi.bind fun pi ⟨hbounds, hdigits⟩ => ?_
  split
  · next hsmall =>
    rw [le_iff, toRat_abs] at hsmall
    exact succeeds_ok ⟨hsmall.trans (by linarith), .inl rfl⟩
  next hlarge =>
  rw [le_iff, toRat_abs, not_le] at hlarge
  -- past a half turn the leading digit stands at the point, so the angle has a known room
  have hlower : 9 / 10 ≤ |x.toRat| := by linarith
  have hplaces : |x.toRat| ≤ 10 ^ (ctx.precision : Int) :=
    (abs_toRat_lt_exponent hexponent).le.trans (zpow_le_zpow_right₀ (by norm_num) (by omega))
  have hx : x.Within n := by
    refine (within_of_bounds ctx.precision le_rfl ?_ hplaces).mono (by omega)
    have := ctx.precision_pos
    refine (zpow_le_zpow_right₀ (by norm_num) (show -(ctx.precision : Int) ≤ -1 by omega)).trans ?_
    norm_num
    linarith
  have hupper : |x.toRat| ≤ 10 ^ n := by
    rw [zpow_natCast] at hplaces
    exact hplaces.trans (pow_le_pow_right₀ (by norm_num) (by omega))
  obtain ⟨hturnBounds, hturn⟩ := turn_bounds (hroom.mono (by omega) (by omega)) hbounds hdigits
  have hturn := hturn.mono (show ctx.precision + 1 ≤ n by omega)
  have hfits := fits_div hx hturn (hroom.mono (by omega) (by omega))
  refine (turns_bounds hfits hlower hupper hturnBounds).bind
    fun quotient ⟨hquotient, hwithin⟩ => succeeds_ok ?_
  obtain ⟨hsize, hreduced⟩ := sub_turns_bounds hx hturn (hroom.mono (by omega) (by omega))
    hprecision (by omega) hexponent hturnBounds hquotient (hwithin.mono (by omega))
  obtain ⟨hr, hrWithin⟩ := last_turn_bounds hreduced (hturn.mono (by omega)) hroom hbounds
    hturnBounds hsize rfl
  exact ⟨hr, .inr (hrWithin.mono (by omega))⟩

/-! ## Sine and cosine -/

/-- The loops of a function of an angle: those of `π`, and a series in the angle that is left. -/
def AngleEnds (f : Context → Decimal → Arithmetic Decimal) (series : Context → Decimal → Series)
    (first : Decimal → Decimal) (ctx : Context) (x : Decimal) (passes : Nat) : Prop :=
  ∃ wide reduced sum, ctx.forAngle x = .ok wide ∧ wide.PiEnds passes ∧
    wide.principalAngle x = .ok reduced ∧
    EndsWithin (wide.seriesPass (series wide reduced)) passes (1, first reduced, first reduced) sum ∧
    f ctx x = .ok (ctx.round sum)

/-- An angle is reduced in a context that has room for it. -/
theorem principal_of_ample (hexponent : x.exponent ≤ angleLimit) (h : ctx.Ample x.digitCount 0) :
    ∃ wide, ctx.forAngle x = .ok wide ∧ ctx.precision + 10 ≤ wide.precision ∧
      wide.precision ≤ ctx.precision + 1010 ∧ wide.PiEnds (ctx.precision + 1022) ∧
      Succeeds (wide.principalAngle x) fun r =>
        |r.toRat| ≤ 10 ∧ AtMost (600 * (ctx.precision + x.digitCount + 1000)) r ∧
          (r = x ∨ -(600 * (ctx.precision + x.digitCount + 1000) : Nat) ≤ r.exponent) := by
  unfold angleLimit at hexponent
  unfold Ample at h
  have hpos := ctx.precision_pos
  have hprecision : (ctx.guarded.wider x.exponent.toNat).precision =
      ctx.precision + 10 + x.exponent.toNat := rfl
  have hroom : (ctx.guarded.wider x.exponent.toNat).Roomy
      (48 * (x.digitCount + 2 * (ctx.precision + 10 + x.exponent.toNat) + 24) + 64) :=
    ⟨by omega, by push_cast; omega⟩
  refine ⟨_, if_neg (not_lt.2 hexponent), by omega, by omega, ?_, ?_⟩
  · exact (pi_ends (hroom.mono (by omega) (by omega))).1.mono (by omega)
  · refine (principalAngle_bounds (by rw [hprecision]) hroom (by omega) ?_).imp fun r hr => ?_
    · unfold Word.greatest
      omega
    obtain ⟨hsize, rfl | hwithin⟩ := hr
    · refine ⟨hsize, ?_, .inl rfl⟩
      unfold AtMost
      omega
    · have hwithin := hwithin.mono
        (show _ ≤ 600 * (ctx.precision + x.digitCount + 1000) by omega)
      exact ⟨hsize, hwithin.digits, .inr hwithin.le_exponent⟩

theorem within_of_exponent (hx : x.unscaled ≠ 0) {places : Nat} (h : x.exponent.natAbs ≤ places)
    (hplaces : (places : Int) < Word.greatest) : x.Within (x.digitCount + places) := by
  have hpos : 0 < x.digitCount := digitCount_pos _
  rw [exponent_eq_min hx] at h
  exact ⟨by omega, by omega, by omega⟩

/-- An angle function ends if its series ends for every reduced angle. -/
theorem angleEnds_of_series {f : Context → Decimal → Arithmetic Decimal}
    {series : Context → Decimal → Series} {first : Decimal → Decimal}
    (hexponent : x.exponent ≤ angleLimit) (h : ctx.Ample x.digitCount 0)
    (hf : ∀ wide r sum, ctx.forAngle x = .ok wide → wide.principalAngle x = .ok r →
      wide.sumSeries (series wide r) (first r) = .ok sum → f ctx x = .ok (ctx.round sum))
    (hseries : ∀ (wide : Context) (r : Decimal), ctx.precision + 10 ≤ wide.precision →
      wide.precision ≤ ctx.precision + 1010 → |r.toRat| ≤ 10 →
      AtMost (600 * (ctx.precision + x.digitCount + 1000)) r →
      (r = x ∨ -(600 * (ctx.precision + x.digitCount + 1000) : Nat) ≤ r.exponent) →
      ∃ sum, EndsWithin (wide.seriesPass (series wide r)) (ctx.precision + 1100)
        (1, first r, first r) sum) :
    AngleEnds f series first ctx x (ctx.precision + 1100) := by
  obtain ⟨wide, hwide, hlower, hupper, hpi, r, hr, hsize, hdigits, hleast⟩ :=
    principal_of_ample hexponent h
  obtain ⟨sum, hsum⟩ := hseries wide r hlower hupper hsize hdigits hleast
  unfold Ample at h
  have hlimit := sumSeries_of_endsWithin hsum (by unfold termLimit; omega)
  exact ⟨wide, r, sum, hwide, hpi.mono (by omega), hr, hsum, hf wide r sum hwide hr hlimit⟩

theorem sin_ends (hx : x.isZero = false) (hexponent : x.exponent ≤ angleLimit) {places : Nat}
    (hplaces : -places ≤ x.exponent) (h : ctx.Ample x.digitCount places) :
    AngleEnds sin sinSeries id ctx x (ctx.precision + 1100) := by
  unfold Ample at h
  refine angleEnds_of_series hexponent (by unfold Ample; omega) (fun wide r sum hwide hr hsum => ?_)
    fun wide r hlower hupper hsize hdigits hleast => ?_
  · have hsum : wide.sumSeries (wide.sinSeries r) r = .ok sum := hsum
    simp only [sin, hx, hwide, Traced.ok_bind, hr, hsum]
    rfl
  have hleast : -(600 * (ctx.precision + x.digitCount + 1000) + places : Nat) ≤ r.exponent := by
    push_cast at hleast ⊢
    obtain rfl | hleast := hleast <;> omega
  have hgreatest : r.exponent < 2 :=
    exponent_lt_of_abs_lt_pow (by decide) (hsize.trans_lt (by norm_num))
  have hspacious : wide.Spacious (600 * (ctx.precision + x.digitCount + 1000))
      (r.exponent - wide.precision) := ⟨by omega, by push_cast at hleast ⊢; omega⟩
  have hfirst : |r.toRat| ≤ 10 ^ (r.exponent + (1 : Nat)) :=
    (abs_toRat_lt_exponent (hgreatest.trans (by decide))).le
  obtain ⟨sum, hsum⟩ := series_ends (z := r)
    (sinSeries_shrinks hspacious (by omega) hsize hdigits) (fun _ => rfl) (by omega) hfirst hdigits
  exact ⟨sum, hsum.mono (by omega)⟩

theorem cos_ends (hx : x.isZero = false) (hexponent : x.exponent ≤ angleLimit)
    (h : ctx.Ample x.digitCount 0) :
    AngleEnds cos cosSeries (fun _ => 1) ctx x (ctx.precision + 1100) := by
  refine angleEnds_of_series hexponent h (fun wide r sum hwide hr hsum => ?_)
    fun wide r hlower hupper hsize hdigits _ => ?_
  · simp only [cos, hx, hwide, Traced.ok_bind, hr, hsum]
    rfl
  unfold Ample at h
  have hspacious : wide.Spacious (600 * (ctx.precision + x.digitCount + 1000))
      ((1 : Decimal).exponent - wide.precision) := ⟨by omega, by rw [exponent_one]; push_cast; omega⟩
  have hfirst : |(1 : Decimal).toRat| ≤ 10 ^ ((1 : Decimal).exponent + (0 : Nat)) := by
    rw [toRat_one, exponent_one]
    norm_num
  have hfirstDigits : AtMost (600 * (ctx.precision + x.digitCount + 1000)) 1 :=
    (digitCount_pow 0).trans_le (by omega)
  obtain ⟨sum, hsum⟩ := series_ends (z := 1)
    (cosSeries_shrinks hspacious (by rw [exponent_one]; omega) hsize hdigits) (fun _ => rfl) (by omega)
    hfirst hfirstDigits
  exact ⟨sum, hsum.mono (by omega)⟩

end Context

end Reckoner
