import Reckoner.Proofs.Accuracy.CircleConstant
import Reckoner.Proofs.Loops.Angles

/-!
# Principal angles

A turn is twice the computed `π` exactly, for no digit is added when such a number is doubled. The
quotient that counts the turns is cut toward zero, and the context has a digit more for every digit of
the angle, so that what is left is below one and a half turns. The turn that may come off then leaves
something between `-π` and `π`. Rounding does not lead out of that interval, whatever the mode, since
its ends are numbers of the context.
-/

namespace Reckoner

open Decimal

/-! ## Doubling -/

/-- A number from one to five has no more digits when it is doubled, for no digit comes in front. -/
theorem Rounding.Short.double {digits : Nat} {q : ℚ} (h : Short digits q) (hdigits : 0 < digits)
    (hlower : 1 ≤ q) (hupper : q ≤ 5) : Short digits (2 * q) := by
  obtain ⟨n, k, rfl, hn⟩ := h
  -- The leading digit is not behind the point, so the double is at most a power of ten it has room for.
  have hplace : 0 < k + digits := by
    have hone : (10 : ℚ) ^ (0 : Int) < 10 ^ (k + digits) := by
      rw [zpow_zero]
      exact (hlower.trans (le_abs_self _)).trans_lt (abs_lt_of_digits rfl hn)
    exact (zpow_lt_zpow_iff_right₀ (by norm_num)).1 hone
  have hunit : (0 : ℚ) < 10 ^ k := by positivity
  have hnonneg : 0 ≤ n := by
    have hpos : (0 : ℚ) < n := pos_of_mul_pos_left (by linarith) hunit.le
    exact_mod_cast hpos.le
  have hsize : (2 * n : ℚ) ≤ 10 ^ digits := by
    refine le_of_mul_le_mul_right ?_ hunit
    calc 2 * n * 10 ^ k ≤ (10 : ℚ) ^ (1 : Int) := by
          rw [zpow_one]
          linarith
      _ ≤ 10 ^ (k + digits) := zpow_le_zpow_right₀ (by norm_num) (by omega)
      _ = 10 ^ digits * 10 ^ k := by rw [add_comm, zpow_add₀ (by norm_num), zpow_natCast]
  have hdouble : 2 * (n * 10 ^ k) = ((2 * n : Int) : ℚ) * 10 ^ k := by
    push_cast
    ring
  rw [hdouble]
  refine short_of_abs_le hdigits ?_ k
  rw [abs_of_nonneg (by omega)]
  exact_mod_cast hsize

namespace Context

variable {ctx : Context} {x pi turn quotient reduced : Decimal} {places : Nat}

/-- The difference of two numbers little more than a turn apart, with one rounding. -/
theorem sub_near {product : Decimal} (hprecision : 8 ≤ ctx.precision)
    (hplaces : places ≤ 10 ^ 4) (hx : |x.toRat| ≤ 10 ^ places) (hproduct : |x.toRat - product.toRat| ≤ 7) :
    |(ctx.sub x product).toRat| ≤ 8 ∧
      |x.toRat - product.toRat - (ctx.sub x product).toRat| ≤ 7 * ctx.roundoff := by
  have hone : (1 : ℚ) ≤ 10 ^ places := one_le_pow₀ (by norm_num)
  have hsize : |product.toRat| ≤ 10 ^ (places + 1) := by
    have htriangle := abs_sub_abs_le_abs_sub product.toRat x.toRat
    rw [abs_sub_comm] at htriangle
    rw [pow_succ]
    linarith
  have hvalue : (ctx.sub x product).toRat = ctx.rounded (x.toRat - product.toRat) := by
    refine value_sub_of_abs_le ctx (m := places + 1) ?_ hsize (by unfold Word.greatest; omega)
    exact hx.trans (pow_le_pow_right₀ (by norm_num) (by omega))
  have herror : |x.toRat - product.toRat - (ctx.sub x product).toRat| ≤ 7 * ctx.roundoff := by
    rw [hvalue, abs_sub_comm]
    refine (Rounding.abs_significant_sub_le _).trans ?_
    exact mul_le_mul_of_nonneg_right hproduct ctx.roundoff_pos.le
  refine ⟨?_, herror⟩
  have htriangle := abs_sub_abs_le_abs_sub (ctx.sub x product).toRat (x.toRat - product.toRat)
  rw [abs_sub_comm (ctx.sub x product).toRat] at htriangle
  linarith [roundoff_le hprecision]

/-! ## A turn -/

theorem machinError_le (hprecision : 8 ≤ ctx.precision) : ctx.machinError ≤ 1 / 1000 := by
  have herrors := count_mul_roundoff_le hprecision (show 5 * ctx.precision + 27 ≤ _ by omega)
  push_cast at herrors
  unfold machinError
  linarith

/-- A sum so near to `π` has its first two digits. -/
theorem bounds_of_near_pi {q : ℚ} (h : |(q : ℝ) - Real.pi| ≤ (1 / 1000 : ℚ)) :
    31 / 10 ≤ q ∧ q ≤ 32 / 10 := by
  obtain ⟨hlower, hupper⟩ := abs_le.1 h
  push_cast at hlower hupper
  constructor
  · have hreal : ((31 / 10 : ℚ) : ℝ) ≤ q := by
      push_cast
      linarith [Real.pi_gt_d2]
    exact_mod_cast hreal
  · have hreal : (q : ℝ) ≤ (32 / 10 : ℚ) := by
      push_cast
      linarith [Real.pi_lt_d2]
    exact_mod_cast hreal

/-- The computed `π` has the first two digits too, at any precision that there are words for. -/
theorem pi_bounds (hprecision : 8 ≤ ctx.precision) (hlarge : ctx.guarded.precision ≤ 7 * 10 ^ 16) :
    Succeeds ctx.pi fun pi =>
      (31 / 10 ≤ pi.toRat ∧ pi.toRat ≤ 32 / 10) ∧ Rounding.Short ctx.precision pi.toRat := by
  have hwide : ctx.guarded.precision = ctx.precision + 10 := rfl
  obtain ⟨fifth, small, hfifth, hsmall, hnear⟩ := machinSum_succeeds hlarge
  generalize hsum : ctx.guarded.machinSum fifth small = sum at hnear
  have hpi : ctx.pi = .ok (ctx.round sum) := by
    simp only [Context.pi, hfifth, hsmall, ← hsum]
    rfl
  have hbounds : 31 / 10 ≤ sum.toRat ∧ sum.toRat ≤ 32 / 10 := by
    refine bounds_of_near_pi (hnear.trans ?_)
    exact_mod_cast machinError_le (by omega)
  have hdigits : (10 : Int) ^ 2 ≤ 10 ^ ctx.precision := pow_le_pow_right₀ (by decide) (by omega)
  have hlower : Rounding.Short ctx.precision (31 / 10 : ℚ) :=
    ⟨31, -1, by norm_num, lt_of_lt_of_le (by decide) hdigits⟩
  have hupper : Rounding.Short ctx.precision (32 / 10 : ℚ) :=
    ⟨32, -1, by norm_num, lt_of_lt_of_le (by decide) hdigits⟩
  have hfits : (Traced.round ctx sum).Fits := by
    refine Traced.fits_round_of_abs_le (m := 1) ?_ (by decide)
    rw [abs_of_nonneg (by linarith)]
    linarith
  have hshort : Rounding.Short ctx.precision (ctx.round sum).toRat := by
    simpa only [Rat.cast_id] using short_toRat (K := ℚ) digitCount_round_le
  refine ⟨ctx.round sum, hpi, ?_, hshort⟩
  rw [toRat_round_eq hfits]
  exact rounded_bounds hlower hupper hbounds

/-- The computed `π`, and the turn that is twice as much. -/
structure IsTurn (ctx : Context) (pi turn : Decimal) : Prop where
  lower : 31 / 10 ≤ pi.toRat
  upper : pi.toRat ≤ 32 / 10
  short : Rounding.Short ctx.precision pi.toRat
  toRat_eq : turn.toRat = 2 * pi.toRat
  digits : turn.digitCount ≤ ctx.precision

theorem isTurn_mul_two (hlower : 31 / 10 ≤ pi.toRat) (hupper : pi.toRat ≤ 32 / 10)
    (hshort : Rounding.Short ctx.precision pi.toRat) : IsTurn ctx pi (ctx.mul pi 2) where
  lower := hlower
  upper := hupper
  short := hshort
  toRat_eq := by
    have hsize : |pi.toRat * (2 : Int)| ≤ 10 ^ 1 := by
      rw [Int.cast_ofNat, abs_of_nonneg (by linarith)]
      linarith
    refine (ctx.value_mul_ofInt hsize (by decide)).trans ?_
    rw [Int.cast_ofNat, mul_comm]
    exact (hshort.double ctx.precision_pos (by linarith) (by linarith)).significant
  digits := digitCount_mul_le

namespace IsTurn

theorem bounds (h : IsTurn ctx pi turn) : 62 / 10 ≤ turn.toRat ∧ turn.toRat ≤ 64 / 10 := by
  rw [h.toRat_eq]
  constructor <;> linarith [h.lower, h.upper]

/-- A turn is no whole number, so it has a digit behind the point. -/
theorem scale_pos (h : IsTurn ctx pi turn) : 0 < turn.scale := by
  obtain ⟨hlower, hupper⟩ := h.bounds
  by_contra hscale
  rw [toRat_of_scale_nonpos (not_lt.1 hscale)] at hlower hupper
  generalize turn.unscaled * (Integer.pow10 turn.scale.natAbs : Int) = n at hlower hupper
  have hsix : (6 : ℚ) < n := by linarith
  have hseven : (n : ℚ) < 7 := by linarith
  norm_cast at hsix hseven
  omega

theorem scale_le (h : IsTurn ctx pi turn) : turn.scale ≤ ctx.precision := by
  have hlt := abs_toRat_lt_pow turn
  have hone : (10 : ℚ) ^ (0 : Int) < 10 ^ (turn.digitCount - turn.scale : Int) := by
    rw [zpow_zero]
    linarith [le_abs_self turn.toRat, h.bounds.1]
  have hscale := (zpow_lt_zpow_iff_right₀ (by norm_num)).1 hone
  have hdigits := h.digits
  omega

/-! ### Whole turns -/

/-- The quotient of an angle by a turn asks for no scale outside the words, however many digits the
angle has: the turn has one behind the point. -/
theorem fits_div (h : IsTurn ctx pi turn) (hlarge : ctx.guarded.precision ≤ 7 * 10 ^ 16)
    (hplaces : places ≤ 10 ^ 4) (hlower : 1 ≤ |x.toRat|) (hupper : |x.toRat| ≤ 10 ^ places) :
    (Traced.div ctx x turn).Fits := by
  have hwide : ctx.guarded.precision = ctx.precision + 10 := rfl
  have hpos := h.scale_pos
  have hscale := h.scale_le
  have hdigits := h.digits
  have hgreatest := x.scale_fits.2
  have hxscale : (0 : Int) < x.digitCount - x.scale ∧ x.digitCount - 1 - x.scale ≤ places := by
    refine scale_bounds ?_ ?_
    · rwa [zpow_zero]
    · rwa [zpow_natCast]
  unfold Word.greatest at hgreatest
  refine fits_div_of_room ?_ ?_
  · unfold Word.least
    push_cast
    omega
  · unfold Word.greatest
    omega

theorem product_near (h : IsTurn ctx pi turn) (hwithin : quotient.Within (ctx.precision + places + 2))
    (hlarge : ctx.guarded.precision ≤ 7 * 10 ^ 16) (hplaces : places ≤ 10 ^ 4)
    (hsize : |quotient.wholePart.toRat * turn.toRat| ≤ 10 ^ (places + 1)) :
    |(ctx.mul quotient.wholePart turn).toRat - quotient.wholePart.toRat * turn.toRat| ≤
      |quotient.wholePart.toRat * turn.toRat| * ctx.roundoff := by
  have hwide : ctx.guarded.precision = ctx.precision + 10 := rfl
  have hscale : Word.Fits (quotient.wholePart.scale + turn.scale) := by
    obtain ⟨-, hlower, hupper⟩ := hwithin.wholePart
    have hpos := h.scale_pos
    have hscale := h.scale_le
    unfold Word.Fits Word.least Word.greatest
    push_cast at hlower hupper
    omega
  rw [value_mul (Traced.fits_mul_of_abs_le hscale hsize (by unfold Word.greatest; omega))]
  exact Rounding.abs_significant_sub_le _

/-- What is left when as many turns as the quotient has whole ones are taken off. -/
theorem left_near (h : IsTurn ctx pi turn) (hfar : pi.toRat < |x.toRat|)
    (hprecision : x.exponent.toNat + 11 ≤ ctx.precision)
    (hlarge : ctx.guarded.precision ≤ 7 * 10 ^ 16) (hexponent : x.exponent ≤ 1000) :
    Succeeds (ctx.div x turn) fun quotient =>
      |(ctx.sub x (ctx.mul quotient.wholePart turn)).toRat| ≤ 3 * pi.toRat ∧
        |x.toRat - quotient.wholePart.toRat * turn.toRat -
          (ctx.sub x (ctx.mul quotient.wholePart turn)).toRat| ≤
          2 * (|x.toRat| * ctx.roundoff) + 7 * ctx.roundoff := by
  have hroundoff := ctx.roundoff_pos
  have hpi := h.lower
  obtain ⟨hlower, hupper⟩ := h.bounds
  have hpos : 0 < turn.toRat := by linarith
  have hgreatest : x.exponent < Word.greatest := by
    unfold Word.greatest
    omega
  have hx : |x.toRat| ≤ 10 ^ (x.exponent.toNat + 1) := by
    rw [← zpow_natCast]
    exact (abs_toRat_lt_exponent hgreatest).le.trans (zpow_le_zpow_right₀ (by norm_num) (by omega))
  have hangle : |x.toRat| * ctx.roundoff ≤ 10⁻¹ := by
    have herror := angle_error_le (show x.exponent.toNat + 1 + 2 ≤ ctx.precision by omega) hgreatest
    rwa [Nat.cast_one, zpow_neg_one] at herror
  have hfits := h.fits_div hlarge (by omega) (by linarith) hx
  refine (turns_bounds hfits (by linarith) hx ⟨by linarith, by linarith⟩).imp
    fun quotient ⟨hquotient, hwithin⟩ => ?_
  -- the rounded quotient may be off by a turn near a whole one, so up to three half turns are left
  have hturns := abs_turns_le hpos ctx.roundoff_le_one hquotient quotient.wholePart_bounds.2
  have hproduct := h.product_near hwithin hlarge (by omega) <| by
    rw [pow_succ]
    linarith [abs_nonneg x.toRat]
  have hleft := abs_sub_turns_le hpos ⟨hroundoff.le, ctx.roundoff_le_one⟩ hquotient
    quotient.wholePart_bounds hproduct
  obtain ⟨hsize, herror⟩ :=
    sub_near (show 8 ≤ ctx.precision by omega) (by omega) hx (by linarith)
  refine ⟨by linarith, ?_⟩
  have hproduct' := hproduct.trans (mul_le_mul_of_nonneg_right hturns hroundoff.le)
  have htriangle := abs_add_le
    ((ctx.mul quotient.wholePart turn).toRat - quotient.wholePart.toRat * turn.toRat)
    (x.toRat - (ctx.mul quotient.wholePart turn).toRat -
      (ctx.sub x (ctx.mul quotient.wholePart turn)).toRat)
  rw [← add_sub_assoc, sub_add_sub_cancel'] at htriangle
  linarith

/-! ### The last turn -/

/-- The ends of the interval are numbers of the context, so that no mode leads out of it. -/
theorem abs_rounded_le (h : IsTurn ctx pi turn) {q : ℚ} (hq : |q| ≤ pi.toRat) :
    |ctx.rounded q| ≤ pi.toRat ∧ |q - ctx.rounded q| ≤ 4 * ctx.roundoff := by
  refine ⟨Context.abs_rounded_le h.short hq, ?_⟩
  rw [abs_sub_comm]
  refine (Rounding.abs_significant_sub_le _).trans ?_
  exact mul_le_mul_of_nonneg_right (by linarith [h.upper]) ctx.roundoff_pos.le

/-- What is left is within three half turns, and one turn more or less brings it within one. -/
theorem last_turn (h : IsTurn ctx pi turn) (hsize : |reduced.toRat| ≤ 3 * pi.toRat) {r : Decimal}
    (hr : (if pi < reduced then ctx.sub reduced turn
      else if reduced < -pi then ctx.add reduced turn else reduced) = r) :
    |r.toRat| ≤ pi.toRat ∧
      ∃ k : Int, |reduced.toRat - k * turn.toRat - r.toRat| ≤ 4 * ctx.roundoff := by
  obtain ⟨hlower, hupper⟩ := abs_le.1 hsize
  have hreducedTen : |reduced.toRat| ≤ 10 ^ 1 := by linarith [h.upper]
  have hturnTen : |turn.toRat| ≤ 10 ^ 1 := by
    rw [abs_of_nonneg (by linarith [h.bounds.1])]
    linarith [h.bounds.2]
  subst hr
  split
  · next hlarge =>
    rw [lt_iff] at hlarge
    have hbetween : |reduced.toRat - turn.toRat| ≤ pi.toRat := by
      rw [h.toRat_eq, abs_le]
      constructor <;> linarith
    rw [value_sub_of_abs_le ctx hreducedTen hturnTen (by decide)]
    obtain ⟨hinside, herror⟩ := h.abs_rounded_le hbetween
    exact ⟨hinside, 1, by rwa [Int.cast_one, one_mul]⟩
  next hlarge =>
  rw [lt_iff, not_lt] at hlarge
  split
  · next hsmall =>
    rw [lt_iff, toRat_neg] at hsmall
    have hbetween : |reduced.toRat + turn.toRat| ≤ pi.toRat := by
      rw [h.toRat_eq, abs_le]
      constructor <;> linarith
    rw [value_add_of_abs_le ctx hreducedTen hturnTen (by decide)]
    obtain ⟨hinside, herror⟩ := h.abs_rounded_le hbetween
    refine ⟨hinside, -1, ?_⟩
    rwa [Int.cast_neg, Int.cast_one, neg_one_mul, sub_neg_eq_add]
  · next hsmall =>
    rw [lt_iff, toRat_neg, not_lt] at hsmall
    refine ⟨abs_le.2 ⟨hsmall, hlarge⟩, 0, ?_⟩
    rw [Int.cast_zero, zero_mul, sub_zero, sub_self, abs_zero]
    linarith [ctx.roundoff_pos]

end IsTurn

/-! ## The interval -/

/-- A reduction in a context that has the digits before the point of the angle and some more. -/
theorem principalAngle_near (hprecision : x.exponent.toNat + 11 ≤ ctx.precision)
    (hlarge : ctx.guarded.precision ≤ 7 * 10 ^ 16) (hexponent : x.exponent ≤ 1000) :
    ∃ pi, ctx.pi = .ok pi ∧ Succeeds (ctx.principalAngle x) fun r =>
      |r.toRat| ≤ pi.toRat ∧ ∃ turns : Int, |x.toRat - turns * (2 * pi.toRat) - r.toRat| ≤
        2 * (|x.toRat| * ctx.roundoff) + 11 * ctx.roundoff := by
  have hwide : ctx.guarded.precision = ctx.precision + 10 := rfl
  have hroundoff := ctx.roundoff_pos
  obtain ⟨pi, hpi, ⟨hlower, hupper⟩, hshort⟩ := pi_bounds (by omega) hlarge
  have hturn := isTurn_mul_two hlower hupper hshort
  refine ⟨pi, hpi, ?_⟩
  unfold principalAngle
  rw [hpi, Traced.ok_bind]
  split
  · next hsmall =>
    rw [le_iff, toRat_abs] at hsmall
    refine succeeds_ok ⟨hsmall, 0, ?_⟩
    rw [Int.cast_zero, zero_mul, sub_zero, sub_self, abs_zero]
    positivity
  next hfar =>
  rw [le_iff, toRat_abs, not_le] at hfar
  refine (hturn.left_near hfar hprecision hlarge hexponent).bind
    fun quotient ⟨hsize, hleft⟩ => succeeds_ok ?_
  -- the turns taken off at once and the last one, if there is one, are whole turns together
  obtain ⟨hinside, k, hlast⟩ := hturn.last_turn hsize rfl
  refine ⟨hinside, Rounding.truncate quotient.toRat + k, ?_⟩
  rw [toRat_wholePart] at hleft
  rw [← hturn.toRat_eq]
  have htriangle := (abs_add_le _ _).trans (add_le_add hleft hlast)
  refine le_trans (le_of_eq ?_) (htriangle.trans (by linarith))
  congr 1
  push_cast
  ring

end Context

end Reckoner
