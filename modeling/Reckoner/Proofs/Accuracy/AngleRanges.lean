import Reckoner.Proofs.Accuracy.AngleSeries
import Reckoner.Proofs.Domain.ArcFunctions

/-!
# Ranges of sine and cosine

The computed sums are within less than half a unit of the last place from the interval between -1 and 1.
The last rounding takes back what is beyond one for the modes that do not move away from zero there. For
the others, the number next to one can come out, which the arc sine and the arc cosine refuse.
-/

namespace Reckoner

open Decimal

/-! ## Numbers little above one -/

namespace Rounding

variable {mode : Rounding} {digits : Nat} {q : ℚ}

/-- A number above an integer by less than a half goes down, unless the mode leads away from zero. -/
theorem nearest_le_of_lt_half (hup : mode ≠ .up) (hceiling : mode ≠ .ceiling) (hq : 0 ≤ q) {n : Int}
    (h : q < n + 1 / 2) : mode.nearest q ≤ n := by
  have hlt : (mode.nearest q : ℚ) < n + 1 := by
    by_cases hhalf : mode = .halfUp ∨ mode = .halfDown ∨ mode = .halfEven
    · have hnear := abs_sub_nearest_le hhalf q
      linarith [neg_abs_le (q - mode.nearest q)]
    · have hle : (mode.nearest q : ℚ) ≤ q := by
        cases mode with
        | down =>
          rw [nearest_down, truncate, if_neg hq.not_gt]
          exact Int.floor_le q
        | floor =>
          rw [nearest_floor]
          exact Int.floor_le q
        | up => exact absurd rfl hup
        | ceiling => exact absurd rfl hceiling
        | halfUp | halfDown | halfEven => simp at hhalf
      linarith
  exact Int.lt_add_one_iff.1 (by exact_mod_cast hlt)

theorem significant_le_one (hdigits : 0 < digits) (hup : mode ≠ .up) (hceiling : mode ≠ .ceiling)
    (h : q < 1 + 10 ^ (1 - digits : Int) / 2) : mode.significant digits q ≤ 1 := by
  obtain hle | hgt := le_or_gt q 1
  · exact (short_one hdigits).significant_le hdigits hle
  have hunit : unit digits q = 10 ^ (1 - digits : Int) := by
    have hless : (10 : ℚ) ^ (1 - digits : Int) ≤ 1 :=
      zpow_le_one_of_nonpos₀ (by norm_num) (by omega)
    refine unit_of_one_le ?_ ?_ <;> rw [abs_of_pos (by linarith)] <;> linarith
  have hpos : (0 : ℚ) < 10 ^ (1 - digits : Int) := by positivity
  have hone : ((10 ^ (digits - 1) : Int) : ℚ) * 10 ^ (1 - digits : Int) = 1 := by
    rw [Int.cast_pow, ← zpow_natCast, Int.cast_ofNat, ← zpow_add₀ (by norm_num),
      Nat.cast_sub (show 1 ≤ digits by omega)]
    norm_num
  rw [significant, hunit]
  refine le_trans (mul_le_mul_of_nonneg_right ?_ hpos.le) hone.le
  have hnearest : mode.nearest (q / 10 ^ (1 - digits : Int)) ≤ 10 ^ (digits - 1) := by
    refine nearest_le_of_lt_half hup hceiling (by positivity) ?_
    rw [div_lt_iff₀ hpos, add_mul, hone]
    linarith
  exact_mod_cast hnearest

theorem neg_one_le_significant (hdigits : 0 < digits) (hup : mode ≠ .up) (hfloor : mode ≠ .floor)
    (h : -(1 + 10 ^ (1 - digits : Int) / 2) < q) : -1 ≤ mode.significant digits q := by
  have hmirror : mode.mirror.significant digits (-q) ≤ 1 := by
    refine significant_le_one hdigits ?_ ?_ (by linarith) <;> cases mode <;> simp_all [mirror]
  have hneg := significant_neg mode digits (-q)
  rw [neg_neg] at hneg
  linarith

end Rounding

namespace AngleFunction

variable {f : AngleFunction} {ctx : Context} {x r : Decimal} {passes : Nat}

theorem abs_toRat_one : |(1 : Decimal).toRat| = 1 := by rw [toRat_one, abs_one]

/-! ## Specks -/

/-- Beside a reduced angle that is a speck, the term after the first is negligible at once. -/
theorem next_negligible (f : AngleFunction) (hr : |r.toRat| ≤ 10 ^ (-ctx.precision : Int))
    (hprecision : 2 ≤ ctx.precision) (hexponent : (f.first r).exponent < Word.greatest)
    (hroom : (2 * r.digitCount + (f.first r).digitCount + 3 * ctx.precision + 20 : Int) ≤
      (f.first r).exponent + Word.greatest) (hless : (f.first r).exponent ≤ 1) :
    Succeeds ((f.series ctx r).next 1 (f.first r)) fun next =>
      ctx.isNegligible next (f.first r) = true := by
  have hrtwo : |r.toRat| ≤ 10 ^ (-2 : Int) :=
    hr.trans (zpow_le_zpow_right₀ (by norm_num) (by omega))
  obtain ⟨hsquare, hsquareDigits⟩ := Context.mul_le_pow ctx hr hrtwo (by omega)
  have hfirst := (abs_toRat_lt_exponent hexponent).le
  obtain ⟨hproduct, hproductDigits⟩ := Context.mul_le_pow ctx hfirst hsquare (by omega)
  have hdivisor : 10 ^ 0 ≤ f.divisor 0 := f.divisor_pos 0
  refine (f.series_next ctx r (f.first r) 0).symm ▸ ?_
  refine (Context.div_le_pow ctx 0 hdivisor hproduct (by push_cast; omega)).bind
    fun quotient hquotient => succeeds_ok ?_
  refine Context.isNegligible_of_abs_lt (by omega) ?_
  rw [toRat_neg, abs_neg]
  exact hquotient.1.trans_lt (zpow_lt_zpow_right₀ (by norm_num) (by push_cast; omega))

/-- A series whose first pass breaks off keeps its first term. -/
theorem result_of_negligible {result : Decimal}
    (hnext : Succeeds ((f.series ctx r).next 1 (f.first r)) fun next =>
      ctx.isNegligible next (f.first r) = true)
    (hends : EndsWithin (ctx.seriesPass (f.series ctx r)) passes (1, f.first r, f.first r) result) :
    result = f.first r := by
  refine Context.sum_of_invariant (Q := (· = f.first r))
    (J := fun i factor sum => i = 0 ∧ factor = f.first r ∧ sum = f.first r) hends ?_ ⟨rfl, rfl, rfl⟩
  rintro i factor sum - ⟨rfl, rfl, rfl⟩
  obtain ⟨next, hnext, hnegligible⟩ := hnext
  refine ⟨next, next, hnext, f.series_term ctx r _ next, fun _ => rfl, fun hcounts => ?_⟩
  rw [f.series_reference] at hcounts
  exact absurd hnegligible hcounts

/-! ## Sums -/

/-- The room that the first term needs. Only the sine is measured against the angle. -/
def places : AngleFunction → Decimal → Nat
  | sin, x => (-x.exponent).toNat
  | cos, _ => 0

def HasRoom (f : AngleFunction) (ctx : Context) (x : Decimal) : Prop :=
  ctx.Ample x.digitCount (f.places x)

def Ends (f : AngleFunction) (ctx : Context) (x : Decimal) (passes : Nat) : Prop :=
  Context.AngleEnds f.apply f.series f.first ctx x passes

theorem ends_of_hasRoom_angle (hx : x.isZero = false) (hexponent : x.exponent ≤ Context.angleLimit)
    (h : f.HasRoom ctx x) : f.Ends ctx x (ctx.precision + 1100) := by
  cases f with
  | sin =>
    have hplaces : -((-x.exponent).toNat : Int) ≤ x.exponent := by omega
    exact Context.sin_ends hx hexponent hplaces h
  | cos => exact Context.cos_ends hx hexponent h

/-- The sum of the series for a reduced angle, in the context in which it was reduced. -/
theorem abs_sum_le {digits : Nat} {result : Decimal} (hprecision : 11 ≤ ctx.precision)
    (hlong : 8 * ctx.precision ≤ digits) (hdigits : r.digitCount ≤ digits) (hr : |r.toRat| ≤ 10)
    (hroomy : ctx.Roomy (digits + ctx.precision)) (hpasses : passes ≤ 1500000000)
    (hleast : -(Word.greatest - (3 * digits + 3 * ctx.precision + 20)) ≤ (f.first r).exponent)
    (hends : EndsWithin (ctx.seriesPass (f.series ctx r)) passes (1, f.first r, f.first r) result) :
    |result.toRat| ≤ 1 + ctx.roundoff * (2 * passes + 10 ^ 9) := by
  have hroom := hroomy.room
  -- a reduced angle below the last place leaves the series at its first term
  obtain hlarge | hsmall := le_or_gt ((10 : ℚ) ^ (-ctx.precision : Int)) |r.toRat|
  · have hupper : |r.toRat| ≤ 10 ^ (ctx.precision : Int) := by
      refine hr.trans ((zpow_one (10 : ℚ)).symm.le.trans ?_)
      exact zpow_le_zpow_right₀ (by norm_num) (by omega)
    have hwithin := within_of_bounds ctx.precision hdigits hlarge hupper
    exact f.abs_sum_le_of_regular ⟨hprecision, by omega, hroomy, hwithin, hlarge, hr⟩ hpasses hends
  · have hone : |(f.first r).toRat| ≤ 1 := by
      cases f with
      | sin => exact hsmall.le.trans (zpow_le_one_of_nonpos₀ (by norm_num) (by omega))
      | cos => exact abs_toRat_one.le
    have hless : (f.first r).exponent < 1 :=
      exponent_lt_of_abs_lt_pow one_pos (hone.trans_lt (by norm_num))
    have hfirstDigits : (f.first r).digitCount ≤ digits := by
      cases f with
      | sin => exact hdigits
      | cos => exact (Integer.digitCount_pow 0).le.trans (by omega)
    have hnext := f.next_negligible hsmall.le (by omega) (by omega) (by omega) hless.le
    rw [result_of_negligible hnext hends]
    have hpos := ctx.roundoff_pos
    have herrors : 0 ≤ ctx.roundoff * (2 * passes + 10 ^ 9) := by positivity
    linarith

/-- The errors of all passes together, beside a unit of the last place of the result. -/
theorem errors_lt_half {wide : Context} (hprecision : ctx.precision ≤ 10 ^ 9)
    (hwide : ctx.precision + 10 ≤ wide.precision) :
    wide.roundoff * (2 * ((ctx.precision + 1100 : Nat) : ℚ) + 10 ^ 9) <
      10 ^ (1 - ctx.precision : Int) / 2 := by
  have hroundoff : wide.roundoff ≤ 10 ^ (1 - ctx.precision : Int) / 10 ^ 10 := by
    have hsplit : (10 : ℚ) ^ (1 - ctx.precision : Int) / 10 ^ 10 =
        10 ^ (1 - ctx.precision - 10 : Int) := by
      rw [zpow_sub₀ (by norm_num) (1 - ctx.precision : Int) 10]
      norm_cast
    rw [hsplit]
    exact zpow_le_zpow_right₀ (by norm_num) (by omega)
  have hpasses : (2 * ((ctx.precision + 1100 : Nat) : ℚ) + 10 ^ 9) ≤ 4 * 10 ^ 9 := by
    have hcast : ((ctx.precision + 1100 : Nat) : ℚ) ≤ 10 ^ 9 + 1100 := by
      exact_mod_cast Nat.add_le_add_right hprecision 1100
    linarith
  have hpos : (0 : ℚ) < 10 ^ (1 - ctx.precision : Int) := by positivity
  calc wide.roundoff * (2 * ((ctx.precision + 1100 : Nat) : ℚ) + 10 ^ 9)
      ≤ 10 ^ (1 - ctx.precision : Int) / 10 ^ 10 * (4 * 10 ^ 9) :=
        mul_le_mul hroundoff hpasses (by positivity) (by positivity)
    _ < 10 ^ (1 - ctx.precision : Int) / 2 := by linarith

/-- The sum that is rounded last is within less than half a unit of the last place from the range. -/
theorem sum_of_ends (hprecision : ctx.precision ≤ 10 ^ 9) (hexponent : x.exponent ≤ Context.angleLimit)
    (hroom : f.HasRoom ctx x) (h : f.Ends ctx x (ctx.precision + 1100)) :
    Succeeds (f.apply ctx x) fun y => ∃ sum, y = ctx.round sum ∧
      |sum.toRat| < 1 + 10 ^ (1 - ctx.precision : Int) / 2 := by
  obtain ⟨wide, r, sum, hwide, -, hr, hends, hresult⟩ := h
  unfold HasRoom Context.Ample at hroom
  obtain ⟨wide', hwide', hlower, hupper, -, r', hr', hsize, hdigits, hleast⟩ :=
    Context.principal_of_ample hexponent (show ctx.Ample x.digitCount 0 by
      unfold Context.Ample
      omega)
  -- both name the one run of the reduction
  obtain rfl : wide = wide' := Except.ok.inj (hwide.symm.trans hwide')
  obtain rfl : r = r' := Except.ok.inj (hr.symm.trans hr')
  refine ⟨_, hresult, sum, rfl, ?_⟩
  have hfirst : -(Word.greatest - (3 * (600 * (ctx.precision + x.digitCount + 1000) : Nat) +
      3 * wide.precision + 20)) ≤ (f.first r).exponent := by
    cases f with
    | sin =>
      change _ ≤ r.exponent
      change (10000 * (ctx.precision + x.digitCount + 1000) + ((-x.exponent).toNat : Nat) : Int) ≤ _
        at hroom
      obtain rfl | hleast := hleast <;> omega
    | cos =>
      have hone : (1 : Decimal).exponent = 0 := by decide +kernel
      change _ ≤ (1 : Decimal).exponent
      omega
  have hprecisionPos := ctx.precision_pos
  have hsum := abs_sum_le (by omega) (by omega) hdigits hsize ⟨by omega, by omega⟩ (by omega) hfirst
    hends
  exact hsum.trans_lt (add_lt_add_right (errors_lt_half hprecision (by omega)) 1)

theorem round_bounds {sum : Decimal} (h : |sum.toRat| < 1 + 10 ^ (1 - ctx.precision : Int) / 2) :
    |(ctx.round sum).toRat| ≤ 1 + 10 ^ (1 - ctx.precision : Int) ∧
      (ctx.rounding ≠ .up → ctx.rounding ≠ .floor → -1 ≤ (ctx.round sum).toRat) ∧
      (ctx.rounding ≠ .up → ctx.rounding ≠ .ceiling → (ctx.round sum).toRat ≤ 1) := by
  have hpos := ctx.precision_pos
  have hunit : (0 : ℚ) < 10 ^ (1 - ctx.precision : Int) := by positivity
  have hless : (10 : ℚ) ^ (1 - ctx.precision : Int) ≤ 1 :=
    zpow_le_one_of_nonpos₀ (by norm_num) (by omega)
  have hfits : (Traced.round ctx sum).Fits := by
    refine Traced.fits_round_of_abs_le (m := 1) ?_ (by decide)
    rw [pow_one]
    linarith
  obtain ⟨hlower, hupper⟩ := abs_lt.1 h
  rw [Context.toRat_round_eq hfits]
  exact ⟨Context.abs_rounded_le (Rounding.short_next_to_one hpos) (by linarith),
    fun hup hfloor => Rounding.neg_one_le_significant hpos hup hfloor hlower,
    fun hup hceiling => Rounding.significant_le_one hpos hup hceiling hupper⟩

/-! ## Ranges -/

theorem range_of_zero (f : AngleFunction) (ctx : Context) (hx : x.isZero = true) :
    Succeeds (f.apply ctx x) fun y => |y.toRat| ≤ 1 ∧ y.digitCount ≤ ctx.precision := by
  have hpos := ctx.precision_pos
  have hone : (1 : Decimal).digitCount ≤ ctx.precision := (Integer.digitCount_pow 0).le.trans hpos
  cases f with
  | sin =>
    have hzero : (0 : Decimal).digitCount = 1 := by decide +kernel
    refine ⟨0, by simp [apply, Context.sin, hx], ?_, hzero.le.trans hpos⟩
    rw [toRat_zero, abs_zero]
    exact zero_le_one
  | cos => exact ⟨1, by simp [apply, Context.cos, hx], abs_toRat_one.le, hone⟩

theorem range_of_ne_zero (hx : x.isZero = false) (hprecision : ctx.precision ≤ 10 ^ 9)
    (hexponent : x.exponent ≤ Context.angleLimit) (hroom : f.HasRoom ctx x) :
    Succeeds (f.apply ctx x) fun y => (|y.toRat| ≤ 1 + 10 ^ (1 - ctx.precision : Int) ∧
      (ctx.rounding ≠ .up → ctx.rounding ≠ .floor → -1 ≤ y.toRat) ∧
      (ctx.rounding ≠ .up → ctx.rounding ≠ .ceiling → y.toRat ≤ 1)) ∧
      y.digitCount ≤ ctx.precision := by
  refine (sum_of_ends hprecision hexponent hroom
    (ends_of_hasRoom_angle hx hexponent hroom)).imp fun y hy => ?_
  obtain ⟨sum, rfl, hsum⟩ := hy
  exact ⟨round_bounds hsum, Context.digitCount_round_le⟩

/-- What is no longer than the context and lies in the interval is accepted. -/
theorem accepted (g : ArcFunction) {y : Decimal} (hprecision : ctx.precision ≤ 10 ^ 9)
    (hdigits : y.digitCount ≤ ctx.precision) (hy : |y.toRat| ≤ 1) : IsDefined (g.apply ctx y) := by
  refine ArcFunction.apply_isDefined hy (by unfold Word.greatest; omega) ?_
  refine Context.not_squareRoundsToOne (.inr (.inr (hdigits.trans ?_)))
  cases g with
  | asin => exact Nat.le_add_right _ 10
  | acos => exact Nat.le_add_right_of_le (Nat.le_add_right _ 10)

/-- Sine and cosine come out for every angle that is not refused, between -1 and 1 or next to them. A
result above one needs a mode that rounds positive numbers away from zero, and one below -1 a mode that
does so with negative numbers. Every other result is accepted by the arc sine and the arc cosine. The
guard digits make up for the errors of as many passes as a thousand million digits take. -/
theorem range_of_hasRoom (f : AngleFunction) (ctx : Context) (x : Decimal)
    (hprecision : ctx.precision ≤ 10 ^ 9) (hexponent : x.exponent ≤ 1000) (hroom : f.HasRoom ctx x) :
    (x.isZero = false → f.Ends ctx x (ctx.precision + 1100)) ∧
    ∃ y, f.apply ctx x = .ok y ∧ |y.toRat| ≤ 1 + 10 ^ (1 - ctx.precision : Int) ∧
      (ctx.rounding ≠ .up → ctx.rounding ≠ .floor → -1 ≤ y.toRat) ∧
      (ctx.rounding ≠ .up → ctx.rounding ≠ .ceiling → y.toRat ≤ 1) ∧
      (|y.toRat| ≤ 1 → IsDefined (ctx.asin y) ∧ IsDefined (ctx.acos y)) := by
  refine ⟨fun hx => ends_of_hasRoom_angle hx hexponent hroom, ?_⟩
  by_cases hx : x.isZero = true
  · obtain ⟨y, hy, hsize, hdigits⟩ := range_of_zero f ctx hx
    have hunit : (0 : ℚ) < 10 ^ (1 - ctx.precision : Int) := by positivity
    obtain ⟨hlower, hupper⟩ := abs_le.1 hsize
    exact ⟨y, hy, by linarith, fun _ _ => hlower, fun _ _ => hupper, fun hinside =>
      ⟨accepted .asin hprecision hdigits hinside, accepted .acos hprecision hdigits hinside⟩⟩
  · obtain ⟨y, hy, ⟨hsize, hlower, hupper⟩, hdigits⟩ :=
      range_of_ne_zero (f := f) (Bool.eq_false_iff.2 hx) hprecision hexponent hroom
    exact ⟨y, hy, hsize, hlower, hupper, fun hinside =>
      ⟨accepted .asin hprecision hdigits hinside, accepted .acos hprecision hdigits hinside⟩⟩

theorem range_of_hasRoom_two :
    Context.standard.precision ≤ 10 ^ 9 ∧ (2 : Decimal).exponent ≤ 1000 ∧
      sin.HasRoom .standard 2 ∧ ∃ y, Context.standard.sin 2 = .ok y ∧ y.toRat ≤ 1 := by
  have hdigits : (2 : Decimal).digitCount = 1 := by decide +kernel
  have hexponent : (2 : Decimal).exponent = 0 := by decide +kernel
  have hroom : sin.HasRoom .standard 2 := by
    change Context.standard.Ample (2 : Decimal).digitCount (-(2 : Decimal).exponent).toNat
    rw [hdigits, hexponent]
    unfold Context.Ample
    decide
  obtain ⟨-, y, hy, -, -, hupper, -⟩ :=
    range_of_hasRoom sin .standard 2 (by decide) (by omega) hroom
  exact ⟨by decide, by omega, hroom, y, hy, hupper (by decide) (by decide)⟩

/-- A fraction of a degree beside the quarter turn, rounded away from zero to one digit. -/
theorem sin_above_one :
    ∃ y, Context.sin ⟨1, .up, by decide⟩ (ofScaled 157079 5) = .ok y ∧ 1 < y.toRat ∧
      Context.asin ⟨1, .up, by decide⟩ y =
        .error (.undefined "asin" "argument must lie in [-1, 1]") := by
  have hvalue : (2 : Decimal).toRat = 2 := toRat_ofNat 2
  refine ⟨2, by decide +kernel, by rw [hvalue]; norm_num, Context.asin_of_outside ?_⟩
  rw [hvalue]
  norm_num

end AngleFunction

end Reckoner
