import Reckoner.Context.Exponential
import Reckoner.Proofs.Rounding.Modes
import Reckoner.Proofs.Scales.Agreement

/-!
# Exponentials and logarithms of one value

The halvings of an exponential are counted by its value. The square roots of a logarithm are limited
by the digits of its argument, but the roots come near one before any limit is reached.
-/

namespace Reckoner

open Decimal

namespace Traced

variable {ctx : Context} {x x' y y' : Decimal}

/-! ## The exponential function -/

def halve : (limit : Nat) → Decimal → Traced (Decimal × Nat)
  | 0, x => pure (x, 0)
  | limit + 1, x =>
    if half < x then do
      let halved ← ofScaled (x.unscaled * half.unscaled) (x.scale + half.scale)
      let reduced ← halve limit halved
      return (reduced.1, reduced.2 + 1)
    else pure (x, 0)

def expTerms (ctx : Context) (x : Decimal) : Terms where
  next k term := do
    let product ← mul ctx term x
    div ctx product (ofNat k)
  term _ term := pure term
  reference sum := sum

def squareOften (ctx : Context) : (count : Nat) → Decimal → Traced Decimal
  | 0, x => pure x
  | count + 1, x => do
    let power ← squareOften ctx count x
    mul ctx power power

def expOfPositive (ctx : Context) (x : Decimal) : Traced Decimal := do
  let reduced ← halve 64 x
  let wide := ctx.wider (Context.guardDigits + reduced.2)
  let rounded ← round wide reduced.1
  let sum ← sumSeries wide (expTerms wide rounded) 1
  let power ← squareOften wide reduced.2 sum
  round ctx power

def exp (ctx : Context) (x : Decimal) : Traced Decimal :=
  if x.isZero then pure 1
  else if Context.exponentLimit < x.exponent then lift (.error .exponentTooLarge)
  else if x.isNegative then do
    let positive ← expOfPositive ctx.guarded (-x)
    div ctx 1 positive
  else expOfPositive ctx x

@[simp] theorem result_halve (limit : Nat) (x : Decimal) :
    (halve limit x).result = .ok (Context.halve limit x) := by
  induction limit generalizing x with
  | zero => rfl
  | succ limit ih =>
    simp only [halve, Context.halve, result_ite, result_bind, result_ofScaled, result_pure, ok_bind,
      ih]
    split <;> rfl

@[simp] theorem series_expTerms (ctx : Context) (x : Decimal) :
    (expTerms ctx x).series = ctx.expSeries x := by
  simp [Terms.series, expTerms, Context.expSeries]

@[simp] theorem result_squareOften (ctx : Context) (count : Nat) (x : Decimal) :
    (squareOften ctx count x).result = .ok (Nat.repeat (fun s => ctx.mul s s) count x) := by
  induction count with
  | zero => rfl
  | succ count ih => simp [squareOften, ih, Nat.repeat]

@[simp] theorem result_expOfPositive : (expOfPositive ctx x).result = ctx.expOfPositive x := by
  simp only [expOfPositive, Context.expOfPositive, result_bind, result_halve, result_round,
    result_sumSeries, series_expTerms, result_squareOften, ok_bind]
  rfl

@[simp] theorem result_exp : (exp ctx x).result = ctx.exp x := by
  simp [exp, Context.exp]

theorem agree_halve (limit : Nat) (h : Same x x') :
    Agree SameCount (halve limit x) (halve limit x') := by
  induction limit generalizing x x' with
  | zero => exact agree_pure ⟨h, rfl⟩
  | succ limit ih =>
    refine .ite ((Same.refl half).lt h) (fun _ _ => ?_) fun _ _ => agree_pure ⟨h, rfl⟩
    refine Agree.bind (R := Same) (agree_ofScaled ?_) fun _ _ hhalved => ?_
    · have hvalue {x : Decimal} : ((x.unscaled * half.unscaled : Int) : ℚ) *
          10 ^ (-(x.scale + half.scale)) = x.toRat * half.toRat := by
        rw [toRat, toRat, neg_add, zpow_add₀ (by norm_num)]
        push_cast
        ring
      rw [hvalue, hvalue, h.toRat_eq]
    · exact (ih hhalved).bind fun _ _ hreduced => agree_pure ⟨hreduced.1, congrArg (· + 1) hreduced.2⟩

theorem agree_expTerms (h : Same x x') : (expTerms ctx x).Agree (expTerms ctx x') where
  next hterm := (agree_mul hterm h).bind fun _ _ hproduct => agree_div hproduct (.refl _)
  term hterm := agree_pure hterm
  reference hsum := hsum

theorem agree_squareOften (count : Nat) (h : Same x x') :
    Agree Same (squareOften ctx count x) (squareOften ctx count x') := by
  induction count with
  | zero => exact agree_pure h
  | succ count ih => exact ih.bind fun _ _ hpower => agree_mul hpower hpower

theorem agree_expOfPositive (h : Same x x') :
    Agree Same (expOfPositive ctx x) (expOfPositive ctx x') := by
  refine (agree_halve 64 h).bind fun reduced reduced' hreduced => ?_
  rw [hreduced.2]
  refine (agree_round hreduced.1).bind fun rounded rounded' hrounded => ?_
  refine (agree_sumSeries (agree_expTerms hrounded) (.refl 1)).bind fun sum sum' hsum => ?_
  exact (agree_squareOften reduced'.2 hsum).bind fun power power' hpower => agree_round hpower

theorem agree_exp (h : Same x x') : Agree Same (exp ctx x) (exp ctx x') := by
  unfold exp
  rw [h.isZero, h.exponent, h.isNegative]
  refine .ite Iff.rfl (fun _ _ => agree_pure rfl) fun _ _ => ?_
  refine .ite Iff.rfl (fun _ _ => agree_same _) fun _ _ => ?_
  refine .ite Iff.rfl (fun _ _ => ?_) fun _ _ => agree_expOfPositive h
  exact (agree_expOfPositive h.neg).bind fun _ _ hpositive => agree_div (.refl 1) hpositive

/-! ## Roots that come near one -/

/-- Bounds that a number of at least one meets in turn as roots of it are taken. The first is that
of the numbers that are near one. -/
def rootBound : Nat → ℚ
  | 0 => 11 / 10
  | 1 => 12 / 10
  | 2 => 14 / 10
  | 3 => 19 / 10
  | 4 => 36 / 10
  | j + 5 => 10 ^ 2 ^ j

theorem rootBound_succ_le (j : Nat) : rootBound (j + 1) ≤ rootBound j ^ 2 := by
  match j with
  | 0 | 1 | 2 | 3 => norm_num [rootBound]
  | 4 => norm_num [rootBound]
  | j + 5 =>
    rw [rootBound, rootBound, ← pow_mul, ← pow_succ]

theorem one_le_rootBound (j : Nat) : 1 ≤ rootBound j := by
  match j with
  | 0 | 1 | 2 | 3 | 4 => norm_num [rootBound]
  | j + 5 => exact one_le_pow₀ (by norm_num)

/-- No bound is passed by rounding to two digits or more. -/
theorem short_rootBound {digits : Nat} (hdigits : 2 ≤ digits) (j : Nat) :
    Rounding.Short digits (rootBound j) := by
  have hten : (10 : Int) ^ 2 ≤ 10 ^ digits := pow_le_pow_right₀ (by decide) hdigits
  have htenths (n : Int) (hn : |n| < 10 ^ 2) (h : rootBound j = n / 10) :
      Rounding.Short digits (rootBound j) :=
    ⟨n, -1, by rw [h, zpow_neg_one, div_eq_mul_inv], hn.trans_le hten⟩
  match j with
  | 0 => exact htenths 11 (by decide) rfl
  | 1 => exact htenths 12 (by decide) rfl
  | 2 => exact htenths 14 (by decide) rfl
  | 3 => exact htenths 19 (by decide) rfl
  | 4 => exact htenths 36 (by decide) rfl
  | j + 5 =>
    refine ⟨1, (2 ^ j : Nat), ?_, lt_of_lt_of_le (by decide) hten⟩
    rw [rootBound, zpow_natCast, Int.cast_one, one_mul]

/-- The root of a number from one up to the square of a short bound is from one up to the bound. -/
theorem sqrt_bounds {b : ℚ} (hb : Rounding.Short ctx.precision b) (hlower : 1 ≤ x.toRat)
    (hb0 : 0 ≤ b) (hupper : x.toRat ≤ b ^ 2) (hfits : (sqrt ctx x).Fits) {r : Decimal}
    (hr : (sqrt ctx x).result = .ok r) : 1 ≤ r.toRat ∧ r.toRat ≤ b := by
  have hpos : 0 < x.toRat := by linarith
  unfold sqrt at hfits hr
  rw [if_neg (by rw [isNegative_iff]; exact hpos.not_gt),
    if_neg (by rw [isZero_iff]; exact hpos.ne')] at hfits hr
  rw [result_wholeRoot] at hr
  obtain rfl := Except.ok.inj hr
  have hpos' : (0 : ℝ) < x.toRat := by exact_mod_cast hpos
  have hvalue := Context.value_wholeRoot (by decide) (toRat_pos.1 hpos) hfits
    (Real.sqrt_pos.2 hpos') (Real.sq_sqrt hpos'.le)
  have hlower' : 1 ≤ √(x.toRat : ℝ) := Real.one_le_sqrt.2 (by exact_mod_cast hlower)
  have hupper' : √(x.toRat : ℝ) ≤ b :=
    Real.sqrt_le_iff.2 ⟨by exact_mod_cast hb0, by exact_mod_cast hupper⟩
  have hone : 1 ≤ ctx.rounded √(x.toRat : ℝ) :=
    (Rounding.short_one ctx.precision_pos).le_significant ctx.precision_pos hlower'
  have hbound : ctx.rounded √(x.toRat : ℝ) ≤ b :=
    hb.cast.significant_le ctx.precision_pos hupper'
  rw [← Rat.cast_le (K := ℝ), ← Rat.cast_le (K := ℝ), hvalue, Rat.cast_one]
  exact ⟨hone, hbound⟩

def approachOne (ctx : Context) : (limit : Nat) → Decimal → Traced (Decimal × Nat)
  | 0, x => pure (x, 0)
  | limit + 1, x =>
    if .ofScaled 11 1 < x ∨ x < .ofScaled 9 1 then do
      let root ← sqrt ctx x
      let reduced ← approachOne ctx limit root
      return (reduced.1, reduced.2 + 1)
    else pure (x, 0)

@[simp] theorem result_approachOne (limit : Nat) (x : Decimal) :
    (approachOne ctx limit x).result = ctx.approachOne limit x := by
  induction limit generalizing x with
  | zero => rfl
  | succ limit ih =>
    simp only [approachOne, Context.approachOne, result_ite, result_bind, result_sqrt, result_pure,
      ih]
    rfl

theorem approachOne_near (limit : Nat) (hlower : 1 ≤ x.toRat) (hupper : x.toRat ≤ rootBound 0) :
    approachOne ctx limit x = pure (x, 0) := by
  have hfar : ¬ (Decimal.ofScaled 11 1 < x ∨ x < Decimal.ofScaled 9 1) := by
    have heleven : (Decimal.ofScaled 11 1).toRat = 11 / 10 := by
      rw [toRat_ofScaled 11 (by decide)]
      norm_num
    have hnine : (Decimal.ofScaled 9 1).toRat = 9 / 10 := by
      rw [toRat_ofScaled 9 (by decide)]
      norm_num
    rw [rootBound] at hupper
    rw [lt_iff, lt_iff, heleven, hnine]
    rintro (h | h) <;> linarith
  cases limit with
  | zero => rfl
  | succ limit => rw [approachOne, if_neg hfar]

/-- No limit is reached that leaves room for the bounds. -/
theorem agree_approachOne (hprecision : 2 ≤ ctx.precision) {j limit limit' : Nat} (hj : j ≤ limit)
    (hj' : j ≤ limit') (h : Same x x') (hlower : 1 ≤ x.toRat) (hupper : x.toRat ≤ rootBound j) :
    Agree SameCount (approachOne ctx limit x) (approachOne ctx limit' x') := by
  induction j generalizing limit limit' x x' with
  | zero =>
    have hvalue := h.toRat_eq
    rw [approachOne_near limit hlower hupper,
      approachOne_near limit' (hvalue ▸ hlower) (hvalue ▸ hupper)]
    exact agree_pure ⟨h, rfl⟩
  | succ j ih =>
    obtain ⟨limit, rfl⟩ := Nat.exists_eq_succ_of_ne_zero (show limit ≠ 0 by omega)
    obtain ⟨limit', rfl⟩ := Nat.exists_eq_succ_of_ne_zero (show limit' ≠ 0 by omega)
    refine .ite (or_congr ((Same.refl _).lt h) (h.lt (.refl _))) (fun _ _ => ?_)
      fun _ _ => agree_pure ⟨h, rfl⟩
    refine ((agree_sqrt h).and (sqrt_bounds (short_rootBound hprecision j) hlower
      (zero_le_one.trans (one_le_rootBound j)) (hupper.trans (rootBound_succ_le j)))).bind
        fun root root' hroot => ?_
    refine (ih (by omega) (by omega) hroot.1 hroot.2.1 hroot.2.2).bind fun _ _ hreduced => ?_
    exact agree_pure ⟨hreduced.1, congrArg (· + 1) hreduced.2⟩

/-! ## Logarithms -/

def movePoint (x : Decimal) (places : Int) : Traced Decimal :=
  ofScaled x.unscaled (x.scale - places)

def atanhTerms (ctx : Context) (z square : Decimal) : Terms where
  next _ power := mul ctx power square
  term k power := div ctx power (ofNat (2 * k + 1))
  reference _ := z

def lnUpToTen (ctx : Context) (m : Decimal) : Traced Decimal := do
  let wide := ctx.wider 4
  let reduced ← approachOne wide (m.digitCount + 64) m
  let difference ← sub wide reduced.1 1
  let sum ← add wide reduced.1 1
  let z ← div wide difference sum
  if z.isZero then return 0
  let square ← mul wide z z
  let sum ← sumSeries wide (atanhTerms wide z square) z
  mul wide sum (ofNat (Nat.pow 2 (reduced.2 + 1)))

def ln (ctx : Context) (x : Decimal) : Traced Decimal :=
  if !x.isPositive then lift (.error (.undefined "ln" "argument must be positive"))
  else if x.sameValue 1 then pure 0
  else do
    let exponent := x.exponent
    let wide := ctx.guarded.wider (ofInt exponent).digitCount
    let mantissa ← movePoint x (-exponent)
    let result ← lnUpToTen wide mantissa
    if exponent = 0 then round ctx result
    else
      let lnTen ← lift (wide.lnUpToTen 10)
      let multiple ← mul wide lnTen (ofInt exponent)
      let sum ← add wide result multiple
      round ctx sum

def log (ctx : Context) (base x : Decimal) : Traced Decimal := do
  let denominator ← ln ctx.guarded base
  let numerator ← ln ctx.guarded x
  div ctx numerator denominator

@[simp] theorem result_movePoint (x : Decimal) (places : Int) :
    (movePoint x places).result = .ok (x.movePoint places) := rfl

@[simp] theorem series_atanhTerms (ctx : Context) (z : Decimal) :
    (atanhTerms ctx z (ctx.mul z z)).series = ctx.atanhSeries z := by
  simp [Terms.series, atanhTerms, Context.atanhSeries]

@[simp] theorem result_lnUpToTen (m : Decimal) : (lnUpToTen ctx m).result = ctx.lnUpToTen m := by
  simp only [lnUpToTen, Context.lnUpToTen, result_bind, result_approachOne, result_sub, result_add,
    result_div, result_ite, result_pure, result_mul, result_sumSeries, series_atanhTerms, ok_bind]
  rfl

@[simp] theorem result_ln (x : Decimal) : (ln ctx x).result = ctx.ln x := by
  simp only [ln, Context.ln, result_ite, result_lift, result_pure, result_bind, result_movePoint,
    result_lnUpToTen, result_round, result_mul, result_add, ok_bind]
  rfl

@[simp] theorem result_log (base x : Decimal) : (log ctx base x).result = ctx.log base x := by
  simp [log, Context.log]

theorem toRat_movePoint_eq {places : Int} (h : (movePoint x places).Fits) :
    (x.movePoint places).toRat = x.toRat * 10 ^ places :=
  toRat_movePoint (fits_ofScaled.1 h)

/-- A number over its power of ten. An exponent that stops at the end of the word range leaves some
more digits in front of the point, but not more than the number has. -/
structure Leading (x : Decimal) : Prop where
  lower : 1 ≤ x.toRat
  upper : x.toRat < 10 ^ (x.digitCount + 1)

theorem leading_movePoint {e : Int} (hx : 0 < x.unscaled) (he : x.exponent = e)
    (h : (movePoint x (-e)).Fits) : Leading (x.movePoint (-e)) := by
  subst he
  have hpos : 0 < x.digitCount := Integer.digitCount_pos _
  have hfits := x.scale_fits
  have hexponent : x.exponent ≤ x.digitCount - 1 - x.scale ∧
      (x.digitCount : Int) - x.scale - (x.digitCount + 1) ≤ x.exponent := by
    rw [exponent_eq_min hx.ne']
    unfold Word.Fits Word.least Word.greatest at *
    omega
  have hvalue := toRat_movePoint_eq h
  have hmoved : (x.movePoint (-x.exponent)).digitCount = x.digitCount := rfl
  have hgrid : (0 : ℚ) < 10 ^ (-x.exponent) := by positivity
  constructor
  · rw [hvalue]
    calc (1 : ℚ) ≤ 10 ^ ((x.digitCount : Int) - 1 - x.scale + -x.exponent) :=
          one_le_zpow₀ (by norm_num) (by omega)
      _ = 10 ^ ((x.digitCount : Int) - 1 - x.scale) * 10 ^ (-x.exponent) :=
          zpow_add₀ (by norm_num) _ _
      _ ≤ x.toRat * 10 ^ (-x.exponent) := mul_le_mul_of_nonneg_right (pow_le_toRat hx) hgrid.le
  · rw [hvalue, hmoved]
    calc x.toRat * 10 ^ (-x.exponent)
        < 10 ^ ((x.digitCount : Int) - x.scale) * 10 ^ (-x.exponent) :=
          mul_lt_mul_of_pos_right (toRat_lt_pow hx) hgrid
      _ = 10 ^ ((x.digitCount : Int) - x.scale + -x.exponent) := (zpow_add₀ (by norm_num) _ _).symm
      _ ≤ 10 ^ ((x.digitCount + 1 : Nat) : Int) := zpow_le_zpow_right₀ (by norm_num) (by omega)
      _ = 10 ^ (x.digitCount + 1) := zpow_natCast _ _

theorem same_movePoint {places : Int} (h : Same x x') (hfits : (movePoint x places).Fits)
    (hfits' : (movePoint x' places).Fits) : Same (x.movePoint places) (x'.movePoint places) := by
  unfold Same
  rw [toRat_movePoint_eq hfits, toRat_movePoint_eq hfits', h.toRat_eq]

theorem agree_atanhTerms (h : Same x x') (h' : Same y y') :
    (atanhTerms ctx x y).Agree (atanhTerms ctx x' y') where
  next hpower := agree_mul hpower h'
  term hpower := agree_div hpower (.refl _)
  reference _ := h

theorem agree_lnUpToTen (h : Same x x') (hx : Leading x) (hx' : Leading x') :
    Agree Same (lnUpToTen ctx x) (lnUpToTen ctx x') := by
  -- The representation with fewer digits leaves room for the fewest roots, and that is enough.
  have hbound : x.toRat ≤ rootBound (min x.digitCount x'.digitCount + 1 + 5) := by
    have hupper : x.toRat < 10 ^ (min x.digitCount x'.digitCount + 1) := by
      obtain hmin | hmin := min_choice x.digitCount x'.digitCount <;> rw [hmin]
      · exact hx.upper
      · exact h.trans_lt hx'.upper
    exact hupper.le.trans (pow_le_pow_right₀ (by norm_num) Nat.lt_two_pow_self.le)
  have hprecision : 2 ≤ (ctx.wider 4).precision := by
    change 2 ≤ ctx.precision + 4
    omega
  refine (agree_approachOne hprecision (by omega) (by omega) h hx.lower hbound).bind
    fun reduced reduced' hreduced => ?_
  rw [hreduced.2]
  refine (agree_sub hreduced.1 (.refl 1)).bind fun _ _ hdifference => ?_
  refine (agree_add hreduced.1 (.refl 1)).bind fun _ _ hsum => ?_
  refine (agree_div hdifference hsum).bind fun z z' hz => ?_
  rw [hz.isZero]
  refine .ite Iff.rfl (fun _ _ => agree_pure rfl) fun _ _ => ?_
  refine (agree_mul hz hz).bind fun square square' hsquare => ?_
  exact (agree_sumSeries (agree_atanhTerms hz hsquare) hz).bind fun _ _ hsum =>
    agree_mul hsum (.refl _)

theorem agree_ln (h : Same x x') : Agree Same (ln ctx x) (ln ctx x') := by
  unfold ln
  rw [h.isPositive, h.sameValue (.refl 1), h.exponent]
  refine .ite Iff.rfl (fun _ _ => agree_same _) fun hpos _ => ?_
  refine .ite Iff.rfl (fun _ _ => agree_pure rfl) fun _ _ => ?_
  have hx' : 0 < x'.unscaled := by simpa [isPositive] using hpos
  have hx : 0 < x.unscaled := toRat_pos.1 ((toRat_pos.2 hx').trans_eq h.toRat_eq.symm)
  refine Agree.bind (R := fun m m' => Same m m' ∧ Leading m ∧ Leading m') ?_ fun m m' hm => ?_
  · refine agree_of_values (result_movePoint _ _) (result_movePoint _ _) fun hfits hfits' => ?_
    exact ⟨same_movePoint h hfits hfits', leading_movePoint hx h.exponent hfits,
      leading_movePoint hx' rfl hfits'⟩
  refine (agree_lnUpToTen hm.1 hm.2.1 hm.2.2).bind fun _ _ hresult => ?_
  refine .ite Iff.rfl (fun _ _ => agree_round hresult) fun _ _ => ?_
  refine (agree_same _).bind fun _ _ hlnTen => ?_
  refine (agree_mul hlnTen (.refl _)).bind fun _ _ hmultiple => ?_
  exact (agree_add hresult hmultiple).bind fun _ _ hsum => agree_round hsum

theorem agree_log (h : Same x x') (h' : Same y y') :
    Agree Same (log ctx x y) (log ctx x' y') :=
  (agree_ln h).bind fun _ _ hdenominator => (agree_ln h').bind fun _ _ hnumerator =>
    agree_div hnumerator hdenominator

end Traced

end Reckoner
