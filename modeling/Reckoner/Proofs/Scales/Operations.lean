import Reckoner.Proofs.Decimal.Parts
import Reckoner.Proofs.Rounding.Significant
import Reckoner.Proofs.Rounding.Signs
import Reckoner.Proofs.Scales.Traced

/-!
# Rounded operations on values

If no scale is stopped on the way, a rounded sum, product or quotient is the exact result of the
values rounded to the digits of the context. It is the same for all representations of the operands,
for the digits that an operation computes by the scales of its operands are behind those it keeps.
-/

namespace Reckoner

open Integer Decimal

/-! ## Traced operations -/

namespace Traced

variable {ctx : Context} {x y z : Decimal}

def round (ctx : Context) (x : Decimal) : Traced Decimal :=
  if x.isZero || decide (x.digitCount ≤ ctx.precision) then pure x
  else do
    let dropped := x.digitCount - ctx.precision
    let rounded ← ofScaled (ctx.rounding.quotient x.unscaled (pow10 dropped)) (x.scale - dropped)
    if ctx.precision < rounded.digitCount then
      ofScaled (rounded.unscaled.tdiv 10) (rounded.scale - 1)
    else pure rounded

def add (ctx : Context) (x y : Decimal) : Traced Decimal :=
  if x.isZero then round ctx y
  else if y.isZero then round ctx x
  else
    let (large, small) := if y.exponent ≤ x.exponent then (x, y) else (y, x)
    let reach := max (ctx.precision + 2) large.digitCount
    let gap := (large.exponent - small.exponent).natAbs
    if reach + 1 < gap then do
      let pad := reach - large.digitCount + 1
      let nudged ← ofScaled (large.unscaled * pow10 pad + small.sign) (large.scale + pad)
      round ctx nudged
    else round ctx (x + y)

def sub (ctx : Context) (x y : Decimal) : Traced Decimal := add ctx x (-y)

def mul (ctx : Context) (x y : Decimal) : Traced Decimal := do
  let product ← ofScaled (x.unscaled * y.unscaled) (x.scale + y.scale)
  round ctx product

def div (ctx : Context) (x y : Decimal) : Traced Decimal :=
  if y.isZero then lift (.error .divisionByZero)
  else if x.isZero then pure 0
  else do
    let preferred ← saturate (x.scale - y.scale)
    let shift := ctx.precision + 3 + y.digitCount - x.digitCount
    let dividend := x.unscaled * pow10 shift
    let quotient := dividend.tdiv y.unscaled
    if dividend.tmod y.unscaled = 0 then do
      let exact ← ofScaled quotient (preferred + shift)
      let rounded ← round ctx exact
      return rounded.strip preferred
    else
      let tail := if x.isNegative = y.isNegative then 1 else -1
      let inexact ← ofScaled (quotient * 10 + tail) (preferred + shift + 1)
      round ctx inexact

@[simp] theorem result_round : (round ctx x).result = .ok (ctx.round x) := by
  unfold round Context.round roundTo
  split
  · rfl
  · simp only [result_bind, result_ofScaled, result_ite, result_pure]
    change (if _ then _ else _ : Arithmetic Decimal) = _
    split <;> rfl

@[simp] theorem result_add : (add ctx x y).result = .ok (ctx.add x y) := by
  unfold add Context.add
  split
  · exact result_round
  split
  · exact result_round
  generalize (if y.exponent ≤ x.exponent then (x, y) else (y, x)) = pair
  obtain ⟨large, small⟩ := pair
  simp only
  split
  · rw [result_bind, result_ofScaled]
    exact result_round
  · exact result_round

@[simp] theorem result_sub : (sub ctx x y).result = .ok (ctx.sub x y) := result_add

@[simp] theorem result_mul : (mul ctx x y).result = .ok (ctx.mul x y) := by
  unfold mul
  rw [result_bind, result_ofScaled]
  exact result_round

@[simp] theorem result_div : (div ctx x y).result = ctx.div x y := by
  unfold div Context.div
  split
  · rfl
  split
  · rfl
  simp only [result_bind, result_saturate]
  change Traced.result (if _ then _ else _) = _
  rw [result_ite]
  split
  · simp only [result_bind, result_ofScaled]
    change ((round _ _).result >>= _) = _
    rw [result_round]
    rfl
  · rw [result_bind, result_ofScaled]
    exact result_round

end Traced

/-! ## Values -/

namespace Context

variable {K : Type*} [Field K] [LinearOrder K] [IsStrictOrderedRing K] [FloorRing K]
  {ctx : Context} {x y z : Decimal}

/-- A number rounded to the digits of the context. -/
def rounded (ctx : Context) (q : K) : K := ctx.rounding.significant ctx.precision q

omit [LinearOrder K] [IsStrictOrderedRing K] [FloorRing K] in
theorem cast_toRat [CharZero K] (x : Decimal) :
    ((x.toRat : ℚ) : K) = x.unscaled * 10 ^ (-x.scale) := by
  rw [toRat]
  push_cast
  rfl

theorem log_scaled {u s : Int} (hu : u ≠ 0) :
    Int.log 10 |(u : K) * 10 ^ (-s)| = Integer.digitCount u.natAbs - 1 - s := by
  have hpow : (0 : K) < 10 ^ (-s) := by positivity
  have hpos := digitCount_pos u.natAbs
  have hnatAbs : |(u : K)| = (u.natAbs : Nat) := by
    rw [Nat.cast_natAbs, Int.cast_abs]
  refine Rounding.log_eq_of_bounds (mul_ne_zero (Int.cast_ne_zero.2 hu) hpow.ne') ?_ ?_
  · have hlower : (10 : K) ^ (Integer.digitCount u.natAbs - 1) ≤ |(u : K)| := by
      rw [hnatAbs]
      exact_mod_cast pow10_digitCount_le (Int.natAbs_ne_zero.2 hu)
    rw [abs_mul, abs_of_pos hpow, sub_eq_add_neg _ s, zpow_add₀ (by norm_num)]
    refine mul_le_mul_of_nonneg_right ?_ hpow.le
    rw [← Nat.cast_one (R := Int), ← Nat.cast_sub hpos, zpow_natCast]
    exact hlower
  · have hupper : |(u : K)| < 10 ^ Integer.digitCount u.natAbs := by
      rw [hnatAbs]
      exact_mod_cast lt_pow10_digitCount u.natAbs
    rw [abs_mul, abs_of_pos hpow, show (Integer.digitCount u.natAbs : Int) - 1 - s + 1 =
      Integer.digitCount u.natAbs + -s by ring, zpow_add₀ (by norm_num), zpow_natCast]
    exact mul_lt_mul_of_pos_right hupper hpow

omit [IsStrictOrderedRing K] in
theorem short_toRat (h : x.digitCount ≤ ctx.precision) :
    Rounding.Short ctx.precision (x.toRat : K) := by
  refine ⟨x.unscaled, -x.scale, cast_toRat x, ?_⟩
  have hlt := (digitCount_le_iff ctx.precision_pos).1 h
  rw [Int.abs_eq_natAbs]
  exact_mod_cast hlt

/-- In units of the last digit kept, a number is the quotient that is rounded. -/
theorem rounded_toRat (hx : x.unscaled ≠ 0) (hlong : ctx.precision < x.digitCount) :
    ctx.rounded (x.toRat : K) =
      ctx.rounding.quotient x.unscaled (pow10 (x.digitCount - ctx.precision) : Nat) *
        10 ^ (-(x.scale - (x.digitCount - ctx.precision : Nat))) := by
  have hunit : Rounding.unit ctx.precision (x.toRat : K) =
      10 ^ (-(x.scale - (x.digitCount - ctx.precision : Nat))) := by
    rw [Rounding.unit, cast_toRat, log_scaled hx]
    congr 1
    unfold Decimal.digitCount at hlong ⊢
    omega
  have hunits : (x.toRat : K) / Rounding.unit ctx.precision (x.toRat : K) =
      (x.unscaled : K) / ((pow10 (x.digitCount - ctx.precision) : Nat) : Int) := by
    have hpow : ((pow10 (x.digitCount - ctx.precision) : Nat) : K) =
        10 ^ (x.digitCount - ctx.precision) := by simp [pow10]
    rw [hunit, cast_toRat, neg_sub, sub_eq_add_neg, zpow_add₀ (by norm_num), zpow_natCast,
      Int.cast_natCast, hpow, mul_div_mul_right _ _ (zpow_ne_zero _ (by norm_num))]
  rw [rounded, Rounding.significant, hunits, hunit,
    Rounding.quotient_eq_nearest (K := K) _ _ (Int.natCast_pos.2 (pow10_pos _))]

omit [FloorRing K] in
/-- A zero that is cut off after a carry. -/
theorem value_carry {q s : Int} (hten : 10 ∣ q) (hfits : Word.Fits (s - 1)) :
    ((ofScaled (q.tdiv 10) (s - 1)).toRat : K) = q * 10 ^ (-s) := by
  rw [cast_toRat, scale_ofScaled, Word.saturate_of_fits hfits, unscaled_ofScaled]
  conv_rhs => rw [← Int.tdiv_mul_cancel hten]
  rw [neg_sub, sub_eq_add_neg, zpow_add₀ (by norm_num), zpow_one]
  push_cast
  ring

theorem value_round (h : (Traced.round ctx x).Fits) :
    ((ctx.round x).toRat : K) = ctx.rounded (x.toRat : K) := by
  unfold Traced.round at h
  unfold round roundTo
  split at h
  · next hshort =>
    rw [if_pos hshort]
    rw [Bool.or_eq_true, decide_eq_true_eq] at hshort
    obtain hzero | hshort := hshort
    · rw [isZero_iff.1 hzero, Rat.cast_zero]
      exact Rounding.significant_zero.symm
    · exact (short_toRat hshort).significant.symm
  next hlong =>
  rw [if_neg hlong]
  simp only [Bool.or_eq_true, decide_eq_true_eq, not_or, not_le, isZero, beq_iff_eq] at hlong
  obtain ⟨hx, hlong⟩ := hlong
  have hrounded : (ctx.rounding.quotient x.unscaled
      (pow10 (x.digitCount - ctx.precision) : Nat)).natAbs ≤ 10 ^ ctx.precision :=
    natAbs_rounded_le hlong
  simp only at h ⊢
  rw [Traced.fits_bind_of_ok rfl, Traced.fits_ofScaled] at h
  obtain ⟨hfits, hcarry⟩ := h
  -- both sides round the same integer, which has three digits more at most
  rw [rounded_toRat hx hlong]
  generalize ctx.rounding.quotient x.unscaled (pow10 (x.digitCount - ctx.precision) : Nat) = q at *
  generalize x.scale - (x.digitCount - ctx.precision : Nat) = s at *
  split
  · next hlonger =>
    rw [if_pos hlonger, Traced.fits_ofScaled, scale_ofScaled, Word.saturate_of_fits hfits] at hcarry
    rw [digitCount_ofScaled, lt_digitCount_iff ctx.precision_pos] at hlonger
    -- Nines have carried, so the integer is a power of ten.
    have hten : 10 ∣ q := by
      rw [← Int.natAbs_dvd_natAbs, le_antisymm hrounded hlonger]
      exact dvd_pow_self 10 ctx.precision_pos.ne'
    rw [scale_ofScaled, Word.saturate_of_fits hfits, unscaled_ofScaled, value_carry hten hcarry]
  · rw [cast_toRat, scale_ofScaled, Word.saturate_of_fits hfits, unscaled_ofScaled]

theorem toRat_round_eq (h : (Traced.round ctx x).Fits) :
    (ctx.round x).toRat = ctx.rounded x.toRat := by
  simpa only [Rat.cast_id] using value_round (K := ℚ) h

/-! ### Products -/

theorem value_mul (h : (Traced.mul ctx x y).Fits) :
    (ctx.mul x y).toRat = ctx.rounded (x.toRat * y.toRat) := by
  unfold Traced.mul at h
  rw [Traced.fits_bind_of_ok rfl, Traced.fits_ofScaled] at h
  have hproduct : (x * y).toRat = x.toRat * y.toRat := by
    change (ofScaled _ _).toRat = _
    rw [toRat_ofScaled _ h.1, toRat, toRat, neg_add, zpow_add₀ (by norm_num)]
    push_cast
    ring
  rw [← hproduct]
  exact toRat_round_eq h.2

/-! ### Sums -/

omit [LinearOrder K] [IsStrictOrderedRing K] [FloorRing K] in
/-- A last digit as a tail of the digits in front of it. -/
theorem digit_eq_tail [CharZero K] (n d k : Int) :
    ((n * 10 + d : Int) : K) * 10 ^ (k - 1) = (n + (d : K) / 10) * 10 ^ k := by
  rw [zpow_sub_one₀ (by norm_num)]
  push_cast
  field_simp

omit [FloorRing K] in
theorem abs_digit_lt {d : Int} (hd : d.natAbs = 1) : |(d : K) / 10| < 1 := by
  have hone : |(d : K)| = 1 := by
    rw [← Int.cast_abs, Int.abs_eq_natAbs, hd]
    norm_num
  rw [abs_div, hone]
  norm_num

omit [FloorRing K] in
theorem digit_side {a : K} {d : Int} (hside : 0 < a * d) : 0 < a * ((d : K) / 10) := by
  rw [← mul_div_assoc]
  exact div_pos hside (by norm_num)

/-- A last digit that stands for what follows, behind more digits than are kept. -/
theorem rounded_tail {n d k : Int} {a : K} (hlong : (10 : K) ^ ctx.precision ≤ |n + a|)
    (ha : |a| < 1) (hd : d.natAbs = 1) (hside : 0 < a * d) :
    ctx.rounded (((n * 10 + d : Int) : K) * 10 ^ (k - 1)) = ctx.rounded ((n + a) * 10 ^ k) := by
  rw [digit_eq_tail]
  exact (Rounding.significant_tail k hlong ctx.precision_pos ha (abs_digit_lt hd)
    (digit_side hside)).symm

theorem natAbs_sign (hx : x.unscaled ≠ 0) : x.sign.natAbs = 1 := Int.natAbs_sign_of_ne_zero hx

/-- Exponents that stop at the end of the range are no further apart than those that do not. -/
theorem exponents_apart (hx : x.unscaled ≠ 0) (hy : y.unscaled ≠ 0) (hle : y.exponent ≤ x.exponent)
    {n : Nat} (h : n < (x.exponent - y.exponent).natAbs) :
    (y.digitCount : Int) - y.scale + n < x.digitCount - x.scale := by
  rw [exponent_eq_saturate hx, exponent_eq_saturate hy] at hle h
  have hdistance := Word.saturate_distance (x.digitCount - 1 - x.scale) (y.digitCount - 1 - y.scale)
  obtain horder | horder := le_total ((x.digitCount : Int) - 1 - x.scale) (y.digitCount - 1 - y.scale)
  · have := Word.saturate_mono horder
    omega
  · omega

theorem toRat_padded (x : Decimal) (pad : Nat) :
    x.toRat = ((x.unscaled * pow10 pad : Int) : ℚ) * 10 ^ (-(x.scale + pad)) := by
  have hvalue := integerAt_toRat (show x.scale ≤ x.scale + pad by omega)
  rwa [integerAt, add_sub_cancel_left, Int.natAbs_natCast, eq_comm] at hvalue

theorem pow_le_padded {large : Decimal} {pad : Nat} {a : ℚ} (hlarge : large.unscaled ≠ 0)
    (hpad : ctx.precision + 2 ≤ large.digitCount + pad) (ha : |a| < 1) :
    (10 : ℚ) ^ ctx.precision ≤ |((large.unscaled * pow10 pad : Int) : ℚ) + a| := by
  have hdigits : 10 ^ (ctx.precision + 1) ≤ (large.unscaled * pow10 pad).natAbs := by
    have hpos : 0 < large.digitCount := digitCount_pos _
    have hlower := pow10_le_natAbs hlarge (Nat.sub_lt hpos one_pos)
    rw [Int.natAbs_mul, Int.natAbs_natCast]
    refine le_trans ?_ (Nat.mul_le_mul_right _ hlower)
    unfold pow10
    rw [Nat.pow_eq, Nat.pow_eq, ← pow_add]
    exact Nat.pow_le_pow_right (by decide) (by omega)
  have hsize : (10 : ℚ) ^ ctx.precision * 10 ≤ |((large.unscaled * pow10 pad : Int) : ℚ)| := by
    rw [← pow_succ, ← Int.cast_abs, Int.abs_eq_natAbs]
    exact_mod_cast hdigits
  have hone : (1 : ℚ) ≤ 10 ^ ctx.precision := one_le_pow₀ (by norm_num)
  have hdifference := abs_sub_abs_le_abs_add ((large.unscaled * pow10 pad : Int) : ℚ) a
  linarith

/-- A sum with a number that is too small to reach the digits that are kept: the greater number in
units of the place in front of the nudge, with a tail on the side of the smaller one. -/
theorem nudge_tail {large small : Decimal} {pad : Nat} (hlarge : large.unscaled ≠ 0)
    (hsmall : small.unscaled ≠ 0) (hpad : ctx.precision + 2 ≤ large.digitCount + pad)
    (hgap : (small.digitCount : Int) - small.scale ≤ -(large.scale + pad)) :
    ∃ a : ℚ, large.toRat + small.toRat =
        (((large.unscaled * pow10 pad : Int) : ℚ) + a) * 10 ^ (-(large.scale + pad)) ∧
      (10 : ℚ) ^ ctx.precision ≤ |((large.unscaled * pow10 pad : Int) : ℚ) + a| ∧
      |a| < 1 ∧ 0 < a * small.sign := by
  have hgrid : (0 : ℚ) < 10 ^ (-(large.scale + pad)) := by positivity
  have hsmaller : |small.toRat / 10 ^ (-(large.scale + pad))| < 1 := by
    have hlt : small.abs.toRat < 10 ^ ((small.digitCount : Int) - small.scale) :=
      toRat_lt_pow (Int.natCast_pos.2 (Int.natAbs_pos.2 hsmall))
    rw [abs_div, abs_of_pos hgrid, div_lt_one hgrid, ← toRat_abs]
    exact hlt.trans_le (zpow_le_zpow_right₀ (by norm_num) hgap)
  refine ⟨small.toRat / 10 ^ (-(large.scale + pad)), ?_, pow_le_padded hlarge hpad hsmaller,
    hsmaller, ?_⟩
  · rw [add_mul, div_mul_cancel₀ _ hgrid.ne', ← toRat_padded]
  · rw [div_mul_eq_mul_div]
    refine div_pos ?_ hgrid
    obtain hneg | hpos := lt_or_gt_of_ne (mt toRat_eq_zero.1 hsmall)
    · rw [sign_of_neg hneg]
      push_cast
      linarith
    · rw [sign_of_pos hpos]
      push_cast
      linarith

theorem toRat_nudged {large small : Decimal} {pad : Nat}
    (hfits : Word.Fits (large.scale + (pad + 1 : Nat))) :
    (ofScaled (large.unscaled * pow10 (pad + 1) + small.sign)
      (large.scale + (pad + 1 : Nat))).toRat =
      ((large.unscaled * pow10 pad * 10 + small.sign : Int) : ℚ) *
        10 ^ (-(large.scale + pad) - 1) := by
  rw [toRat_ofScaled _ hfits, pow10_succ, Nat.cast_mul, Nat.cast_ofNat, mul_assoc]
  congr 2
  push_cast
  ring

/-- A nudge stands for a number that is too small to reach the digits that are kept. -/
theorem rounded_nudge {large small : Decimal} {pad : Nat} (hlarge : large.unscaled ≠ 0)
    (hsmall : small.unscaled ≠ 0) (hpad : ctx.precision + 2 ≤ large.digitCount + pad)
    (hfits : Word.Fits (large.scale + (pad + 1 : Nat)))
    (hgap : (small.digitCount : Int) - small.scale ≤ -(large.scale + pad)) :
    ctx.rounded (ofScaled (large.unscaled * pow10 (pad + 1) + small.sign)
      (large.scale + (pad + 1 : Nat))).toRat = ctx.rounded (large.toRat + small.toRat) := by
  obtain ⟨a, hsum, hlong, ha, hside⟩ := nudge_tail hlarge hsmall hpad hgap
  rw [hsum, toRat_nudged hfits]
  exact rounded_tail hlong ha (natAbs_sign hsmall) hside

theorem value_add (h : (Traced.add ctx x y).Fits) :
    (ctx.add x y).toRat = ctx.rounded (x.toRat + y.toRat) := by
  unfold Traced.add at h
  unfold add
  split at h
  · next hx => rw [if_pos hx, toRat_round_eq h, isZero_iff.1 hx, zero_add]
  next hx =>
  rw [if_neg hx]
  split at h
  · next hy => rw [if_pos hy, toRat_round_eq h, isZero_iff.1 hy, add_zero]
  next hy =>
  rw [if_neg hy]
  simp only [isZero, beq_iff_eq] at hx hy
  obtain ⟨large, small, hpair, hlarge, hsmall, horder, hsum⟩ := ordered_operands hx hy
  rw [hpair] at h ⊢
  simp only at h ⊢
  split at h
  · next hgap =>
    rw [if_pos hgap]
    rw [Traced.fits_bind_of_ok rfl, Traced.fits_ofScaled] at h
    rw [toRat_round_eq h.2, ← Decimal.toRat_add, hsum, Decimal.toRat_add]
    have hapart := exponents_apart hlarge hsmall horder hgap
    refine rounded_nudge hlarge hsmall ?_ h.1 ?_ <;> omega
  · next hgap => rw [if_neg hgap, toRat_round_eq h, Decimal.toRat_add]

/-! ### Quotients -/

theorem tail_eq_sign (hx : x.unscaled ≠ 0) (hy : y.unscaled ≠ 0) :
    (if x.isNegative = y.isNegative then 1 else -1 : Int) = x.sign * y.sign := by
  have hsign {x : Decimal} (hx : x.unscaled ≠ 0) : x.sign = if x.isNegative then -1 else 1 := by
    unfold sign isNegative
    obtain hneg | hpos := lt_or_gt_of_ne hx
    · rw [Int.sign_eq_neg_one_of_neg hneg, decide_eq_true hneg, if_pos rfl]
    · rw [Int.sign_eq_one_of_pos hpos, decide_eq_false hpos.not_gt, if_neg Bool.false_ne_true]
  rw [hsign hx, hsign hy]
  cases x.isNegative <;> cases y.isNegative <;> rfl

/-- A quotient with more digits than are kept, cut off, and a tail on the side of what is left. -/
theorem rounded_quotient {n d tail k : Int} (hd : d ≠ 0)
    (hlong : pow10 ctx.precision * d.natAbs ≤ n.natAbs) (hrest : n.tmod d ≠ 0)
    (htail : tail = n.sign * d.sign) :
    ctx.rounded (((n.tdiv d * 10 + tail : Int) : ℚ) * 10 ^ (k - 1)) =
      ctx.rounded ((n : ℚ) / d * 10 ^ k) := by
  have hd' : (d : ℚ) ≠ 0 := Int.cast_ne_zero.2 hd
  have hn : n ≠ 0 := by
    rintro rfl
    exact hrest (Int.zero_tmod d)
  have hsplit : (n : ℚ) / d = (n.tdiv d : Int) + (n.tmod d : Int) / (d : ℚ) := by
    rw [div_eq_iff hd', add_mul, div_mul_cancel₀ _ hd']
    exact_mod_cast (Int.tdiv_mul_add_tmod n d).symm
  have habs : (0 : ℚ) < |(d : ℚ)| := abs_pos.2 hd'
  rw [hsplit]
  -- the rest is below one divisor, and its sign is that of the tail
  refine rounded_tail ?_ ?_ ?_ ?_
  · rw [← hsplit, abs_div, le_div_iff₀ habs, ← Int.cast_abs, ← Int.cast_abs, Int.abs_eq_natAbs,
      Int.abs_eq_natAbs]
    exact_mod_cast hlong
  · rw [abs_div, div_lt_one habs, ← Int.cast_abs, ← Int.cast_abs, Int.cast_lt, Int.abs_eq_natAbs,
      Int.abs_eq_natAbs, Int.natAbs_tmod]
    exact_mod_cast Nat.mod_lt _ (Int.natAbs_pos.2 hd)
  · rw [htail, Int.natAbs_mul, Int.natAbs_sign_of_ne_zero hn, Int.natAbs_sign_of_ne_zero hd]
  · have hside : 0 < n.tmod d * d * tail := by
      rw [← Int.sign_eq_one_iff_pos, Int.sign_mul, Int.sign_mul, Int.sign_tmod,
        if_neg (fun hdvd => hrest (Int.tmod_eq_zero_of_dvd hdvd)), htail, Int.sign_mul,
        Int.sign_sign, Int.sign_sign, ← Int.sign_mul, ← Int.sign_mul]
      exact Int.sign_eq_one_of_pos (mul_self_pos.2 (mul_ne_zero hn hd))
    have hside' : (0 : ℚ) < n.tmod d * d * tail := by exact_mod_cast hside
    rw [div_mul_eq_mul_div, ← mul_div_mul_right _ _ hd', mul_right_comm]
    exact div_pos hside' (mul_self_pos.2 hd')

theorem toRat_div_toRat (hy : y.unscaled ≠ 0) (shift : Nat) :
    x.toRat / y.toRat = ((x.unscaled * pow10 shift : Int) : ℚ) / y.unscaled *
      10 ^ (-(x.scale - y.scale + shift)) := by
  have hpow : ((pow10 shift : Nat) : ℚ) = 10 ^ (shift : Int) := by simp [pow10]
  have hy' : (y.unscaled : ℚ) ≠ 0 := Int.cast_ne_zero.2 hy
  rw [toRat, toRat, neg_add, zpow_add₀ (by norm_num), neg_sub, sub_eq_add_neg,
    zpow_add₀ (by norm_num), zpow_neg 10 (shift : Int), zpow_neg 10 y.scale]
  push_cast
  rw [hpow]
  field_simp

/-- An even quotient is the exact one. -/
theorem toRat_div_of_even (hy : y.unscaled ≠ 0) {shift : Nat}
    (heven : (x.unscaled * pow10 shift).tmod y.unscaled = 0) :
    x.toRat / y.toRat =
      ((x.unscaled * pow10 shift).tdiv y.unscaled : Int) * 10 ^ (-(x.scale - y.scale + shift)) := by
  have hcancel := Int.tdiv_mul_cancel (Int.dvd_of_tmod_eq_zero heven)
  rw [toRat_div_toRat hy shift]
  conv_lhs => rw [← hcancel]
  rw [Int.cast_mul, mul_div_cancel_right₀ _ (Int.cast_ne_zero.2 hy)]

/-- The quotient that is cut off is rounded like the exact one. -/
theorem rounded_inexact (hx : x.unscaled ≠ 0) (hy : y.unscaled ≠ 0) {shift : Nat}
    (hlong : pow10 (ctx.precision + 2 + y.digitCount) ≤ (x.unscaled * pow10 shift).natAbs)
    (hinexact : (x.unscaled * pow10 shift).tmod y.unscaled ≠ 0) :
    ctx.rounded (((x.unscaled * pow10 shift).tdiv y.unscaled * 10 +
        (if x.isNegative = y.isNegative then 1 else -1) : Int) *
          10 ^ (-(x.scale - y.scale + shift + 1)) : ℚ) = ctx.rounded (x.toRat / y.toRat) := by
  rw [toRat_div_toRat hy shift, neg_add, ← sub_eq_add_neg]
  refine rounded_quotient hy ?_ hinexact ?_
  · have hupper : y.unscaled.natAbs < pow10 y.digitCount := lt_pow10_digitCount _
    refine le_trans (Nat.mul_le_mul_left _ hupper.le) (le_trans ?_ hlong)
    unfold pow10
    rw [Nat.pow_eq, Nat.pow_eq, Nat.pow_eq, ← pow_add]
    exact Nat.pow_le_pow_right (by decide) (by omega)
  · rw [tail_eq_sign hx hy, Int.sign_mul, Int.sign_natCast_of_ne_zero (pow10_pos shift).ne',
      mul_one]
    rfl

theorem value_div {z : Decimal} (h : (Traced.div ctx x y).Fits) (hz : ctx.div x y = .ok z) :
    z.toRat = ctx.rounded (x.toRat / y.toRat) := by
  unfold Traced.div at h
  unfold div at hz
  split at h
  · next hy => simp [hy] at hz
  next hy =>
  rw [if_neg hy] at hz
  split at h
  · next hx =>
    rw [if_pos hx] at hz
    obtain rfl := Except.ok.inj hz
    rw [isZero_iff.1 hx, zero_div, toRat_zero]
    exact Rounding.significant_zero.symm
  next hx =>
  rw [if_neg hx] at hz
  simp only [isZero, beq_iff_eq] at hx hy
  -- enough zeros stand behind the dividend for the quotient to have more digits than are kept
  have hlong := pow10_le_dividend ctx hx y
  rw [Traced.fits_bind_of_ok rfl, Traced.fits_saturate] at h
  simp only at h hz
  obtain ⟨hpreferred, h⟩ := h
  rw [Word.saturate_of_fits hpreferred] at h hz
  generalize ctx.precision + 3 + y.digitCount - x.digitCount = shift at *
  split at h
  · next hexact =>
    rw [if_pos hexact] at hz
    obtain rfl := Except.ok.inj hz
    rw [Traced.fits_bind_of_ok rfl, Traced.fits_ofScaled,
      Traced.fits_bind_of_ok Traced.result_round] at h
    rw [toRat_strip hpreferred.1, toRat_round_eq h.2.1, toRat_ofScaled _ h.1,
      toRat_div_of_even hy hexact]
  · next hinexact =>
    rw [if_neg hinexact] at hz
    obtain rfl := Except.ok.inj hz
    rw [Traced.fits_bind_of_ok rfl, Traced.fits_ofScaled] at h
    rw [toRat_round_eq h.2, toRat_ofScaled _ h.1]
    exact rounded_inexact hx hy hlong hinexact

end Context

end Reckoner
