import Mathlib.Analysis.SpecialFunctions.Pow.NthRootLemmas
import Mathlib.Analysis.SpecialFunctions.Pow.Real
import Reckoner.Proofs.Scales.Operations

/-!
# Whole roots of values

Newton's steps end at the root rounded down, which is the whole part of the real root of the
integer that has been padded with zeros. So a root of a positive decimal is the real root of its
value rounded to the digits of the context.
-/

namespace Reckoner

namespace Integer

variable {n a x : Nat}

theorem pow_lowerRoot_le (n a x : Nat) : lowerRoot (n + 1) a x ^ (n + 1) ≤ a := by
  fun_induction lowerRoot (n + 1) a x with
  | case1 x next hlt ih => exact ih
  | case2 x next hle =>
    have hstop : x * (n + 1) ≤ n * x + a / x ^ n :=
      (Nat.le_div_iff_mul_le n.succ_pos).1 (not_lt.1 hle)
    have hquotient : x ≤ a / x ^ n := by linarith
    rw [pow_succ']
    exact Nat.mul_le_of_le_div _ _ _ hquotient

/-- No step goes below the root. -/
theorem lt_pow_lowerRoot (h : a < (x + 1) ^ (n + 1)) :
    a < (lowerRoot (n + 1) a x + 1) ^ (n + 1) := by
  fun_induction lowerRoot (n + 1) a x with
  | case1 x next hlt ih =>
    refine ih ?_
    have hstep := Nat.nthRoot.lt_pow_go_succ_aux (a := a) (n := n) (Nat.ne_zero_of_lt hlt)
    rwa [add_comm (a / x ^ n)] at hstep
  | case2 x next hle => exact h

theorem lt_pow_start (hn : n ≠ 0) (a : Nat) : a < (2 ^ (a.log2 / n + 1)) ^ n := by
  have hexponent : a.log2 + 1 ≤ (a.log2 / n + 1) * n := by
    have hmod := Nat.div_add_mod' a.log2 n
    have hlt := Nat.mod_lt a.log2 (Nat.pos_of_ne_zero hn)
    rw [add_mul, one_mul]
    omega
  rw [← pow_mul]
  exact Nat.lt_log2_self.trans_le (Nat.pow_le_pow_right (by decide) hexponent)

theorem floorRoot_eq_nthRoot (hn : n ≠ 0) (a : Nat) : floorRoot n a = Nat.nthRoot n a := by
  obtain ⟨n, rfl⟩ := Nat.exists_eq_succ_of_ne_zero hn
  unfold floorRoot
  split
  · next hzero => rw [hzero, Nat.nthRoot_zero_right hn]
  · refine (Nat.nthRoot_eq_of_le_of_lt (pow_lowerRoot_le n a _) (lt_pow_lowerRoot ?_)).symm
    exact (lt_pow_start hn a).trans_le (Nat.pow_le_pow_left (Nat.le_succ _) _)

end Integer

open Integer Decimal

variable {ctx : Context} {x : Decimal} {degree : Nat}

namespace Traced

def wholeRoot (ctx : Context) (x : Decimal) (degree : Nat) : Traced Decimal := do
  let shift := (ctx.precision + 2) * degree - x.digitCount
  let scale ← saturate (x.scale + shift)
  let pad := (-scale) % degree
  let radicand := x.unscaled.natAbs * Integer.pow10 (shift + pad.natAbs)
  let root := Integer.floorRoot degree radicand
  let rootScale := (scale + pad) / degree
  if root.pow degree = radicand then do
    let exact ← ofScaled root rootScale
    let rounded ← round ctx exact
    return rounded.strip (x.scale / degree)
  else
    let inexact ← ofScaled (root * 10 + 1) (rootScale + 1)
    round ctx inexact

def sqrt (ctx : Context) (x : Decimal) : Traced Decimal :=
  if x.isNegative then lift (.error (.undefined "sqrt" "argument must not be negative"))
  else if x.isZero then pure 0
  else wholeRoot ctx x 2

@[simp] theorem result_wholeRoot : (wholeRoot ctx x degree).result = .ok (ctx.wholeRoot x degree) := by
  unfold wholeRoot Context.wholeRoot
  rw [result_bind, result_saturate]
  change Traced.result (if _ then _ else _) = _
  rw [result_ite]
  simp only
  split
  · rw [result_bind, result_ofScaled]
    change (round _ _ >>= _).result = _
    rw [result_bind, result_round]
    rfl
  · rw [result_bind, result_ofScaled]
    exact result_round

@[simp] theorem result_sqrt : (sqrt ctx x).result = ctx.sqrt x := by
  unfold sqrt Context.sqrt
  split
  · rfl
  split
  · rfl
  · exact result_wholeRoot

end Traced

namespace Context

/-- A real root lies between the root that is rounded down and the next integer. -/
theorem floorRoot_bounds (hd : degree ≠ 0) {σ : ℝ} (hσ : 0 ≤ σ) {a : Nat} (h : σ ^ degree = a) :
    (floorRoot degree a : ℝ) ≤ σ ∧ σ < floorRoot degree a + 1 := by
  rw [floorRoot_eq_nthRoot hd]
  constructor
  · refine (pow_le_pow_iff_left₀ (Nat.cast_nonneg _) hσ hd).1 ?_
    rw [h]
    exact_mod_cast Nat.pow_nthRoot_le (.inl hd)
  · refine (pow_lt_pow_iff_left₀ hσ (by positivity) hd).1 ?_
    rw [h]
    exact_mod_cast Nat.lt_pow_nthRoot_add_one hd a

/-- The real root of the padded integer, where the padding makes the scale a multiple of the
degree. -/
theorem pow_root_padded (hx : 0 < x.unscaled) {ρ : ℝ} (hpow : ρ ^ degree = x.toRat)
    {shift pad : Nat} {rootScale : Int} (hscales : rootScale * degree = x.scale + shift + pad) :
    (ρ * 10 ^ rootScale) ^ degree = ((x.unscaled.natAbs * pow10 (shift + pad) : Nat) : ℝ) := by
  have hunscaled : ((x.unscaled.natAbs : Nat) : ℝ) = x.unscaled := by
    rw [Nat.cast_natAbs, abs_of_pos hx]
  have hpow10 : ((pow10 (shift + pad) : Nat) : ℝ) = 10 ^ ((shift + pad : Nat) : Int) := by
    rw [zpow_natCast]
    simp [pow10]
  rw [mul_pow, hpow, cast_toRat, ← zpow_natCast (10 ^ rootScale), ← zpow_mul, hscales,
    Nat.cast_mul, hunscaled, hpow10, mul_assoc, ← zpow_add₀ (by norm_num)]
  congr 2
  push_cast
  ring

theorem pow_le_radicand {shift : Nat} (hx : x.unscaled ≠ 0)
    (hlong : ctx.precision * degree < x.digitCount + shift) (pad : Nat) :
    10 ^ (ctx.precision * degree) ≤ x.unscaled.natAbs * pow10 (shift + pad) := by
  have hpos : 0 < x.digitCount := digitCount_pos _
  refine le_trans ?_ (Nat.mul_le_mul_right _ (pow10_le_natAbs hx (Nat.sub_lt hpos one_pos)))
  unfold pow10
  rw [Nat.pow_eq, Nat.pow_eq, ← pow_add]
  exact Nat.pow_le_pow_right (by decide) (by omega)

/-- A root with more digits than are kept, cut off, and a one for what is left. -/
theorem rounded_root {root : Nat} {σ : ℝ} (k : Int) (hlong : (10 : ℝ) ^ ctx.precision ≤ σ)
    (hbelow : root < σ) (hceil : σ < root + 1) :
    ctx.rounded (((root * 10 + 1 : Int) : ℝ) * 10 ^ (k - 1)) = ctx.rounded (σ * 10 ^ k) := by
  have hpos : 0 ≤ σ := le_trans (by positivity) hlong
  have htail : ctx.rounded (((root * 10 + 1 : Int) : ℝ) * 10 ^ (k - 1)) =
      ctx.rounded (((root : Int) + (σ - root)) * 10 ^ k) := by
    refine rounded_tail ?_ ?_ rfl ?_
    · rwa [Int.cast_natCast, add_sub_cancel, abs_of_nonneg hpos]
    · rw [abs_of_pos (by linarith)]
      linarith
    · rw [Int.cast_one, mul_one]
      linarith
  rwa [Int.cast_natCast, add_sub_cancel] at htail

/-- The zeros of the padding make the scale a multiple of the degree. -/
theorem padded_scale (scale : Int) (degree : Nat) :
    (scale + -scale % degree) / degree * degree = scale + -scale % degree := by
  have hsplit := Int.emod_add_mul_ediv (-scale) degree
  exact Int.ediv_mul_cancel ⟨-(-scale / degree), by linarith⟩

theorem least_le_ediv (hd : 0 < degree) (x : Decimal) : Word.least ≤ x.scale / degree := by
  rw [Int.le_ediv_iff_mul_le (by omega)]
  have hleast := x.scale_fits.1
  unfold Word.least at *
  nlinarith

theorem value_exact_root {root : Nat} {k lowest : Int} (hlowest : Word.least ≤ lowest)
    (hk : Word.Fits k) (h : (Traced.round ctx (ofScaled root k)).Fits) :
    (((ctx.round (ofScaled root k)).strip lowest).toRat : ℝ) =
      ctx.rounded ((root : ℝ) * 10 ^ (-k)) := by
  rw [toRat_strip hlowest, value_round h, toRat_ofScaled _ hk]
  push_cast
  rfl

theorem value_inexact_root {root : Nat} {σ : ℝ} {k : Int}
    (hlong : (10 : ℝ) ^ ctx.precision ≤ σ) (hbelow : root < σ) (hceil : σ < root + 1)
    (hk : Word.Fits (k + 1))
    (h : (Traced.round ctx (ofScaled (root * 10 + 1) (k + 1))).Fits) :
    ((ctx.round (ofScaled (root * 10 + 1) (k + 1))).toRat : ℝ) = ctx.rounded (σ * 10 ^ (-k)) := by
  rw [value_round h, toRat_ofScaled _ hk, ← rounded_root (-k) hlong hbelow hceil, neg_add,
    ← sub_eq_add_neg]
  push_cast
  rfl

/-- The root of a positive decimal is the real root of its value, rounded. -/
theorem value_wholeRoot (hd : 0 < degree) (hx : 0 < x.unscaled)
    (h : (Traced.wholeRoot ctx x degree).Fits) {ρ : ℝ} (hρ : 0 < ρ) (hpow : ρ ^ degree = x.toRat) :
    ((ctx.wholeRoot x degree).toRat : ℝ) = ctx.rounded ρ := by
  unfold Traced.wholeRoot at h
  unfold wholeRoot
  rw [Traced.fits_bind_of_ok rfl, Traced.fits_saturate] at h
  simp only at h ⊢
  obtain ⟨hscale, h⟩ := h
  rw [Word.saturate_of_fits hscale] at h ⊢
  have hlong : ctx.precision * degree <
      x.digitCount + ((ctx.precision + 2) * degree - x.digitCount) := by
    rw [add_mul]
    omega
  generalize (ctx.precision + 2) * degree - x.digitCount = shift at *
  have hscales := padded_scale (x.scale + shift) degree
  have hdegree : (degree : Int) ≠ 0 := by omega
  obtain ⟨pad, hpad⟩ := Int.eq_ofNat_of_zero_le (Int.emod_nonneg (-(x.scale + shift)) hdegree)
  rw [hpad] at hscales
  rw [hpad, Int.natAbs_natCast] at h ⊢
  generalize (x.scale + shift + pad) / degree = k at *
  -- `σ` is the real root of the padded integer, and `root` is what is left of it below the point
  have hσ := pow_root_padded hx hpow hscales
  have hσ0 : 0 ≤ ρ * 10 ^ k := by positivity
  have hσlong : (10 : ℝ) ^ ctx.precision ≤ ρ * 10 ^ k := by
    refine (pow_le_pow_iff_left₀ (by positivity) hσ0 hd.ne').1 ?_
    rw [hσ, ← pow_mul]
    exact_mod_cast pow_le_radicand hx.ne' hlong pad
  obtain ⟨hfloor, hceil⟩ := floorRoot_bounds hd.ne' hσ0 hσ
  have hρσ : ρ = ρ * 10 ^ k * 10 ^ (-k) := by
    rw [mul_assoc, ← zpow_add₀ (by norm_num), add_neg_cancel, zpow_zero, mul_one]
  generalize ρ * 10 ^ k = σ at *
  generalize floorRoot degree (x.unscaled.natAbs * pow10 (shift + pad)) = root at *
  rw [hρσ]
  split at h
  · next hexact =>
    rw [if_pos hexact]
    rw [Traced.fits_bind_of_ok rfl, Traced.fits_ofScaled,
      Traced.fits_bind_of_ok Traced.result_round] at h
    have hroot : (root : ℝ) = σ := by
      refine (pow_left_inj₀ (Nat.cast_nonneg _) hσ0 hd.ne').1 ?_
      rw [hσ]
      exact_mod_cast hexact
    rw [← hroot]
    exact value_exact_root (least_le_ediv hd x) h.1 h.2.1
  · next hinexact =>
    rw [if_neg hinexact]
    rw [Traced.fits_bind_of_ok rfl, Traced.fits_ofScaled] at h
    have hbelow : (root : ℝ) < σ := by
      refine lt_of_le_of_ne hfloor fun heq => hinexact ?_
      rw [← heq] at hσ
      exact_mod_cast hσ
    exact value_inexact_root hσlong hbelow hceil h.1 h.2

end Context

end Reckoner
