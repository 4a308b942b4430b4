import Reckoner.Proofs.Rounding.Mirrors
import Reckoner.Proofs.Rounding.WholeRoots

/-!
# Odd roots of negative numbers

An odd root of a negative number is the negative of the root of its size, and that root has been
rounded without knowing of the sign. So the real root is rounded in the mirrored mode: a context that
rounds up answers with a number below the real root, unless the root is short enough to be met.
-/

namespace Reckoner

open Decimal

variable {ctx : Context} {x r : Decimal} {degree : Nat}

namespace Rounding

variable {K : Type*} [Field K] [LinearOrder K] [IsStrictOrderedRing K] [FloorRing K]
  {mode : Rounding} {digits : Nat} {q : K}

/-- The two directed modes agree on the short numbers only. -/
theorem significant_mirror_eq_iff (hdigits : 0 < digits) :
    mode.mirror.significant digits q = mode.significant digits q ↔
      mode.mirror = mode ∨ Short digits q := by
  constructor
  · intro heq
    refine or_iff_not_imp_left.2 fun hmirror => ?_
    have hdirected : floor.significant digits q = ceiling.significant digits q := by
      cases mode with
      | ceiling => exact heq
      | floor => exact heq.symm
      | up | down | halfUp | halfDown | halfEven => exact absurd rfl hmirror
    have hmet : floor.significant digits q = q :=
      le_antisymm (significant_floor_le digits q)
        ((le_significant_ceiling digits q).trans_eq hdirected.symm)
    rw [← hmet]
    exact short_significant hdigits q
  · rintro (hmirror | hshort)
    · rw [hmirror]
    · rw [hshort.significant, hshort.significant]

end Rounding

namespace Context

theorem value_rootOfPositive (hdegree : 0 < degree) (hlimit : degree ≤ wholeRootLimit)
    (hx : 0 < x.unscaled) (h : (Traced.rootOfPositive ctx x degree).Fits)
    (hr : ctx.rootOfPositive x degree = .ok r) {ρ : ℝ} (hρ : 0 < ρ)
    (hpow : ρ ^ degree = x.toRat) : (r.toRat : ℝ) = ctx.rounded ρ := by
  unfold Traced.rootOfPositive at h
  unfold rootOfPositive at hr
  rw [if_neg hlimit.not_gt] at h hr
  split at h
  · next hone =>
    rw [if_pos hone] at hr
    obtain rfl := Except.ok.inj hr
    rw [hone, pow_one] at hpow
    rw [value_round h, ← hpow]
  · next hone =>
    rw [if_neg hone] at hr
    obtain rfl := Except.ok.inj hr
    exact value_wholeRoot hdegree hx h hρ hpow

/-- A root of small degree has no more digits than the context. -/
theorem rootOfPositive_digits (ctx : Context) (x : Decimal) (hlimit : degree ≤ wholeRootLimit) :
    ∃ r, ctx.rootOfPositive x degree = .ok r ∧ r.digitCount ≤ ctx.precision := by
  unfold rootOfPositive
  rw [if_neg hlimit.not_gt]
  split
  · exact ⟨_, rfl, digitCount_round_le⟩
  · exact ⟨_, rfl, digitCount_wholeRoot_le⟩

/-- The root of a negative number is taken of its size. -/
theorem rootOfDegree_of_neg (ctx : Context) (hodd : degree % 2 = 1) (hx : x.unscaled < 0) :
    ctx.rootOfDegree x degree = (do return -(← ctx.rootOfPositive (-x) degree)) ∧
      Traced.rootOfDegree ctx x degree = (do return -(← Traced.rootOfPositive ctx (-x) degree)) := by
  have hzero : ¬ x.isZero = true := by simpa [isZero] using hx.ne
  have hnegative : x.isNegative = true := by simpa [isNegative] using hx
  unfold rootOfDegree Traced.rootOfDegree
  constructor <;>
    rw [if_neg (by omega), if_neg hzero, if_pos hnegative, if_neg (by omega)]

/-- The real root of a negative number is the negative of that of its size. -/
theorem exists_root_of_neg (hodd : degree % 2 = 1) (hx : x.unscaled < 0) :
    ∃ ρ : ℝ, 0 < ρ ∧ ρ ^ degree = (-x).toRat ∧ (-ρ) ^ degree = x.toRat := by
  have hpos : (0 : ℝ) < (-x).toRat := Rat.cast_pos.2 (toRat_pos.2 (Int.neg_pos.2 hx))
  have hpow : (((-x).toRat : ℝ) ^ (degree : ℝ)⁻¹) ^ degree = (-x).toRat :=
    Real.rpow_inv_natCast_pow hpos.le (by omega)
  refine ⟨_, Real.rpow_pos_of_pos hpos _, hpow, ?_⟩
  rw [(Nat.odd_iff.2 hodd).neg_pow, hpow, toRat_neg, Rat.cast_neg, neg_neg]

/-- An odd root of small degree of a negative number always comes out, with no more digits than the
context has. Where no scale stops at the end of the word range it is the real root, rounded in the
mirrored mode. So it is right in the modes that are their own mirror, and where nothing is rounded. -/
theorem rootOfDegree_eq_mirrored (ctx : Context) (x : Decimal) (degree : Nat)
    (hodd : degree % 2 = 1) (hlimit : degree ≤ wholeRootLimit) (hx : x.unscaled < 0) :
    ∃ r, ctx.rootOfDegree x degree = .ok r ∧ r.digitCount ≤ ctx.precision ∧
      ((Traced.rootOfDegree ctx x degree).Fits → ∃ ρ : ℝ, ρ ^ degree = x.toRat ∧
        (r.toRat : ℝ) = ctx.rounding.mirror.significant ctx.precision ρ ∧
        ((r.toRat : ℝ) = ctx.rounded ρ ↔
          ctx.rounding.mirror = ctx.rounding ∨ Rounding.Short ctx.precision ρ)) := by
  obtain ⟨hroot, htraced⟩ := rootOfDegree_of_neg ctx hodd hx
  obtain ⟨r, hr, hdigits⟩ := rootOfPositive_digits ctx (-x) hlimit
  have hresult : ctx.rootOfDegree x degree = .ok (-r) := by
    rw [hroot, hr]
    rfl
  refine ⟨-r, hresult, ?_, fun hfits => ?_⟩
  · rwa [digitCount_neg]
  have htraced' : (Traced.rootOfPositive ctx (-x) degree).result = .ok r := by
    rw [Traced.result_rootOfPositive, hr]
  rw [htraced, Traced.fits_bind_of_ok htraced'] at hfits
  obtain ⟨ρ, hρ, hpow, hpow'⟩ := exists_root_of_neg hodd hx
  have hvalue : (r.toRat : ℝ) = ctx.rounded ρ :=
    value_rootOfPositive (by omega) hlimit (Int.neg_pos.2 hx) hfits.1 hr hρ hpow
  have hmirrored : (((-r).toRat : ℚ) : ℝ) = ctx.rounding.mirror.significant ctx.precision (-ρ) := by
    rw [toRat_neg, Rat.cast_neg, hvalue, Rounding.significant_neg, Rounding.mirror_mirror]
    rfl
  refine ⟨-ρ, hpow', hmirrored, ?_⟩
  rw [hmirrored]
  exact Rounding.significant_mirror_eq_iff ctx.precision_pos

/-- A context that rounds up takes the cube root of minus two as one that rounds down should. -/
theorem rootOfDegree_eq_mirrored_cube :
    let ctx : Context := ⟨2, .ceiling, by decide⟩
    ctx.rootOfDegree (-2) 3 = .ok (ofScaled (-13) 1) ∧
      ∃ ρ : ℝ, ρ ^ 3 = ((-2 : Decimal).toRat : ℝ) ∧
        ((ofScaled (-13) 1).toRat : ℝ) = Rounding.floor.significant 2 ρ := by
  intro ctx
  have hroot : ctx.rootOfDegree (-2) 3 = .ok (ofScaled (-13) 1) := by decide +kernel
  obtain ⟨r, hr, -, hvalue⟩ :=
    rootOfDegree_eq_mirrored ctx (-2) 3 (by decide) (by decide) (by decide)
  obtain rfl := Except.ok.inj (hr.symm.trans hroot)
  obtain ⟨ρ, hpow, hmirrored, -⟩ := hvalue (by decide +kernel)
  exact ⟨hroot, ρ, hpow, hmirrored⟩

/-- So the answer is below the real root, and is not the root rounded up. -/
theorem ceiling_cube_root_below :
    let ctx : Context := ⟨2, .ceiling, by decide⟩
    ctx.rootOfDegree (-2) 3 = .ok (ofScaled (-13) 1) ∧
      ∀ ρ : ℝ, ρ ^ 3 = ((-2 : Decimal).toRat : ℝ) →
        ((ofScaled (-13) 1).toRat : ℝ) < ρ ∧ ((ofScaled (-13) 1).toRat : ℝ) ≠ ctx.rounded ρ := by
  intro ctx
  refine ⟨by decide +kernel, fun ρ hpow => ?_⟩
  have hanswer : (ofScaled (-13) 1).toRat = -13 / 10 := by
    rw [toRat_ofScaled _ (by decide)]
    norm_num
  have hradicand : (-2 : Decimal).toRat = -2 := by
    rw [toRat_neg]
    exact congrArg Neg.neg (toRat_ofNat 2)
  rw [hradicand] at hpow
  have hbelow : ((ofScaled (-13) 1).toRat : ℝ) < ρ := by
    refine (Odd.strictMono_pow (by decide : Odd 3)).lt_iff_lt.1 ?_
    rw [hpow, hanswer]
    norm_num
  exact ⟨hbelow, (hbelow.trans_le (Rounding.le_significant_ceiling 2 ρ)).ne⟩

end Context

end Reckoner
