import Reckoner.Proofs.Loops.Ranges
import Reckoner.Proofs.Loops.Series

/-!
# The series of the circle constant

The two series of Machin's formula end, and their sums stay near their first terms: each term is at
most a tenth of the one before, and no sum is rounded off by more than its last digit. That is
enough to place `π` below five, which the reduction of angles asks for.
-/

namespace Reckoner

open Integer Decimal

namespace Context

variable {ctx : Context} {x y sum term first : Decimal} {n passes : Nat} {a e : Int}

/-- The loop of the arc tangent of `1/n` breaks off, and its sum is the result. -/
def ReciprocalEnds (ctx : Context) (n passes : Nat) : Prop :=
  ∃ first sum, ctx.div 1 (ofNat n) = .ok first ∧
    EndsWithin (ctx.seriesPass (ctx.reciprocalSeries n first)) passes (1, first, first) sum ∧
    ctx.atanOfReciprocal n = .ok sum

/-- Both series of `π` end. -/
def PiEnds (ctx : Context) (passes : Nat) : Prop :=
  ctx.guarded.ReciprocalEnds 5 passes ∧ ctx.guarded.ReciprocalEnds 239 passes

theorem ReciprocalEnds.mono {m : Nat} (h : ctx.ReciprocalEnds n passes) (hm : passes ≤ m) :
    ctx.ReciprocalEnds n m := by
  obtain ⟨first, sum, hfirst, hends, hresult⟩ := h
  exact ⟨first, sum, hfirst, hends.mono hm, hresult⟩

theorem PiEnds.mono {m : Nat} (h : ctx.PiEnds passes) (hm : passes ≤ m) : ctx.PiEnds m :=
  ⟨h.1.mono hm, h.2.mono hm⟩

/-! ## Sums near their first terms -/

/-- What the sum may be off its first term: by the terms so far, and by the rounding of each. -/
def drift (ctx : Context) (a e : Int) : ℚ :=
  (10 ^ a - 10 ^ e) / 9 + (a - e) * (2 * 10 ^ a * 10 ^ (1 - ctx.precision : Int))

theorem drift_pred (ctx : Context) (a e : Int) :
    ctx.drift a (e - 1) =
      ctx.drift a e + 10 ^ (e - 1) + 2 * 10 ^ a * 10 ^ (1 - ctx.precision : Int) := by
  have htenth : (10 : ℚ) ^ e = 10 * 10 ^ (e - 1) := by
    rw [zpow_sub_one₀ (by norm_num)]
    ring
  unfold drift
  push_cast
  rw [htenth]
  ring

theorem rounding_errors_le {p : Nat} (hp : 6 ≤ p) : (p + 1) * 14400 ≤ 10 ^ p := by
  obtain ⟨m, rfl⟩ := Nat.exists_eq_add_of_le hp
  have hm : m < 10 ^ m := Nat.lt_pow_self (by decide)
  rw [pow_add]
  omega

theorem drift_le (hprecision : 6 ≤ ctx.precision) (he : a - 1 - ctx.precision ≤ e) :
    ctx.drift a e ≤ 9 / 80 * 10 ^ a := by
  have hterms : (0 : ℚ) < 10 ^ e := by positivity
  have hfirst : (0 : ℚ) < 10 ^ a := by positivity
  have hpasses : (a : ℚ) - e ≤ ctx.precision + 1 := by
    have : a - e ≤ ctx.precision + 1 := by omega
    exact_mod_cast this
  have herror : ((ctx.precision : ℚ) + 1) * 14400 ≤ 10 ^ ctx.precision := by
    exact_mod_cast rounding_errors_le hprecision
  have hunit : (10 : ℚ) ^ (1 - ctx.precision : Int) = 10 / 10 ^ ctx.precision := by
    rw [zpow_sub₀ (by norm_num), zpow_one, zpow_natCast]
  have hrounding : ((a : ℚ) - e) * (2 * 10 ^ (1 - ctx.precision : Int)) ≤ 1 / 720 := by
    rw [hunit, mul_div_assoc', mul_div_assoc', div_le_iff₀ (by positivity)]
    linarith
  unfold drift
  calc (10 ^ a - 10 ^ e) / 9 + ((a : ℚ) - e) * (2 * 10 ^ a * 10 ^ (1 - ctx.precision : Int))
      = (10 ^ a - 10 ^ e) / 9 +
          ((a : ℚ) - e) * (2 * 10 ^ (1 - ctx.precision : Int)) * 10 ^ a := by ring
    _ ≤ 10 ^ a / 9 + 1 / 720 * 10 ^ a := by
      refine add_le_add (by linarith) ?_
      exact mul_le_mul_of_nonneg_right hrounding hfirst.le
    _ = 9 / 80 * 10 ^ a := by ring

/-- The sum after the factors have come down to a power of ten. -/
structure Drifts (ctx : Context) (first : Decimal) (a e : Int) (sum : Decimal) : Prop where
  le_first : e ≤ a
  near : |sum.toRat - first.toRat| ≤ ctx.drift a e
  digits : sum.digitCount ≤ ctx.precision

/-- A term that counts is not far behind the reference. -/
theorem within_of_counts (places : Nat) (hprecision : (ctx.precision : Int) < Word.greatest)
    (hcounts : ¬ ctx.isNegligible x y = true) (hdigits : x.digitCount ≤ ctx.precision)
    (hx : |x.toRat| ≤ 1) (hy : -places ≤ y.exponent) :
    x.Within (2 * ctx.precision + places) := by
  obtain ⟨hx0, hscale⟩ := scale_le_of_not_isNegligible hprecision hcounts
  have hpos : 0 < x.digitCount := digitCount_pos _
  have hlower : ((x.digitCount : Int) - 1 - x.scale) ≤ 0 :=
    (zpow_le_zpow_iff_right₀ (by norm_num)).1 ((pow_le_abs_toRat hx0).trans hx)
  exact ⟨by omega, by omega, by omega⟩

/-- The first term of a series whose sum is followed: its leading digit and its place. -/
structure Starts (ctx : Context) (first : Decimal) (a : Int) : Prop where
  lower : 2 / 10 * 10 ^ a ≤ first.toRat
  upper : first.toRat ≤ 10 ^ a
  le_place : -2 ≤ a
  place_le : a ≤ 0
  digits : first.digitCount ≤ ctx.precision

theorem Starts.le_exponent (h : ctx.Starts first a) : a - 1 ≤ first.exponent := by
  have := h.place_le
  refine Decimal.le_exponent (by unfold Word.greatest; omega) ?_
  refine le_trans ?_ (h.lower.trans (le_abs_self _))
  rw [zpow_sub_one₀ (by norm_num)]
  have hpos : (0 : ℚ) < 10 ^ a := by positivity
  linarith

/-- The sums stay between two powers of ten. -/
theorem Drifts.within (h : ctx.Drifts first a e sum) (hfirst : ctx.Starts first a)
    (hprecision : 6 ≤ ctx.precision) (he : a - 1 - ctx.precision ≤ e) :
    sum.Within (ctx.precision + 4) := by
  have hpos : (0 : ℚ) < 10 ^ a := by positivity
  have hnear := abs_le.1 (h.near.trans (drift_le hprecision he))
  have hlower := hfirst.lower
  have hupper := hfirst.upper
  have hsum : 0 < sum.toRat := by linarith
  refine within_of_pos 4 h.digits ?_ ?_
  · have hplace : (10 : ℚ) ^ (-2 : Int) ≤ 10 ^ a :=
      zpow_le_zpow_right₀ (by norm_num) hfirst.le_place
    norm_num at hplace
    linarith
  · have hplace : (10 : ℚ) ^ a ≤ 1 := zpow_le_one_of_nonpos₀ (by norm_num) hfirst.place_le
    linarith

theorem Drifts.add (h : ctx.Drifts first a e sum) (hfirst : ctx.Starts first a)
    (hprecision : 6 ≤ ctx.precision) (hroom : ctx.Roomy (2 * ctx.precision + 4))
    (he : a - 1 - ctx.precision ≤ e - 1) (hdigits : term.digitCount ≤ ctx.precision)
    (hterm : |term.toRat| ≤ 10 ^ (e - 1)) (hcounts : ¬ ctx.isNegligible term first = true) :
    ctx.Drifts first a (e - 1) (ctx.add sum term) := by
  have hle := h.le_first
  have hplace := hfirst.place_le
  have hwords := hroom.room
  have hpos : (0 : ℚ) < 10 ^ a := by positivity
  have hsumWithin := (h.within hfirst hprecision (by omega)).mono
    (show ctx.precision + 4 ≤ 2 * ctx.precision + 4 by omega)
  have htermWithin : term.Within (2 * ctx.precision + 4) := by
    have hexponent := hfirst.le_exponent
    have hplace' := hfirst.le_place
    refine (within_of_counts 3 (by push_cast at hwords; omega) hcounts hdigits ?_
      (by push_cast; omega)).mono (by omega)
    exact hterm.trans (zpow_le_one_of_nonpos₀ (by norm_num) (by omega))
  have hexact : |sum.toRat + term.toRat - first.toRat| ≤ ctx.drift a e + 10 ^ (e - 1) := by
    rw [add_sub_right_comm]
    exact (abs_add_le _ _).trans (add_le_add h.near hterm)
  -- the drift so far and the term are small beside the first term
  have hsize : |sum.toRat + term.toRat| ≤ 2 * 10 ^ a := by
    have hdrift := drift_le hprecision (show a - 1 - ctx.precision ≤ e by omega)
    have htenth : (10 : ℚ) ^ (e - 1) ≤ 10 ^ (a - 1) := zpow_le_zpow_right₀ (by norm_num) (by omega)
    rw [zpow_sub_one₀ (by norm_num) a] at htenth
    have hexact := abs_le.1 hexact
    have hlower := hfirst.lower
    have hupper := hfirst.upper
    rw [abs_le]
    constructor <;> linarith
  refine ⟨by omega, ?_, digitCount_add_le⟩
  rw [value_add (add_of_within hsumWithin htermWithin hroom).1, drift_pred]
  calc |ctx.rounded (sum.toRat + term.toRat) - first.toRat|
      ≤ |ctx.rounded (sum.toRat + term.toRat) - (sum.toRat + term.toRat)| +
        |sum.toRat + term.toRat - first.toRat| := abs_sub_le _ _ _
    _ ≤ 2 * 10 ^ a * 10 ^ (1 - ctx.precision : Int) + (ctx.drift a e + 10 ^ (e - 1)) := by
      refine add_le_add ((Rounding.abs_significant_sub_le _).trans ?_) hexact
      exact mul_le_mul_of_nonneg_right hsize (by positivity)
    _ = _ := by ring

/-! ## The arc tangents of reciprocals -/

theorem sum_reciprocalSeries (hn : 10 ≤ n * n) (hprecision : 6 ≤ ctx.precision)
    (hroom : ctx.Roomy (2 * ctx.precision + 4)) (hfirst : ctx.Starts first a) :
    ∃ sum, EndsWithin (ctx.seriesPass (ctx.reciprocalSeries n first)) (ctx.precision + 2)
        (1, first, first) sum ∧
      |sum.toRat - first.toRat| ≤ 9 / 80 * 10 ^ a ∧ sum.Within (ctx.precision + 4) := by
  have hwords := hroom.room
  have hplace := hfirst.le_place
  have hpos : (0 : ℚ) < 10 ^ a := by positivity
  have hspacious : ctx.Spacious ctx.precision (a - 1 - ctx.precision) :=
    ⟨le_rfl, by push_cast at hwords; omega⟩
  have hsize : |first.toRat| ≤ 10 ^ a := by
    rw [abs_of_pos (by linarith [hfirst.lower])]
    exact hfirst.upper
  have hstart : ctx.Drifts first a a first := ⟨le_rfl, by simp [drift], hfirst.digits⟩
  obtain ⟨sum, hends, e, he, hdrifts⟩ := endsWithin_of_shrinks (r := a - 1)
    (reciprocalSeries_shrinks hspacious hn first) (by push_cast at hwords; omega) le_rfl
    (fun _ _ _ => hfirst.le_exponent)
    (fun _ e sum term he hsum hdigits hterm hcounts =>
      hsum.add hfirst hprecision hroom he hdigits hterm hcounts)
    (by omega) hsize hfirst.digits hstart
  exact ⟨sum, hends.mono (by omega), hdrifts.near.trans (drift_le hprecision he),
    hdrifts.within hfirst hprecision he⟩

/-- The arc tangent of a reciprocal that lies between two short numbers. -/
theorem atanOfReciprocal_ends (hn : 10 ≤ n * n) (hnupper : n < 1000)
    (hprecision : 6 ≤ ctx.precision) (hroom : ctx.Roomy (2 * ctx.precision + 4)) {lower upper : ℚ}
    (hlower : Rounding.Short ctx.precision lower) (hupper : Rounding.Short ctx.precision upper)
    (hbounds : lower ≤ 1 / n ∧ 1 / n ≤ upper) (ha : 2 / 10 * 10 ^ a ≤ lower ∧ upper ≤ 10 ^ a)
    (hplace : -2 ≤ a ∧ a ≤ 0) :
    ctx.ReciprocalEnds n (ctx.precision + 2) ∧ Succeeds (ctx.atanOfReciprocal n) fun sum =>
      (lower - 9 / 80 * 10 ^ a ≤ sum.toRat ∧ sum.toRat ≤ upper + 9 / 80 * 10 ^ a) ∧
        sum.Within (ctx.precision + 4) := by
  have hn0 : 0 < n := Nat.pos_of_ne_zero (by rintro rfl; omega)
  have hwithin {k : Nat} (hk : k < 1000) : (ofNat k).Within (2 * ctx.precision + 4) :=
    within_ofNat (by omega)
      (hk.trans_le (Nat.pow_le_pow_right (n := 10) (by decide) (show 3 ≤ _ by omega)))
  have hquotient : (1 : Decimal).toRat / (ofNat n).toRat = 1 / n := by rw [toRat_one, toRat_ofNat]
  have hn0' : (ofNat n).toRat ≠ 0 := by
    rw [toRat_ofNat]
    exact_mod_cast hn0.ne'
  rw [← hquotient] at hbounds
  obtain ⟨first, hfirst, ⟨hlower', hupper'⟩, hdigits⟩ :=
    div_bounds (fits_div (x := 1) (hwithin (by decide)) (hwithin hnupper) hroom) hn0' hlower hupper
      hbounds
  have hstarts : ctx.Starts first a :=
    ⟨ha.1.trans hlower', hupper'.trans ha.2, hplace.1, hplace.2, hdigits⟩
  obtain ⟨sum, hends, hnear, hsum⟩ := sum_reciprocalSeries hn hprecision hroom hstarts
  have hwords := hroom.room
  have hresult : ctx.atanOfReciprocal n = .ok sum := by
    unfold atanOfReciprocal
    rw [hfirst]
    exact sumSeries_of_endsWithin hends (by unfold termLimit; push_cast at hwords; omega)
  have hnear := abs_le.1 hnear
  exact ⟨⟨first, sum, hfirst, hends, hresult⟩, sum, hresult,
    ⟨by linarith [hnear.1], by linarith [hnear.2]⟩, hsum⟩

/-! ## The circle constant -/

theorem fifth_ends (hprecision : 6 ≤ ctx.precision) (hroom : ctx.Roomy (2 * ctx.precision + 4)) :
    ctx.ReciprocalEnds 5 (ctx.precision + 2) ∧ Succeeds (ctx.atanOfReciprocal 5) fun sum =>
      (7 / 80 ≤ sum.toRat ∧ sum.toRat ≤ 5 / 16) ∧ sum.Within (ctx.precision + 4) := by
  have hshort : Rounding.Short ctx.precision (2 / 10 : ℚ) :=
    Rounding.short_of_digit (n := 2) (k := -1) ctx.precision_pos (by decide) (by norm_num)
  obtain ⟨hends, hsum⟩ := atanOfReciprocal_ends (n := 5) (a := 0) (by decide) (by decide) hprecision
    hroom hshort hshort (by norm_num) (by norm_num) (by decide)
  norm_num at hsum
  exact ⟨hends, hsum⟩

theorem small_ends (hprecision : 6 ≤ ctx.precision) (hroom : ctx.Roomy (2 * ctx.precision + 4)) :
    ctx.ReciprocalEnds 239 (ctx.precision + 2) ∧ Succeeds (ctx.atanOfReciprocal 239) fun sum =>
      (23 / 8000 ≤ sum.toRat ∧ sum.toRat ≤ 49 / 8000) ∧ sum.Within (ctx.precision + 4) := by
  have hfour : Rounding.Short ctx.precision (4 / 1000 : ℚ) :=
    Rounding.short_of_digit (n := 4) (k := -3) ctx.precision_pos (by decide) (by norm_num)
  have hfive : Rounding.Short ctx.precision (5 / 1000 : ℚ) :=
    Rounding.short_of_digit (n := 5) (k := -3) ctx.precision_pos (by decide) (by norm_num)
  obtain ⟨hends, hsum⟩ := atanOfReciprocal_ends (n := 239) (a := -2) (by decide) (by decide)
    hprecision hroom hfour hfive (by norm_num) (by norm_num) (by decide)
  norm_num at hsum
  exact ⟨hends, hsum⟩

theorem machin_bounds {fifth small : Decimal} (hprecision : 6 ≤ ctx.precision)
    (hroom : ctx.Roomy (2 * ctx.precision + 4))
    (hfifth : 7 / 80 ≤ fifth.toRat ∧ fifth.toRat ≤ 5 / 16)
    (hsmall : 23 / 8000 ≤ small.toRat ∧ small.toRat ≤ 49 / 8000)
    (hfifthWithin : fifth.Within (ctx.precision + 4))
    (hsmallWithin : small.Within (ctx.precision + 4)) :
    9 / 10 ≤ (ctx.sub (ctx.mul 16 fifth) (ctx.mul 4 small)).toRat ∧
      (ctx.sub (ctx.mul 16 fifth) (ctx.mul 4 small)).toRat ≤ 5 := by
  have hpos := ctx.precision_pos
  have hone : Rounding.Short ctx.precision (1 : ℚ) := Rounding.short_one hpos
  have hfive : Rounding.Short ctx.precision (5 : ℚ) :=
    Rounding.short_of_digit (n := 5) (k := 0) hpos (by decide) (by norm_num)
  have hhundredth : Rounding.Short ctx.precision (1 / 100 : ℚ) :=
    Rounding.short_of_digit (n := 1) (k := -2) hpos (by decide) (by norm_num)
  have hthree : Rounding.Short ctx.precision (3 / 100 : ℚ) :=
    Rounding.short_of_digit (n := 3) (k := -2) hpos (by decide) (by norm_num)
  have hnine : Rounding.Short ctx.precision (9 / 10 : ℚ) :=
    Rounding.short_of_digit (n := 9) (k := -1) hpos (by decide) (by norm_num)
  have hfactor {k : Nat} (hk : k < 100) : (ofNat k).Within (2 * ctx.precision + 4) :=
    within_ofNat (by omega)
      (hk.trans_le (Nat.pow_le_pow_right (n := 10) (by decide) (show 2 ≤ _ by omega)))
  have hlarge := mul_bounds (x := 16) (hfactor (by decide)) (hfifthWithin.mono (by omega)) hroom
    hone hfive
    (by rw [show (16 : Decimal).toRat = 16 from toRat_ofNat 16]; constructor <;> linarith)
  have hlittle := mul_bounds (x := 4) (hfactor (by decide)) (hsmallWithin.mono (by omega)) hroom
    hhundredth hthree
    (by rw [show (4 : Decimal).toRat = 4 from toRat_ofNat 4]; constructor <;> linarith)
  have hwithin {y : Decimal} (hy : y.digitCount ≤ ctx.precision) (hlower : 1 / 100 ≤ y.toRat)
      (hupper : y.toRat ≤ 5) : y.Within (2 * ctx.precision + 4) := by
    refine (within_of_pos 2 hy ?_ ?_).mono (by omega) <;> linarith
  refine add_bounds (hwithin digitCount_mul_le (by linarith [hlarge.1]) hlarge.2)
    (hwithin digitCount_mul_le hlittle.1 (by linarith [hlittle.2])).neg hroom hnine hfive ?_
  rw [toRat_neg]
  constructor
  · linarith [hlarge.1, hlittle.2]
  · linarith [hlarge.2, hlittle.1]

/-- The series of `π` end, and the number that comes out is of the size that reductions rely on. -/
theorem pi_ends (hroom : ctx.Roomy (2 * ctx.precision + 24)) :
    ctx.PiEnds (ctx.precision + 12) ∧ Succeeds ctx.pi fun pi =>
      (9 / 10 ≤ pi.toRat ∧ pi.toRat ≤ 5) ∧ pi.digitCount ≤ ctx.precision := by
  have hwords := hroom.room
  have hwide : ctx.guarded.precision = ctx.precision + 10 := rfl
  have hguarded : ctx.guarded.Roomy (2 * ctx.guarded.precision + 4) :=
    ⟨by omega, by push_cast [hwide] at hwords ⊢; omega⟩
  obtain ⟨hfifthEnds, fifth, hfifth, hfifthBounds, hfifthWithin⟩ := fifth_ends (by omega) hguarded
  obtain ⟨hsmallEnds, small, hsmall, hsmallBounds, hsmallWithin⟩ := small_ends (by omega) hguarded
  have hbounds := machin_bounds (by omega) hguarded hfifthBounds hsmallBounds hfifthWithin
    hsmallWithin
  have hpi : ctx.pi =
      .ok (ctx.round (ctx.guarded.sub (ctx.guarded.mul 16 fifth) (ctx.guarded.mul 4 small))) := by
    simp only [pi, hfifth, hsmall]
    rfl
  refine ⟨⟨hfifthEnds, hsmallEnds⟩, _, hpi, ?_, digitCount_round_le⟩
  generalize hsum : ctx.guarded.sub (ctx.guarded.mul 16 fifth) (ctx.guarded.mul 4 small) = sum at *
  have hdigits : sum.digitCount ≤ ctx.guarded.precision := hsum ▸ digitCount_add_le
  have hwithin : sum.Within (ctx.guarded.precision + 1) := by
    refine within_of_pos 1 hdigits ?_ ?_ <;> linarith
  refine round_bounds hwithin (by push_cast [hwide] at hwords ⊢; omega) ?_ ?_ hbounds
  · exact Rounding.short_of_digit (n := 9) (k := -1) ctx.precision_pos (by decide) (by norm_num)
  · exact Rounding.short_of_digit (n := 5) (k := 0) ctx.precision_pos (by decide) (by norm_num)

end Context

end Reckoner
