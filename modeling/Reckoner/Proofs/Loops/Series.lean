import Reckoner.Context.Angle
import Reckoner.Proofs.Loops.Passes
import Reckoner.Proofs.Loops.Sizes

/-!
# Series that end

The running factor of a series may grow at first, but then each pass takes a power of ten off its
bound. The bounds are powers of ten, so no rounding passes them, and after as many passes as there
are digits the terms are negligible.
-/

namespace Reckoner

open Integer Decimal

variable {ctx : Context} {series : Series} {P : Decimal → Prop} {J : Int → Decimal → Prop}
  {growth settled : Nat} {lowest : Int}

/-- From a power of ten on, a pass raises the bound on the running factor by at most `growth` powers
of ten, and from the index `settled` on it takes one off. No term is greater than its factor. -/
structure Series.Shrinks (series : Series) (P : Decimal → Prop) (growth settled : Nat)
    (lowest : Int) : Prop where
  next {k : Nat} {x : Decimal} {e : Int} : 0 < k → lowest ≤ e → |x.toRat| ≤ 10 ^ e → P x →
    Succeeds (series.next k x) fun factor =>
      |factor.toRat| ≤ 10 ^ (if k < settled then e + growth else e - 1) ∧ P factor
  term {k : Nat} {x : Decimal} {e : Int} : 0 < k → lowest - 1 ≤ e → |x.toRat| ≤ 10 ^ e → P x →
    Succeeds (series.term k x) fun term => |term.toRat| ≤ 10 ^ e ∧ P term

/-- The bound on the factor and the passes that may still raise it, counted down to the power of ten
`last`. -/
def Series.Descends (P : Decimal → Prop) (J : Int → Decimal → Prop) (growth settled : Nat)
    (last : Int) (n : Nat) : Nat × Decimal × Decimal → Prop
  | (k, factor, sum) => 0 < k ∧ P factor ∧ ∃ e : Int, J e sum ∧ last ≤ e ∧
    |factor.toRat| ≤ 10 ^ e ∧ (e - last).toNat + (growth + 1) * (settled - k) ≤ n

/-- A pass takes one off the bound, or it raises the bound by `growth` and there is one pass fewer that
may do so. -/
theorem Series.measure_lt {k : Nat} {e last : Int}
    (hlarge : last ≤ if k < settled then e + growth else e - 1) :
    ((if k < settled then e + growth else e - 1) - last).toNat + (growth + 1) * (settled - (k + 1)) <
      (e - last).toNat + (growth + 1) * (settled - k) := by
  split at hlarge
  · next hrising =>
    rw [if_pos hrising, show settled - k = settled - (k + 1) + 1 by omega, Nat.mul_succ]
    omega
  · next hfalling =>
    rw [if_neg hfalling, Nat.sub_eq_zero_of_le (not_lt.1 hfalling),
      Nat.sub_eq_zero_of_le (by omega)]
    omega

namespace Context

/-- A series that shrinks breaks off where its bound falls below the digits that are kept of the
reference. The invariant of the sum may depend on the bound on the last factor. -/
theorem endsWithin_of_shrinks (h : series.Shrinks P growth settled lowest)
    (hprecision : (ctx.precision : Int) < Word.greatest) {r : Int}
    (hlowest : lowest ≤ r - ctx.precision)
    (hreference : ∀ e sum, J e sum → r ≤ (series.reference sum).exponent)
    (hadd : ∀ (k : Nat) (e : Int) (sum term : Decimal),
      r - ctx.precision ≤ (if k < settled then e + growth else e - 1) → J e sum → P term →
      |term.toRat| ≤ 10 ^ (if k < settled then e + growth else e - 1) →
      ¬ ctx.isNegligible term (series.reference sum) = true →
      J (if k < settled then e + growth else e - 1) (ctx.add sum term)) {e : Int}
    (he : r - ctx.precision ≤ e) {factor sum : Decimal} (hfactor : |factor.toRat| ≤ 10 ^ e)
    (hP : P factor) (hJ : J e sum) :
    ∃ result, EndsWithin (ctx.seriesPass series)
      ((e - (r - ctx.precision)).toNat + (growth + 1) * settled + 1) (1, factor, sum) result ∧
        ∃ e, r - ctx.precision ≤ e ∧ J e result := by
  refine EndsWithin.of_measure (I := Series.Descends P J growth settled (r - ctx.precision)) ?_
    ⟨one_pos, hP, e, hJ, he, hfactor, Nat.add_le_add_left (Nat.mul_le_mul_left _ (Nat.sub_le _ _)) _⟩
  rintro n ⟨k, factor, sum⟩ ⟨hk, hP, e, hJ, he, hfactor, hn⟩
  obtain ⟨next, hnext, hbound, hPnext⟩ := h.next hk (hlowest.trans he) hfactor hP
  have hstep : e - 1 ≤ if k < settled then e + growth else e - 1 := by split <;> omega
  obtain ⟨term, hterm, hsize, hPterm⟩ := h.term hk (by omega) hbound hPnext
  rw [seriesPass_of_ok hnext hterm]
  split
  · exact .inl ⟨sum, rfl, e, he, hJ⟩
  next hcounts =>
  right
  -- a bound below the last place that is kept would have made the term negligible
  have hlarge : r - ctx.precision ≤ if k < settled then e + growth else e - 1 := by
    by_contra hsmall
    refine hcounts (isNegligible_of_abs_lt hprecision (hsize.trans_lt ?_))
    refine zpow_lt_zpow_right₀ (by norm_num) ?_
    have := hreference e sum hJ
    omega
  have hmeasure := Series.measure_lt hlarge
  exact ⟨n - 1, _, by omega, rfl, k.succ_pos, hPnext, _,
    hadd k e sum term hlarge hJ hPterm hsize hcounts, hlarge, hbound, by omega⟩

/-! ## Bounds that are powers of ten -/

variable {x y : Decimal} {digits : Nat} {e : Int}

theorem mul_le_pow (ctx : Context) {a : Int} (hx : |x.toRat| ≤ 10 ^ e) (hy : |y.toRat| ≤ 10 ^ a)
    (hspeck : (x.digitCount + y.digitCount : Int) ≤ e + a + Word.greatest) :
    |(ctx.mul x y).toRat| ≤ 10 ^ (e + a) ∧ (ctx.mul x y).digitCount ≤ ctx.precision := by
  refine ⟨abs_mul_le (Rounding.short_pow ctx.precision_pos _) ?_ ?_, digitCount_round_le⟩
  · rw [zpow_add₀ (by norm_num)]
    exact mul_le_mul hx hy (abs_nonneg _) (by positivity)
  · exact zpow_le_zpow_right₀ (by norm_num) (by omega)

/-- A divisor of more than `k` digits takes `k` powers of ten off the bound. -/
theorem div_le_pow (ctx : Context) {n : Nat} (k : Nat) (hn : 10 ^ k ≤ n) (hx : |x.toRat| ≤ 10 ^ e)
    (hspeck : (ctx.precision + x.digitCount + 5 : Int) ≤ e - k + Word.greatest) :
    Succeeds (ctx.div x (ofNat n)) fun z =>
      |z.toRat| ≤ 10 ^ (e - k) ∧ z.digitCount ≤ ctx.precision := by
  have hpos : 0 < n := lt_of_lt_of_le (by positivity) hn
  have hn' : (10 : ℚ) ^ k ≤ n := by exact_mod_cast hn
  refine abs_div_ofNat_le hpos (Rounding.short_pow ctx.precision_pos _) ?_ ?_
  · rw [zpow_sub₀ (by norm_num), zpow_natCast]
    exact div_le_div₀ (by positivity) hx (by positivity) hn'
  · exact zpow_le_zpow_right₀ (by norm_num) (by push_cast; omega)

theorem abs_alternating (k : Nat) (x : Decimal) : |(alternating k x).toRat| = |x.toRat| := by
  unfold alternating
  split
  · rw [toRat_neg, abs_neg]
  · rfl

theorem digitCount_alternating (k : Nat) (x : Decimal) :
    (alternating k x).digitCount = x.digitCount := by
  unfold alternating
  split
  · exact digitCount_neg x
  · rfl

/-- An odd multiple of a term is no smaller than the term, with either sign. -/
theorem term_le_pow (ctx : Context) (k : Nat) (hx : |x.toRat| ≤ 10 ^ e)
    (hspeck : (ctx.precision + x.digitCount + 5 : Int) ≤ e + Word.greatest) :
    Succeeds (ctx.div x (ofNat (2 * k + 1))) fun z =>
      |z.toRat| ≤ 10 ^ e ∧ z.digitCount ≤ ctx.precision := by
  simpa using div_le_pow ctx (n := 2 * k + 1) 0 (by omega) hx (by push_cast; omega)

theorem toRat_div_ofNat_nonneg (ctx : Context) {n : Nat} (hn : 0 < n) (hx : 0 ≤ x.toRat)
    {z : Decimal} (hz : ctx.div x (ofNat n) = .ok z) : 0 ≤ z.toRat := by
  have hsign : (ofNat n).sign = 1 := Int.sign_natCast_of_ne_zero hn.ne'
  obtain ⟨w, hw, hwsign⟩ := div_sign ctx x (show (ofNat n).sign ≠ 0 by rw [hsign]; decide)
  obtain rfl : w = z := Except.ok.inj (hw.symm.trans hz)
  rwa [← sign_nonneg_iff, hwsign, hsign, mul_one, sign_nonneg_iff]

/-! ## The series -/

/-- The numbers of at most so many digits. -/
def AtMost (digits : Nat) (x : Decimal) : Prop := x.digitCount ≤ digits

/-- What the specks below the bounds ask for: the bounds stay above the products of the numbers in the
series at the end of the word range. -/
structure Spacious (ctx : Context) (digits : Nat) (lowest : Int) : Prop where
  precision_le : ctx.precision ≤ digits
  specks : (2 * digits + 10 : Int) ≤ lowest + Word.greatest

variable {n : Nat} {z : Decimal} {a : Int}

theorem alternating_term (h : ctx.Spacious digits lowest) {k : Nat} (he : lowest - 1 ≤ e)
    (hx : |x.toRat| ≤ 10 ^ e) (hdigits : AtMost digits x) :
    Succeeds (do return alternating k (← ctx.div x (ofNat (2 * k + 1)))) fun term =>
      |term.toRat| ≤ 10 ^ e ∧ AtMost digits term := by
  obtain ⟨hprecision, hspecks⟩ := h
  unfold AtMost at *
  refine (term_le_pow ctx k hx (by omega)).bind fun z hz => succeeds_ok ?_
  rw [abs_alternating, digitCount_alternating]
  exact ⟨hz.1, hz.2.trans hprecision⟩

theorem reciprocalSeries_shrinks (h : ctx.Spacious digits lowest) (hn : 10 ≤ n * n)
    (first : Decimal) : (ctx.reciprocalSeries n first).Shrinks (AtMost digits) 0 0 lowest where
  next {k x e} _ he hx hdigits := by
    obtain ⟨hprecision, hspecks⟩ := h
    unfold AtMost at *
    exact (div_le_pow ctx 1 (by simpa using hn) hx (by push_cast; omega)).imp fun z hz =>
      ⟨by simpa using hz.1, hz.2.trans hprecision⟩
  term _ he hx hdigits := alternating_term h he hx hdigits

/-- The squares by which the powers in the series of an inverse tangent are multiplied. -/
theorem square_le_pow (h : ctx.Spacious digits lowest) (hx : |x.toRat| ≤ 10 ^ a)
    (hdigits : AtMost digits x) (ha : lowest ≤ a + a) :
    |(ctx.mul x x).toRat| ≤ 10 ^ (a + a) ∧ AtMost digits (ctx.mul x x) := by
  obtain ⟨hprecision, hspecks⟩ := h
  unfold AtMost at *
  obtain ⟨hle, hcount⟩ := mul_le_pow ctx hx hx (by omega)
  exact ⟨hle, hcount.trans hprecision⟩

theorem powers_next (h : ctx.Spacious digits lowest) {square : Decimal}
    (hsquare : |square.toRat| ≤ 10 ^ (-1 : Int) ∧ AtMost digits square) (he : lowest ≤ e)
    (hx : |x.toRat| ≤ 10 ^ e) (hdigits : AtMost digits x) :
    |(ctx.mul x square).toRat| ≤ 10 ^ (e - 1) ∧ AtMost digits (ctx.mul x square) := by
  obtain ⟨hprecision, hspecks⟩ := h
  unfold AtMost at *
  obtain ⟨hle, hcount⟩ := mul_le_pow ctx hx hsquare.1 (by omega)
  exact ⟨hle, hcount.trans hprecision⟩

theorem tenth_square_le (h : ctx.Spacious digits lowest) (hlowest : lowest ≤ -2)
    (hz : |z.toRat| ≤ 10 ^ (-1 : Int)) (hdigits : AtMost digits z) :
    |(ctx.mul z z).toRat| ≤ 10 ^ (-1 : Int) ∧ AtMost digits (ctx.mul z z) := by
  obtain ⟨hle, hcount⟩ := square_le_pow h hz hdigits hlowest
  exact ⟨hle.trans (zpow_le_zpow_right₀ (by norm_num) (by decide)), hcount⟩

theorem atanSeries_shrinks (h : ctx.Spacious digits lowest) (hlowest : lowest ≤ -2)
    (hz : |z.toRat| ≤ 10 ^ (-1 : Int)) (hdigits : AtMost digits z) :
    (ctx.atanSeries z).Shrinks (AtMost digits) 0 0 lowest where
  next _ he hx hP := succeeds_ok (powers_next h (tenth_square_le h hlowest hz hdigits) he hx hP)
  term _ he hx hP := alternating_term h he hx hP

theorem atanhSeries_shrinks (h : ctx.Spacious digits lowest) (hlowest : lowest ≤ -2)
    (hz : |z.toRat| ≤ 10 ^ (-1 : Int)) (hdigits : AtMost digits z) :
    (ctx.atanhSeries z).Shrinks (AtMost digits) 0 0 lowest where
  next _ he hx hP := succeeds_ok (powers_next h (tenth_square_le h hlowest hz hdigits) he hx hP)
  term {k x e} _ he hx hP := by
    have hcount : x.digitCount ≤ digits := hP
    obtain ⟨hprecision, hspecks⟩ := h
    exact (term_le_pow ctx k hx (by omega)).imp fun t ht => ⟨ht.1, ht.2.trans hprecision⟩

/-- One step of a series whose terms come from the one before by a product and a quotient. -/
theorem product_quotient_le (h : ctx.Spacious digits lowest) (hy : |y.toRat| ≤ 10 ^ (growth : Int))
    (hydigits : AtMost digits y) (k settled : Nat) (hn : 0 < n)
    (hsettled : settled ≤ k → 10 ^ (growth + 1) ≤ n) (he : lowest ≤ e) (hx : |x.toRat| ≤ 10 ^ e)
    (hdigits : AtMost digits x) :
    Succeeds (ctx.div (ctx.mul x y) (ofNat n)) fun term =>
      |term.toRat| ≤ 10 ^ (if k < settled then e + growth else e - 1) ∧ AtMost digits term := by
  obtain ⟨hprecision, hspecks⟩ := h
  unfold AtMost at *
  obtain ⟨hproduct, hcount⟩ := mul_le_pow ctx hx hy (by omega)
  split
  · have hquotient := div_le_pow ctx (n := n) 0 hn hproduct (by push_cast; omega)
    exact hquotient.imp fun z hz => ⟨by simpa using hz.1, hz.2.trans hprecision⟩
  · next hk =>
    have hquotient := div_le_pow ctx (growth + 1) (hsettled (not_lt.1 hk)) hproduct
      (by push_cast; omega)
    refine hquotient.imp fun z hz => ⟨hz.1.trans_eq ?_, hz.2.trans hprecision⟩
    congr 1
    push_cast
    ring

/-- The terms of the exponential series stay on one side of zero. -/
theorem expSeries_shrinks (h : ctx.Spacious digits lowest) (hx : 0 ≤ x.toRat) (hone : x.toRat ≤ 1)
    (hdigits : AtMost digits x) :
    (ctx.expSeries x).Shrinks (fun term => AtMost digits term ∧ 0 ≤ term.toRat) 0 10 lowest where
  next {k term e} hk he hterm hP := by
    have hfactor : |x.toRat| ≤ 10 ^ ((0 : Nat) : Int) := by
      rw [abs_of_nonneg hx]
      simpa using hone
    obtain ⟨z, hz, hle, hcount⟩ := product_quotient_le h hfactor hdigits k 10 hk (fun hk => by omega)
      he hterm hP.1
    refine ⟨z, hz, hle, hcount, toRat_div_ofNat_nonneg ctx hk ?_ hz⟩
    rw [← sign_nonneg_iff, sign_mul]
    exact mul_nonneg (sign_nonneg_iff.2 hP.2) (sign_nonneg_iff.2 hx)
  term _ _ hterm hP := succeeds_ok ⟨hterm, hP⟩

/-- A step of the series of an angle, whose square has at most two digits before the point. -/
theorem angle_next (h : ctx.Spacious digits lowest) (hlowest : lowest ≤ 2) (hx : |x.toRat| ≤ 10)
    (hdigits : AtMost digits x) (k : Nat) (hn : 0 < n) (hsettled : 17 ≤ k → 10 ^ 3 ≤ n)
    (he : lowest ≤ e) {term : Decimal} (hterm : |term.toRat| ≤ 10 ^ e)
    (hdigits' : AtMost digits term) :
    Succeeds (do return -(← ctx.div (ctx.mul term (ctx.mul x x)) (ofNat n))) fun next =>
      |next.toRat| ≤ 10 ^ (if k < 17 then e + (2 : Nat) else e - 1) ∧ AtMost digits next := by
  have hten : |x.toRat| ≤ 10 ^ (1 : Int) := by simpa using hx
  obtain ⟨hsquare, hcount⟩ := square_le_pow h hten hdigits hlowest
  have hsquare : |(ctx.mul x x).toRat| ≤ 10 ^ ((2 : Nat) : Int) := hsquare
  refine (product_quotient_le h hsquare hcount k 17 hn hsettled he hterm hdigits').bind
    fun z hz => succeeds_ok ?_
  rw [toRat_neg, abs_neg, AtMost, digitCount_neg]
  exact hz

theorem sinSeries_shrinks (h : ctx.Spacious digits lowest) (hlowest : lowest ≤ 2)
    (hx : |x.toRat| ≤ 10) (hdigits : AtMost digits x) :
    (ctx.sinSeries x).Shrinks (AtMost digits) 2 17 lowest where
  next {k term e} hk he hterm hP := by
    refine angle_next h hlowest hx hdigits k (by positivity) (fun hk => ?_) he hterm hP
    calc 10 ^ 3 ≤ 34 * 35 := by decide
      _ ≤ 2 * k * (2 * k + 1) := Nat.mul_le_mul (by omega) (by omega)
  term _ _ hterm hP := succeeds_ok ⟨hterm, hP⟩

theorem cosSeries_shrinks (h : ctx.Spacious digits lowest) (hlowest : lowest ≤ 2)
    (hx : |x.toRat| ≤ 10) (hdigits : AtMost digits x) :
    (ctx.cosSeries x).Shrinks (AtMost digits) 2 17 lowest where
  next {k term e} hk he hterm hP := by
    have hodd : 0 < 2 * k - 1 := by omega
    refine angle_next h hlowest hx hdigits k (by positivity) (fun hk => ?_) he hterm hP
    calc 10 ^ 3 ≤ 33 * 34 := by decide
      _ ≤ (2 * k - 1) * (2 * k) := Nat.mul_le_mul (by omega) (by omega)
  term _ _ hterm hP := succeeds_ok ⟨hterm, hP⟩

/-! ## Ends -/

/-- A series whose terms are measured against one number. -/
theorem series_ends (h : series.Shrinks (AtMost digits) growth settled (z.exponent - ctx.precision))
    (hreference : ∀ sum, series.reference sum = z)
    (hprecision : (ctx.precision : Int) < Word.greatest) {places : Nat} {first : Decimal}
    (hfirst : |first.toRat| ≤ 10 ^ (z.exponent + places)) (hdigits : AtMost digits first) :
    ∃ sum, EndsWithin (ctx.seriesPass series)
      (ctx.precision + places + (growth + 1) * settled + 1) (1, first, first) sum := by
  obtain ⟨sum, hsum, -⟩ := endsWithin_of_shrinks (J := fun _ _ => True) h hprecision le_rfl
    (fun _ sum _ => by rw [hreference]) (fun _ _ _ _ _ _ _ _ _ => trivial) (by omega) hfirst hdigits
    trivial
  exact ⟨sum, hsum.mono (by omega)⟩

/-- The sum of the exponential series is never below one. -/
theorem expSeries_ends (h : ctx.Spacious digits (-ctx.precision))
    (hprecision : (ctx.precision : Int) < Word.greatest) (hx : 0 ≤ x.toRat) (hone : x.toRat ≤ 1)
    (hdigits : AtMost digits x) :
    ∃ sum, EndsWithin (ctx.seriesPass (ctx.expSeries x)) (ctx.precision + 11) (1, 1, 1) sum ∧
      1 ≤ sum.toRat := by
  have hreference (e : Int) (sum : Decimal) (hsum : 1 ≤ sum.toRat) : 0 ≤ sum.exponent :=
    le_exponent (by decide) (by rwa [zpow_zero, abs_of_pos (by linarith)])
  have hone' : |(1 : Decimal).toRat| ≤ 10 ^ (0 : Int) := by rw [toRat_one, zpow_zero, abs_one]
  have hdigits' : AtMost digits 1 :=
    (digitCount_pow 0).trans_le (ctx.precision_pos.trans_le h.precision_le)
  have hnonneg : 0 ≤ (1 : Decimal).toRat := by
    rw [toRat_one]
    exact zero_le_one
  obtain ⟨sum, hsum, -, -, hle⟩ := endsWithin_of_shrinks (J := fun _ sum => 1 ≤ sum.toRat)
    (expSeries_shrinks h hx hone hdigits) hprecision (by omega) hreference
    (fun _ _ _ _ _ hsum hterm _ _ => one_le_toRat_add hsum hterm.2) (by omega) hone'
    ⟨hdigits', hnonneg⟩ toRat_one.ge
  exact ⟨sum, hsum.mono (by omega), hle⟩

end Context

end Reckoner
