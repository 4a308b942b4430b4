import Reckoner.Context.Pi
import Reckoner.Proofs.Scales.Roots

/-!
# Agreement on one value

Two runs on representations of one value go through the same steps: what they ask of a number is a
question about its value, and each rounded operation gives representations of one value again. So
they add up the same terms of a series.
-/

namespace Reckoner

open Decimal

namespace Traced

variable {ctx : Context} {x x' y y' : Decimal} {degree : Nat}

/-- Representations of one value. -/
def Same (x y : Decimal) : Prop := x.toRat = y.toRat

/-- Representations of one value with equal counts. -/
def SameCount (p q : Decimal × Nat) : Prop := Same p.1 q.1 ∧ p.2 = q.2

theorem Same.refl (x : Decimal) : Same x x := rfl

theorem Same.toRat_eq (h : Same x y) : x.toRat = y.toRat := h

theorem Same.neg (h : Same x x') : Same (-x) (-x') := by
  unfold Same
  rw [toRat_neg, toRat_neg, h.toRat_eq]

theorem Same.abs (h : Same x x') : Same x.abs x'.abs := by
  unfold Same
  rw [toRat_abs, toRat_abs, h.toRat_eq]

/-! ## Tests -/

theorem Same.isZero (h : Same x x') : x.isZero = x'.isZero := by
  rw [Bool.eq_iff_iff, isZero_iff, isZero_iff, h.toRat_eq]

theorem Same.isNegative (h : Same x x') : x.isNegative = x'.isNegative := by
  rw [Bool.eq_iff_iff, isNegative_iff, isNegative_iff, h.toRat_eq]

theorem Same.isPositive (h : Same x x') : x.isPositive = x'.isPositive := by
  rw [Bool.eq_iff_iff, isPositive_iff, isPositive_iff, h.toRat_eq]

theorem Same.exponent (h : Same x x') : x.exponent = x'.exponent := exponent_congr h

theorem Same.lt (h : Same x x') (h' : Same y y') : x < y ↔ x' < y' := by
  rw [lt_iff, lt_iff, h.toRat_eq, h'.toRat_eq]

theorem Same.le (h : Same x x') (h' : Same y y') : x ≤ y ↔ x' ≤ y' := by
  rw [le_iff, le_iff, h.toRat_eq, h'.toRat_eq]

theorem Same.sameValue (h : Same x x') (h' : Same y y') : x.sameValue y = x'.sameValue y' := by
  rw [Bool.eq_iff_iff, sameValue_iff, sameValue_iff, h.toRat_eq, h'.toRat_eq]

theorem Same.isNegligible (h : Same x x') (h' : Same y y') :
    ctx.isNegligible x y = ctx.isNegligible x' y' := by
  unfold Context.isNegligible
  rw [h.isZero, h.exponent, h'.exponent]

/-! ## Operations -/

theorem agree_of_values {R : Decimal → Decimal → Prop} {t u : Traced Decimal} {a b : Decimal}
    (ht : t.result = .ok a) (hu : u.result = .ok b) (h : t.Fits → u.Fits → R a b) :
    Agree R t u := by
  intro hfits hfits'
  rw [ht, hu]
  exact .ok (h hfits hfits')

theorem agree_same (a : Arithmetic Decimal) : Agree Same (lift a) (lift a) :=
  (agree_lift a).mono fun _ _ h => congrArg toRat h

theorem agree_negated {t u : Traced Decimal} (h : Agree Same t u) :
    Agree Same (t >>= fun a => pure (-a)) (u >>= fun a => pure (-a)) :=
  h.bind fun _ _ h => agree_pure h.neg

theorem agree_ofScaled {u u' s s' : Int} (h : (u : ℚ) * 10 ^ (-s) = u' * 10 ^ (-s')) :
    Agree Same (ofScaled u s) (ofScaled u' s') := by
  refine agree_of_values rfl rfl fun hfits hfits' => ?_
  unfold Same
  rwa [toRat_ofScaled _ (fits_ofScaled.1 hfits), toRat_ofScaled _ (fits_ofScaled.1 hfits')]

theorem agree_round (h : Same x x') : Agree Same (round ctx x) (round ctx x') := by
  refine agree_of_values result_round result_round fun hfits hfits' => ?_
  unfold Same
  rw [Context.toRat_round_eq hfits, Context.toRat_round_eq hfits', h.toRat_eq]

theorem agree_add (h : Same x x') (h' : Same y y') :
    Agree Same (add ctx x y) (add ctx x' y') := by
  refine agree_of_values result_add result_add fun hfits hfits' => ?_
  unfold Same
  rw [Context.value_add hfits, Context.value_add hfits', h.toRat_eq, h'.toRat_eq]

theorem agree_sub (h : Same x x') (h' : Same y y') :
    Agree Same (sub ctx x y) (sub ctx x' y') :=
  agree_add h h'.neg

theorem agree_mul (h : Same x x') (h' : Same y y') :
    Agree Same (mul ctx x y) (mul ctx x' y') := by
  refine agree_of_values result_mul result_mul fun hfits hfits' => ?_
  unfold Same
  rw [Context.value_mul hfits, Context.value_mul hfits', h.toRat_eq, h'.toRat_eq]

theorem agree_div (h : Same x x') (h' : Same y y') :
    Agree Same (div ctx x y) (div ctx x' y') := by
  intro hfits hfits'
  rw [result_div, result_div]
  by_cases hy : y.toRat = 0
  · have hzero {x y : Decimal} (hy : y.toRat = 0) : ctx.div x y = .error .divisionByZero :=
      if_pos (isZero_iff.2 hy)
    rw [hzero hy, hzero (h'.toRat_eq.symm.trans hy)]
    exact .error _
  · have hy' : y'.toRat ≠ 0 := fun hzero => hy (h'.toRat_eq.trans hzero)
    obtain ⟨z, hz, -⟩ := Context.div_sign ctx x (mt sign_eq_zero_iff.1 hy)
    obtain ⟨z', hz', -⟩ := Context.div_sign ctx x' (mt sign_eq_zero_iff.1 hy')
    rw [hz, hz']
    refine .ok ?_
    unfold Same
    rw [Context.value_div hfits hz, Context.value_div hfits' hz', h.toRat_eq, h'.toRat_eq]

theorem agree_wholeRoot (h : Same x x') (hdegree : 0 < degree) (hx : 0 < x.toRat) :
    Agree Same (wholeRoot ctx x degree) (wholeRoot ctx x' degree) := by
  refine agree_of_values result_wholeRoot result_wholeRoot fun hfits hfits' => ?_
  have hx' : 0 < x'.toRat := hx.trans_eq h.toRat_eq
  obtain ⟨ρ, hρ, hpow⟩ : ∃ ρ : ℝ, 0 < ρ ∧ ρ ^ degree = x.toRat := by
    have hpos : (0 : ℝ) < x.toRat := by exact_mod_cast hx
    exact ⟨(x.toRat : ℝ) ^ (degree : ℝ)⁻¹, Real.rpow_pos_of_pos hpos _,
      Real.rpow_inv_natCast_pow hpos.le hdegree.ne'⟩
  have hpow' : ρ ^ degree = x'.toRat := by rw [hpow, h.toRat_eq]
  refine Rat.cast_injective (α := ℝ) ?_
  rw [Context.value_wholeRoot hdegree (toRat_pos.1 hx) hfits hρ hpow,
    Context.value_wholeRoot hdegree (toRat_pos.1 hx') hfits' hρ hpow']

theorem agree_sqrt (h : Same x x') : Agree Same (sqrt ctx x) (sqrt ctx x') := by
  unfold sqrt
  rw [h.isNegative, h.isZero]
  refine .ite Iff.rfl (fun _ _ => agree_same _) fun hneg _ => ?_
  refine .ite Iff.rfl (fun _ _ => agree_pure rfl) fun hzero _ => ?_
  rw [isNegative_iff, not_lt] at hneg
  rw [isZero_iff] at hzero
  refine agree_wholeRoot h (by decide) ?_
  rw [h.toRat_eq]
  exact lt_of_le_of_ne hneg (Ne.symm hzero)

/-! ## Series -/

/-- A series with the scales that its steps ask for. -/
structure Terms where
  next : Nat → Decimal → Traced Decimal
  term : Nat → Decimal → Traced Decimal
  reference : Decimal → Decimal

def Terms.series (terms : Terms) : Series where
  next k x := (terms.next k x).result
  term k x := (terms.term k x).result
  reference := terms.reference

def sumFrom (ctx : Context) (terms : Terms) :
    (limit k : Nat) → (factor sum : Decimal) → Traced Decimal
  | 0, _, _, sum => pure sum
  | limit + 1, k, factor, sum => do
    let factor ← terms.next k factor
    let term ← terms.term k factor
    if ctx.isNegligible term (terms.reference sum) then return sum
    let sum ← add ctx sum term
    sumFrom ctx terms limit (k + 1) factor sum

def sumSeries (ctx : Context) (terms : Terms) (first : Decimal) : Traced Decimal :=
  sumFrom ctx terms Context.termLimit 1 first first

theorem result_sumFrom (ctx : Context) (terms : Terms) (limit k : Nat) (factor sum : Decimal) :
    (sumFrom ctx terms limit k factor sum).result =
      ctx.sumFrom terms.series limit k factor sum := by
  induction limit generalizing k factor sum with
  | zero => rfl
  | succ limit ih =>
    simp only [sumFrom, result_bind, result_ite, result_pure, result_add, ok_bind, ih]
    rfl

@[simp] theorem result_sumSeries (ctx : Context) (terms : Terms) (first : Decimal) :
    (sumSeries ctx terms first).result = ctx.sumSeries terms.series first :=
  result_sumFrom ctx terms _ 1 first first

/-- Two series whose steps agree. -/
structure Terms.Agree (terms terms' : Terms) : Prop where
  next {k : Nat} {x x' : Decimal} (h : Same x x') :
    Traced.Agree Same (terms.next k x) (terms'.next k x')
  term {k : Nat} {x x' : Decimal} (h : Same x x') :
    Traced.Agree Same (terms.term k x) (terms'.term k x')
  reference {x x' : Decimal} (h : Same x x') : Same (terms.reference x) (terms'.reference x')

theorem agree_sumFrom {terms terms' : Terms} (hterms : terms.Agree terms') (limit k : Nat)
    {factor factor' sum sum' : Decimal} (hfactor : Same factor factor') (hsum : Same sum sum') :
    Agree Same (sumFrom ctx terms limit k factor sum) (sumFrom ctx terms' limit k factor' sum') := by
  induction limit generalizing k factor factor' sum sum' with
  | zero => exact agree_pure hsum
  | succ limit ih =>
    refine (hterms.next hfactor).bind fun factor factor' hfactor => ?_
    refine (hterms.term hfactor).bind fun term term' hterm => ?_
    -- Both sums stop at one term, for the test only sees values.
    rw [hterm.isNegligible (hterms.reference hsum)]
    refine .ite Iff.rfl (fun _ _ => agree_pure hsum) fun _ _ => ?_
    exact (agree_add hsum hterm).bind fun sum sum' hsum => ih (k + 1) hfactor hsum

theorem agree_sumSeries {terms terms' : Terms} (hterms : terms.Agree terms') {first first' : Decimal}
    (h : Same first first') :
    Agree Same (sumSeries ctx terms first) (sumSeries ctx terms' first') :=
  agree_sumFrom hterms _ 1 h h

theorem Same.alternating (h : Same x x') (k : Nat) :
    Same (Context.alternating k x) (Context.alternating k x') := by
  unfold Context.alternating
  split
  · exact h.neg
  · exact h

/-! ## Degrees and radians -/

def radians (ctx : Context) (x : Decimal) : Traced Decimal := do
  let pi ← lift ctx.guarded.pi
  let product ← mul ctx.guarded x pi
  div ctx product 180

def degrees (ctx : Context) (x : Decimal) : Traced Decimal := do
  let product ← mul ctx.guarded x 180
  let pi ← lift ctx.guarded.pi
  div ctx product pi

@[simp] theorem result_radians : (radians ctx x).result = ctx.radians x := by
  simp [radians, Context.radians]

@[simp] theorem result_degrees : (degrees ctx x).result = ctx.degrees x := by
  simp [degrees, Context.degrees]

theorem agree_radians (h : Same x x') : Agree Same (radians ctx x) (radians ctx x') :=
  (agree_same _).bind fun _ _ hpi => (agree_mul h hpi).bind fun _ _ hproduct =>
    agree_div hproduct (.refl _)

theorem agree_degrees (h : Same x x') : Agree Same (degrees ctx x) (degrees ctx x') :=
  (agree_mul h (.refl _)).bind fun _ _ hproduct => (agree_same _).bind fun _ _ hpi =>
    agree_div hproduct hpi

end Traced

end Reckoner
