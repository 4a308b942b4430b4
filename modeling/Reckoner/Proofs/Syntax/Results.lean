import Reckoner.Proofs.Decimal.Canonical
import Reckoner.Proofs.Decimal.Written
import Reckoner.Proofs.Syntax.Evaluation

/-!
# Results of evaluations

A result has no more digits than the context keeps and is stripped as far as its scale can go.
Written out and evaluated again in the same context it is the same decimal, digit for digit.
-/

namespace Reckoner

open Decimal

/-- A decimal as evaluations in a context answer it. -/
structure Settled (ctx : Context) (x : Decimal) : Prop where
  digits : x.digitCount ≤ ctx.precision
  zero : x.unscaled = 0 → x = 0
  stripped : x.unscaled ≠ 0 → x.Stripped

variable {ctx : Context} {x : Decimal}

theorem settled_canonical_round (ctx : Context) (x : Decimal) :
    Settled ctx (ctx.round x).canonical := by
  by_cases h : (ctx.round x).unscaled = 0
  · rw [canonical_zero h]
    refine ⟨?_, fun _ => rfl, fun hne => absurd rfl hne⟩
    exact Integer.digitCount_zero.le.trans ctx.precision_pos
  · refine ⟨?_, fun hzero => absurd hzero (unscaled_canonical_ne h), fun _ => stripped_canonical h⟩
    exact (digitCount_canonical_le _).trans (digitCount_roundTo_le ctx.precision_pos)

theorem Settled.canonical (h : Settled ctx x) : x.canonical = x := by
  by_cases hzero : x.unscaled = 0
  · rw [h.zero hzero]
    exact canonical_zero rfl
  · exact eq_of_stripped (toRat_canonical x) (stripped_canonical hzero) (h.stripped hzero)

/-- Rounding and stripping bring a settled value back from any representation. -/
theorem Settled.canonical_round {y : Decimal} (h : Settled ctx x) (hvalue : y.toRat = x.toRat) :
    (ctx.round y).canonical = x := by
  have hround : (ctx.round y).toRat = y.toRat :=
    ctx.toRat_round (m := x.unscaled) (s := x.scale) hvalue
      ((Integer.digitCount_le_iff ctx.precision_pos).1 h.digits) x.scale_fits.1
  rw [canonical_eq_of_toRat_eq (hround.trans hvalue), h.canonical]

namespace Syntax

/-! ## Written values -/

theorem literal_of_written {text : List Char} (h : Written x text) : Literal x text := by
  have hvalue := h.ofChars?
  cases h with
  | whole hne hdigits =>
    exact ⟨0, text, [], hdigits, .inl rfl, by rwa [List.append_nil], by simp⟩
  | @point _ whole fraction hne hdigits _ _ =>
    exact ⟨0, whole, '.' :: fraction, fun c hc => hdigits c (List.mem_append_left _ hc),
      .inr ⟨fraction, fun c hc => hdigits c (List.mem_append_right _ hc), rfl⟩, hvalue, rfl⟩

theorem literal_toChars (h : 0 ≤ x.unscaled) : Literal x.writtenOut x.toChars :=
  literal_of_written (written_toChars h)

/-- What a written decimal prints: a number, or a number with a sign. -/
def writtenTree (x : Decimal) : Tree :=
  if x.isNegative then .sign true (.number (-x).writtenOut) else .number x.writtenOut

theorem prints_toChars (x : Decimal) : Prints .factor (writtenTree x) x.toChars := by
  unfold writtenTree
  obtain ⟨hsign, hpositive⟩ | ⟨hsign, hpositive⟩ := x.nonneg_or
  · rw [hsign]
    exact .primary (.number (literal_toChars hpositive))
  · rw [hsign, toChars_neg hsign]
    exact .sign true (.cons 0 '-' .nil) (.primary (.number (literal_toChars hpositive)))

theorem depth_writtenTree (x : Decimal) : (writtenTree x).depth ≤ 2 := by
  unfold writtenTree
  split <;> simp [Tree.depth]

theorem value_writtenTree (ctx : Context) (skipping : Bool) (x : Decimal) :
    (writtenTree x).value ctx skipping = .ok x.writtenOut := by
  unfold writtenTree
  split
  · rw [Tree.value, Tree.value, writtenOut_neg]
    exact congrArg Except.ok (negate_twice x.writtenOut)
  · rw [Tree.value]
    rfl

/-! ## Evaluating a result again -/

theorem evaluate_toChars {levels : Nat} (h : Settled ctx x) (hlevels : 2 ≤ levels) :
    Calculator.evaluate ⟨ctx, levels⟩ x.toChars .empty = .ok x := by
  have hprints : PrintsWhole (writtenTree x) x.toChars :=
    ⟨_, 0, .term (.factor (prints_toChars x)), by simp⟩
  have hanswers : Answers ctx _ (Calculator.evaluate ⟨ctx, levels⟩ x.toChars .empty) :=
    hprints.answers ((depth_writtenTree x).trans hlevels) .empty
  rw [value_writtenTree] at hanswers
  rw [show Calculator.evaluate ⟨ctx, levels⟩ x.toChars .empty = _ from hanswers,
    h.canonical_round (toRat_writtenOut x)]

theorem settled_of_evaluatePlain {calculator : Calculator} {text : List Char}
    (h : calculator.evaluatePlain text = .ok x) : Settled calculator.context x := by
  obtain ⟨-, -, -, value, -, rfl⟩ := evaluatePlain_eq_ok_iff.1 h
  exact settled_canonical_round _ value

/-- Every value that an evaluation gives is settled: it has no more digits than the context keeps,
zero is plain, and no zero is last unless the scale is the least word. Its plain form is evaluated
to the same decimal by any calculator of the same context with two levels. -/
theorem evaluate_settled (calculator : Calculator) (bindings : Bindings) (text : List Char)
    (x : Decimal) (h : calculator.evaluate text bindings = .ok x) :
    Settled calculator.context x ∧ ∀ levels, 2 ≤ levels →
      Calculator.evaluate ⟨calculator.context, levels⟩ x.toChars .empty = .ok x := by
  have hsettled : Settled calculator.context x := by
    unfold Calculator.evaluate at h
    cases hfill : bindings.fillIn calculator text with
    | error error => simp [hfill, bind, Except.bind] at h
    | ok plain => exact settled_of_evaluatePlain (by simpa [hfill, bind, Except.bind] using h)
  exact ⟨hsettled, fun levels => evaluate_toChars hsettled⟩

/-- Nines that carry into a fifth digit, with a sign in front. -/
theorem evaluate_settled_carry :
    let calculator : Calculator := ⟨⟨4, .halfEven, by decide⟩, 3⟩
    let text := "-9999.6".toList
    let x := ofScaled (-1) (-4)
    calculator.evaluate text .empty = .ok x ∧
      Settled calculator.context x ∧ ∀ levels, 2 ≤ levels →
        Calculator.evaluate ⟨calculator.context, levels⟩ x.toChars .empty = .ok x := by
  intro calculator text x
  have h : calculator.evaluate text .empty = .ok x := by decide +kernel
  exact ⟨h, evaluate_settled calculator .empty text x h⟩

/-! ## A zero that stays -/

/-- Two digits, ties to even. -/
def twoDigits : Context := ⟨2, .halfEven, by decide⟩

/-- Near the greatest power that can be taken of a short number. -/
def powerTree : Tree :=
  .operation .power (.number (ofNat 10000)) (.number (ofNat 200000000000000))

def powerText : List Char := "10000^200000000000000".toList

def productTree : Nat → Tree
  | 0 => powerTree
  | n + 1 => .operation .product (productTree n) powerTree

def productText : Nat → List Char
  | 0 => powerText
  | n + 1 => productText n ++ '*' :: powerText

theorem prints_power : Prints .factor powerTree powerText := by
  have hliteral (digits : List Char) (n : Nat) (hdigits : ∀ c ∈ digits, c.isDigit)
      (hvalue : ofChars? digits = some (ofNat n)) : Prints .primary (.number (ofNat n)) digits :=
    .number ⟨0, digits, [], hdigits, .inl rfl, by rwa [List.append_nil], by simp⟩
  have hbase := hliteral "10000".toList 10000 (by decide) (by decide +kernel)
  have hexponent := hliteral "200000000000000".toList 200000000000000 (by decide)
    (by decide +kernel)
  have hsign : (['^'], .power) ∈ tails := by decide
  exact .tail hsign hbase (.cons 0 '^' .nil) (.primary hexponent)

theorem prints_product (n : Nat) : Prints .term (productTree n) (productText n) := by
  have hsign : ('*', .product) ∈ Grammar.products := by decide
  induction n with
  | zero => exact .factor prints_power
  | succ n ih => exact .product hsign ih (.cons 0 '*' .nil) prints_power

theorem depth_product (n : Nat) : (productTree n).depth = 2 := by
  induction n with
  | zero => simp [productTree, powerTree, Tree.depth]
  | succ n ih => simp [productTree, Tree.depth, ih, powerTree]

theorem Tree.value_operation {operator : Grammar.Operator} {l r : Tree} {y z : Decimal}
    (hl : l.value ctx false = .ok x) (hr : r.value ctx false = .ok y)
    (h : operator.apply ctx x y = .ok z) : (operation operator l r).value ctx false = .ok z := by
  rw [Tree.value, hl, hr]
  exact congrArg (Except.mapError fun error => Failure.mk error false) h

theorem value_power : powerTree.value twoDigits false = .ok (ofScaled 10 (-799999999999999)) := by
  have hpower : Grammar.Operator.power.apply twoDigits (ofNat 10000) (ofNat 200000000000000) =
      .ok (ofScaled 10 (-799999999999999)) := by decide +kernel
  exact Tree.value_operation (by rw [Tree.value]; rfl) (by rw [Tree.value]; rfl) hpower

/-- The product of two tens drops a zero, and its scale stops at the least word. -/
theorem mul_tens (s t : Int) : twoDigits.mul (ofScaled 10 s) (ofScaled 10 t) =
    ofScaled 10 (Word.saturate (Word.saturate s + Word.saturate t) - 1) := by
  have hlong (s : Int) : (ofScaled 100 s).digitCount = 3 := by
    rw [digitCount_ofScaled]
    decide +kernel
  have hshort (s : Int) : (ofScaled 10 s).digitCount = 2 := by
    rw [digitCount_ofScaled]
    decide +kernel
  have hquotient : Rounding.halfEven.quotient 100 (Integer.pow10 (3 - 2) : Nat) = 10 := by decide
  change (ofScaled 100 _).roundTo 2 .halfEven = _
  unfold roundTo
  simp only [hlong, unscaled_ofScaled, scale_ofScaled, hquotient, hshort]
  rfl

/-- Each factor lowers the scale by as much as it can. -/
theorem mul_power (s : Int) (hs : s ≤ Word.greatest) :
    twoDigits.mul (ofScaled 10 s) (ofScaled 10 (-799999999999999)) =
      ofScaled 10 (s - 800000000000000) := by
  have hfits : Word.Fits (-799999999999999) := by decide
  have hgreatest : s + -799999999999999 ≤ Word.greatest := by omega
  rw [mul_tens, Word.saturate_of_fits hfits, ext_iff, unscaled_ofScaled, unscaled_ofScaled,
    scale_ofScaled, scale_ofScaled, sub_eq_add_neg _ (1 : Int), Word.saturate_add hs (by decide),
    Word.saturate_add hgreatest (by decide)]
  refine ⟨rfl, congrArg Word.saturate ?_⟩
  omega

theorem value_product (n : Nat) : (productTree n).value twoDigits false =
    .ok (ofScaled 10 (1 - (n + 1) * 800000000000000)) := by
  induction n with
  | zero => simpa [productTree] using value_power
  | succ n ih =>
    refine Tree.value_operation ih value_power (congrArg Except.ok ?_)
    rw [mul_power _ (by unfold Word.greatest; omega), ext_iff, scale_ofScaled, scale_ofScaled]
    refine ⟨by rw [unscaled_ofScaled, unscaled_ofScaled], congrArg Word.saturate ?_⟩
    push_cast
    ring

theorem evaluate_product (n : Nat) :
    Calculator.evaluate ⟨twoDigits, Calculator.standardDepth⟩ (productText n) .empty =
      .ok (twoDigits.round (ofScaled 10 (1 - (n + 1) * 800000000000000))).canonical := by
  have hprints : PrintsWhole (productTree n) (productText n) :=
    ⟨_, 0, .term (prints_product n), by simp⟩
  have hdepth : (productTree n).depth ≤ Calculator.standardDepth := by
    rw [depth_product]
    decide
  have hanswers : Answers twoDigits _
      (Calculator.evaluate ⟨twoDigits, Calculator.standardDepth⟩ (productText n) .empty) :=
    hprints.answers hdepth .empty
  rwa [value_product] at hanswers

/-- A product beyond the powers that a scale can tell keeps the last zero of its ten. -/
theorem least_scale_keeps_zero :
    let x := ofScaled 10 Word.least
    Calculator.evaluate ⟨twoDigits, Calculator.standardDepth⟩ (productText 11529) .empty = .ok x ∧
      x.unscaled ≠ 0 ∧ 10 ∣ x.unscaled := by
  intro x
  have hproduct : ofScaled 10 (1 - ((11529 : Nat) + 1) * 800000000000000) = x := by
    rw [ext_iff, unscaled_ofScaled, scale_ofScaled, Word.saturate_of_le (by decide)]
    exact ⟨rfl, rfl⟩
  have hcanonical : (twoDigits.round x).canonical = x := by decide +kernel
  refine ⟨?_, by decide, by decide⟩
  rw [evaluate_product, hproduct, hcanonical]

end Syntax

end Reckoner
