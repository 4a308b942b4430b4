import Reckoner.Proofs.Decimal.Order
import Reckoner.Proofs.Syntax.Choices

/-!
# The truth of statements

What a statement means, from the values of its expressions alone: values are compared as rational
numbers, and conditions are joined from the left, `&` and `|` alike. A calculator finds that truth
wherever the expressions have values.
-/

namespace Reckoner

/-! ## Relations -/

/-- Whether a relation holds between two numbers. -/
def Grammar.Relation.relates : Grammar.Relation → ℚ → ℚ → Bool
  | greater, x, y => decide (x > y)
  | atLeast, x, y => decide (x ≥ y)
  | less, x, y => decide (x < y)
  | atMost, x, y => decide (x ≤ y)
  | equal, x, y => decide (x = y)
  | unequal, x, y => decide (x ≠ y)

theorem Grammar.Relation.holds_compare (relation : Grammar.Relation) (x y : Decimal) :
    relation.holds (compare x y) = relation.relates x.toRat y.toRat := by
  rw [show compare x y = compare x.toRat y.toRat from Decimal.compareValue_eq_compare x y]
  rcases lt_trichotomy x.toRat y.toRat with h | h | h
  · rw [compare_lt_iff_lt.2 h]
    cases relation <;> simp [holds, relates, h, h.le, h.ne, h.not_gt, h.not_ge]
  · rw [compare_eq_iff_eq.2 h]
    cases relation <;> simp [holds, relates, h]
  · rw [compare_gt_iff_gt.2 h]
    cases relation <;> simp [holds, relates, h, h.le, h.ne', h.not_gt, h.not_ge]

theorem Decimal.isZero_eq (x : Decimal) : (!x.isZero) = decide (x.toRat ≠ 0) := by
  simp only [isZero, ne_eq, toRat_eq_zero, decide_not, Bool.beq_eq_decide_eq]

end Reckoner

namespace Reckoner.Syntax

/-! ## The meaning of a statement -/

/-- The expressions of a statement. -/
def Statement.expressions : Statement → List Tree
  | .truth t => [t]
  | .comparison _ l r => [l, r]
  | .negation s | .group s => s.expressions
  | .join _ l r => l.expressions ++ r.expressions

/-- What a statement means if its expressions have the given values. -/
def Statement.meaning (value : Tree → ℚ) : Statement → Bool
  | .truth t => decide (value t ≠ 0)
  | .comparison relation l r => relation.relates (value l) (value r)
  | .negation s => !s.meaning value
  | .group s => s.meaning value
  | .join true l r => l.meaning value && r.meaning value
  | .join false l r => l.meaning value || r.meaning value

variable {ctx : Context} {calculator : Calculator} {text : List Char} {value : Tree → Decimal}

theorem Statement.holds_eq_meaning (s : Statement) (inParentheses : Bool)
    (hvalues : ∀ t ∈ s.expressions, t.value ctx false = .ok (value t)) :
    s.holds ctx false inParentheses = .ok (s.meaning fun t => (value t).toRat) := by
  cases s with
  | truth t =>
    have ht := hvalues t (by simp [expressions])
    simp only [holds, ht, meaning, ← Decimal.isZero_eq]
    rfl
  | comparison relation l r =>
    have hl := hvalues l (by simp [expressions])
    have hr := hvalues r (by simp [expressions])
    simp only [holds, hl, hr, meaning, ← Grammar.Relation.holds_compare]
    rfl
  | negation s =>
    have hs := s.holds_eq_meaning inParentheses hvalues
    simp only [holds, hs, meaning]
    rfl
  | group s => exact s.holds_eq_meaning true hvalues
  | join conjunction l r =>
    have hl := l.holds_eq_meaning inParentheses fun t ht =>
      hvalues t (List.mem_append_left _ ht)
    have hr := r.holds_eq_meaning inParentheses fun t ht =>
      hvalues t (List.mem_append_right _ ht)
    rcases conjunction with - | - <;> simp only [holds, hl, hr, meaning] <;> rfl

/-! ## Texts of statements -/

theorem prints_digit {c : Char} {n : Nat} (hc : c.isDigit)
    (hvalue : Decimal.ofChars? [c] = some (Decimal.ofNat n)) :
    Prints .expression (.number (Decimal.ofNat n)) [c] :=
  .term (.factor (.primary (.number ⟨0, [c], [], by simpa using hc, .inl rfl, hvalue, rfl⟩)))

theorem round_digit {n : Nat} (hn : n < 10) : ctx.round (Decimal.ofNat n) = Decimal.ofNat n := by
  have hcount : (Decimal.ofNat n).digitCount ≤ ctx.precision :=
    ((Integer.digitCount_le_iff one_pos).2 hn).trans ctx.precision_pos
  unfold Context.round Decimal.roundTo
  rw [if_pos (by simp [hcount])]

/-- What comes of a printed statement as the condition of a choice between one and zero. -/
theorem answers_test {s : Statement} (hs : PrintsTest s text)
    (hdepth : s.depth < calculator.maxDepth) :
    Answers calculator.context
      ((Tree.conditional false s (.number (Decimal.ofNat 1)) (.number (Decimal.ofNat 0))).value
        calculator.context false)
      (calculator.evaluate ("if(".toList ++ text ++ ",1,0)".toList) .empty) := by
  have hone : PrintsWhole (.number (Decimal.ofNat 1)) ['1'] := ⟨_, 0, prints_digit rfl rfl, rfl⟩
  have hzero : PrintsWhole (.number (Decimal.ofNat 0)) ['0'] := ⟨_, 0, prints_digit rfl rfl, rfl⟩
  have hprints := PrintsWhole.choice (by rfl : Builtin.ofName? "if" = some (.conditional false))
    hs hone hzero
  have hlevels : (Tree.conditional false s (.number (Decimal.ofNat 1))
      (.number (Decimal.ofNat 0))).depth ≤ calculator.maxDepth := by
    have hpos := s.depth_pos
    simp only [Tree.depth]
    omega
  rw [show "if(".toList ++ text ++ ",1,0)".toList = choiceText "if" text ['1'] ['0'] by
    simp [choiceText]]
  exact hprints.answers hlevels .empty

theorem holds_of_test {s : Statement} {b : Bool} (hs : PrintsTest s text)
    (hdepth : s.depth < calculator.maxDepth)
    (hholds : s.holds calculator.context false false = .ok b) :
    calculator.holds text = .ok b := by
  have hanswers := answers_test hs hdepth
  rw [Tree.value_choice hholds] at hanswers
  unfold Calculator.holds
  rcases b with - | -
  · rw [show calculator.evaluate _ _ = _ from hanswers, round_digit (by decide)]
    rfl
  · have hone : (Decimal.ofNat 1).canonical.sameValue 1 = true := by decide +kernel
    rw [show calculator.evaluate _ _ = _ from hanswers, round_digit (by decide)]
    exact congrArg Except.ok hone

/-- A printed statement whose expressions all have values has its meaning for a truth, whatever
spaces it is printed with. It takes one level more than it nests. -/
theorem holds_printed (calculator : Calculator) (s : Statement) (u : List Char) (n : Nat)
    (value : Tree → Decimal) (hprints : Prints .statement s u)
    (hdepth : s.depth < calculator.maxDepth)
    (hvalues : ∀ t ∈ s.expressions, t.value calculator.context false = .ok (value t)) :
    calculator.holds (u ++ List.replicate n ' ') = .ok (s.meaning fun t => (value t).toRat) :=
  holds_of_test ⟨u, n, hprints, rfl⟩ hdepth (s.holds_eq_meaning false hvalues)

theorem holds_printed_group :
    let calculator : Calculator := ⟨⟨10, .halfUp, by decide⟩, 4⟩
    let number (n : Nat) : Tree := .number (Decimal.ofNat n)
    let value : Tree → Decimal
      | .number x => x
      | _ => 0
    let s : Statement := .join true (.negation (.group (.comparison .greater (number 1) (number 2))))
      (.truth (number 3))
    let u := ['!', '(', '1', '>', '2', ')', '&', '3']
    Prints .statement s u ∧ s.depth < 4 ∧
      (∀ t ∈ s.expressions, t.value calculator.context false = .ok (value t)) ∧
      calculator.holds (u ++ List.replicate 2 ' ') = .ok (s.meaning fun t => (value t).toRat) := by
  intro calculator number value s u
  have hsign (c : Char) : Spaced [c] [c] := .cons 0 c .nil
  have hdigits : Prints .expression (number 1) ['1'] ∧ Prints .expression (number 2) ['2'] ∧
      Prints .expression (number 3) ['3'] :=
    ⟨prints_digit rfl rfl, prints_digit rfl rfl, prints_digit rfl rfl⟩
  have hgreater : (['>'], Grammar.Relation.greater) ∈ relations := by decide
  have hand : ('&', true) ∈ connectives := by decide
  have hcomparison : Prints .clause (.comparison .greater (number 1) (number 2)) _ :=
    .comparison hgreater hdigits.1 (hsign '>') hdigits.2.1
  have hnegation : Prints .condition _ _ := .negation (hsign '!')
    (.group (hsign '(') (.conditions (.condition (.clause hcomparison))) (hsign ')'))
  have hprints : Prints .statement s u := .conditions
    (.join hand (.condition hnegation) (hsign '&') (.clause (.truth hdigits.2.2)))
  have hdepth : s.depth < 4 := by simp [s, number, Statement.depth, Tree.depth]
  have hvalues : ∀ t ∈ s.expressions, t.value calculator.context false = .ok (value t) := by
    simp only [s, Statement.expressions, List.mem_append, List.mem_cons, List.not_mem_nil, or_false]
    rintro t ((rfl | rfl) | rfl) <;> simp only [number, Tree.value] <;> rfl
  exact ⟨hprints, hdepth, hvalues, holds_printed calculator s u 2 value hprints hdepth hvalues⟩

end Reckoner.Syntax
