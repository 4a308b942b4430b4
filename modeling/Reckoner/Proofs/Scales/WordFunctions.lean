import Reckoner.Expression.FunctionTable
import Reckoner.Proofs.Accuracy.Factorials
import Reckoner.Proofs.Scales.Gammas

/-!
# Functions that read words

A factorial, a power, a root and a rounding to so many digits read an argument as a word. They answer
representations of one value alike. A zero with too many zeros left to its scale is the one exception,
unless the function tells zero by itself.
-/

namespace Reckoner

open Decimal

/-- A function that reads an argument as a word, with its other argument. -/
inductive WordFunction where
  | factorial
  | pow (base : Decimal)
  | root (radicand : Decimal)
  | roundTo (number : Decimal)
  deriving DecidableEq

namespace WordFunction

variable {x y : Decimal} {ctx : Context}

def apply (ctx : Context) : WordFunction → Decimal → Arithmetic Decimal
  | factorial, x => ctx.factorial x
  | pow base, x => ctx.pow base x
  | root radicand, x => ctx.root radicand x
  | roundTo number, x => Builtin.roundToDigits number x

/-- The run with the scales that it asks for. A rounding to digits asks for a word. -/
def traced (ctx : Context) : WordFunction → Decimal → Traced Decimal
  | factorial, x => Traced.factorial ctx x
  | pow base, x => Traced.pow ctx base x
  | root radicand, x => Traced.root ctx radicand x
  | roundTo number, x => Traced.lift (Builtin.roundToDigits number x)

/-- The integers that the function reads. Others are too great for it, or it goes by logarithms as for a
fraction. -/
def Reads : WordFunction → Int → Prop
  | root _, n => 0 ≤ n ∧ n < 4294967296
  | _, n => Word.Fits n

/-- A zero is told by itself, whether it is read as a word or not. -/
def TellsZero : WordFunction → Prop
  | pow _ | root _ => True
  | factorial | roundTo _ => False

theorem result_traced (function : WordFunction) (x : Decimal) :
    (function.traced ctx x).result = function.apply ctx x := by
  cases function with
  | factorial => exact Traced.result_factorial
  | pow base => exact Traced.result_pow base x
  | root radicand => exact Traced.result_root radicand x
  | roundTo number => rfl

theorem root_of_degree {radicand : Decimal} {n : Int} (hx : x.toRat = n) (hn : 0 ≤ n)
    (hlimit : n < 4294967296) : ctx.root radicand x = ctx.rootOfDegree radicand n.toNat := by
  obtain rfl | hne := eq_or_ne n 0
  · rw [← Traced.result_root, Traced.root_of_zero (hx.trans Int.cast_zero)]
    rfl
  have hx0 : x.toRat ≠ 0 := by rwa [hx, Int.cast_ne_zero]
  have hfits : Word.Fits n := by
    unfold Word.Fits Word.least Word.greatest
    omega
  have hword : x.toWord? = some n :=
    (toWord?_eq_some_iff (zeroWithin_of_ne hx0)).2 ⟨hx, hfits⟩
  have hdegree : Context.wholeDegree? x = some n.toNat := by
    unfold Context.wholeDegree?
    rw [hword, Option.bind_some, if_pos ⟨hn, hlimit⟩]
  unfold Context.root
  rw [hdegree]

theorem roundTo_congr {number : Decimal} (h : x.toRat = y.toRat) (hword : x.toWord? = y.toWord?) :
    Builtin.roundToDigits number x = Builtin.roundToDigits number y := by
  unfold Builtin.roundToDigits
  rw [Traced.Same.isWhole h, hword]

/-- An integer that the function reads has one answer, down to the representation. -/
theorem apply_congr (function : WordFunction) (ctx : Context) {n : Int} (hx : x.toRat = n)
    (hy : y.toRat = n) (hn : function.Reads n)
    (hword : function.TellsZero ∨ x.toWord? = y.toWord?) :
    function.apply ctx x = function.apply ctx y := by
  cases function with
  | factorial =>
    change ctx.factorial x = ctx.factorial y
    rw [Context.factorial_eq hx, Context.factorial_eq hy,
      Traced.wholeFactorial_congr (hword.resolve_left not_false)]
  | pow base =>
    change ctx.pow base x = ctx.pow base y
    rw [(Context.pow_of_word ctx base hx hn).1, (Context.pow_of_word ctx base hy hn).1]
  | root radicand =>
    change ctx.root radicand x = ctx.root radicand y
    obtain ⟨hpos, hlimit⟩ := hn
    rw [root_of_degree hx hpos hlimit, root_of_degree hy hpos hlimit]
  | roundTo number => exact roundTo_congr (hx.trans hy.symm) (hword.resolve_left not_false)

/-- Any other numbers of one value have one answer up to its representation. -/
theorem agree_traced (function : WordFunction) (ctx : Context) (h : x.toRat = y.toRat)
    (hword : function.TellsZero ∨ x.toWord? = y.toWord?) :
    Traced.Agree Traced.Same (function.traced ctx x) (function.traced ctx y) := by
  cases function with
  | factorial => exact Traced.agree_factorial h (hword.resolve_left not_false)
  | pow base => exact Traced.agree_pow (.refl base) h
  | root radicand => exact Traced.agree_root (.refl radicand) h
  | roundTo number =>
    change Traced.Agree _ (.lift (Builtin.roundToDigits number x)) (.lift (Builtin.roundToDigits number y))
    rw [roundTo_congr h (hword.resolve_left not_false)]
    exact Traced.agree_same _

theorem refuses_far_zero (function : WordFunction) (ctx : Context) (htells : ¬ function.TellsZero)
    (hx : ¬ x.ZeroWithin) : function.apply ctx x = .error .exponentTooLarge := by
  have hword := toWord?_of_far_zero hx
  have hzero : x.toRat = (0 : Int) := by
    rw [Int.cast_zero]
    by_contra hne
    exact hx (zeroWithin_of_ne hne)
  cases function with
  | factorial =>
    change ctx.factorial x = _
    rw [Context.factorial_eq hzero, Context.wholeFactorial, hword]
  | pow base => exact absurd trivial htells
  | root radicand => exact absurd trivial htells
  | roundTo number =>
    change Builtin.roundToDigits number x = _
    rw [Builtin.roundToDigits, isWhole_iff.2 ⟨0, hzero⟩, hword]
    rfl

/-! ## Reading and answering -/

/-- A number is read as the word that it is, unless it is a zero beyond the limit. So representations of
one value are read alike if they are on the same side of that limit, and they always are if the value is
not zero. The functions that read an argument answer alike where the number is read alike, and powers and
roots even where a zero is not: an integer that they read gives one answer, any other number answers of
one value. A zero beyond the limit is refused by factorials and by roundings as a number that is too long. -/
theorem reads_value_unless_far_zero (function : WordFunction) (ctx : Context) (x y : Decimal) :
    (∀ n : Int, x.toWord? = some n ↔ x.toRat = n ∧ Word.Fits n ∧ x.ZeroWithin) ∧
    (x.toRat = y.toRat →
      (x.toWord? = y.toWord? ↔ (x.ZeroWithin ↔ y.ZeroWithin)) ∧
      (function.TellsZero ∨ (x.ZeroWithin ↔ y.ZeroWithin) →
        (∀ n : Int, x.toRat = n → function.Reads n → function.apply ctx x = function.apply ctx y) ∧
        ((function.traced ctx x).Fits → (function.traced ctx y).Fits →
          Traced.Matches Traced.Same (function.apply ctx x) (function.apply ctx y)))) ∧
    (¬ function.TellsZero → ¬ x.ZeroWithin →
      function.apply ctx x = .error .exponentTooLarge) := by
  refine ⟨fun n => toWord?_eq_some_iff_within, fun h => ⟨toWord?_eq_iff h, fun hside => ?_⟩,
    function.refuses_far_zero ctx⟩
  have hword := hside.imp_right (toWord?_eq_iff h).2
  refine ⟨fun n hn hreads => function.apply_congr ctx hn (h.symm.trans hn) hreads hword, ?_⟩
  intro hfits hfits'
  rw [← result_traced, ← result_traced]
  exact function.agree_traced ctx h hword hfits hfits'

/-- Two to the fifth, where the five has two zeros behind it, and a zero that no factorial takes. -/
theorem reads_value_unless_far_zero_five :
    let five := ofScaled 500 2
    let zero := ofScaled 0 (-1000001)
    (5 : Decimal).toRat = five.toRat ∧ (pow 2).TellsZero ∧ (5 : Decimal).toRat = (5 : Int) ∧
      (pow 2).Reads 5 ∧ ((pow 2).traced .standard 5).Fits ∧ ((pow 2).traced .standard five).Fits ∧
      (5 : Decimal).toWord? = five.toWord? ∧
      (pow 2).apply .standard 5 = (pow 2).apply .standard five ∧
      Traced.Matches Traced.Same ((pow 2).apply .standard 5) ((pow 2).apply .standard five) ∧
      ¬ factorial.TellsZero ∧ ¬ zero.ZeroWithin ∧
      factorial.apply .standard zero = .error .exponentTooLarge := by
  intro five zero
  have hvalue : (5 : Decimal).toRat = five.toRat := sameValue_iff.1 (by decide +kernel)
  have htells : (pow 2).TellsZero := trivial
  have hfive : (5 : Decimal).toRat = (5 : Int) := toRat_ofInt 5
  have hreads : (pow 2).Reads 5 := by
    change Word.Fits 5
    decide
  have hfits : ((pow 2).traced .standard 5).Fits := by decide +kernel
  have hfits' : ((pow 2).traced .standard five).Fits := by decide +kernel
  have hfar : ¬ zero.ZeroWithin := fun hwithin => absurd (hwithin (toRat_eq_zero.2 rfl)) (by decide)
  have hne : (5 : Decimal).toRat ≠ 0 := mt toRat_eq_zero.1 (by decide)
  obtain ⟨-, hanswers, -⟩ := reads_value_unless_far_zero (pow 2) .standard 5 five
  obtain ⟨hread, hanswers⟩ := hanswers hvalue
  obtain ⟨hsame, hmatches⟩ := hanswers (.inl htells)
  obtain ⟨-, -, hrefused⟩ := reads_value_unless_far_zero factorial .standard zero 0
  have hsides := iff_of_true (zeroWithin_of_ne hne) (zeroWithin_of_ne (hvalue ▸ hne))
  exact ⟨hvalue, htells, hfive, hreads, hfits, hfits', hread.2 hsides, hsame 5 hfive hreads,
    hmatches hfits hfits', not_false, hfar, hrefused not_false hfar⟩

/-- A zero with a million and one zeros left to its scale is not read as the word zero, and the factorial
and the rounding that plain zero has are refused to it. -/
theorem far_zero_is_not_read :
    let zero := ofScaled 0 (-1000001)
    zero.toRat = (0 : Int) ∧ Word.Fits 0 ∧ zero.toWord? = none ∧
      (¬ ∀ (x : Decimal) (n : Int), x.toWord? = some n ↔ x.toRat = n ∧ Word.Fits n) ∧
      zero.sameValue 0 = true ∧ (0 : Decimal).toWord? = some 0 ∧
      Context.standard.factorial 0 = .ok 1 ∧
      Context.standard.factorial zero = .error .exponentTooLarge ∧
      Builtin.roundToDigits half 0 = .ok 1 ∧
      Builtin.roundToDigits half zero = .error .exponentTooLarge := by
  intro zero
  have hzero : zero.toRat = (0 : Int) := (toRat_eq_zero.2 rfl).trans Int.cast_zero.symm
  have hnone : zero.toWord? = none := rfl
  refine ⟨hzero, Word.zero_fits, hnone, fun hclaim => ?_, by decide +kernel, by decide +kernel,
    by decide +kernel, rfl, by decide +kernel, rfl⟩
  have hread := (hclaim zero 0).2 ⟨hzero, Word.zero_fits⟩
  rw [hnone] at hread
  cases hread

end WordFunction

end Reckoner
