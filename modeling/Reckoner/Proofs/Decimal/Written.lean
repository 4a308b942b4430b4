import Mathlib.Data.List.TakeWhile
import Reckoner.Decimal.Literal
import Reckoner.Proofs.Decimal.Value

/-!
# The plain form of a decimal

The plain form shows the digits of a value and its point, but not how many zeros of a long number
were left to the scale. Read again, it gives the same value with the scale that was shown.
-/

namespace Reckoner.Decimal

open Integer

variable {x : Decimal} {text digits : List Char}

/-- The representation that the plain form shows: no zero is left to the scale. -/
def writtenOut (x : Decimal) : Decimal := if x.scale ≤ 0 then ofInt (x.integerAt 0) else x

theorem toRat_writtenOut (x : Decimal) : x.writtenOut.toRat = x.toRat := by
  unfold writtenOut
  split
  · next hscale => rw [toRat_ofInt, ← integerAt_toRat hscale, neg_zero, zpow_zero, mul_one]
  · rfl

theorem negate_twice (x : Decimal) : - -x = x := by
  change (⟨- -x.unscaled, x.scale, x.scale_fits⟩ : Decimal) = x
  rw [Int.neg_neg]

theorem writtenOut_neg (x : Decimal) : (-x).writtenOut = -x.writtenOut := by
  have hscale : (-x).scale = x.scale := rfl
  have hunscaled : (-x).unscaled = -x.unscaled := rfl
  unfold writtenOut
  rw [hscale]
  split
  · unfold integerAt
    rw [hscale, hunscaled, neg_mul]
    rfl
  · rfl

theorem nonneg_or (x : Decimal) :
    x.isNegative = false ∧ 0 ≤ x.unscaled ∨ x.isNegative = true ∧ 0 ≤ (-x).unscaled := by
  have hunscaled : (-x).unscaled = -x.unscaled := rfl
  rw [hunscaled, isNegative, decide_eq_true_iff, decide_eq_false_iff_not]
  omega

/-! ## Digits and a point -/

/-- A number without a sign, as digits with a point in front of those behind it, if there are any. -/
inductive Written : Decimal → List Char → Prop where
  | whole {digits : List Char} : digits ≠ [] → (∀ c ∈ digits, c.isDigit) →
    Written (ofNat (Nat.ofDigitChars 10 digits 0)) digits
  | point {x : Decimal} {whole fraction : List Char} : whole ≠ [] →
    (∀ c ∈ whole ++ fraction, c.isDigit) →
    x.unscaled = Nat.ofDigitChars 10 (whole ++ fraction) 0 → x.scale = fraction.length →
    Written x (whole ++ '.' :: fraction)

theorem toChars_neg (h : x.isNegative) : x.toChars = '-' :: (-x).toChars := by
  have hneg : x.unscaled < 0 := by simpa [isNegative] using h
  have hpositive : (-x).isNegative = false := by
    change decide (-x.unscaled < 0) = false
    simp; omega
  have hzero : x.isZero = false ∧ (-x).isZero = false := by
    refine ⟨beq_eq_false_iff_ne.2 (by omega), beq_eq_false_iff_ne.2 ?_⟩
    change -x.unscaled ≠ 0
    omega
  have hunscaled : (-x).unscaled = -x.unscaled := rfl
  have hscale : (-x).scale = x.scale := rfl
  unfold toChars
  simp only [h, hpositive, hzero, hunscaled, hscale, Int.natAbs_neg, Bool.false_and, if_true]
  simp only [Bool.false_eq_true, if_false, List.nil_append]
  split
  · simp
  · split <;> simp

/-- With no digits behind the point, the digits and the zeros that are left to the scale. -/
theorem written_toChars_whole {u : Nat} (hu : x.unscaled = u) (hscale : x.scale ≤ 0) :
    Written x.writtenOut x.toChars := by
  have hsign : x.isNegative = false := by simp [isNegative, hu]
  rw [writtenOut, if_pos hscale, integerAt, hu, zero_sub, Int.natAbs_neg, toChars, hsign]
  split
  · next hzero =>
    obtain rfl : u = 0 := by simpa [isZero, hu, hscale] using hzero
    rw [Int.natCast_zero, zero_mul]
    exact @Written.whole ['0'] (by decide) (by simp)
  · simp only [hu, Int.natAbs_natCast, Bool.false_eq_true, if_false, List.nil_append]
    have hvalue : Nat.ofDigitChars 10
        (Nat.toDigits 10 u ++ List.replicate x.scale.natAbs '0') 0 = u * pow10 x.scale.natAbs := by
      rw [Nat.ofDigitChars_append, Nat.ofDigitChars_ten_toDigits, Nat.ofDigitChars_replicate_zero,
        mul_comm]
      rfl
    rw [show (u * (pow10 x.scale.natAbs : Nat) : Int) = (u * pow10 x.scale.natAbs : Nat) from
      (Nat.cast_mul _ _).symm, ← hvalue]
    refine .whole (by simp) fun c hc => ?_
    obtain hc | hc := List.mem_append.1 hc
    · exact Nat.isDigit_of_mem_toDigits (by decide) (by decide) hc
    · rw [List.eq_of_mem_replicate hc]
      rfl

/-- With digits behind the point, zeros in front where the number has too few digits. -/
theorem written_toChars_point {u : Nat} (hu : x.unscaled = u) (hscale : 0 < x.scale) :
    Written x.writtenOut x.toChars := by
  have hsign : x.isNegative = false := by simp [isNegative, hu]
  have hdigits : ∀ c ∈ Nat.toDigits 10 u, c.isDigit := fun c hc =>
    Nat.isDigit_of_mem_toDigits (by decide) (by decide) hc
  rw [writtenOut, if_neg hscale.not_ge, toChars, hsign]
  simp only [hu, Int.natAbs_natCast, hscale.not_ge, decide_false, Bool.and_false,
    Bool.false_eq_true, if_false, List.nil_append]
  split
  · next hlong =>
    refine .point ?_ ?_ ?_ ?_
    · simp; omega
    · rwa [List.take_append_drop]
    · rw [List.take_append_drop, Nat.ofDigitChars_ten_toDigits, hu]
    · rw [List.length_drop]; omega
  · next hshort =>
    refine @Written.point _ ['0'] (List.replicate _ '0' ++ Nat.toDigits 10 u) (by decide)
      (fun c hc => ?_) ?_ ?_
    · obtain rfl | ⟨-, rfl⟩ | hc := by simpa using hc
      · rfl
      · rfl
      · exact hdigits c hc
    · rw [Nat.ofDigitChars_append, Nat.ofDigitChars_append, Nat.ofDigitChars_replicate_zero,
        show Nat.ofDigitChars 10 ['0'] 0 = 0 from rfl, mul_zero, Nat.ofDigitChars_ten_toDigits, hu]
    · simp; omega

theorem written_toChars (h : 0 ≤ x.unscaled) : Written x.writtenOut x.toChars := by
  obtain ⟨u, hu⟩ := Int.eq_ofNat_of_zero_le h
  obtain hscale | hscale := le_or_gt x.scale 0
  · exact written_toChars_whole hu hscale
  · exact written_toChars_point hu hscale

/-! ## Reading -/

theorem splitFirst_of_not {p : Char → Bool} (h : ∀ c ∈ text, p c = false) :
    splitFirst p text = (text, none) := by
  have hdrop : text.dropWhile (!p ·) = [] := List.dropWhile_eq_nil_iff.2 (by simpa using h)
  rw [splitFirst, hdrop]

theorem splitFirst_append {p : Char → Bool} {c : Char} {rest : List Char}
    (h : ∀ d ∈ text, p d = false) (hc : p c) :
    splitFirst p (text ++ c :: rest) = (text, some rest) := by
  have htext : ∀ d ∈ text, (!p d) = true := by simpa using h
  have hdrop : (text ++ c :: rest).dropWhile (!p ·) = c :: rest := by
    rw [List.dropWhile_append_of_pos htext]
    simp [hc]
  rw [splitFirst, hdrop, List.takeWhile_append_of_pos htext]
  simp [hc]

theorem trim_eq_self (h : ∀ c ∈ text, Text.isBlank c = false) : Text.trim text = text := by
  have hdrop {text : List Char} (h : ∀ c ∈ text, Text.isBlank c = false) :
      text.dropWhile Text.isBlank = text := by
    cases text with
    | nil => rfl
    | cons c text => simp [h c]
  rw [Text.trim, hdrop h, hdrop (by simpa using h), List.reverse_reverse]

/-- The characters of a number without a sign. -/
def isFigure (c : Char) : Bool := c.isDigit || c == '.'

/-- A figure is no blank, no sign and no mark of an exponent. -/
theorem of_isFigure {c : Char} (h : isFigure c) :
    Text.isBlank c = false ∧ c ≠ '-' ∧ c ≠ '+' ∧ (c == 'e' || c == 'E') = false := by
  have hrange : 46 ≤ c.toNat ∧ c.toNat ≠ 47 ∧ c.toNat ≤ 57 := by
    obtain hdigit | hpoint := Bool.or_eq_true_iff.1 h
    · have : 48 ≤ c.toNat ∧ c.toNat ≤ 57 := by
        simpa [Char.isDigit, UInt32.le_iff_toNat_le] using hdigit
      omega
    · rw [beq_iff_eq.1 hpoint]
      decide
  have hne {d : Char} (hd : d.toNat < 46 ∨ 57 < d.toNat) : c ≠ d := by
    rintro rfl
    omega
  refine ⟨?_, hne (by decide), hne (by decide), ?_⟩
  · simp [Text.isBlank, Text.blanks]
    omega
  · simp [hne (d := 'e') (by decide), hne (d := 'E') (by decide)]

theorem Written.figures (h : Written x text) : text ≠ [] ∧ ∀ c ∈ text, isFigure c := by
  cases h with
  | whole hne hdigits => exact ⟨hne, fun c hc => by simp [isFigure, hdigits c hc]⟩
  | point hne hdigits _ _ =>
    refine ⟨by simp, fun c hc => ?_⟩
    obtain hc | rfl | hc := by simpa using hc
    · simp [isFigure, hdigits c (List.mem_append_left _ hc)]
    · rfl
    · simp [isFigure, hdigits c (List.mem_append_right _ hc)]

theorem Written.digitsOfChars? (h : Written x text) :
    ∃ u places : Nat, digitsOfChars? text = some (u, places) ∧ x.unscaled = u ∧ x.scale = places := by
  have hnot {digits : List Char} (h : ∀ c ∈ digits, c.isDigit) :
      ∀ c ∈ digits, (c == '.') = false := by
    intro c hc
    refine beq_eq_false_iff_ne.2 ?_
    rintro rfl
    exact absurd (h _ hc) (by decide)
  unfold Decimal.digitsOfChars?
  cases h with
  | whole hne hdigits =>
    refine ⟨Nat.ofDigitChars 10 text 0, 0, ?_, rfl, rfl⟩
    have hall : text.all Char.isDigit := List.all_eq_true.2 hdigits
    rw [splitFirst_of_not (hnot hdigits)]
    simp [hne] at hall ⊢
    exact hall
  | @point _ whole fraction hne hdigits hunscaled hscale =>
    refine ⟨_, _, ?_, hunscaled, hscale⟩
    rw [splitFirst_append (hnot fun c hc => hdigits c (List.mem_append_left _ hc)) rfl]
    have hall : (whole ++ fraction).all Char.isDigit := List.all_eq_true.2 hdigits
    simp [hne] at hall ⊢
    exact hall

/-- What is written is read. -/
theorem Written.ofChars? (h : Written x text) : ofChars? text = some x := by
  obtain ⟨hne, hfigures⟩ := h.figures
  obtain ⟨u, places, hdigits, hunscaled, hscale⟩ := h.digitsOfChars?
  unfold Decimal.ofChars?
  rw [trim_eq_self fun c hc => (of_isFigure (hfigures c hc)).1,
    splitFirst_of_not fun c hc => (of_isFigure (hfigures c hc)).2.2.2]
  obtain ⟨c, rest, rfl⟩ := List.exists_cons_of_ne_nil hne
  obtain ⟨-, hminus, hplus, -⟩ := of_isFigure (hfigures c List.mem_cons_self)
  have hfits : Word.Fits (places : Int) := hscale ▸ x.scale_fits
  have hx : x = ⟨u, places, hfits⟩ := by
    cases x
    simp_all
  simp [hminus, hplus, hdigits, hx, hfits]

theorem mem_of_mem_trim {c : Char} (h : c ∈ Text.trim text) : c ∈ text := by
  have h : c ∈ text.dropWhile Text.isBlank := by
    rw [Text.trim, List.mem_reverse] at h
    simpa using List.dropWhile_subset _ h
  exact List.dropWhile_subset _ h

theorem mem_of_mem_splitFirst {c : Char} (p : Char → Bool) (h : c ∈ (splitFirst p text).1) :
    c ∈ text := by
  unfold splitFirst at h
  split at h
  · exact h
  · exact List.takeWhile_subset _ h

/-- Only a text with a minus sign is read as a negative number. -/
theorem nonneg_of_ofChars? (h : Decimal.ofChars? text = some x) (hminus : '-' ∉ text) :
    0 ≤ x.unscaled := by
  have hmantissa {rest : List Char} (p : Char → Bool)
      (h : (splitFirst p (Text.trim text)).1 = '-' :: rest) : False :=
    hminus (mem_of_mem_trim (mem_of_mem_splitFirst p (by simp [h])))
  simp only [Decimal.ofChars?] at h
  split at h
  · simp at h
  split at h
  · simp at h
  split at h
  · obtain rfl := Option.some.inj h
    dsimp only
    split
    · next hsign => exact (hmantissa _ hsign).elim
    · simp
    · simp
  · simp at h

end Reckoner.Decimal
