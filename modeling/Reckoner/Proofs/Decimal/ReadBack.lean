import Reckoner.Proofs.Decimal.Written

/-!
# Reading the plain form back

A sign in front of figures negates what they are read as. So every plain form is read, and it is
read as the representation that it shows: only zeros that were left to the scale are lost to it.
-/

namespace Reckoner.Decimal

open Integer

variable {x : Decimal} {text : List Char}

theorem Written.ofChars?_minus (h : Written x text) : Decimal.ofChars? ('-' :: text) = some (-x) := by
  obtain ⟨-, hfigures⟩ := h.figures
  obtain ⟨u, places, hdigits, hunscaled, hscale⟩ := h.digitsOfChars?
  have hblank : ∀ c ∈ '-' :: text, Text.isBlank c = false := by
    intro c hc
    obtain rfl | hc := List.mem_cons.1 hc
    · decide
    · exact (of_isFigure (hfigures c hc)).1
  have hmark : ∀ c ∈ '-' :: text, (c == 'e' || c == 'E') = false := by
    intro c hc
    obtain rfl | hc := List.mem_cons.1 hc
    · decide
    · exact (of_isFigure (hfigures c hc)).2.2.2
  have hfits : Word.Fits (places : Int) := hscale ▸ x.scale_fits
  have hx : -x = ⟨-u, places, hfits⟩ := by
    change (⟨-x.unscaled, x.scale, x.scale_fits⟩ : Decimal) = _
    simp only [hunscaled, hscale]
  unfold Decimal.ofChars?
  rw [trim_eq_self hblank, splitFirst_of_not hmark]
  simp [hdigits, hx, hfits]

theorem ofChars?_toChars (x : Decimal) : ofChars? x.toChars = some x.writtenOut := by
  obtain ⟨-, hnonneg⟩ | ⟨hsign, hnonneg⟩ := x.nonneg_or
  · exact (written_toChars hnonneg).ofChars?
  · rw [toChars_neg hsign, (written_toChars hnonneg).ofChars?_minus, writtenOut_neg, negate_twice]

theorem writtenOut_eq_self (h : 0 ≤ x.scale) : x.writtenOut = x := by
  unfold writtenOut
  split
  · next hscale =>
    obtain ⟨u, s, hfits⟩ := x
    obtain rfl : s = 0 := le_antisymm hscale h
    simp [ofInt, integerAt, pow10]
  · rfl

theorem scale_writtenOut (h : x.scale < 0) : x.writtenOut.scale = 0 := by
  rw [writtenOut, if_pos h.le]
  rfl

/-- Every decimal is read back from its plain form with its value. Its integer and its scale are
the same too, unless zeros were left to the scale: then the scale is zero. -/
theorem parse_toText (x : Decimal) :
    ∃ y, parse x.toText = .ok y ∧ y.toRat = x.toRat ∧ (0 ≤ x.scale → y = x) ∧
      (x.scale < 0 → y.scale = 0) := by
  refine ⟨x.writtenOut, ?_, toRat_writtenOut x, writtenOut_eq_self, scale_writtenOut⟩
  unfold parse ofString? toText
  rw [String.toList_ofList, ofChars?_toChars]
  rfl

end Reckoner.Decimal
