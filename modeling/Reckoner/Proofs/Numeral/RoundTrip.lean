import Reckoner.Proofs.Decimal.Parts
import Reckoner.Proofs.Numeral.Phrases

/-!
# Spelling and reading

What a decimal is spelled as is read as the value that its conversion keeps, in any letter case and
with the place in the singular or in the plural. So only the rounding to the digits of a conversion
can change a value.
-/

namespace Reckoner.Numeral

open Decimal Integer

variable {x : Decimal} {words names : List String} {negative : Bool} {total part : Decimal}

/-! ## Forms of a text -/

/-- A text with the letters of joined words, in any case. The name of the place may be in the
plural. -/
def Rewritten (words : List String) (text : List Char) : Prop :=
  Text.sameLetters text (" ".intercalate words).toList = true ∨
    "and" ∈ words ∧ Text.sameLetters text ((" ".intercalate words).toList ++ ['s']) = true

/-- Words that are read as a value in every form. -/
def ReadBack (words : List String) (value : ℚ) : Prop :=
  ∀ text, Rewritten words text → ∃ y, Yields (read text) y ∧ y.toRat = value

/-- The value with a sign. -/
def signed (negative : Bool) (value : ℚ) : ℚ := if negative then -value else value

theorem toRat_signed (negative : Bool) (y : Decimal) :
    (if negative then -y else y).toRat = signed negative y.toRat := by
  rcases negative with - | -
  · rfl
  · exact toRat_neg y

theorem toRat_abs (x : Decimal) : x.toRat = signed x.isNegative x.abs.toRat := by
  unfold signed isNegative
  have habs : x.abs.toRat = (x.unscaled.natAbs : ℤ) * (10 : ℚ) ^ (-x.scale) := rfl
  rw [habs, toRat]
  by_cases h : x.unscaled < 0
  · rw [if_pos (by simpa using h), ← neg_mul, ← Int.cast_neg]
    congr 2
    omega
  · rw [if_neg (by simpa using h)]
    congr 2
    omega

theorem and_notMem_signNames : "and" ∉ signNames negative := by
  rcases negative with - | - <;> decide

theorem NamesWhole.and_notMem (h : NamesWhole names total) : "and" ∉ names := by
  intro hand
  exact (h.plain "and" hand).plain.2 (by decide)

theorem NamesWhole.readBack (h : NamesWhole names total) :
    ReadBack (signNames negative ++ names) (signed negative total.toRat) := by
  rintro text (htext | ⟨hand, -⟩)
  · exact ⟨_, h.yields_read (beq_iff_eq.1 htext), toRat_signed _ _⟩
  · rcases List.mem_append.1 hand with hand | hand
    · exact absurd hand and_notMem_signNames
    · exact absurd hand h.and_notMem

theorem intercalate_plural {front : List String} (h : front ≠ []) (last : String) :
    (" ".intercalate (front ++ [last])).toList ++ ['s'] =
      (" ".intercalate (front ++ [last ++ "s"])).toList := by
  rw [String.intercalate_append_of_ne_nil h (by simp),
    String.intercalate_append_of_ne_nil h (by simp)]
  simp only [String.intercalate_singleton, String.toList_append, List.append_assoc]
  rfl

theorem NamesWhole.readBack_fraction {numerator : List String} {base : List Char} {place : String}
    {places : Nat} (h : NamesWhole names total) (hpart : NamesWhole numerator part)
    (hplace : NamesPlace base places) (hname : place.toList = base ++ ['t', 'h']) :
    ReadBack (signNames negative ++ (names ++ "and" :: (numerator ++ [place])))
      (signed negative (context.add total (part.movePoint (-places))).toRat) := by
  have hforms {place' : String} (ending : List Char) (hending : ending ∈ placeEndings)
      (hname' : place'.toList = base ++ ending) : PlaceForm base place'.toList := by
    refine ⟨ending, hending, ?_⟩
    have hlower : ∀ ending ∈ placeEndings, Text.lower ending = ending := by decide
    rw [hname', Text.lower, List.map_append]
    exact congrArg _ (hlower ending hending)
  rintro text (htext | ⟨-, htext⟩)
  · have hform : PlaceForm base place.toList := hforms ['t', 'h'] (by decide) hname
    exact ⟨_, h.yields_read_fraction hpart hplace hform (beq_iff_eq.1 htext), toRat_signed _ _⟩
  · have hform : PlaceForm base (place ++ "s").toList :=
      hforms ['t', 'h', 's'] (by decide) (by simp [hname])
    have hfront (last : String) : signNames negative ++ (names ++ "and" :: (numerator ++ [last])) =
        (signNames negative ++ (names ++ "and" :: numerator)) ++ [last] := by simp
    rw [hfront, intercalate_plural (by simp), ← hfront] at htext
    exact ⟨_, h.yields_read_fraction hpart hplace hform (beq_iff_eq.1 htext), toRat_signed _ _⟩

/-! ## Whole numbers and fractions -/

/-- A whole number and the digits behind it are added exactly. -/
theorem toRat_add_fraction {a b places : Nat} (htotal : Totals total a) (hpart : Totals part b)
    (hfits : Word.Fits places) (hlong : a * 10 ^ places + b < 10 ^ context.precision) :
    (context.add total (part.movePoint (-places))).toRat =
      (a * 10 ^ places + b : Nat) * 10 ^ (-(places : Int)) := by
  have hmoved : Word.Fits (part.scale - -places) := by
    have hscale := part.scale_fits
    have hwhole := hpart.whole
    unfold Word.Fits at *
    omega
  have hx : total.toRat = (a * 10 ^ places : Nat) * 10 ^ (-(places : Int)) := by
    rw [htotal.value, Nat.cast_mul, Nat.cast_pow, Nat.cast_ofNat, mul_assoc, ← zpow_natCast,
      ← zpow_add₀ (by norm_num), add_neg_cancel, zpow_zero, mul_one]
  have hy : (part.movePoint (-places)).toRat = b * 10 ^ (-(places : Int)) := by
    rw [toRat_movePoint hmoved, hpart.value]
  rw [(context.toRat_add hx hy hlong hfits.1).1, hx, hy, Nat.cast_add, add_mul]

/-! ## Spelling -/

/-- The words of a number without its sign, behind the word for the sign. -/
def magnitudeWords (negative : Bool) (x : Decimal) : Conversion (List String) := do
  let whole ← wholeWords x.wholePart
  let fraction := x.fractionPart.canonical
  if fraction.isZero then return signNames negative ++ whole
  let numerator ← wholeWords (ofInt fraction.unscaled)
  let place ← nameOfPlace fraction.scale
  return signNames negative ++ whole ++ "and" :: numerator ++ [place]

theorem wordsOf_eq (x : Decimal) : wordsOf x =
    if (context.round x).isZero then pure ["Zero"]
    else magnitudeWords (context.round x).isNegative (context.round x).abs := rfl

/-- Without digits behind the point there are the names of a whole number alone. -/
theorem yields_magnitudeWords_whole {a j : Nat} (h : Padded x.wholePart a j)
    (hfraction : x.fractionPart.canonical.isZero = true) (hvalue : x.toRat = (a * 10 ^ j : Nat))
    (hlong : a < 10 ^ context.precision)
    (hsize : (Integer.digitCount a + j : Int) ≤ Word.greatest + 2) :
    ∃ words, Yields (magnitudeWords negative x) words ∧
      ReadBack words (signed negative x.toRat) := by
  rcases yields_wholeWords h hlong hsize with ⟨names, total, hnames, hread, htotal⟩
  refine ⟨signNames negative ++ names, ?_, ?_⟩
  · unfold magnitudeWords
    simp only [hfraction, if_true]
    exact hnames.bind (yields_pure _)
  · rw [hvalue, ← htotal.value]
    exact hread.readBack

/-- With a last place there are the names of two whole numbers. -/
theorem yields_magnitudeWords_fraction {a b places : Nat} (h : Padded x.wholePart a 0)
    (hnumerator : x.fractionPart.canonical.unscaled = b)
    (hscale : x.fractionPart.canonical.scale = places) (hb : b ≠ 0) (hplaces : 0 < places)
    (hvalue : x.toRat = (a * 10 ^ places + b : Nat) * 10 ^ (-(places : Int)))
    (hlong : a * 10 ^ places + b < 10 ^ context.precision) :
    ∃ words, Yields (magnitudeWords negative x) words ∧
      ReadBack words (signed negative x.toRat) := by
  have hshort {n : Nat} (hn : n < 10 ^ context.precision) :
      (Integer.digitCount n + (0 : Nat) : Int) ≤ Word.greatest + 2 := by
    have hdigits : Integer.digitCount n ≤ 10000 := (digitCount_le_iff context.precision_pos).2 hn
    unfold Word.greatest
    omega
  have ha : a < 10 ^ context.precision := by
    refine lt_of_le_of_lt ?_ hlong
    exact (Nat.le_mul_of_pos_right a (by positivity)).trans (Nat.le_add_right _ _)
  have hb' : b < 10 ^ context.precision := (Nat.le_add_left _ _).trans_lt hlong
  have hfits : Word.Fits places := hscale ▸ x.fractionPart.canonical.scale_fits
  have hpadded : Padded (ofInt b) b 0 := ⟨rfl, rfl⟩
  rcases yields_wholeWords h ha (hshort ha) with ⟨names, total, hnames, hread, htotal⟩
  rcases yields_wholeWords hpadded hb' (hshort hb') with
    ⟨numerator, part, hnumerators, hreadPart, hpart⟩
  rcases yields_nameOfPlace hplaces hfits with ⟨base, place, hplace, hname, hreadPlace⟩
  rw [pow_zero, mul_one] at htotal hpart
  refine ⟨signNames negative ++ (names ++ "and" :: (numerator ++ [place])), ?_, ?_⟩
  · have hnonzero : x.fractionPart.canonical.isZero = false := by
      unfold isZero
      rw [hnumerator]
      exact beq_eq_false_iff_ne.2 (by exact_mod_cast hb)
    unfold magnitudeWords
    simp only [hnonzero, hnumerator, hscale]
    refine hnames.bind (hnumerators.bind (hplace.bind ?_))
    simpa using yields_pure (signNames negative ++ (names ++ "and" :: (numerator ++ [place])))
  · rw [hvalue, ← toRat_add_fraction htotal hpart hfits hlong]
    exact hread.readBack_fraction hreadPart hreadPlace hname

theorem trailing_zeros (n places zeros : Nat) :
    ((n * 10 ^ zeros : Nat) : ℚ) * 10 ^ (-((places + zeros : Nat) : Int)) =
      n * 10 ^ (-(places : Int)) := by
  have hpow : (10 : ℚ) ^ zeros * 10 ^ (-((places + zeros : Nat) : Int)) = 10 ^ (-(places : Int)) := by
    rw [← zpow_natCast, ← zpow_add₀ (by norm_num)]
    congr 1
    push_cast
    ring
  rw [Nat.cast_mul, Nat.cast_pow, Nat.cast_ofNat, mul_assoc, hpow]

theorem yields_magnitudeWords {u : Nat} (hu : x.unscaled = u)
    (hlong : u < 10 ^ context.precision)
    (hsize : (Integer.digitCount u : Int) - x.scale ≤ Word.greatest + 2) :
    ∃ words, Yields (magnitudeWords negative x) words ∧
      ReadBack words (signed negative x.toRat) := by
  rcases le_or_gt x.scale 0 with hscale | hscale
  · have hwhole : x.wholePart = x := if_pos hscale
    have hfraction : x.fractionPart = 0 := if_pos hscale
    have hpadded : Padded x u x.scale.natAbs := ⟨hu, by omega⟩
    refine yields_magnitudeWords_whole (hwhole.symm ▸ hpadded) (by rw [hfraction]; rfl)
      hpadded.totals.value hlong (by omega)
  · rcases Int.eq_ofNat_of_zero_le hscale.le with ⟨s, hs⟩
    have htoRat : x.toRat = u * (10 : ℚ) ^ (-(s : Int)) := by
      rw [toRat, hu, hs, Int.cast_natCast]
    -- the zeros behind the last digit of the fraction are not spelled
    rcases whole_or_last_place hu hs (by omega) with ⟨a, ha, hascale, hcases⟩
    have hpadded : Padded x.wholePart a 0 := ⟨ha, hascale⟩
    rcases hcases with ⟨hzero, rfl⟩ |
      ⟨b, places, zeros, hb, hplaces, rfl, hnumerator, hplace, rfl⟩
    · have hle : a ≤ a * 10 ^ s := Nat.le_mul_of_pos_right a (by positivity)
      have hmono := digitCount_mono hle
      have hdigits := (digitCount_le_iff context.precision_pos).2 hlong
      have hzeros := trailing_zeros a 0 s
      rw [zero_add] at hzeros
      refine yields_magnitudeWords_whole hpadded hzero ?_ (hle.trans_lt hlong) ?_
      · simpa using htoRat.trans hzeros
      · unfold Word.greatest
        change _ ≤ 10000 at hdigits
        omega
    · refine yields_magnitudeWords_fraction hpadded hnumerator hplace hb hplaces ?_ ?_
      · exact htoRat.trans (trailing_zeros _ places zeros)
      · exact lt_of_le_of_lt (Nat.le_mul_of_pos_right _ (by positivity)) hlong

/-! ## The round trip -/

theorem readBack_zero : ReadBack ["Zero"] 0 := by
  have hzero : ReadBack (signNames false ++ ["Zero"]) (signed false (0 : Decimal).toRat) :=
    namesWhole_zero.readBack
  rwa [toRat_zero] at hzero

theorem yields_wordsOf (hsize : (x.digitCount : Int) - 1 - x.scale ≤ Word.greatest) :
    ∃ words, Yields (wordsOf x) words ∧ ReadBack words (context.round x).toRat := by
  have hrounded : (context.round x).digitCount ≤ context.precision ∧
      ((context.round x).digitCount : Int) - 1 - (context.round x).scale ≤ Word.greatest + 1 :=
    ⟨digitCount_roundTo_le context.precision_pos, exponent_roundTo_le context.precision_pos hsize⟩
  rw [wordsOf_eq]
  generalize context.round x = y at hrounded ⊢
  by_cases hzero : y.isZero
  · rw [if_pos hzero, toRat_eq_zero.2 (by simpa [isZero] using hzero)]
    exact ⟨["Zero"], yields_pure _, readBack_zero⟩
  · rw [if_neg hzero, toRat_abs]
    have hlong : y.unscaled.natAbs < 10 ^ context.precision :=
      (digitCount_le_iff context.precision_pos).1 hrounded.1
    refine yields_magnitudeWords (x := y.abs) rfl hlong ?_
    have hdigits := hrounded.2
    change ((Integer.digitCount y.unscaled.natAbs : Nat) : Int) - y.scale ≤ _
    unfold Decimal.digitCount at hdigits
    omega

/-- Every decimal whose exponent is in the range of a word is spelled, and the text is read as the
decimal rounded to ten thousand digits, whatever the case of its letters and with the name of the
place in the singular or in the plural. A decimal of so few digits is read back as it is. -/
theorem read_spell (x : Decimal) (hsize : (x.digitCount : Int) - 1 - x.scale ≤ Word.greatest) :
    ∃ words, Yields (wordsOf x) words ∧ Yields (spell x) (" ".intercalate words) ∧
      ∀ text, Rewritten words text → ∃ y, Yields (read text) y ∧
        y.toRat = (context.round x).toRat ∧ (x.digitCount ≤ 10000 → y.toRat = x.toRat) := by
  rcases yields_wordsOf hsize with ⟨words, hwords, hread⟩
  refine ⟨words, hwords, hwords.bind (yields_pure _), fun text htext => ?_⟩
  rcases hread text htext with ⟨y, hy, hvalue⟩
  refine ⟨y, hy, hvalue, fun hdigits => ?_⟩
  have hround : context.round x = x := if_pos (by simpa using .inr hdigits)
  rw [hvalue, hround]

/-- Twelve and a twentieth, with a sign in front. -/
theorem read_spell_hundredths :
    let x : Decimal := ofScaled (-1205) 2
    (x.digitCount : Int) - 1 - x.scale ≤ Word.greatest ∧
      ∃ words, Yields (wordsOf x) words ∧ Yields (spell x) (" ".intercalate words) ∧
        ∀ text, Rewritten words text → ∃ y, Yields (read text) y ∧
          y.toRat = (context.round x).toRat ∧ (x.digitCount ≤ 10000 → y.toRat = x.toRat) := by
  intro x
  have hsize : (x.digitCount : Int) - 1 - x.scale ≤ Word.greatest := by decide +kernel
  exact ⟨hsize, read_spell x hsize⟩

end Reckoner.Numeral
