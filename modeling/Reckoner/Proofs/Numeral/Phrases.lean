import Reckoner.Proofs.Numeral.PlaceNames
import Reckoner.Proofs.Numeral.WholeNumbers

/-!
# Number names are read

A number name is a sign, a whole number and a fraction, joined by spaces. It is read from its
parts, whatever the case of its letters.
-/

namespace Reckoner.Numeral

open Decimal

variable {text : List Char} {names numerator : List String} {total part : Decimal}

/-! ## Tokens -/

theorem plainWords_words (words : List (List Char)) :
    plainWords (words.map Token.word) = .ok words := by
  induction words with
  | nil => rfl
  | cons word words ih => rw [List.map_cons, plainWords, ih]; rfl

def signTokens (negative : Bool) : List Token := if negative then [.negative] else []

/-- Adds the fraction that may follow a whole number. -/
def readRest (whole : Decimal) : List Token → Conversion Decimal
  | [] => pure whole
  | _ :: fraction => readFraction whole fraction

/-- Reads what stands behind the sign. -/
def readSigned (negative : Bool) (tokens : List Token) : Conversion Decimal := do
  let whole ← readWhole (← plainWords (tokens.takeWhile (· ≠ .and)))
  let value ← readRest whole (tokens.dropWhile (· ≠ .and))
  return if negative then -value else value

theorem read_eq {negative : Bool} {tokens : List Token}
    (hscan : Token.scan text = .ok (signTokens negative ++ tokens))
    (hsign : tokens.head? ≠ some .negative) : read text = readSigned negative tokens := by
  have hrest (negative : Bool) (whole : Decimal) (rest : List Token) :
      (match rest with
        | [] => do
          let value ← pure whole
          pure (if negative = true then -value else value)
        | _ :: fraction => do
          let value ← readFraction whole fraction
          pure (if negative = true then -value else value) : Conversion Decimal) = do
        let value ← readRest whole rest
        return if negative then -value else value := by
    cases rest <;> rfl
  unfold read readSigned
  simp only [hscan, ← hrest]
  rcases negative with - | -
  · rcases tokens with - | ⟨token, tokens⟩
    · rfl
    · rcases token with - | - | word
      · simp at hsign
      · rfl
      · rfl
  · rfl

theorem yields_readSigned {negative : Bool} {words : List (List Char)} {rest : List Token}
    {value : Decimal} (hrest : ∀ token, rest.head? = some token → token = .and)
    (hwhole : Yields (readWhole words) total) (hvalue : Yields (readRest total rest) value) :
    Yields (readSigned negative (words.map .word ++ rest)) (if negative then -value else value) := by
  have hwords : ∀ token ∈ words.map Token.word, decide (token ≠ .and) = true := by simp
  have hstop : ∀ token, rest.head? = some token → decide (token ≠ .and) = false := by
    intro token htoken
    simp [hrest token htoken]
  have hspan := span_front hwords hstop
  unfold readSigned
  rw [hspan.1, hspan.2, plainWords_words]
  exact yields_ok.bind (hwhole.bind (hvalue.bind (yields_pure _)))

/-- The words behind `and` are a whole number and the place of its last digit. -/
theorem yields_readFraction {words : List (List Char)} {place : List Char} {places : Int}
    (hplace : Yields (placesOf place) places) (hpart : Yields (readWhole words) part) :
    Yields (readFraction total ((words ++ [place]).map .word))
      (context.add total (part.movePoint (-places))) := by
  unfold readFraction
  rw [plainWords_words]
  refine yields_ok.bind ?_
  rw [List.getLast?_concat, List.dropLast_concat]
  exact hplace.bind (hpart.bind (yields_pure _))

/-! ## Texts -/

theorem lower_intercalate (words : List (List Char)) :
    Text.lower ([' '].intercalate words) = [' '].intercalate (words.map Text.lower) := by
  induction words with
  | nil => rfl
  | cons word words ih =>
    rcases words with - | ⟨next, words⟩
    · simp
    · simp only [List.map_cons, List.intercalate_cons_cons] at ih ⊢
      rw [← ih]
      simp [Text.lower]

/-- Words with the letters of given names, in any case. -/
def Spells (words : List (List Char)) (names : List String) : Prop :=
  words.map Text.lower = names.map fun name => Text.lower name.toList

/-- A text with the letters of joined names is scanned as words with the letters of the names. -/
theorem scan_of_lower (h : ∀ name ∈ names, IsWordText name.toList)
    (htext : Text.lower text = Text.lower (" ".intercalate names).toList) :
    ∃ words, Spells words names ∧ Token.scan text = .ok (words.map Token.ofWord) := by
  rw [String.toList_intercalate] at htext
  rcases exists_words_of_lower (htext.trans (lower_intercalate _)) with ⟨words, hwords, rfl⟩
  rw [List.map_map] at hwords
  refine ⟨words, hwords, scan_intercalate fun word hword => ?_⟩
  have hmem : Text.lower word ∈ names.map (Text.lower ∘ String.toList) :=
    hwords ▸ List.mem_map_of_mem hword
  rcases List.mem_map.1 hmem with ⟨name, hname, hlower⟩
  exact (h name hname).of_lower hlower.symm

/-! ## Phrases -/

def signNames (negative : Bool) : List String := if negative then ["Negative"] else []

variable {negative : Bool} {words : List (List Char)}

theorem Spells.append {more : List String} (h : Spells words (names ++ more)) :
    ∃ front back, words = front ++ back ∧ Spells front names ∧ Spells back more := by
  unfold Spells at h
  rw [List.map_append] at h
  exact List.map_eq_append_iff.1 h

theorem Spells.ofWord (h : Spells words names) (hplain : ∀ name ∈ names, IsPlainWord name.toList) :
    words.map Token.ofWord = words.map Token.word := by
  refine List.map_congr_left fun word hword => ?_
  have hmem : Text.lower word ∈ names.map fun name => Text.lower name.toList :=
    h ▸ List.mem_map_of_mem hword
  rcases List.mem_map.1 hmem with ⟨name, hname, hlower⟩
  exact ((hplain name hname).of_lower hlower.symm).ofWord

theorem Spells.sign (h : Spells words (signNames negative)) :
    words.map Token.ofWord = signTokens negative := by
  rcases negative with - | -
  · rw [List.map_eq_nil_iff.1 h]
    rfl
  · rcases List.map_eq_singleton_iff.1 h with ⟨word, rfl, hword⟩
    rw [List.map_singleton, ofWord_eq, hword, if_pos (by decide)]
    rfl

theorem isWordText_signNames : ∀ name ∈ signNames negative, IsWordText name.toList := by
  intro name hname
  have hletters : "Negative".toList.all Char.isAlpha := by decide
  rcases negative with - | -
  · simp [signNames] at hname
  · obtain rfl : name = "Negative" := List.mem_singleton.1 hname
    exact isWordText_of_letters (by decide) (List.all_eq_true.1 hletters)

/-- The tokens of a phrase: its sign, the words of its whole number and whatever follows. -/
theorem scan_phrase {more : List String} (hplain : ∀ name ∈ names, IsPlainWord name.toList)
    (hmore : ∀ name ∈ more, IsWordText name.toList)
    (htext : Text.lower text =
      Text.lower (" ".intercalate (signNames negative ++ (names ++ more))).toList) :
    ∃ words rest, Spells words names ∧ Spells rest more ∧
      Token.scan text =
        .ok (signTokens negative ++ (words.map .word ++ rest.map Token.ofWord)) := by
  have hall : ∀ name ∈ signNames negative ++ (names ++ more), IsWordText name.toList := by
    intro name hname
    rcases List.mem_append.1 hname with hname | hname
    · exact isWordText_signNames name hname
    · rcases List.mem_append.1 hname with hname | hname
      · exact (hplain name hname).toIsWordText
      · exact hmore name hname
  rcases scan_of_lower hall htext with ⟨all, hspells, hscan⟩
  rcases hspells.append with ⟨sign, back, rfl, hsign, hback⟩
  rcases hback.append with ⟨words, rest, rfl, hwords, hrest⟩
  refine ⟨words, rest, hwords, hrest, ?_⟩
  rw [hscan, List.map_append, List.map_append, hsign.sign, hwords.ofWord hplain]

theorem head?_words_ne_negative {words : List (List Char)} {rest : List Token}
    (hrest : rest.head? ≠ some .negative) :
    (words.map Token.word ++ rest).head? ≠ some .negative := by
  rcases words with - | ⟨word, words⟩
  · exact hrest
  · simp

theorem NamesWhole.yields_read (h : NamesWhole names total)
    (htext : Text.lower text = Text.lower (" ".intercalate (signNames negative ++ names)).toList) :
    Yields (read text) (if negative then -total else total) := by
  rw [← List.append_nil names] at htext
  rcases scan_phrase h.plain (by simp) htext with ⟨words, rest, hwords, hrest, hscan⟩
  obtain rfl : rest = [] := List.map_eq_nil_iff.1 hrest
  rw [read_eq hscan (head?_words_ne_negative (by simp))]
  exact yields_readSigned (by simp) (h.reads words hwords) (yields_pure _)

/-- A whole number with a fraction, whose place is named in either form. -/
theorem NamesWhole.yields_read_fraction {base : List Char} {place : String} {places : Nat}
    (h : NamesWhole names total) (hpart : NamesWhole numerator part)
    (hplace : NamesPlace base places) (hform : PlaceForm base place.toList)
    (htext : Text.lower text = Text.lower (" ".intercalate
      (signNames negative ++ (names ++ "and" :: (numerator ++ [place])))).toList) :
    Yields (read text) (if negative then -context.add total (part.movePoint (-places))
      else context.add total (part.movePoint (-places))) := by
  have hplain : ∀ name ∈ numerator ++ [place], IsPlainWord name.toList := by
    intro name hname
    rcases List.mem_append.1 hname with hname | hname
    · exact hpart.plain name hname
    · rw [List.mem_singleton.1 hname]
      exact hform.isPlainWord hplace.isWordText
  have hand : IsWordText "and".toList :=
    isWordText_of_letters (by decide) (List.all_eq_true.1 (by decide))
  have hmore : ∀ name ∈ "and" :: (numerator ++ [place]), IsWordText name.toList := by
    intro name hname
    rcases List.mem_cons.1 hname with rfl | hname
    · exact hand
    · exact (hplain name hname).toIsWordText
  rcases scan_phrase h.plain hmore htext with ⟨words, rest, hwords, hrest, hscan⟩
  rcases List.map_eq_cons_iff.1 hrest with ⟨conjunction, fraction, rfl, hconjunction, hfraction⟩
  have hfraction : Spells fraction (numerator ++ [place]) := hfraction
  have htoken : Token.ofWord conjunction = .and := by
    rw [ofWord_eq, hconjunction, if_neg (by decide), if_pos (by decide)]
  rw [List.map_cons, htoken, hfraction.ofWord hplain] at hscan
  rw [read_eq hscan (head?_words_ne_negative (by simp))]
  refine yields_readSigned (by simp) (h.reads words hwords) ?_
  -- the last word is the place, all words in front of it are the numerator
  rcases hfraction.append with ⟨digits, last, rfl, hdigits, hlast⟩
  rcases List.map_eq_singleton_iff.1 hlast with ⟨word, rfl, hword⟩
  have hread : PlaceForm base word := by
    rcases hform with ⟨ending, hending, hlower⟩
    exact ⟨ending, hending, hword.trans hlower⟩
  exact yields_readFraction (hplace.reads word hread) (hpart.reads digits hdigits)

end Reckoner.Numeral
