import Reckoner.Numeral.Reading
import Reckoner.Proofs.Numeral.PowerNames

/-!
# Scanning spelled words

Words that are joined by single spaces are scanned one by one, and the case of letters changes
nothing about where a word ends.
-/

namespace Reckoner.Numeral

/-! ## Letter case -/

theorem toLower_eq_of_not_isAlpha {c d : Char} (h : c.toLower = d) (hd : d.isAlpha = false) :
    c = d := by
  have hc : c.isAlpha = false := by rw [← Char.isAlpha_toLower_eq_isAlpha, h, hd]
  have hupper : ¬ c.isUpper := by
    intro hupper
    simp [Char.isAlpha, hupper] at hc
  rwa [Char.toLower_eq_of_not_isUpper hupper] at h

theorem isWordChar_toLower (c : Char) : Token.isWordChar c.toLower = Token.isWordChar c := by
  rw [Token.isWordChar, Token.isWordChar, Char.isAlpha_toLower_eq_isAlpha]
  congr 1
  by_cases hc : c = '-'
  · subst hc
    rfl
  · have hlower : c.toLower ≠ '-' := fun h => hc (toLower_eq_of_not_isAlpha h (by decide))
    rw [beq_eq_false_iff_ne.2 hc, beq_eq_false_iff_ne.2 hlower]

/-- Whatever the case of its letters, a text has the same words between its spaces. -/
theorem exists_words_of_lower {words : List (List Char)} {text : List Char}
    (h : Text.lower text = [' '].intercalate words) :
    ∃ words', words'.map Text.lower = words ∧ text = [' '].intercalate words' := by
  induction words generalizing text with
  | nil => exact ⟨[], rfl, List.map_eq_nil_iff.1 h⟩
  | cons word words ih =>
    cases words with
    | nil => exact ⟨[text], by simpa using h, by simp⟩
    | cons next words =>
      rw [List.intercalate_cons_cons, List.append_assoc] at h
      obtain ⟨front, back, rfl, hfront, hback⟩ := List.map_eq_append_iff.1 h
      obtain ⟨c, rest, rfl, hc, hrest⟩ := List.map_eq_cons_iff.1 hback
      obtain rfl : c = ' ' := toLower_eq_of_not_isAlpha hc (by decide)
      obtain ⟨words', hwords', rfl⟩ := ih hrest
      refine ⟨front :: words', by rw [List.map_cons, hwords', ← hfront]; rfl, ?_⟩
      cases words' with
      | nil => simp at hwords'
      | cons next' words' => rw [List.intercalate_cons_cons, List.append_assoc]; rfl

/-! ## Words -/

/-- A text that is scanned as one word: letters and hyphens, the first one a letter. -/
structure IsWordText (text : List Char) : Prop where
  first : ∃ c rest, text = c :: rest ∧ c.isAlpha
  chars : ∀ c ∈ text, Token.isWordChar c

theorem IsWordText.of_lower {a b : List Char} (h : IsWordText a)
    (hlower : Text.lower b = Text.lower a) : IsWordText b := by
  obtain ⟨c, rest, rfl, hc⟩ := h.first
  obtain ⟨d, tail, rfl, hd, htail⟩ := List.map_eq_cons_iff.1 hlower
  refine ⟨⟨d, tail, rfl, ?_⟩, fun e he => ?_⟩
  · rwa [← Char.isAlpha_toLower_eq_isAlpha, hd, Char.isAlpha_toLower_eq_isAlpha]
  · have hmem : e.toLower ∈ Text.lower (c :: rest) := hlower ▸ List.mem_map_of_mem he
    obtain ⟨f, hf, hfe⟩ := List.mem_map.1 hmem
    rw [← isWordChar_toLower, ← hfe, isWordChar_toLower]
    exact h.chars f hf

/-- A front of which all is accepted ends where what follows is not. -/
theorem span_front {α : Type} {p : α → Bool} {front rest : List α} (hfront : ∀ a ∈ front, p a)
    (hrest : ∀ a, rest.head? = some a → p a = false) :
    (front ++ rest).takeWhile p = front ∧ (front ++ rest).dropWhile p = rest := by
  rw [List.takeWhile_append_of_pos hfront, List.dropWhile_append_of_pos hfront]
  rcases rest with - | ⟨a, rest⟩
  · simp
  · simp [hrest a rfl]

theorem scan_word {word rest : List Char} (h : IsWordText word)
    (hrest : ∀ c, rest.head? = some c → Token.isWordChar c = false) :
    Token.scan (word ++ rest) = (Token.ofWord word :: ·) <$> Token.scan rest := by
  obtain ⟨c, tail, rfl, hc⟩ := h.first
  have hgap : Token.isGap c = false := by
    by_contra hgap
    simp only [Bool.not_eq_false, Token.isGap, Bool.or_eq_true, beq_iff_eq] at hgap
    obtain ((rfl | rfl) | rfl) | rfl := hgap <;> exact absurd hc (by decide)
  have htail : ∀ d ∈ tail, Token.isWordChar d := fun d hd => h.chars d (List.mem_cons_of_mem _ hd)
  have hspan := span_front htail hrest
  rw [List.cons_append, Token.scan, hgap, if_neg (by decide), if_pos hc, hspan.1, hspan.2]

/-- Words that are joined by spaces are scanned as they are. -/
theorem scan_intercalate {words : List (List Char)} (h : ∀ word ∈ words, IsWordText word) :
    Token.scan ([' '].intercalate words) = .ok (words.map Token.ofWord) := by
  induction words with
  | nil => simp [Token.scan]
  | cons word words ih =>
    have hword := h word List.mem_cons_self
    have ih := ih fun other hother => h other (List.mem_cons_of_mem _ hother)
    cases words with
    | nil =>
      have hscan : Token.scan (word ++ []) = (Token.ofWord word :: ·) <$> Token.scan [] :=
        scan_word hword (by simp)
      rw [List.append_nil, Token.scan] at hscan
      simpa using hscan
    | cons next words =>
      rw [List.intercalate_cons_cons, List.append_assoc, List.singleton_append,
        scan_word hword (by simp; decide), Token.scan, if_pos (by decide), ih]
      rfl

/-! ## Plain words -/

theorem ofWord_eq (word : List Char) : Token.ofWord word =
    if Text.lower word = "negative".toList then .negative
    else if Text.lower word = "and".toList then .and else .word word := by
  have hlower (text : String) :
      String.ofList (word.map Char.toLower) = text ↔ Text.lower word = text.toList := by
    rw [← String.toList_inj, String.toList_ofList, Text.lower]
  unfold Token.ofWord
  split
  · next h => rw [if_pos ((hlower _).1 h)]
  · next h =>
    rw [if_neg fun h' => absurd (h' ▸ (hlower _).1 h) (by decide), if_pos ((hlower _).1 h)]
  · next hnegative hand =>
    rw [if_neg fun h => hnegative ((hlower _).2 h), if_neg fun h => hand ((hlower _).2 h)]

/-- A word that is no sign of its own. -/
structure IsPlainWord (text : List Char) : Prop extends IsWordText text where
  plain : Text.lower text ≠ "negative".toList ∧ Text.lower text ≠ "and".toList

theorem IsPlainWord.of_lower {a b : List Char} (h : IsPlainWord a)
    (hlower : Text.lower b = Text.lower a) : IsPlainWord b :=
  ⟨h.toIsWordText.of_lower hlower, hlower ▸ h.plain⟩

theorem IsPlainWord.ofWord {word : List Char} (h : IsPlainWord word) :
    Token.ofWord word = .word word := by
  rw [ofWord_eq, if_neg h.plain.1, if_neg h.plain.2]

/-- Letters alone make up a word. -/
theorem isWordText_of_letters {text : List Char} (hne : text ≠ []) (h : ∀ c ∈ text, c.isAlpha) :
    IsWordText text := by
  obtain ⟨c, rest, rfl⟩ := List.exists_cons_of_ne_nil hne
  exact ⟨⟨c, rest, rfl, h c List.mem_cons_self⟩, fun d hd => by simp [Token.isWordChar, h d hd]⟩

end Reckoner.Numeral
