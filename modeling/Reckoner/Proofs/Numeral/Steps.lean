import Reckoner.Numeral.Reading
import Reckoner.Proofs.Decimal.Value
import Reckoner.Proofs.Numeral.Remembering

/-!
# Words of a whole number, one by one

The words that a whole number can be spelled with, and what each does to the total of the closed
groups and to the open count. The reader takes each of these steps, in any letter case.
-/

namespace Reckoner.Numeral

open Decimal

/-! ## Words and powers -/

theorem entryOf?_of_mem {entry : NumberWord} {word : List Char} (hmem : entry ∈ vocabulary)
    (hword : Text.lower word = Text.lower entry.word.toList) : entryOf? word = some entry := by
  have hdistinct : ∀ entry ∈ vocabulary, (vocabulary.find? fun other =>
      Text.lower other.word.toList == Text.lower entry.word.toList) = some entry := by decide
  rw [entryOf?, ← hdistinct entry hmem, ← hword]
  rfl

theorem of_entryOf? {entry : NumberWord} {word : List Char} (h : entryOf? word = some entry) :
    entry ∈ vocabulary ∧ Text.lower word = Text.lower entry.word.toList := by
  have hsame := List.find?_some h
  simp only [Text.sameLetters, beq_iff_eq] at hsame
  exact ⟨List.mem_of_find?_eq_some h, hsame.symm⟩

theorem powerName_one : powerName 1 = "Million" := by
  have hdigits : thousands 1 = [1] := by simp [thousands]
  rw [powerName, if_neg (by decide), hdigits]
  decide

/-- The great words of the vocabulary are the first two powers. -/
theorem great_entry {entry : NumberWord} (hmem : entry ∈ vocabulary) (h : 1000 ≤ entry.value) :
    ∃ index, entry.word = powerName index ∧
      ((Integer.digitCount entry.value - 1 : Nat) : Int) = (index + 1) * 3 := by
  have hgreat : ∀ entry ∈ vocabulary, 1000 ≤ entry.value →
      entry = ⟨"Million", 1000000⟩ ∨ entry = ⟨"Thousand", 1000⟩ := by decide
  obtain rfl | rfl := hgreat entry hmem h
  · have hcount : Integer.digitCount 1000000 = 7 := Integer.digitCount_pow 6
    exact ⟨1, powerName_one.symm, by rw [hcount]; rfl⟩
  · have hcount : Integer.digitCount 1000 = 4 := Integer.digitCount_pow 3
    exact ⟨0, rfl, by rw [hcount]; rfl⟩

theorem small_entry {entry : NumberWord} (hmem : entry ∈ vocabulary) (h : entry.value < 1000)
    (index : Nat) : Text.lower (powerName index).toList ≠ Text.lower entry.word.toList := by
  have hsmall : ∀ entry ∈ vocabulary, entry.value < 1000 →
      Text.lower entry.word.toList ≠ "thousand".toList ∧
        ¬ ['o', 'n'] <:+ Text.lower entry.word.toList := by decide
  obtain ⟨hthousand, hends⟩ := hsmall entry hmem h
  intro heq
  by_cases hindex : index = 0
  · rw [hindex, lower_powerName_zero] at heq
    exact hthousand heq.symm
  · exact hends (heq ▸ powerName_ends hindex)

theorem gives_exponentOf? {index : Nat} {word : List Char}
    (hfits : Word.Fits ((index + 1) * 3))
    (hword : Text.lower word = Text.lower (powerName index).toList) :
    Gives (exponentOf? word) (some ((index + 1) * 3)) := by
  unfold exponentOf?
  split
  · next entry hentry =>
    obtain ⟨hentry, hgreat⟩ := Option.filter_eq_some_iff.1 hentry
    obtain ⟨hmem, hsame⟩ := of_entryOf? hentry
    obtain ⟨found, hname, hexponent⟩ := great_entry hmem (by simpa using hgreat)
    rw [hname, hword] at hsame
    rw [hexponent, powerName_injective hsame]
    exact gives_pure _
  · next hnone =>
    have hpos : index ≠ 0 := by
      rintro rfl
      have hentry : entryOf? word = some ⟨"Thousand", 1000⟩ :=
        entryOf?_of_mem (by decide) hword
      simp [hentry] at hnone
    have hindex : index < Word.count := by
      unfold Word.Fits Word.greatest at hfits
      unfold Word.count
      omega
    refine (gives_indexOf? hpos hindex hword).bind ?_
    rw [Option.bind_some]
    simp only [hfits, if_true]
    exact gives_pure _

theorem gives_exponentOf?_none {word : List Char}
    (hgreat : ∀ entry, entryOf? word = some entry → entry.value < 1000)
    (hword : ∀ index, Text.lower (powerName index).toList ≠ Text.lower word) :
    Gives (exponentOf? word) none := by
  unfold exponentOf?
  split
  · next entry hentry =>
    obtain ⟨hentry, hvalue⟩ := Option.filter_eq_some_iff.1 hentry
    have := hgreat entry hentry
    simp at hvalue
    omega
  · exact (gives_indexOf?_none hword).bind (gives_pure _)

/-! ## Steps -/

/-- What a name does to the total of the closed groups and to the open count. -/
inductive Step : String → Decimal × Nat → Decimal × Nat → Prop where
  | unit {entry : NumberWord} {total : Decimal} {count : Nat} (hmem : entry ∈ vocabulary)
    (hsmall : entry.value < 100) (hcount : count + entry.value < 1000) :
    Step entry.word (total, count) (total, count + entry.value)
  | hundred {total : Decimal} {count : Nat} (hpos : count ≠ 0) (hcount : count < 10) :
    Step "Hundred" (total, count) (total, count * 100)
  | power {total : Decimal} {count index : Nat} (hpos : count ≠ 0)
    (hfits : Word.Fits ((index + 1) * 3)) :
    Step (powerName index) (total, count)
      (context.add total ((ofNat count).movePoint ((index + 1) * 3)), 0)

variable {names : List String} {name : String} {start finish : Decimal × Nat}

theorem hundred_ne_powerName (index : Nat) :
    Text.lower (powerName index).toList ≠ Text.lower "Hundred".toList :=
  @small_entry ⟨"Hundred", 100⟩ (by decide) (by decide) index

/-- The reader takes the step of a name, whatever the case of its letters. -/
theorem Step.yields {word : List Char} (h : Step name start finish)
    (hword : Text.lower word = Text.lower name.toList) :
    Yields (readWord start.1 start.2 word) finish := by
  unfold readWord
  cases h with
  | @unit entry total count hmem hsmall hcount =>
    have hentry := entryOf?_of_mem hmem hword
    have hhundred : ∀ entry ∈ vocabulary, entry.value < 100 →
        Text.lower entry.word.toList ≠ Text.lower "hundred".toList := by decide
    -- a power is looked for first, but no small word is the name of one
    have hnone : Gives (exponentOf? word) none := by
      refine gives_exponentOf?_none ?_ fun index => ?_
      · intro other hother
        obtain rfl : entry = other := Option.some.inj (hentry.symm.trans hother)
        omega
      · rw [hword]
        exact small_entry hmem (by omega) index
    have hwrap : Word.wrap (count + entry.value) = count + entry.value :=
      Nat.mod_eq_of_lt (hcount.trans (by decide))
    have hother : isWord "hundred" word = false := by
      rw [isWord, Text.sameLetters, hword]
      exact beq_eq_false_iff_ne.2 (hhundred entry hmem hsmall)
    rw [if_neg (by simp [hother])]
    refine hnone.lift.bind ?_
    simp only [hentry, hwrap]
    exact yields_pure _
  | @hundred total count hpos hcount =>
    have hwrap : Word.wrap (count * 100) = count * 100 :=
      Nat.mod_eq_of_lt (by unfold Word.count; omega)
    have hhundred : isWord "hundred" word = true := by
      rw [isWord, Text.sameLetters, hword]
      decide
    rw [if_pos hhundred, if_neg hpos, hwrap]
    exact yields_pure _
  | @power total count index hpos hfits =>
    have hother : isWord "hundred" word = false := by
      rw [isWord, Text.sameLetters, hword]
      exact beq_eq_false_iff_ne.2 (hundred_ne_powerName index)
    rw [if_neg (by simp [hother])]
    refine (gives_exponentOf? hfits hword).lift.bind ?_
    simp only [if_neg hpos]
    exact yields_pure _

/-- What names do one after another. -/
inductive Steps : List String → Decimal × Nat → Decimal × Nat → Prop where
  | nil (start : Decimal × Nat) : Steps [] start start
  | cons {name : String} {names : List String} {start between finish : Decimal × Nat} :
    Step name start between → Steps names between finish → Steps (name :: names) start finish

theorem Steps.append {more : List String} {between : Decimal × Nat}
    (h : Steps names start between) (h' : Steps more between finish) :
    Steps (names ++ more) start finish := by
  induction h with
  | nil => exact h'
  | cons hname _ ih => exact .cons hname (ih h')

/-- The reader closes the last group when the words are over. -/
theorem Steps.yields {words : List (List Char)} (h : Steps names start finish)
    (hwords : words.map Text.lower = names.map fun name => Text.lower name.toList) :
    Yields (readWords start.1 start.2 words) (context.add finish.1 (ofNat finish.2)) := by
  induction h generalizing words with
  | nil start =>
    obtain rfl : words = [] := by simpa using hwords
    exact yields_pure _
  | cons hname _ ih =>
    rw [List.map_cons] at hwords
    obtain ⟨word, rest, rfl, hword, hrest⟩ := List.map_eq_cons_iff.1 hwords
    rw [readWords]
    exact (hname.yields hword).bind (ih hrest)

/-! ## Letters of the names -/

/-- The words with a part of their own. -/
def specialWords : List (List Char) := ["negative".toList, "and".toList, "zero".toList]

/-- A name that can stand for a count or for a power: letters alone, and no special word. -/
structure CountName (name : String) : Prop where
  nonempty : name.toList ≠ []
  letters : ∀ c ∈ name.toList, c.isAlpha
  plain : Text.lower name.toList ∉ specialWords

theorem countName_entry {entry : NumberWord} (hmem : entry ∈ vocabulary) :
    CountName entry.word := by
  have hnonempty : ∀ entry ∈ vocabulary, entry.word.toList ≠ [] := by decide
  have hletters : vocabulary.all fun entry => entry.word.toList.all Char.isAlpha := by decide
  have hplain : ∀ entry ∈ vocabulary, Text.lower entry.word.toList ∉ specialWords := by decide
  have hletters := List.all_eq_true.1 hletters entry hmem
  exact ⟨hnonempty entry hmem, List.all_eq_true.1 hletters, hplain entry hmem⟩

theorem countName_powerName (index : Nat) : CountName (powerName index) := by
  by_cases hindex : index = 0
  · rw [hindex]
    exact @countName_entry ⟨"Thousand", 1000⟩ (by decide)
  have hends := powerName_ends hindex
  refine ⟨?_, fun c hc => ?_, fun hspecial => ?_⟩
  · intro hempty
    simp [hempty, Text.lower] at hends
  · have hlower : c.toLower ∈ latinName index := by
      rw [← lower_powerName hindex]
      exact List.mem_map_of_mem hc
    have halpha : c.toLower.isAlpha := by
      simp [Char.isAlpha, isLower_latinName index _ hlower]
    rwa [Char.isAlpha_toLower_eq_isAlpha] at halpha
  · have hspecials : ∀ word ∈ specialWords, ¬ ['o', 'n'] <:+ word := by decide
    exact hspecials _ hspecial hends

theorem Step.countName (h : Step name start finish) : CountName name := by
  cases h with
  | unit hmem _ _ => exact countName_entry hmem
  | hundred _ _ => exact @countName_entry ⟨"Hundred", 100⟩ (by decide)
  | power _ _ => exact countName_powerName _

theorem Steps.countName (h : Steps names start finish) : ∀ name ∈ names, CountName name := by
  induction h with
  | nil => simp
  | cons hname _ ih =>
    intro name hmem
    obtain rfl | hmem := List.mem_cons.1 hmem
    · exact hname.countName
    · exact ih name hmem

end Reckoner.Numeral
