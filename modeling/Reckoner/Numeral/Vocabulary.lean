import Reckoner.Integer.Digits
import Reckoner.Text.Letter

/-!
# The vocabulary of number names

The words with a fixed value, from the greatest to the least. Names of greater powers of a
thousand are made up as they are needed.
-/

namespace Reckoner.Numeral

structure NumberWord where
  word : String
  value : Nat
  deriving DecidableEq, Repr

def vocabulary : List NumberWord :=
  [⟨"Million", 1000000⟩, ⟨"Thousand", 1000⟩, ⟨"Hundred", 100⟩, ⟨"Ninety", 90⟩, ⟨"Eighty", 80⟩,
    ⟨"Seventy", 70⟩, ⟨"Sixty", 60⟩, ⟨"Fifty", 50⟩, ⟨"Forty", 40⟩, ⟨"Thirty", 30⟩,
    ⟨"Twenty", 20⟩, ⟨"Nineteen", 19⟩, ⟨"Eighteen", 18⟩, ⟨"Seventeen", 17⟩, ⟨"Sixteen", 16⟩,
    ⟨"Fifteen", 15⟩, ⟨"Fourteen", 14⟩, ⟨"Thirteen", 13⟩, ⟨"Twelve", 12⟩, ⟨"Eleven", 11⟩,
    ⟨"Ten", 10⟩, ⟨"Nine", 9⟩, ⟨"Eight", 8⟩, ⟨"Seven", 7⟩, ⟨"Six", 6⟩, ⟨"Five", 5⟩, ⟨"Four", 4⟩,
    ⟨"Three", 3⟩, ⟨"Two", 2⟩, ⟨"One", 1⟩]

/-- Numbers below this are spelled with the vocabulary alone. -/
def vocabularyLimit : Nat := 1000000000

/-- The word of the greatest value that is at most `n`. -/
def greatestUpTo? (n : Nat) : Option NumberWord := vocabulary.find? (·.value ≤ n)

/-- The entry of a word, in any letter case. -/
def entryOf? (word : List Char) : Option NumberWord :=
  vocabulary.find? fun entry => Text.sameLetters entry.word.toList word

theorem value_le_of_greatestUpTo? {n : Nat} {entry : NumberWord}
    (h : greatestUpTo? n = some entry) : entry.value ≤ n := by
  simpa using List.find?_some h

theorem value_pos_of_greatestUpTo? {n : Nat} {entry : NumberWord}
    (h : greatestUpTo? n = some entry) : 0 < entry.value :=
  have all : ∀ entry ∈ vocabulary, 0 < entry.value := by decide
  all entry (List.mem_of_find?_eq_some h)

end Reckoner.Numeral
