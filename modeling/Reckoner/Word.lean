/-!
# Words

Scales and exponents live in the range of a 64-bit signed word, and arithmetic on them stops at
the ends of the range. Counts of number names are unsigned words and start over from zero.
-/

namespace Reckoner.Word

def least : Int := -9223372036854775808

def greatest : Int := 9223372036854775807

/-- The number of unsigned words. -/
def count : Nat := 18446744073709551616

/-- What an unsigned word holds of `n`. -/
def wrap (n : Nat) : Nat := n % count

def Fits (n : Int) : Prop := least ≤ n ∧ n ≤ greatest

instance (n : Int) : Decidable (Fits n) := inferInstanceAs (Decidable (_ ∧ _))

/-- The word nearest to `n`. -/
def saturate (n : Int) : Int :=
  if n < least then least else if greatest < n then greatest else n

theorem saturate_fits (n : Int) : Fits (saturate n) := by
  unfold saturate Fits least greatest
  split
  · omega
  · split <;> omega

theorem saturate_of_fits {n : Int} (h : Fits n) : saturate n = n := by
  unfold Fits at h
  rw [saturate, if_neg (by omega), if_neg (by omega)]

theorem zero_fits : Fits 0 := by decide

/-- Digits with at most one sign in front, in the range of a signed word. -/
def ofChars? (text : List Char) : Option Int :=
  let (negative, digits) := match text with
    | '-' :: rest => (true, rest)
    | '+' :: rest => (false, rest)
    | rest => (false, rest)
  if digits.isEmpty || !digits.all Char.isDigit then none
  else
    let magnitude : Int := Nat.ofDigitChars 10 digits 0
    let value := if negative then -magnitude else magnitude
    if Fits value then some value else none

/-- Digits with at most one plus sign in front, in the range of an unsigned word. -/
def unsignedOfChars? (text : List Char) : Option Nat :=
  let digits := match text with
    | '+' :: rest => rest
    | rest => rest
  if digits.isEmpty || !digits.all Char.isDigit then none
  else
    let value := Nat.ofDigitChars 10 digits 0
    if value < count then some value else none

end Reckoner.Word
