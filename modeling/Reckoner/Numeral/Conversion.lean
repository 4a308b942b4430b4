import Reckoner.Context.Basic
import Reckoner.ConversionError
import Reckoner.Numeral.Names
import Reckoner.Numeral.Vocabulary

/-!
# Conversions between decimals and words

Conversions may fail and may remember names; what is remembered stays after a failure.
-/

namespace Reckoner.Numeral

abbrev Conversion : Type → Type := ExceptT ConversionError Naming

/-- Conversions keep ten thousand digits. -/
def context : Context := ⟨10000, .halfEven, by decide⟩

/-- The greatest multiple of three up to an exponent. -/
def namedExponent (exponent : Int) : Int := exponent - exponent % 3

/-- The name of a power of ten whose exponent is a multiple of three. -/
def nameOfPower (exponent : Int) : Conversion String :=
  if exponent < 3 ∨ exponent % 3 ≠ 0 then throw (.irregularExponent exponent)
  else nameOf (exponent / 3 - 1).toNat

/-- The exponent of the power of ten that a word names: that of the vocabulary, or else of a
Latin name. -/
def exponentOf? (word : List Char) : Naming (Option Int) :=
  match (entryOf? word).filter (1000 ≤ ·.value) with
  | some entry => return some (Integer.digitCount entry.value - 1 : Nat)
  | none => do
    let index ← indexOf? word
    return index.bind fun index =>
      let exponent : Int := (index + 1) * 3
      if Word.Fits exponent then some exponent else none

end Reckoner.Numeral
