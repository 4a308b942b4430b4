import Reckoner.Decimal.Literal
import Reckoner.Numeral.Conversion

/-!
# Short forms

A numeral of few digits before the name of a power, such as `1.5 Million`.
-/

namespace Reckoner.Numeral

/-- The exponent taken off a number with `digits` digits before the point to leave at most `places`
of them: a multiple of three that leaves at least one. -/
def strippedExponent (digits places : Nat) : Nat :=
  if places < digits then min ((digits - places + 2) / 3 * 3) ((digits - 1) / 3 * 3) else 0

/-- The value over a power of ten, with `digits` fractional digits and no zeros at their end. -/
def shortNumeral (x : Decimal) (exponent : Int) (digits : Nat) : Arithmetic Decimal := do
  return (← (x.movePoint (-exponent)).rescale digits context.rounding).canonical

/-- The numeral of the short form and the exponent of the power that is named after it. When the
rounding carries into a new thousand, the next power is taken. -/
def shortParts (x : Decimal) (places digits : Nat) : Arithmetic (Decimal × Int) := do
  let value := context.round x
  let places := max places 1
  let exponent := min (strippedExponent value.wholeDigits places : Int) Word.greatest
  let numeral ← shortNumeral value exponent digits
  let kept := (value.movePoint (-exponent)).wholeDigits
  let carried := numeral.wholeDigits
  if max places kept < carried && 3 < carried then
    return (← shortNumeral value (exponent + 3) digits, exponent + 3)
  return (numeral, exponent)

/-- The short form of a decimal: at most `places` digits before the point and `digits` behind. -/
def spellShort (x : Decimal) (places digits : Nat) : Conversion String := do
  let (numeral, exponent) ← (shortParts x places digits).mapError ConversionError.arithmetic
  if exponent < 3 then return numeral.toText
  return numeral.toText ++ " " ++ (← nameOfPower exponent)

end Reckoner.Numeral
