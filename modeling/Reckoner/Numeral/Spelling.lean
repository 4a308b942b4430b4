import Reckoner.Decimal.Literal
import Reckoner.Numeral.Conversion

/-!
# Spelling decimals

The whole part is spelled group by group from the greatest power of a thousand on, and the
fraction as a whole number followed by the name of its last place.
-/

namespace Reckoner.Numeral

open Decimal

/-- The words of a number below the vocabulary limit; none for zero. -/
def smallWords (n : Nat) : List String :=
  match _ : greatestUpTo? n with
  | none => []
  | some entry =>
    (if 100 ≤ entry.value then smallWords (n / entry.value) else []) ++
      entry.word :: (if 0 < n % entry.value then smallWords (n % entry.value) else [])
termination_by n
decreasing_by
  all_goals
    have below : entry.value ≤ n := value_le_of_greatestUpTo? (by assumption)
    have positive : 0 < entry.value := value_pos_of_greatestUpTo? (by assumption)
  · exact Nat.div_lt_self (by omega) (by omega)
  · exact Nat.lt_of_lt_of_le (Nat.mod_lt _ positive) below

/-- A count of a power, as a number that can be spelled. -/
def smallCount (x : Decimal) : Except ConversionError Nat :=
  match x.toWord? with
  | some (.ofNat n) => .ok n
  | _ => .error (.invalidNumber x.toText)

/-- Spells a non-negative whole number, at most `limit` powers of it; none for zero. -/
def groupWords : (limit : Nat) → Decimal → Conversion (List String)
  | 0, _ => return []
  | limit + 1, rest => do
    if ofNat vocabularyLimit ≤ rest then
      let exponent := namedExponent rest.exponent
      let count := (rest.movePoint (-exponent)).wholePart
      let words := smallWords (← smallCount count)
      let name ← nameOfPower exponent
      return words ++ name :: (← groupWords limit (rest - count.movePoint exponent))
    else if rest.isZero then return []
    else return smallWords (← smallCount rest)

/-- Spells a non-negative whole number. Every power takes at least one digit off it. -/
def wholeWords (n : Decimal) : Conversion (List String) :=
  if n.isZero then return ["Zero"] else groupWords (n.digitCount + 1) n

/-- The name of a place behind the point. -/
def nameOfPlace (places : Int) : Conversion String :=
  if places = 1 then return "Tenth"
  else if places = 2 then return "Hundredth"
  else if places = 3 then return "Thousandth"
  else do
    let exponent := namedExponent places
    let beginning :=
      if places = exponent then "" else if places = exponent + 1 then "Ten-" else "Hundred-"
    return beginning ++ (← nameOfPower exponent) ++ "th"

/-- The words of a decimal. -/
def wordsOf (x : Decimal) : Conversion (List String) := do
  let value := context.round x
  if value.isZero then return ["Zero"]
  let sign := if value.isNegative then ["Negative"] else []
  let magnitude := value.abs
  let whole ← wholeWords magnitude.wholePart
  let fraction := magnitude.fractionPart.canonical
  if fraction.isZero then return sign ++ whole
  let numerator ← wholeWords (ofInt fraction.unscaled)
  let place ← nameOfPlace fraction.scale
  return sign ++ whole ++ "and" :: numerator ++ [place]

/-- Spells a decimal. -/
def spell (x : Decimal) : Conversion String := return " ".intercalate (← wordsOf x)

end Reckoner.Numeral
