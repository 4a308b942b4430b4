import Reckoner.ConversionError
import Reckoner.Decimal.Basic
import Reckoner.Text.Blank

/-!
# Written decimals

Reading accepts a sign, digits with at most one point among them, and an exponent after
`e` or `E`, with white space around the whole. Writing gives the plain form, never the
scientific one.
-/

namespace Reckoner.Decimal

/-! ## Reading -/

/-- The text before and after the first character that `p` accepts. -/
def splitFirst (p : Char → Bool) (text : List Char) : List Char × Option (List Char) :=
  match text.dropWhile (!p ·) with
  | [] => (text, none)
  | _ :: after => (text.takeWhile (!p ·), some after)

/-- Digits with at most one point, as an integer and the number of digits after the point. -/
def digitsOfChars? (text : List Char) : Option (Nat × Nat) :=
  let (whole, fraction) := splitFirst (· == '.') text
  let digits := whole ++ fraction.getD []
  if digits.isEmpty || !digits.all Char.isDigit then none
  else some (Nat.ofDigitChars 10 digits 0, (fraction.getD []).length)

/-- Reads a written decimal. Its scale is the number of digits after the point less the exponent. -/
def ofChars? (text : List Char) : Option Decimal :=
  let (mantissa, exponentText) := splitFirst (fun c => c == 'e' || c == 'E') (Text.trim text)
  match exponentText.elim (some 0) Word.ofChars? with
  | none => none
  | some exponent =>
    let (negative, body) := match mantissa with
      | '-' :: rest => (true, rest)
      | '+' :: rest => (false, rest)
      | rest => (false, rest)
    match digitsOfChars? body with
    | none => none
    | some (magnitude, places) =>
      let unscaled : Int := if negative then -magnitude else magnitude
      let scale : Int := places - exponent
      if h : Word.Fits scale then some ⟨unscaled, scale, h⟩ else none

def ofString? (text : String) : Option Decimal := ofChars? text.toList

/-- Reads a written decimal, or tells which text is none. -/
def parse (text : String) : Except ConversionError Decimal :=
  (ofString? text).elim (.error (.invalidNumber text)) .ok

/-! ## Writing -/

/-- The plain form of a decimal: sign, digits and point. -/
def toChars (x : Decimal) : List Char :=
  if x.isZero && decide (x.scale ≤ 0) then ['0']
  else
    let digits := Nat.toDigits 10 x.unscaled.natAbs
    let places := x.scale.natAbs
    let sign := if x.isNegative then ['-'] else []
    if x.scale ≤ 0 then sign ++ digits ++ List.replicate places '0'
    else if places < digits.length then
      let whole := digits.length - places
      sign ++ digits.take whole ++ '.' :: digits.drop whole
    else sign ++ '0' :: '.' :: List.replicate (places - digits.length) '0' ++ digits

def toText (x : Decimal) : String := String.ofList x.toChars

instance : ToString Decimal := ⟨toText⟩

end Reckoner.Decimal
