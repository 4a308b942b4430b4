import Reckoner.Numeral.Conversion
import Reckoner.Numeral.Token

/-!
# Reading number names

A count builds up from small words; a hundred multiplies it and a greater power closes it.
A fraction is a whole number and the name of its last place.
-/

namespace Reckoner.Numeral

open Decimal

def badPhrase (details : String) : ConversionError := .malformedPhrase details

def unknownWord (word : List Char) : ConversionError := .unknownWord (String.ofList word)

/-- The letters of `word` are those of `name`, in any case. -/
def isWord (name : String) (word : List Char) : Bool := Text.sameLetters word name.toList

def needsMultiplier (word : List Char) : ConversionError :=
  badPhrase ("'" ++ String.ofList word ++ "' needs a multiplier")

/-- Reads one more word into the sum of the closed groups and the open count. -/
def readWord (total : Decimal) (count : Nat) (word : List Char) : Conversion (Decimal × Nat) := do
  if isWord "hundred" word then
    if count = 0 then throw (needsMultiplier word)
    return (total, Word.wrap (count * 100))
  match ← exponentOf? word with
  | some exponent =>
    if count = 0 then throw (needsMultiplier word)
    return (context.add total ((ofNat count).movePoint exponent), 0)
  | none =>
    match entryOf? word with
    | some entry => return (total, Word.wrap (count + entry.value))
    | none =>
      if isWord "zero" word then throw (badPhrase "'Zero' must stand alone")
      throw (unknownWord word)

def readWords (total : Decimal) (count : Nat) : List (List Char) → Conversion Decimal
  | [] => return context.add total (ofNat count)
  | word :: rest => do
    let (total, count) ← readWord total count word
    readWords total count rest

/-- Reads a whole number. -/
def readWhole (words : List (List Char)) : Conversion Decimal :=
  match words with
  | [] => throw (badPhrase "expected a number")
  | [only] => if isWord "zero" only then return 0 else readWords 0 0 words
  | _ => readWords 0 0 words

/-- The number of places that a place name stands for, as in `Ten-Thousandths`. -/
def placesOf (word : List Char) : Conversion Int := do
  let lower := Text.lower word
  let singular := (Text.dropEnding? ['s'] lower).filter (['t', 'h'].isSuffixOf ·) |>.getD lower
  match Text.dropEnding? ['t', 'h'] singular with
  | none => throw (unknownWord word)
  | some base =>
    let (extra, base) : Int × List Char :=
      match Text.dropBeginning? "ten-".toList base with
      | some rest => (1, rest)
      | none =>
        match Text.dropBeginning? "hundred-".toList base with
        | some rest => (2, rest)
        | none => (0, base)
    if extra = 0 && base == "ten".toList then return 1
    if extra = 0 && base == "hundred".toList then return 2
    match ← exponentOf? base with
    | some places => return places + extra
    | none => throw (unknownWord word)

/-- The words among tokens that should all be words. -/
def plainWords : List Token → Except ConversionError (List (List Char))
  | [] => .ok []
  | .word text :: rest => (text :: ·) <$> plainWords rest
  | .negative :: _ => .error (badPhrase "'Negative' must come first")
  | .and :: _ => .error (badPhrase "'and' may appear only once")

/-- Adds a fraction to a whole number. The place is read before the digits that end there. -/
def readFraction (whole : Decimal) (tokens : List Token) : Conversion Decimal := do
  let words ← plainWords tokens
  match words.getLast? with
  | none => throw (badPhrase "expected a fraction after 'and'")
  | some place =>
    let places ← placesOf place
    let numerator ← readWhole words.dropLast
    return context.add whole (numerator.movePoint (-places))

/-- Reads a number name. -/
def read (text : List Char) : Conversion Decimal := do
  match Token.scan text with
  | .error c => throw (unknownWord [c])
  | .ok tokens =>
    let (negative, tokens) := match tokens with
      | .negative :: rest => (true, rest)
      | tokens => (false, tokens)
    let whole ← readWhole (← plainWords (tokens.takeWhile (· ≠ .and)))
    let value ← match tokens.dropWhile (· ≠ .and) with
      | [] => pure whole
      | _ :: fraction => readFraction whole fraction
    return if negative then -value else value

end Reckoner.Numeral
