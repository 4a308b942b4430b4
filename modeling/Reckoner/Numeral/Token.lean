/-!
# Tokens of a number name

Words are runs of ASCII letters and hyphens that start with a letter. Two words are signs of
their own, in any letter case.
-/

namespace Reckoner.Numeral

inductive Token where
  | negative
  | and
  /-- Any other word, as it is spelled. -/
  | word (text : List Char)
  deriving DecidableEq, Repr

namespace Token

/-- The white space between tokens. -/
def isGap (c : Char) : Bool := c == ' ' || c == '\t' || c == '\r' || c == '\n'

def isWordChar (c : Char) : Bool := c.isAlpha || c == '-'

def ofWord (text : List Char) : Token :=
  match String.ofList (text.map Char.toLower) with
  | "negative" => negative
  | "and" => and
  | _ => word text

/-- The tokens of a text, or the first character that begins none. -/
def scan (text : List Char) : Except Char (List Token) :=
  match text with
  | [] => .ok []
  | c :: rest =>
    if isGap c then scan rest
    else if c.isAlpha then
      (ofWord (c :: rest.takeWhile isWordChar) :: ·) <$> scan (rest.dropWhile isWordChar)
    else .error c
termination_by text.length
decreasing_by
  · simp
  · exact Nat.lt_succ_of_le (List.dropWhile_sublist _).length_le

end Token

end Reckoner.Numeral
