/-!
# Letters

Words are compared by their ASCII letters in either case.
-/

namespace Reckoner.Text

def lower (text : List Char) : List Char := text.map Char.toLower

/-- The same text but for the case of ASCII letters. -/
def sameLetters (a b : List Char) : Bool := lower a == lower b

/-- The text with its first letter in upper case. -/
def capitalize : List Char → List Char
  | [] => []
  | c :: rest => c.toUpper :: rest

/-- The text without an ending. -/
def dropEnding? (ending text : List Char) : Option (List Char) :=
  if ending.isSuffixOf text then some (text.take (text.length - ending.length)) else none

/-- The text without a beginning. -/
def dropBeginning? (beginning text : List Char) : Option (List Char) :=
  if beginning.isPrefixOf text then some (text.drop beginning.length) else none

end Reckoner.Text
