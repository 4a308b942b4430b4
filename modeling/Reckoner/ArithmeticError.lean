/-!
# Arithmetic errors
-/

namespace Reckoner

/-- Why an operation on numbers has no result. -/
inductive ArithmeticError where
  | divisionByZero
  | undefined (operation reason : String)
  | exponentTooLarge
  deriving DecidableEq, Repr

def ArithmeticError.message : ArithmeticError → String
  | divisionByZero => "Arithmetic error: Division by zero."
  | undefined operation reason =>
    "Arithmetic error: '" ++ operation ++ "' is undefined: " ++ reason ++ "."
  | exponentTooLarge => "Arithmetic error: Exponent is too large to be represented."

/-- A computation on numbers. -/
abbrev Arithmetic (α : Type) : Type := Except ArithmeticError α

end Reckoner
