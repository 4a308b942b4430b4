import Reckoner.ArithmeticError

/-!
# Conversion errors
-/

namespace Reckoner

/-- Why a number cannot be written in words, or words or digits cannot be read as a number. -/
inductive ConversionError where
  | irregularExponent (exponent : Int)
  | unknownWord (word : String)
  | malformedPhrase (details : String)
  | invalidNumber (text : String)
  | arithmetic (error : ArithmeticError)
  deriving DecidableEq, Repr

def ConversionError.message : ConversionError → String
  | irregularExponent exponent =>
    "Conversion error: Exponent " ++ toString exponent ++
      " cannot be reduced to a multiple of three."
  | unknownWord word => "Conversion error: Unknown numeral word '" ++ word ++ "'."
  | malformedPhrase details => "Conversion error: Malformed numeral phrase: " ++ details ++ "."
  | invalidNumber text => "Conversion error: '" ++ text ++ "' is not a decimal number."
  | arithmetic error => error.message

end Reckoner
