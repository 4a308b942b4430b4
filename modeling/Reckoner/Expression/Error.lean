import Reckoner.ArithmeticError

/-!
# Errors of an evaluation

A text that cannot be read is reported with the index of the character where reading failed.
-/

namespace Reckoner

/-- What is wrong with a text. -/
inductive Fault where
  | unexpectedCharacter (found : Char)
  | unexpectedEnd
  | unmatchedParenthesis
  | unknownIdentifier (name : String)
  | missingComma (function : String)
  | missingArguments (function : String)
  | trailingText (text : String)
  | expectedEquals
  | unresolvedPlaceholder
  | invalidPlaceholderIndex (expression : String) (available : Nat)
  | invalidNumber (literal : String)
  | nestingTooDeep (limit : Nat)
  deriving DecidableEq, Repr

def Fault.message : Fault → String
  | unexpectedCharacter found => "Unexpected character '" ++ String.singleton found ++ "'."
  | unexpectedEnd => "Unexpected end of input."
  | unmatchedParenthesis => "Expected closing parenthesis ')' but none found."
  | unknownIdentifier name => "Unknown identifier '" ++ name ++ "'."
  | missingComma function => "Expected ',' between the arguments of '" ++ function ++ "'."
  | missingArguments function =>
    "Function '" ++ function ++ "' requires a parenthesized argument list."
  | trailingText text => "Extra text after expression. Check your input: " ++ text
  | expectedEquals => "Expected '=' after '!'."
  | unresolvedPlaceholder => "Unresolved placeholder '$'."
  | invalidPlaceholderIndex expression available =>
    "Placeholder '$(" ++ expression ++ ")' is not an index into " ++ toString available ++
      " positional value(s)."
  | invalidNumber literal => "Invalid number '" ++ literal ++ "'."
  | nestingTooDeep limit => "Expression nests deeper than " ++ toString limit ++ " levels."

structure SyntaxError where
  fault : Fault
  position : Nat
  deriving DecidableEq, Repr

def SyntaxError.message (error : SyntaxError) : String :=
  "Error at position " ++ toString error.position ++ ": " ++ error.fault.message

/-- Why an evaluation gives no value. -/
inductive EvalError where
  | unreadable (error : SyntaxError)
  | arithmetic (error : ArithmeticError)
  deriving DecidableEq, Repr

namespace EvalError

def message : EvalError → String
  | unreadable error => error.message
  | arithmetic error => error.message

/-- Whether a function stands without the arguments it needs. -/
def isArityError : EvalError → Bool
  | unreadable ⟨.missingArguments _, _⟩ => true
  | _ => false

end EvalError

end Reckoner
