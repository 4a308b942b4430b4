import Reckoner.Expression.Grammar

/-!
# Evaluating texts

A calculator is a context and a nesting limit. It reads a whole text as one expression and
gives its value rounded and without trailing zeros.
-/

namespace Reckoner

structure Calculator where
  context : Context
  /-- How deep expressions may nest. -/
  maxDepth : Nat
  deriving DecidableEq

namespace Calculator

/-- The nesting limit of a calculator that is not given one. -/
def standardDepth : Nat := 256

/-- Reads a whole text, computing or skipping. -/
def read (calculator : Calculator) (skipping : Bool) (text : List Char) : Outcome Decimal :=
  Grammar.wholeExpression calculator.maxDepth ⟨calculator.context, calculator.maxDepth⟩
    ⟨⟨.after [] text, true⟩, 0, skipping⟩

/-- The value of a text in which no placeholder is left. -/
def evaluatePlain (calculator : Calculator) (text : List Char) : Except EvalError Decimal :=
  match calculator.read false text with
  | .done value _ => .ok (calculator.context.round value).canonical
  | .failed error _ => .error error

end Calculator

end Reckoner
