import Reckoner.CommandLine.Arguments
import Reckoner.Expression.Placeholder
import Reckoner.Numeral.Reading
import Reckoner.Numeral.Short
import Reckoner.Numeral.Spelling

/-!
# Commands

The five commands, how their arguments are read, and what they print.
-/

namespace Reckoner.CommandLine

inductive Command where
  | eval (expression : String) (precision : Nat) (rounding : Rounding) (bindings : Bindings)
      (inWords : Bool)
  | test (statement : String)
  | words (number : Decimal)
  | number (phrase : List String)
  | short (number : Decimal) (places digits : Nat)

/-- What a command line comes to. -/
inductive Response where
  | printed (text : String)
  | failed (message : String)
  /-- The arguments make no command. -/
  | rejected
  deriving DecidableEq, Repr

/-! ## Forms -/

def evalForm : Form where
  options :=
    [⟨"precision", some 'p', true, false, false⟩, ⟨"rounding", some 'r', true, false, false⟩,
      ⟨"var", none, true, true, false⟩, ⟨"arg", none, true, true, true⟩,
      ⟨"words", some 'w', false, false, false⟩]
  manyOperands := false
  negativeOperand := false

def testForm : Form := ⟨[], false, false⟩

def wordsForm : Form := ⟨[], false, true⟩

def numberForm : Form := ⟨[], true, false⟩

def shortForm : Form where
  options := [⟨"places", none, true, false, false⟩, ⟨"digits", none, true, false, false⟩]
  manyOperands := false
  negativeOperand := true

/-! ## Values -/

def roundingOfName? : String → Option Rounding
  | "up" => some .up
  | "down" => some .down
  | "ceiling" => some .ceiling
  | "floor" => some .floor
  | "half-up" => some .halfUp
  | "half-down" => some .halfDown
  | "half-even" => some .halfEven
  | _ => none

/-- A name and a value with an equals sign between them. -/
def bindingOf? (text : String) : Option (String × Decimal) :=
  match Decimal.splitFirst (· == '=') text.toList with
  | (_, none) => none
  | (name, some value) =>
    (Decimal.ofChars? value).map fun value => (String.ofList (Text.trim name), value)

/-- A number of fractional digits, which may be written as a signed number. -/
def digitsOf? (text : String) : Option Nat :=
  (Word.ofChars? text.toList).bind fun n => if 0 ≤ n ∧ n < 65536 then some n.toNat else none

/-- The value of an option, or its default where the option is not given. -/
def optionOr {α : Type} (arguments : Arguments) (long : String) (standard : α)
    (read : String → Option α) : Option α :=
  (arguments.value? long).elim (some standard) read

/-! ## Reading a command -/

def evalCommand? (arguments : Arguments) (expression : String) : Option Command := do
  let precision ←
    optionOr arguments "precision" Context.standard.precision (Word.unsignedOfChars? ·.toList)
  let rounding ← optionOr arguments "rounding" Context.standard.rounding roundingOfName?
  let named ← (arguments.values "var").mapM bindingOf?
  let positional ← (arguments.values "arg").mapM Decimal.ofString?
  let bindings := named.foldl (fun bindings (name, value) => bindings.insert name value)
    ⟨[], positional⟩
  return .eval expression precision rounding bindings (arguments.value? "words").isSome

def shortCommand? (arguments : Arguments) (number : String) : Option Command := do
  let number ← Decimal.ofString? number
  let places ← optionOr arguments "places" 3 (Word.unsignedOfChars? ·.toList)
  let digits ← optionOr arguments "digits" 2 digitsOf?
  return .short number places digits

/-- Reads the arguments of a command with one operand. -/
def withOperand (form : Form) (tokens : List String) (read : Arguments → String → Option Command) :
    Option Command := do
  let arguments ← Arguments.ofTokens? form tokens
  read arguments (← arguments.operands.head?)

/-- The command named by the first token. -/
def Command.ofTokens? : List String → Option Command
  | "eval" :: tokens => withOperand evalForm tokens evalCommand?
  | "test" :: tokens => withOperand testForm tokens fun _ statement => some (.test statement)
  | "words" :: tokens =>
    withOperand wordsForm tokens fun _ number => (Decimal.ofString? number).map .words
  | "number" :: tokens =>
    (Arguments.ofTokens? numberForm tokens).map fun arguments => .number arguments.operands
  | "short" :: tokens => withOperand shortForm tokens shortCommand?
  | _ => none

/-! ## Running a command -/

/-- The result of a conversion that starts without any name known. -/
def converted {α : Type} (conversion : Numeral.Conversion α) : Except String α :=
  (conversion.run.run Numeral.Names.empty).1.mapError ConversionError.message

/-- The output of a command, or the message of its failure. -/
def Command.run : Command → Except String String
  | eval expression precision rounding bindings inWords =>
    match Context.ofPrecision? precision rounding with
    | none => .error "Precision must be at least one digit."
    | some context => do
      let calculator : Calculator := ⟨context, Calculator.standardDepth⟩
      let value ←
        (calculator.evaluate expression.toList bindings).mapError EvalError.message
      if inWords then converted (Numeral.spell value) else return value.toText
  | test statement => do
    let calculator : Calculator := ⟨.standard, Calculator.standardDepth⟩
    let holds ← (calculator.holds statement.toList).mapError EvalError.message
    return if holds then "true" else "false"
  | words value => converted (Numeral.spell value)
  | number phrase => do
    let value ← converted (Numeral.read (" ".intercalate phrase).toList)
    return value.toText
  | short value places digits => converted (Numeral.spellShort value places digits)

/-- What the program answers to its arguments. -/
def respond (tokens : List String) : Response :=
  match Command.ofTokens? tokens with
  | none => .rejected
  | some command =>
    match command.run with
    | .ok text => .printed text
    | .error message => .failed message

end Reckoner.CommandLine
