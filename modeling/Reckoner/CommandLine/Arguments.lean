/-!
# Arguments

The tokens of a command line are sorted into operands and options. Options have a long name and
maybe a short letter; a letter may be followed by its value or by further letters. What looks
like a negative number is a value where one may stand, and a lone `--` makes operands of all
that follows.
-/

namespace Reckoner.CommandLine

structure OptionForm where
  long : String
  short : Option Char
  /-- An option without a value is a flag. -/
  takesValue : Bool
  /-- Whether the option may be given more than once. -/
  repeatable : Bool
  /-- Whether its value may be a separate token that looks like a negative number. -/
  allowsNegative : Bool
  deriving DecidableEq, Repr

/-- The options and operands that a command takes. -/
structure Form where
  options : List OptionForm
  /-- Whether there may be more than one operand; there must be one. -/
  manyOperands : Bool
  /-- Whether the operand may look like a negative number. -/
  negativeOperand : Bool
  deriving DecidableEq, Repr

/-- What the tokens so far say. -/
structure Arguments where
  operands : List String
  /-- The options given, by long name and with their values; the value of a flag is empty. -/
  given : List (String × String)
  /-- An option that still waits for its value. -/
  pending : Option OptionForm
  /-- Whether only operands are left. -/
  operandsOnly : Bool
  deriving DecidableEq, Repr

namespace Arguments

def empty : Arguments := ⟨[], [], none, false⟩

/-- The values given to an option. -/
def values (arguments : Arguments) (long : String) : List String :=
  (arguments.given.filter (·.1 == long)).map Prod.snd

/-- The value of an option that is given at most once. -/
def value? (arguments : Arguments) (long : String) : Option String :=
  (arguments.values long).head?

/-- Notes an option, unless it is given too often. -/
def give (arguments : Arguments) (form : OptionForm) (value : String) : Option Arguments :=
  if !form.repeatable && arguments.given.any (·.1 == form.long) then none
  else some { arguments with given := arguments.given ++ [(form.long, value)], pending := none }

/-- Waits for the value of an option. -/
def await (arguments : Arguments) (form : OptionForm) : Option Arguments :=
  some { arguments with pending := some form }

def addOperand (arguments : Arguments) (operand : String) : Arguments :=
  { arguments with operands := arguments.operands ++ [operand] }

end Arguments

/-! ## Numbers among the tokens -/

/-- Digits with at most one point, which is not in front, and at most one `e` or `E` after the point,
which is neither in front nor at the end. -/
def looksNumeric (text : List Char) : Bool :=
  let isPart c := c.isDigit || c == '.'
  let mantissa := text.takeWhile isPart
  let exponent := text.dropWhile isPart
  decide (mantissa.count '.' ≤ 1) && mantissa.head? != some '.' &&
    match exponent with
    | [] => true
    | mark :: digits =>
      (mark == 'e' || mark == 'E') && !mantissa.isEmpty && !digits.isEmpty &&
        digits.all Char.isDigit

/-- Whether a token behind a hyphen is a negative number where one may stand. -/
def isNegativeValue (form : Form) (arguments : Arguments) (behind : List Char) : Bool :=
  looksNumeric behind &&
    (arguments.pending.any (·.allowsNegative) ||
      (form.negativeOperand && (form.manyOperands || arguments.operands.isEmpty)))

/-! ## Options -/

/-- Reads an option by its long name, with the value after an equals sign if there is one. -/
def readLong (form : Form) (arguments : Arguments) (text : List Char) : Option Arguments := do
  let name := text.takeWhile (· != '=')
  let option ← form.options.find? fun option => option.long.toList == name
  match text.dropWhile (· != '='), option.takesValue with
  | [], true => arguments.await option
  | [], false => arguments.give option ""
  | _ :: value, true => arguments.give option (String.ofList value)
  | _ :: _, false => none

/-- Reads short letters. The rest behind a letter that takes a value is that value; an equals sign
between them is dropped. -/
def readShort (form : Form) (arguments : Arguments) : List Char → Option Arguments
  | [] => some arguments
  | letter :: rest => do
    let option ← form.options.find? (·.short == some letter)
    if option.takesValue then
      match rest with
      | [] => arguments.await option
      | '=' :: value => arguments.give option (String.ofList value)
      | value => arguments.give option (String.ofList value)
    else readShort form (← arguments.give option "") rest

/-- An option may only be read when none is waiting for its value. -/
def readOption (arguments : Arguments) (read : Arguments → Option Arguments) : Option Arguments :=
  if arguments.pending.isSome then none else read arguments

/-! ## Tokens -/

/-- A token that is no option: the value awaited, or else an operand. -/
def readValue (arguments : Arguments) (token : String) : Option Arguments :=
  match arguments.pending with
  | some option => arguments.give option token
  | none => some (arguments.addOperand token)

def readToken (form : Form) (arguments : Arguments) (token : String) : Option Arguments :=
  if arguments.operandsOnly then some (arguments.addOperand token)
  else
    match token.toList with
    | ['-', '-'] =>
      readOption arguments fun arguments => some { arguments with operandsOnly := true }
    | '-' :: '-' :: text => readOption arguments fun arguments => readLong form arguments text
    | '-' :: c :: rest =>
      if isNegativeValue form arguments (c :: rest) then readValue arguments token
      else readOption arguments fun arguments => readShort form arguments (c :: rest)
    | _ => readValue arguments token

/-- Sorts the tokens of a command, unless one does not fit, a value is missing or there are too few
or too many operands. -/
def Arguments.ofTokens? (form : Form) (tokens : List String) : Option Arguments := do
  let arguments ← tokens.foldlM (readToken form) Arguments.empty
  if arguments.pending.isSome then none
  match arguments.operands, form.manyOperands with
  | [], _ => none
  | _ :: _ :: _, false => none
  | _, _ => some arguments

end Reckoner.CommandLine
