import Reckoner.Decimal.Literal
import Reckoner.Expression.FunctionTable
import Reckoner.Expression.Reading

/-!
# The grammar of expressions and statements

Every production reads its phrase and computes it in one pass. A factor and a statement are
defined by the number of nesting levels left; the other productions are given the readers
of the phrases inside them.
-/

namespace Reckoner.Grammar

open Reading

/-- A phrase up to the parenthesis that closes it. -/
def enclosed {α : Type} (phrase : Reading α) : Reading α := do
  let value ← phrase
  closeParenthesis
  return value

/-! ## Chains of operations -/

inductive Operator where
  | sum
  | difference
  | product
  | quotient
  | power
  | remainder
  | percentage
  deriving DecidableEq, Repr

/-- A remainder is rounded; a percentage is so many hundredths of a whole. -/
def Operator.apply : Operator → Context → Decimal → Decimal → Arithmetic Decimal
  | sum, ctx, x, y => .ok (ctx.add x y)
  | difference, ctx, x, y => .ok (ctx.sub x y)
  | product, ctx, x, y => .ok (ctx.mul x y)
  | quotient, ctx, x, y => ctx.div x y
  | power, ctx, x, y => ctx.pow x y
  | remainder, ctx, x, y => return ctx.round (← x.remainder y)
  | percentage, ctx, x, whole => return ctx.mul (← ctx.div x 100) whole

def sums : List (Char × Operator) := [('+', .sum), ('-', .difference)]

def products : List (Char × Operator) := [('*', .product), ('/', .quotient)]

/-- Takes one more operation onto `left`, if an operator follows. -/
def chainStep (operand : Reading Decimal) :
    List (Char × Operator) → Decimal → Reading (Option Decimal)
  | [], _ => return none
  | (sign, operator) :: rest, left => do
    if ← accept sign then
      let right ← operand
      return some (← calculate fun ctx => operator.apply ctx left right)
    else chainStep operand rest left

/-- Operands with operators between them, grouped from the left. -/
def chain (operators : List (Char × Operator)) (operand : Reading Decimal) : Reading Decimal := do
  iterate (chainStep operand operators) (← operand)

def term (factor : Reading Decimal) : Reading Decimal := chain products factor

def expression (factor : Reading Decimal) : Reading Decimal := chain sums (term factor)

/-! ## Statements -/

inductive Relation where
  | greater
  | atLeast
  | less
  | atMost
  | equal
  | unequal
  deriving DecidableEq, Repr

def Relation.holds : Relation → Ordering → Bool
  | greater, order => order.isGT
  | atLeast, order => order.isGE
  | less, order => order.isLT
  | atMost, order => order.isLE
  | equal, order => order.isEq
  | unequal, order => order.isNe

/-- A comparison operator, if one follows. A `!` must be followed by `=`. -/
def relation : Reading (Option Relation) := do
  if ← accept '>' then
    return some (if ← accept '=' then .atLeast else .greater)
  else if ← accept '<' then
    return some (if ← accept '=' then .atMost else .less)
  else if ← accept '=' then return some .equal
  else if ← accept '!' then
    expect '=' .expectedEquals
    return some .unequal
  else return none

/-- Two expressions compared exactly, or one that is tested for zero. -/
def comparison (factor : Reading Decimal) : Reading Bool := do
  let left ← expression factor
  match ← relation with
  | none => return !left.isZero
  | some operator =>
    let right ← expression factor
    return operator.holds (compare left right)

/-- The characters that make an operand of the group in front of them. -/
def extendsOperand (c : Char) : Bool :=
  ['+', '-', '*', '/', '^', '%', '<', '>', '=', '!'].contains c

/-- A statement in parentheses, unless they turn out to belong to an expression: then the text is
read again as a comparison. -/
def group (levels : Nat) (factor : Reading Decimal) (inner : Reading Bool) : Reading Bool :=
  nested levels <|
    orElse
      (do
        let _ ← accept '('
        enclosed inner)
      (fun after => !after.peek.satisfies extendsOperand)
      (comparison factor)

/-- A group or a comparison. -/
def clause (levels : Nat) (factor : Reading Decimal) (inner : Reading Bool) : Reading Bool := do
  if (← peek) = .at '(' then group levels factor inner else comparison factor

/-- A clause with at most one `!` in front. -/
def condition (levels : Nat) (factor : Reading Decimal) (inner : Reading Bool) : Reading Bool := do
  let negated ← accept '!'
  let holds ← clause levels factor inner
  return holds != negated

/-- Whether `&` follows, or else `|`. -/
def connective : Reading (Option Bool) := do
  if ← accept '&' then return some true
  else if ← accept '|' then return some false
  else return none

/-- Both truths, or one of them. -/
def join (conjunction left right : Bool) : Bool :=
  if conjunction then left && right else left || right

/-- Takes one more condition onto `left`, if `&` or `|` follows. Before the character that ends the
statement, such an operator is passed over. -/
def conditionStep (stop : Char) (condition : Reading Bool) (left : Bool) :
    Reading (Option Bool) := do
  match ← connective with
  | none => return none
  | some conjunction =>
    if (← peek) = .at stop then return none
    else return some (join conjunction left (← condition))

/-- Conditions with `&` and `|` between them, grouped from the left. -/
def conditions (stop : Char) (condition : Reading Bool) : Reading Bool := do
  iterate (conditionStep stop condition) (← condition)

/-! ## Function calls -/

def openParenthesis (name : String) (start : Cursor) : Reading Unit := do
  if !(← accept '(') then failAt (.missingArguments name) start

def comma (name : String) : Reading Unit := expect ',' (.missingComma name)

/-- Takes one more argument, if a comma follows. -/
def argumentStep (factor : Reading Decimal) (values : List Decimal) :
    Reading (Option (List Decimal)) := do
  if ← accept ',' then return some ((← expression factor) :: values) else return none

/-- The arguments of a variadic function, collected backward. -/
def arguments (factor : Reading Decimal) : Reading (List Decimal) := do
  iterate (argumentStep factor) [← expression factor]

/-- The parentheses that may stand behind a constant. -/
def emptyArguments : Reading Unit := do
  if ← accept '(' then closeParenthesis else return ()

/-- The argument of a unary function, which may stand in front of a factor without parentheses. -/
def argument (factor : Reading Decimal) : Reading Decimal := do
  if ← accept '(' then enclosed (expression factor) else factor

/-- The arguments of a function, whose name begins at `start`, and its value. -/
def application (factor : Reading Decimal) (statement : Reading Bool) (name : String)
    (start : Cursor) : Builtin → Reading Decimal
  | .constant function => do
    emptyArguments
    calculate function.apply
  | .unary function => do
    let value ← argument factor
    calculate fun ctx => function.apply ctx value
  | .binary function => do
    openParenthesis name start
    let left ← expression factor
    comma name
    let right ← expression factor
    closeParenthesis
    calculate fun ctx => function.apply ctx left right
  | .conditional negated => do
    openParenthesis name start
    let holds := (← statement) != negated
    comma name
    let first ← branch holds (expression factor)
    comma name
    let second ← branch (!holds) (expression factor)
    closeParenthesis
    return if holds then first else second
  | .variadic kind => do
    openParenthesis name start
    let values ← arguments factor
    closeParenthesis
    calculate fun ctx => kind.fold ctx values.reverse

/-! ## Factors -/

/-- A point with the digits behind it, if one follows at once. -/
def fraction : Reading (List Char) := do
  if (← cursor).current = .at '.' then
    let _ ← accept '.'
    return '.' :: (← takeWhile Char.isDigit)
  else return []

/-- Digits with at most one point among them. -/
def number : Reading Decimal := do
  let start ← cursor
  let literal := (← takeWhile Char.isDigit) ++ (← fraction)
  match Decimal.ofChars? literal with
  | some value => return value
  | none => failAt (.invalidNumber (String.ofList literal)) start

/-- A name with its arguments. -/
def call (factor : Reading Decimal) (statement : Reading Bool) : Reading Decimal := do
  let start ← cursor
  let name := String.ofList (← takeWhile Char.isAlpha)
  match Builtin.ofName? name with
  | some function => application factor statement name start function
  | none => failAt (.unknownIdentifier name) start

/-- The characters that a number may begin with. -/
def beginsNumber (c : Char) : Bool := c.isDigit || c == '.'

/-- A number or a function call, as the character under the cursor tells. -/
def operand (factor : Reading Decimal) (statement : Reading Bool) (start : Cursor) :
    Reading Decimal :=
  match start.current with
  | .at c =>
    if beginsNumber c then number
    else if c.isAlpha then call factor statement
    else if c == '$' then failAt .unresolvedPlaceholder start
    else failAt (.unexpectedCharacter c) start
  | _ => failAt .unexpectedEnd start

/-- An operand or an expression in parentheses. -/
def primary (factor : Reading Decimal) (statement : Reading Bool) : Reading Decimal := do
  if ← accept '(' then enclosed (expression factor)
  else
    passSpaces
    operand factor statement (← cursor)

/-- An exponent behind a primary. -/
def raised (factor : Reading Decimal) (value : Decimal) : Reading Decimal := do
  if ← accept '^' then
    let exponent ← factor
    calculate fun ctx => Operator.power.apply ctx value exponent
  else return value

/-- A remainder or a percentage behind a power. -/
def shared (factor : Reading Decimal) (value : Decimal) : Reading Decimal := do
  if ← accept '%' then
    if ← accept '%' then
      let divisor ← factor
      calculate fun ctx => Operator.remainder.apply ctx value divisor
    else
      let whole ← factor
      calculate fun ctx => Operator.percentage.apply ctx value whole
  else return value

/-- An exponent, then a remainder or a percentage, after a primary. -/
def withTail (factor : Reading Decimal) (value : Decimal) : Reading Decimal := do
  shared factor (← raised factor value)

/-- A factor with `levels` levels left, from the readers of a factor and a statement inside it. -/
def factorWithin (levels : Nat) (factor : Reading Decimal) (statement : Reading Bool) :
    Reading Decimal :=
  nested levels do
    if ← accept '+' then factor
    else if ← accept '-' then return -(← factor)
    else withTail factor (← primary factor statement)

mutual

/-- A factor with `levels` levels left. -/
def factor (levels : Nat) : Reading Decimal := fun settings state =>
  match levels with
  | 0 => tooDeep settings state
  | inner + 1 =>
    factorWithin (inner + 1) (factor inner) (statement inner ',') settings state

/-- A statement that ends before `stop`, with `levels` levels left. -/
def statement (levels : Nat) (stop : Char) : Reading Bool := fun settings state =>
  match levels with
  | 0 => conditions stop (condition 0 tooDeep tooDeep) settings state
  | inner + 1 =>
    conditions stop
      (condition (inner + 1)
        (factorWithin (inner + 1) (factor inner) (statement inner ',')) (statement inner ')'))
      settings state

end

/-! ## Whole texts -/

/-- Fails unless nothing but spaces is left. -/
def endOfText : Reading Unit := do
  passSpaces
  let rest ← cursor
  match rest.current with
  | .pastEnd => return ()
  | .at ')' => failAt .unmatchedParenthesis rest
  | _ => failAt (.trailingText (String.ofList rest.place.rest)) rest

/-- An expression and nothing after it. -/
def wholeExpression (levels : Nat) : Reading Decimal := do
  let value ← expression (factor levels)
  endOfText
  return value

end Reckoner.Grammar
