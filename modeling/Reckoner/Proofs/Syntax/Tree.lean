import Mathlib.Tactic
import Reckoner.Expression.Grammar

/-!
# Syntax trees

What an expression or a statement says, how deep it nests and what it comes to. A tree has its
value without a text, a cursor or a second reading of anything.
-/

namespace Reckoner.Syntax

open Grammar (Operator Relation)

mutual

/-- What an expression says. -/
inductive Tree where
  | number (value : Decimal)
  | sign (negative : Bool) (operand : Tree)
  | operation (operator : Operator) (left right : Tree)
  | bracket (inner : Tree)
  | constant (function : Builtin.Constant)
  | unary (function : Builtin.Unary) (argument : Tree)
  | binary (function : Builtin.Binary) (left right : Tree)
  | variadic (kind : Aggregate) (arguments : Arguments)
  | conditional (negated : Bool) (test : Statement) (first second : Tree)

/-- The arguments of a variadic function, at least one. -/
inductive Arguments where
  | one (argument : Tree)
  | more (arguments : Arguments) (argument : Tree)

/-- What a statement says. -/
inductive Statement where
  /-- An expression holds unless it is zero. -/
  | truth (value : Tree)
  | comparison (relation : Relation) (left right : Tree)
  | negation (inner : Statement)
  | group (inner : Statement)
  | join (conjunction : Bool) (left right : Statement)

end

/-! ## Nesting -/

mutual

/-- How many levels a tree takes. The operands of a sum or a product stand beside each other;
those of a power, a remainder or a percentage nest to the right. -/
def Tree.depth : Tree → Nat
  | .number _ => 1
  | .sign _ operand => operand.depth + 1
  | .operation operator left right =>
    match operator with
    | .sum | .difference | .product | .quotient => max left.depth right.depth
    | .power | .remainder | .percentage => max left.depth (right.depth + 1)
  | .bracket inner => inner.depth + 1
  | .constant _ => 1
  | .unary _ argument => argument.depth + 1
  | .binary _ left right => max left.depth right.depth + 1
  | .variadic _ arguments => arguments.depth + 1
  | .conditional _ test first second => max test.depth (max first.depth second.depth) + 1

def Arguments.depth : Arguments → Nat
  | .one argument => argument.depth
  | .more arguments argument => max arguments.depth argument.depth

def Statement.depth : Statement → Nat
  | .truth value => value.depth
  | .comparison _ left right => max left.depth right.depth
  | .negation inner => inner.depth
  | .group inner => inner.depth + 1
  | .join _ left right => max left.depth right.depth

end

mutual

theorem Tree.depth_pos (tree : Tree) : 0 < tree.depth := by
  cases tree with
  | operation operator left right =>
    have := left.depth_pos
    cases operator <;> simp only [Tree.depth] <;> omega
  | _ => simp [Tree.depth]

theorem Statement.depth_pos (statement : Statement) : 0 < statement.depth := by
  cases statement with
  | truth value => exact value.depth_pos
  | comparison _ left _ =>
    have := left.depth_pos
    simp only [Statement.depth]
    omega
  | negation inner => exact inner.depth_pos
  | group => simp [Statement.depth]
  | join _ left _ =>
    have := left.depth_pos
    simp only [Statement.depth]
    omega

end

/-! ## Values -/

/-- Why a tree has no value. A text in parentheses that fails as a statement is read again as an
expression, and that reading stops before it comes to a hidden error. -/
structure Failure where
  error : ArithmeticError
  hidden : Bool

abbrev Result (α : Type) : Type := Except Failure α

/-- A result whose errors are hidden if `hides`. -/
def hide {α : Type} (hides : Bool) (result : Result α) : Result α :=
  result.mapError fun failure => { failure with hidden := failure.hidden || hides }

/-- What an operation comes to; while skipping, zero stands for it. -/
def perform (ctx : Context) (skipping : Bool) (operation : Context → Arithmetic Decimal) :
    Result Decimal :=
  if skipping then .ok 0 else (operation ctx).mapError fun error => ⟨error, false⟩

mutual

/-- What a tree comes to in a context, from the leaves up. -/
def Tree.value (ctx : Context) (skipping : Bool) : Tree → Result Decimal
  | .number value => return value
  | .sign negative operand => do
    let value ← operand.value ctx skipping
    return if negative then -value else value
  | .operation operator left right => do
    let x ← left.value ctx skipping
    let y ← right.value ctx skipping
    perform ctx skipping fun ctx => operator.apply ctx x y
  | .bracket inner => inner.value ctx skipping
  | .constant function => perform ctx skipping function.apply
  | .unary function argument => do
    let x ← argument.value ctx skipping
    perform ctx skipping fun ctx => function.apply ctx x
  | .binary function left right => do
    let x ← left.value ctx skipping
    let y ← right.value ctx skipping
    perform ctx skipping fun ctx => function.apply ctx x y
  | .variadic kind arguments => do
    let values ← arguments.values ctx skipping
    perform ctx skipping fun ctx => kind.fold ctx values
  | .conditional negated test first second => do
    let holds := (← test.holds ctx skipping false) != negated
    let x ← first.value ctx (skipping || !holds)
    let y ← second.value ctx (skipping || holds)
    return if holds then x else y

def Arguments.values (ctx : Context) (skipping : Bool) : Arguments → Result (List Decimal)
  | .one argument => do return [← argument.value ctx skipping]
  | .more arguments argument => do
    let values ← arguments.values ctx skipping
    return values ++ [← argument.value ctx skipping]

/-- Whether a statement holds. In parentheses, an error is hidden unless it comes from the very
expression that the statement begins with. -/
def Statement.holds (ctx : Context) (skipping inParentheses : Bool) : Statement → Result Bool
  | .truth value => do return !(← value.value ctx skipping).isZero
  | .comparison relation left right => do
    let x ← left.value ctx skipping
    let y ← hide inParentheses (right.value ctx skipping)
    return relation.holds (compare x y)
  | .negation inner => do
    return !(← hide inParentheses (inner.holds ctx skipping inParentheses))
  | .group inner => inner.holds ctx skipping true
  | .join conjunction left right => do
    let x ← left.holds ctx skipping inParentheses
    let y ← hide inParentheses (right.holds ctx skipping inParentheses)
    return Grammar.join conjunction x y

end

end Reckoner.Syntax
