import Reckoner.Context.Gamma
import Reckoner.Context.Hyperbolic
import Reckoner.Context.InverseAngle
import Reckoner.Expression.Aggregate

/-!
# Builtin functions

The names of the calculator's functions, how many arguments each takes, and what it computes.
-/

namespace Reckoner

inductive Arity where
  | nullary
  | unary
  | binary
  | ternary
  | variadic
  deriving DecidableEq, Repr

namespace Builtin

inductive Constant where
  | pi
  | e
  deriving DecidableEq, Repr

inductive Unary where
  | sqrt | sin | asin | sinh | asinh | cos | acos | cosh | acosh | tan | atan | tanh | atanh
  | cot | acot | coth | acoth | abs | factorial | gamma | exp | exponent | mantissa
  | ceiling | floor | round | ln | log10 | log2 | radians | degrees
  deriving DecidableEq, Repr

inductive Binary where
  | roundTo | pow | root | log
  deriving DecidableEq, Repr

end Builtin

/-- A builtin function, by the form of its arguments. -/
inductive Builtin where
  | constant (function : Builtin.Constant)
  | unary (function : Builtin.Unary)
  | binary (function : Builtin.Binary)
  /-- A statement and two branches; `negated` takes the first branch when it fails. -/
  | conditional (negated : Bool)
  | variadic (kind : Aggregate)
  deriving DecidableEq, Repr

namespace Builtin

def arity : Builtin → Arity
  | constant _ => .nullary
  | unary _ => .unary
  | binary _ => .binary
  | conditional _ => .ternary
  | variadic _ => .variadic

def table : List (String × Builtin) :=
  [("pi", constant .pi), ("e", constant .e), ("sqrt", unary .sqrt), ("sin", unary .sin),
    ("asin", unary .asin), ("sinh", unary .sinh), ("asinh", unary .asinh), ("cos", unary .cos),
    ("acos", unary .acos), ("cosh", unary .cosh), ("acosh", unary .acosh), ("tan", unary .tan),
    ("atan", unary .atan), ("tanh", unary .tanh), ("atanh", unary .atanh), ("cot", unary .cot),
    ("acot", unary .acot), ("coth", unary .coth), ("acoth", unary .acoth), ("abs", unary .abs),
    ("factorial", unary .factorial), ("gamma", unary .gamma), ("exp", unary .exp),
    ("exponent", unary .exponent), ("mantissa", unary .mantissa), ("ceiling", unary .ceiling),
    ("floor", unary .floor), ("round", unary .round), ("logE", unary .ln),
    ("logTen", unary .log10), ("logTwo", unary .log2), ("rad", unary .radians),
    ("deg", unary .degrees), ("roundTo", binary .roundTo), ("pow", binary .pow),
    ("root", binary .root), ("log", binary .log), ("if", conditional false),
    ("nif", conditional true), ("average", variadic .average), ("sum", variadic .sum),
    ("reduce", variadic .reduce), ("multiply", variadic .multiply), ("divide", variadic .divide),
    ("max", variadic .max), ("min", variadic .min)]

/-- The names of all builtin functions. -/
def names : List String := table.map Prod.fst

def ofName? (name : String) : Option Builtin := table.lookup name

/-! ## What they compute -/

def Constant.apply : Constant → Context → Arithmetic Decimal
  | pi, ctx => ctx.pi
  | e, ctx => ctx.e

/-- Rounding to a whole number ignores the precision of the context. -/
def Unary.apply (function : Unary) (ctx : Context) (x : Decimal) : Arithmetic Decimal :=
  match function with
  | sqrt => ctx.sqrt x
  | sin => ctx.sin x
  | asin => ctx.asin x
  | sinh => ctx.sinh x
  | asinh => ctx.asinh x
  | cos => ctx.cos x
  | acos => ctx.acos x
  | cosh => ctx.cosh x
  | acosh => ctx.acosh x
  | tan => ctx.tan x
  | atan => ctx.atan x
  | tanh => ctx.tanh x
  | atanh => ctx.atanh x
  | cot => ctx.cot x
  | acot => ctx.acot x
  | coth => ctx.coth x
  | acoth => ctx.acoth x
  | abs => .ok (ctx.round x.abs)
  | factorial => ctx.factorial x
  | gamma => ctx.gamma x
  | exp => ctx.exp x
  | exponent => .ok (Decimal.ofInt x.exponent)
  | mantissa => .ok (ctx.round x.mantissa)
  | ceiling => x.rescale 0 .ceiling
  | floor => x.rescale 0 .floor
  | round => x.rescale 0 .halfUp
  | ln => ctx.ln x
  | log10 => ctx.log10 x
  | log2 => ctx.log2 x
  | radians => ctx.radians x
  | degrees => ctx.degrees x

/-- Rounds half up to a whole number of fractional digits. -/
def roundToDigits (x digits : Decimal) : Arithmetic Decimal :=
  if !digits.isWhole then .error (.undefined "roundTo" "digit count must be an integer")
  else
    match digits.toWord? with
    | none => .error .exponentTooLarge
    | some places => x.rescale places .halfUp

def Binary.apply (function : Binary) (ctx : Context) (x y : Decimal) : Arithmetic Decimal :=
  match function with
  | roundTo => roundToDigits x y
  | pow => ctx.pow x y
  | root => ctx.root x y
  | log => ctx.log x y

end Builtin

end Reckoner
