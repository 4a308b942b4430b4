import Reckoner.Proofs.Scales.Gammas
import Reckoner.Proofs.Scales.Hyperbolics

/-!
# Functions of a value

A special function depends on the values of its arguments and on nothing else of their
representations: it gives representations of one value, or it fails with one error. The scales must
have room, and a zero must not stand so far left of the point that it is not read as a word.
-/

namespace Reckoner

open Decimal

namespace SpecialFunction

inductive Unary where
  | sqrt | exp | ln | log10 | log2
  | sin | cos | tan | cot | asin | acos | atan | acot
  | sinh | cosh | tanh | coth | asinh | acosh | atanh | acoth
  | factorial | gamma | radians | degrees | exponent | mantissa
  deriving DecidableEq, Repr

inductive Binary where
  | log | pow | root
  deriving DecidableEq, Repr

end SpecialFunction

/-- A special function with its arguments. -/
inductive SpecialCall where
  | unary (function : SpecialFunction.Unary) (x : Decimal)
  | binary (function : SpecialFunction.Binary) (x y : Decimal)
  | rootOfDegree (degree : Nat) (x : Decimal)
  deriving DecidableEq

namespace SpecialFunction

def Unary.apply : Unary → Context → Decimal → Arithmetic Decimal
  | sqrt => Context.sqrt
  | exp => Context.exp
  | ln => Context.ln
  | log10 => Context.log10
  | log2 => Context.log2
  | sin => Context.sin
  | cos => Context.cos
  | tan => Context.tan
  | cot => Context.cot
  | asin => Context.asin
  | acos => Context.acos
  | atan => Context.atan
  | acot => Context.acot
  | sinh => Context.sinh
  | cosh => Context.cosh
  | tanh => Context.tanh
  | coth => Context.coth
  | asinh => Context.asinh
  | acosh => Context.acosh
  | atanh => Context.atanh
  | acoth => Context.acoth
  | factorial => Context.factorial
  | gamma => Context.gamma
  | radians => Context.radians
  | degrees => Context.degrees
  | exponent => fun _ x => .ok (ofInt x.exponent)
  | mantissa => fun _ x => .ok x.mantissa

def Unary.traced : Unary → Context → Decimal → Traced Decimal
  | sqrt => Traced.sqrt
  | exp => Traced.exp
  | ln => Traced.ln
  | log10 => fun ctx => Traced.log ctx 10
  | log2 => fun ctx => Traced.log ctx 2
  | sin => Traced.sin
  | cos => Traced.cos
  | tan => Traced.tan
  | cot => Traced.cot
  | asin => Traced.asin
  | acos => Traced.acos
  | atan => Traced.atan
  | acot => Traced.acot
  | sinh => Traced.sinh
  | cosh => Traced.cosh
  | tanh => Traced.tanh
  | coth => Traced.coth
  | asinh => Traced.asinh
  | acosh => Traced.acosh
  | atanh => Traced.atanh
  | acoth => Traced.acoth
  | factorial => Traced.factorial
  | gamma => Traced.gamma
  | radians => Traced.radians
  | degrees => Traced.degrees
  | exponent => fun _ x => pure (ofInt x.exponent)
  | mantissa => fun _ x => Traced.movePoint x (-x.exponent)

def Binary.apply : Binary → Context → Decimal → Decimal → Arithmetic Decimal
  | log => Context.log
  | pow => Context.pow
  | root => Context.root

def Binary.traced : Binary → Context → Decimal → Decimal → Traced Decimal
  | log => Traced.log
  | pow => Traced.pow
  | root => Traced.root

theorem Unary.result_traced (function : Unary) (ctx : Context) (x : Decimal) :
    (function.traced ctx x).result = function.apply ctx x := by
  cases function with
  | log10 => exact Traced.result_log 10 x
  | log2 => exact Traced.result_log 2 x
  | exponent => rfl
  | mantissa => rfl
  | _ => simp [traced, apply]

theorem Binary.result_traced (function : Binary) (ctx : Context) (x y : Decimal) :
    (function.traced ctx x y).result = function.apply ctx x y := by
  cases function with
  | log => exact Traced.result_log x y
  | pow => exact Traced.result_pow x y
  | root => exact Traced.result_root x y

open Traced

theorem Unary.agree_traced (function : Unary) (ctx : Context) {x x' : Decimal} (h : Same x x')
    (hx : x.ZeroWithin) (hx' : x'.ZeroWithin) :
    Agree Same (function.traced ctx x) (function.traced ctx x') := by
  cases function with
  | sqrt => exact agree_sqrt h
  | exp => exact agree_exp h
  | ln => exact agree_ln h
  | log10 => exact agree_log (.refl 10) h
  | log2 => exact agree_log (.refl 2) h
  | sin => exact agree_sin h
  | cos => exact agree_cos h
  | tan => exact agree_tan h
  | cot => exact agree_cot h
  | asin => exact agree_asin h
  | acos => exact agree_acos h
  | atan => exact agree_atan h
  | acot => exact agree_acot h
  | sinh => exact agree_sinh h
  | cosh => exact agree_cosh h
  | tanh => exact agree_tanh h
  | coth => exact agree_coth h
  | asinh => exact agree_asinh h
  | acosh => exact agree_acosh h
  | atanh => exact agree_atanh h
  | acoth => exact agree_acoth h
  | factorial => exact agree_factorial h (toWord?_congr h hx hx')
  | gamma => exact agree_gamma h
  | radians => exact agree_radians h
  | degrees => exact agree_degrees h
  | exponent => exact agree_pure (congrArg toRat (congrArg ofInt h.exponent))
  | mantissa =>
    change Agree Same (movePoint x (-x.exponent)) (movePoint x' (-x'.exponent))
    rw [h.exponent]
    exact agree_of_values rfl rfl (same_movePoint h)

theorem Binary.agree_traced (function : Binary) (ctx : Context) {x x' y y' : Decimal}
    (h : Same x x') (h' : Same y y') :
    Agree Same (function.traced ctx x y) (function.traced ctx x' y') := by
  cases function with
  | log => exact agree_log h h'
  | pow => exact agree_pow h h'
  | root => exact agree_root h h'

end SpecialFunction

namespace SpecialCall

def run (ctx : Context) : SpecialCall → Arithmetic Decimal
  | unary function x => function.apply ctx x
  | binary function x y => function.apply ctx x y
  | rootOfDegree degree x => ctx.rootOfDegree x degree

/-- The run with the scales that it asks for. -/
def traced (ctx : Context) : SpecialCall → Traced Decimal
  | unary function x => function.traced ctx x
  | binary function x y => function.traced ctx x y
  | rootOfDegree degree x => Traced.rootOfDegree ctx x degree

/-- Nothing that is noted on the way changes the run. -/
theorem result_traced (ctx : Context) (call : SpecialCall) :
    (call.traced ctx).result = call.run ctx := by
  cases call with
  | unary function x => exact function.result_traced ctx x
  | binary function x y => exact function.result_traced ctx x y
  | rootOfDegree degree x => exact Traced.result_rootOfDegree x degree

def arguments : SpecialCall → List Decimal
  | unary _ x => [x]
  | binary _ x y => [x, y]
  | rootOfDegree _ x => [x]

/-- One function of representations of the same values. -/
inductive Alike : SpecialCall → SpecialCall → Prop where
  | unary {function : SpecialFunction.Unary} {x x' : Decimal} (h : x.toRat = x'.toRat) :
    Alike (unary function x) (unary function x')
  | binary {function : SpecialFunction.Binary} {x x' y y' : Decimal} (h : x.toRat = x'.toRat)
    (h' : y.toRat = y'.toRat) : Alike (binary function x y) (binary function x' y')
  | rootOfDegree {degree : Nat} {x x' : Decimal} (h : x.toRat = x'.toRat) :
    Alike (rootOfDegree degree x) (rootOfDegree degree x')

variable {call call' : SpecialCall}

theorem Alike.agree (h : Alike call call') (ctx : Context)
    (hzero : ∀ x ∈ call.arguments ++ call'.arguments, x.ZeroWithin) :
    Traced.Agree Traced.Same (call.traced ctx) (call'.traced ctx) := by
  cases h with
  | @unary function x x' h =>
    exact function.agree_traced ctx h (hzero x (by simp [arguments]))
      (hzero x' (by simp [arguments]))
  | @binary function x x' y y' h h' => exact function.agree_traced ctx h h'
  | @rootOfDegree degree x x' h => exact Traced.agree_rootOfDegree degree h

end SpecialCall

end Reckoner
