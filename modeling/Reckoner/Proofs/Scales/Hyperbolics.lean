import Reckoner.Context.Hyperbolic
import Reckoner.Proofs.Scales.Exponentials

/-!
# Hyperbolic functions of one value
-/

namespace Reckoner

open Decimal

namespace Traced

variable {ctx : Context} {x x' : Decimal}

def sinh (ctx : Context) (x : Decimal) : Traced Decimal :=
  if x.isZero then pure 0
  else do
    let wide := ctx.forCancellation x
    let grow ← exp wide x
    let shrink ← div wide 1 grow
    let difference ← sub wide grow shrink
    let result ← mul wide difference half
    round ctx result

def cosh (ctx : Context) (x : Decimal) : Traced Decimal := do
  let wide := ctx.guarded
  let grow ← exp wide x
  let shrink ← div wide 1 grow
  let sum ← add wide grow shrink
  let result ← mul wide sum half
  round ctx result

def tanh (ctx : Context) (x : Decimal) : Traced Decimal :=
  if x.isZero then pure 0
  else do
    let wide := ctx.forCancellation x
    let double ← mul wide x 2
    let grow ← exp wide double
    let difference ← sub wide grow 1
    let sum ← add wide grow 1
    div ctx difference sum

def coth (ctx : Context) (x : Decimal) : Traced Decimal :=
  if x.isZero then lift (.error .divisionByZero)
  else do
    let tangent ← tanh ctx.guarded x
    div ctx 1 tangent

def asinhOfPositive (ctx : Context) (x : Decimal) : Traced Decimal := do
  let wide := ctx.forCancellation x
  let square ← mul wide x x
  let radicand ← add wide square 1
  let root ← sqrt wide radicand
  let sum ← add wide x root
  let result ← ln wide sum
  round ctx result

def asinh (ctx : Context) (x : Decimal) : Traced Decimal :=
  if x.isZero then pure 0
  else if x.isNegative then do
    let result ← asinhOfPositive ctx (-x)
    return -result
  else asinhOfPositive ctx x

def acosh (ctx : Context) (x : Decimal) : Traced Decimal :=
  if x < 1 then lift (.error (.undefined "acosh" "argument must be at least 1"))
  else do
    let wide := ctx.guarded
    let square ← mul wide x x
    let radicand ← sub wide square 1
    let root ← sqrt wide radicand
    let sum ← add wide x root
    let result ← ln wide sum
    round ctx result

/-- Half the logarithm of a quotient. -/
def halfLn (ctx wide : Context) (dividend divisor : Decimal) : Traced Decimal := do
  let ratio ← div wide dividend divisor
  let result ← ln wide ratio
  let result ← mul wide result half
  round ctx result

def atanh (ctx : Context) (x : Decimal) : Traced Decimal :=
  if 1 ≤ x.abs then
    lift (.error (.undefined "atanh" "argument must lie strictly between -1 and 1"))
  else if x.isZero then pure 0
  else do
    let wide := ctx.forCancellation x
    let sum ← add wide 1 x
    let difference ← sub wide 1 x
    halfLn ctx wide sum difference

def acoth (ctx : Context) (x : Decimal) : Traced Decimal :=
  if x.abs ≤ 1 then lift (.error (.undefined "acoth" "argument must lie outside [-1, 1]"))
  else do
    let wide := ctx.guarded
    let sum ← add wide x 1
    let difference ← sub wide x 1
    halfLn ctx wide sum difference

/-! ## Results -/

@[simp] theorem result_sinh : (sinh ctx x).result = ctx.sinh x := by
  simp only [sinh, Context.sinh, result_ite, result_pure, result_bind, result_exp, result_div,
    result_sub, result_mul, result_round, ok_bind]
  rfl

@[simp] theorem result_cosh : (cosh ctx x).result = ctx.cosh x := by
  simp only [cosh, Context.cosh, result_bind, result_exp, result_div, result_add, result_mul,
    result_round, ok_bind]
  rfl

@[simp] theorem result_tanh : (tanh ctx x).result = ctx.tanh x := by
  simp only [tanh, Context.tanh, result_ite, result_pure, result_bind, result_exp, result_div,
    result_sub, result_add, result_mul, ok_bind]

@[simp] theorem result_coth : (coth ctx x).result = ctx.coth x := by
  simp only [coth, Context.coth, result_ite, result_lift, result_bind, result_tanh, result_div]

@[simp] theorem result_asinh : (asinh ctx x).result = ctx.asinh x := by
  simp only [asinh, asinhOfPositive, Context.asinh, Context.asinhOfPositive, result_ite,
    result_pure, result_bind, result_mul, result_add, result_sqrt, result_ln, result_round, ok_bind]
  rfl

@[simp] theorem result_acosh : (acosh ctx x).result = ctx.acosh x := by
  simp only [acosh, Context.acosh, result_ite, result_lift, result_bind, result_mul, result_sub,
    result_sqrt, result_add, result_ln, result_round, ok_bind]
  rfl

@[simp] theorem result_atanh : (atanh ctx x).result = ctx.atanh x := by
  simp only [atanh, halfLn, Context.atanh, result_ite, result_lift, result_pure, result_bind,
    result_add, result_sub, result_div, result_ln, result_mul, result_round, ok_bind]
  rfl

@[simp] theorem result_acoth : (acoth ctx x).result = ctx.acoth x := by
  simp only [acoth, halfLn, Context.acoth, result_ite, result_lift, result_bind, result_add,
    result_sub, result_div, result_ln, result_mul, result_round, ok_bind]
  rfl

/-! ## Agreement -/

theorem Same.forCancellation (h : Same x x') : ctx.forCancellation x = ctx.forCancellation x' := by
  unfold Context.forCancellation
  rw [h.exponent]

theorem agree_sinh (h : Same x x') : Agree Same (sinh ctx x) (sinh ctx x') := by
  unfold sinh
  rw [h.isZero, h.forCancellation]
  refine .ite Iff.rfl (fun _ _ => agree_pure rfl) fun _ _ => ?_
  refine (agree_exp h).bind fun _ _ hgrow => ?_
  refine (agree_div (.refl 1) hgrow).bind fun _ _ hshrink => ?_
  refine (agree_sub hgrow hshrink).bind fun _ _ hdifference => ?_
  exact (agree_mul hdifference (.refl half)).bind fun _ _ hresult => agree_round hresult

theorem agree_cosh (h : Same x x') : Agree Same (cosh ctx x) (cosh ctx x') := by
  refine (agree_exp h).bind fun _ _ hgrow => ?_
  refine (agree_div (.refl 1) hgrow).bind fun _ _ hshrink => ?_
  refine (agree_add hgrow hshrink).bind fun _ _ hsum => ?_
  exact (agree_mul hsum (.refl half)).bind fun _ _ hresult => agree_round hresult

theorem agree_tanh (h : Same x x') : Agree Same (tanh ctx x) (tanh ctx x') := by
  unfold tanh
  rw [h.isZero, h.forCancellation]
  refine .ite Iff.rfl (fun _ _ => agree_pure rfl) fun _ _ => ?_
  refine (agree_mul h (.refl 2)).bind fun _ _ hdouble => ?_
  refine (agree_exp hdouble).bind fun _ _ hgrow => ?_
  refine (agree_sub hgrow (.refl 1)).bind fun _ _ hdifference => ?_
  exact (agree_add hgrow (.refl 1)).bind fun _ _ hsum => agree_div hdifference hsum

theorem agree_coth (h : Same x x') : Agree Same (coth ctx x) (coth ctx x') := by
  unfold coth
  rw [h.isZero]
  refine .ite Iff.rfl (fun _ _ => agree_same _) fun _ _ => ?_
  exact (agree_tanh h).bind fun _ _ htangent => agree_div (.refl 1) htangent

theorem agree_asinhOfPositive (h : Same x x') :
    Agree Same (asinhOfPositive ctx x) (asinhOfPositive ctx x') := by
  unfold asinhOfPositive
  rw [h.forCancellation]
  refine (agree_mul h h).bind fun _ _ hsquare => ?_
  refine (agree_add hsquare (.refl 1)).bind fun _ _ hradicand => ?_
  refine (agree_sqrt hradicand).bind fun _ _ hroot => ?_
  refine (agree_add h hroot).bind fun _ _ hsum => ?_
  exact (agree_ln hsum).bind fun _ _ hresult => agree_round hresult

theorem agree_asinh (h : Same x x') : Agree Same (asinh ctx x) (asinh ctx x') := by
  unfold asinh
  rw [h.isZero, h.isNegative]
  refine .ite Iff.rfl (fun _ _ => agree_pure rfl) fun _ _ => ?_
  exact .ite Iff.rfl (fun _ _ => agree_negated (agree_asinhOfPositive h.neg)) fun _ _ =>
    agree_asinhOfPositive h

theorem agree_acosh (h : Same x x') : Agree Same (acosh ctx x) (acosh ctx x') := by
  refine .ite (h.lt (.refl 1)) (fun _ _ => agree_same _) fun _ _ => ?_
  refine (agree_mul h h).bind fun _ _ hsquare => ?_
  refine (agree_sub hsquare (.refl 1)).bind fun _ _ hradicand => ?_
  refine (agree_sqrt hradicand).bind fun _ _ hroot => ?_
  refine (agree_add h hroot).bind fun _ _ hsum => ?_
  exact (agree_ln hsum).bind fun _ _ hresult => agree_round hresult

theorem agree_halfLn {wide : Context} {y y' : Decimal} (h : Same x x') (h' : Same y y') :
    Agree Same (halfLn ctx wide x y) (halfLn ctx wide x' y') :=
  (agree_div h h').bind fun _ _ hratio => (agree_ln hratio).bind fun _ _ hresult =>
    (agree_mul hresult (.refl half)).bind fun _ _ hresult => agree_round hresult

theorem agree_atanh (h : Same x x') : Agree Same (atanh ctx x) (atanh ctx x') := by
  unfold atanh
  rw [h.isZero, h.forCancellation]
  refine .ite ((Same.refl 1).le h.abs) (fun _ _ => agree_same _) fun _ _ => ?_
  refine .ite Iff.rfl (fun _ _ => agree_pure rfl) fun _ _ => ?_
  exact (agree_add (.refl 1) h).bind fun _ _ hsum => (agree_sub (.refl 1) h).bind
    fun _ _ hdifference => agree_halfLn hsum hdifference

theorem agree_acoth (h : Same x x') : Agree Same (acoth ctx x) (acoth ctx x') := by
  refine .ite (h.abs.le (.refl 1)) (fun _ _ => agree_same _) fun _ _ => ?_
  exact (agree_add h (.refl 1)).bind fun _ _ hsum => (agree_sub h (.refl 1)).bind
    fun _ _ hdifference => agree_halfLn hsum hdifference

end Traced

end Reckoner
