import Reckoner.Context.Power
import Reckoner.Proofs.Decimal.Whole
import Reckoner.Proofs.Scales.Exponentials

/-!
# Powers and roots of one value

Whether an exponent or a degree is a word depends on its value, and so does the way that is taken.
-/

namespace Reckoner

open Decimal

namespace Traced

variable {ctx : Context} {x x' y y' : Decimal}

/-! ## Powers -/

/-- The factor of a binary digit that is set. -/
def multiplyOdd (ctx : Context) (result square : Decimal) (n : Nat) : Traced Decimal :=
  if n % 2 = 1 then mul ctx result square else pure result

def squareUp (ctx : Context) (result square : Decimal) (n : Nat) : Traced Decimal :=
  if n = 0 then pure result
  else do
    let result ← multiplyOdd ctx result square n
    if n / 2 = 0 then return result
    let square ← mul ctx square square
    squareUp ctx result square (n / 2)
termination_by n
decreasing_by omega

def wholePow (ctx : Context) (base : Decimal) (n : Int) : Traced Decimal :=
  if n = 0 then pure 1
  else if base.isZero then if 0 < n then pure 0 else lift (.error .divisionByZero)
  else if Context.powerReach < (base.exponent.natAbs + 1) * n.natAbs then
    lift (.error .exponentTooLarge)
  else do
    let wide := ctx.guarded.wider (Integer.digitCount n.natAbs)
    let result ← squareUp wide 1 base n.natAbs
    if n < 0 then div ctx 1 result else round ctx result

def fractionalPow (ctx : Context) (base exponent : Decimal) : Traced Decimal :=
  if base.isZero then
    if exponent.isPositive then pure 0 else lift (.error .divisionByZero)
  else if base.isNegative then
    lift (.error (.undefined "pow" "negative base with a fractional exponent"))
  else do
    let wide := ctx.guarded.wider exponent.exponent.toNat
    let lnBase ← ln wide base
    let product ← mul wide exponent lnBase
    let result ← exp wide product
    round ctx result

def pow (ctx : Context) (base exponent : Decimal) : Traced Decimal :=
  if exponent.isZero then pure 1
  else
    match exponent.toWord? with
    | some n => wholePow ctx base n
    | none => fractionalPow ctx base exponent

/-! ## Roots -/

def logarithmicRoot (ctx : Context) (x degree : Decimal) : Traced Decimal := do
  let wide := ctx.guarded
  let lnX ← ln wide x
  let quotient ← div wide lnX degree
  let result ← exp wide quotient
  round ctx result

def rootOfPositive (ctx : Context) (x : Decimal) (degree : Nat) : Traced Decimal :=
  if degree = 1 then round ctx x
  else if Context.wholeRootLimit < degree then logarithmicRoot ctx x (ofNat degree)
  else wholeRoot ctx x degree

def rootOfDegree (ctx : Context) (x : Decimal) (degree : Nat) : Traced Decimal :=
  if degree = 0 then lift (.error (.undefined "root" "degree must not be zero"))
  else if x.isZero then pure 0
  else if x.isNegative then
    if degree % 2 = 0 then lift (.error (.undefined "root" "even root of a negative number"))
    else do
      let root ← rootOfPositive ctx (-x) degree
      return -root
  else rootOfPositive ctx x degree

def fractionalRoot (ctx : Context) (x degree : Decimal) : Traced Decimal :=
  if degree.isZero then lift (.error (.undefined "root" "degree must not be zero"))
  else if x.isZero then pure 0
  else if x.isNegative then
    lift (.error (.undefined "root" "fractional root of a negative number"))
  else logarithmicRoot ctx x degree

def root (ctx : Context) (x degree : Decimal) : Traced Decimal :=
  match Context.wholeDegree? degree with
  | some n => rootOfDegree ctx x n
  | none => fractionalRoot ctx x degree

/-! ## Results -/

@[simp] theorem result_multiplyOdd (result square : Decimal) (n : Nat) :
    (multiplyOdd ctx result square n).result =
      .ok (if n % 2 = 1 then ctx.mul result square else result) := by
  unfold multiplyOdd
  split
  · exact result_mul
  · rfl

@[simp] theorem result_squareUp (result square : Decimal) (n : Nat) :
    (squareUp ctx result square n).result = .ok (ctx.squareUp result square n) := by
  fun_induction Context.squareUp ctx result square n with
  | case1 result square =>
    rw [squareUp, if_pos rfl]
    rfl
  | case2 result square n hn result' hhalf =>
    rw [squareUp, if_neg hn, result_bind, result_multiplyOdd, ok_bind, if_pos hhalf]
    rfl
  | case3 result square n hn result' hhalf ih =>
    rw [squareUp, if_neg hn, result_bind, result_multiplyOdd, ok_bind, if_neg hhalf, result_bind,
      result_mul, ok_bind]
    exact ih

@[simp] theorem result_wholePow (base : Decimal) (n : Int) :
    (wholePow ctx base n).result = ctx.wholePow base n := by
  simp only [wholePow, Context.wholePow, result_ite, result_pure, result_lift, result_bind,
    result_squareUp, result_div, result_round, ok_bind]

@[simp] theorem result_pow (base exponent : Decimal) :
    (pow ctx base exponent).result = ctx.pow base exponent := by
  unfold pow Context.pow
  split
  · rfl
  cases exponent.toWord? with
  | some n => exact result_wholePow base n
  | none =>
    simp only [fractionalPow, result_ite, result_pure, result_lift, result_bind, result_ln,
      result_mul, result_exp, result_round, ok_bind]
    rfl

@[simp] theorem result_logarithmicRoot (x degree : Decimal) :
    (logarithmicRoot ctx x degree).result = ctx.logarithmicRoot x degree := by
  simp only [logarithmicRoot, Context.logarithmicRoot, result_bind, result_ln, result_div,
    result_exp, result_round]
  rfl

@[simp] theorem result_rootOfPositive (x : Decimal) (degree : Nat) :
    (rootOfPositive ctx x degree).result = ctx.rootOfPositive x degree := by
  simp only [rootOfPositive, Context.rootOfPositive, result_ite, result_round,
    result_logarithmicRoot, result_wholeRoot]

@[simp] theorem result_rootOfDegree (x : Decimal) (degree : Nat) :
    (rootOfDegree ctx x degree).result = ctx.rootOfDegree x degree := by
  simp only [rootOfDegree, Context.rootOfDegree, result_ite, result_lift, result_pure, result_bind,
    result_rootOfPositive]
  rfl

@[simp] theorem result_root (x degree : Decimal) :
    (root ctx x degree).result = ctx.root x degree := by
  unfold root Context.root
  cases Context.wholeDegree? degree with
  | some n => exact result_rootOfDegree x n
  | none =>
    simp only [fractionalRoot, result_ite, result_lift, result_pure, result_logarithmicRoot]

/-! ## Agreement -/

theorem agree_squareUp (n : Nat) (h : Same x x') (h' : Same y y') :
    Agree Same (squareUp ctx x y n) (squareUp ctx x' y' n) := by
  induction n using Nat.strongRecOn generalizing x x' y y' with
  | ind n ih =>
    unfold squareUp
    refine .ite Iff.rfl (fun _ _ => agree_pure h) fun hn _ => ?_
    have hodd : Agree Same (multiplyOdd ctx x y n) (multiplyOdd ctx x' y' n) :=
      .ite Iff.rfl (fun _ _ => agree_mul h h') fun _ _ => agree_pure h
    refine hodd.bind fun _ _ hresult => ?_
    refine .ite Iff.rfl (fun _ _ => agree_pure hresult) fun _ _ => ?_
    exact (agree_mul h' h').bind fun _ _ hsquare => ih (n / 2) (by omega) hresult hsquare

theorem agree_wholePow (n : Int) (h : Same x x') :
    Agree Same (wholePow ctx x n) (wholePow ctx x' n) := by
  unfold wholePow
  rw [h.isZero, h.exponent]
  refine .ite Iff.rfl (fun _ _ => agree_pure rfl) fun _ _ => ?_
  refine .ite Iff.rfl (fun _ _ => ?_) fun _ _ => ?_
  · exact .ite Iff.rfl (fun _ _ => agree_pure rfl) fun _ _ => agree_same _
  refine .ite Iff.rfl (fun _ _ => agree_same _) fun _ _ => ?_
  refine (agree_squareUp n.natAbs (.refl 1) h).bind fun _ _ hresult => ?_
  exact .ite Iff.rfl (fun _ _ => agree_div (.refl 1) hresult) fun _ _ => agree_round hresult

theorem agree_fractionalPow (h : Same x x') (h' : Same y y') :
    Agree Same (fractionalPow ctx x y) (fractionalPow ctx x' y') := by
  unfold fractionalPow
  rw [h.isZero, h.isNegative, h'.isPositive, h'.exponent]
  refine .ite Iff.rfl (fun _ _ => ?_) fun _ _ => ?_
  · exact .ite Iff.rfl (fun _ _ => agree_pure rfl) fun _ _ => agree_same _
  refine .ite Iff.rfl (fun _ _ => agree_same _) fun _ _ => ?_
  refine (agree_ln h).bind fun _ _ hlnBase => ?_
  refine (agree_mul h' hlnBase).bind fun _ _ hproduct => ?_
  exact (agree_exp hproduct).bind fun _ _ hresult => agree_round hresult

theorem agree_pow (h : Same x x') (h' : Same y y') :
    Agree Same (pow ctx x y) (pow ctx x' y') := by
  unfold pow
  rw [h'.isZero]
  refine .ite Iff.rfl (fun _ _ => agree_pure rfl) fun hzero _ => ?_
  rw [isZero_iff] at hzero
  have hword : y.toWord? = y'.toWord? :=
    toWord?_congr h' (zeroWithin_of_ne (h'.toRat_eq.trans_ne hzero)) (zeroWithin_of_ne hzero)
  rw [hword]
  cases y'.toWord? with
  | some n => exact agree_wholePow n h
  | none => exact agree_fractionalPow h h'

theorem agree_logarithmicRoot (h : Same x x') (h' : Same y y') :
    Agree Same (logarithmicRoot ctx x y) (logarithmicRoot ctx x' y') :=
  (agree_ln h).bind fun _ _ hln => (agree_div hln h').bind fun _ _ hquotient =>
    (agree_exp hquotient).bind fun _ _ hresult => agree_round hresult

theorem agree_rootOfPositive {degree : Nat} (hdegree : 0 < degree) (h : Same x x')
    (hx : 0 < x.toRat) :
    Agree Same (rootOfPositive ctx x degree) (rootOfPositive ctx x' degree) := by
  refine .ite Iff.rfl (fun _ _ => agree_round h) fun _ _ => ?_
  exact .ite Iff.rfl (fun _ _ => agree_logarithmicRoot h (.refl _)) fun _ _ =>
    agree_wholeRoot h hdegree hx

theorem agree_rootOfDegree (degree : Nat) (h : Same x x') :
    Agree Same (rootOfDegree ctx x degree) (rootOfDegree ctx x' degree) := by
  unfold rootOfDegree
  rw [h.isZero, h.isNegative]
  refine .ite Iff.rfl (fun _ _ => agree_same _) fun hdegree _ => ?_
  refine .ite Iff.rfl (fun _ _ => agree_pure rfl) fun hzero _ => ?_
  rw [isZero_iff] at hzero
  refine .ite Iff.rfl (fun hneg _ => ?_) fun hneg _ => ?_
  · refine .ite Iff.rfl (fun _ _ => agree_same _) fun _ _ => agree_negated ?_
    refine agree_rootOfPositive (Nat.pos_of_ne_zero hdegree) h.neg ?_
    rw [toRat_neg, h.toRat_eq, Left.neg_pos_iff]
    exact isNegative_iff.1 hneg
  · refine agree_rootOfPositive (Nat.pos_of_ne_zero hdegree) h ?_
    rw [h.toRat_eq]
    exact lt_of_le_of_ne (not_lt.1 (mt isNegative_iff.2 hneg)) (Ne.symm hzero)

/-- A degree of zero is refused in one way, whether it is read as a word or not. -/
theorem root_of_zero {degree : Decimal} (h : degree.toRat = 0) :
    root ctx x degree = lift (.error (.undefined "root" "degree must not be zero")) := by
  unfold root
  split
  · next n hn =>
    obtain ⟨m, hm, hn⟩ := Option.bind_eq_some_iff.1 hn
    have hzero : m = 0 := by exact_mod_cast (toRat_of_toWord? hm).symm.trans h
    subst hzero
    obtain rfl : n = 0 := by simpa using hn.symm
    rfl
  · exact if_pos (isZero_iff.2 h)

theorem agree_root (h : Same x x') (h' : Same y y') :
    Agree Same (root ctx x y) (root ctx x' y') := by
  by_cases hzero : y.toRat = 0
  · rw [root_of_zero hzero, root_of_zero (h'.toRat_eq ▸ hzero)]
    exact agree_same _
  have hword : y.toWord? = y'.toWord? :=
    toWord?_congr h' (zeroWithin_of_ne hzero) (zeroWithin_of_ne (h'.toRat_eq.symm.trans_ne hzero))
  unfold root Context.wholeDegree?
  rw [hword]
  cases y'.toWord?.bind _ with
  | some n => exact agree_rootOfDegree n h
  | none =>
    unfold fractionalRoot
    rw [h.isZero, h.isNegative, h'.isZero]
    refine .ite Iff.rfl (fun _ _ => agree_same _) fun _ _ => ?_
    refine .ite Iff.rfl (fun _ _ => agree_pure rfl) fun _ _ => ?_
    exact .ite Iff.rfl (fun _ _ => agree_same _) fun _ _ => agree_logarithmicRoot h h'

end Traced

end Reckoner
