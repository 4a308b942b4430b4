import Reckoner.Context.Hyperbolic
import Reckoner.Context.InverseAngle
import Reckoner.Proofs.Rounding.Signs

/-!
# Domains of the inverse functions

An inverse function takes differences, quotients, roots and logarithms of rounded numbers. No
rounding moves one of them over the boundary of what the next step is defined on, since each rounded
step keeps the sign of the exact one, so a function fails only where its own test refuses the
argument.
-/

namespace Reckoner

/-- The computation has a result, and the result has the property. -/
def Succeeds {α : Type} (t : Arithmetic α) (P : α → Prop) : Prop := ∃ a, t = .ok a ∧ P a

/-- The computation has a result. -/
def IsDefined {α : Type} (t : Arithmetic α) : Prop := Succeeds t fun _ => True

variable {α β : Type} {t : Arithmetic α} {k : α → Arithmetic β} {P : α → Prop} {Q : β → Prop}

theorem succeeds_ok {a : α} (h : P a) : Succeeds (.ok a) P := ⟨a, rfl, h⟩

theorem isDefined_ok (a : α) : IsDefined (.ok a) := succeeds_ok trivial

theorem Succeeds.imp {P' : α → Prop} (h : Succeeds t P) (himp : ∀ a, P a → P' a) :
    Succeeds t P' := by
  obtain ⟨a, ht, ha⟩ := h
  exact ⟨a, ht, himp a ha⟩

theorem Succeeds.bind (h : Succeeds t P) (hk : ∀ a, P a → Succeeds (k a) Q) :
    Succeeds (t >>= k) Q := by
  obtain ⟨a, rfl, ha⟩ := h
  exact hk a ha

theorem Succeeds.isDefined (h : Succeeds t P) : IsDefined t := by
  obtain ⟨a, rfl, -⟩ := h
  exact isDefined_ok a

theorem IsDefined.bind (h : IsDefined t) (hk : ∀ a, Succeeds (k a) Q) : Succeeds (t >>= k) Q :=
  Succeeds.bind h fun a _ => hk a

namespace Context

open Decimal

variable {ctx : Context} {x y z : Decimal}

/-! ## Sums and quotients -/

theorem toRat_add_pos (h : 0 < x.toRat + y.toRat) : 0 < (ctx.add x y).toRat := by
  rwa [← sign_pos_iff, sign_add, sign_pos_iff, Decimal.toRat_add]

theorem toRat_add_nonneg (h : 0 ≤ x.toRat + y.toRat) : 0 ≤ (ctx.add x y).toRat := by
  rwa [← sign_nonneg_iff, sign_add, sign_nonneg_iff, Decimal.toRat_add]

theorem toRat_sub_pos (h : y.toRat < x.toRat) : 0 < (ctx.sub x y).toRat :=
  toRat_add_pos (by rw [toRat_neg]; linarith)

theorem toRat_sub_nonneg (h : y.toRat ≤ x.toRat) : 0 ≤ (ctx.sub x y).toRat :=
  toRat_add_nonneg (by rw [toRat_neg]; linarith)

theorem toRat_sub_nonpos (h : x.toRat ≤ y.toRat) : (ctx.sub x y).toRat ≤ 0 := by
  rw [← not_lt, ← sign_pos_iff, sub, sign_add, sign_pos_iff, Decimal.toRat_add, toRat_neg]
  linarith

theorem toRat_sub_neg (h : x.toRat < y.toRat) : (ctx.sub x y).toRat < 0 := by
  rw [← sign_neg_iff, sub, sign_add, sign_neg_iff, Decimal.toRat_add, toRat_neg]
  linarith

theorem toRat_add_neg (h : x.toRat + y.toRat < 0) : (ctx.add x y).toRat < 0 := by
  rwa [← sign_neg_iff, sign_add, sign_neg_iff, Decimal.toRat_add]

theorem toRat_mul_pos (hx : 0 < x.toRat) (hy : 0 < y.toRat) : 0 < (ctx.mul x y).toRat := by
  rw [← sign_pos_iff, sign_mul, sign_of_pos hx, sign_of_pos hy]
  exact one_pos

theorem square_nonneg (ctx : Context) (x : Decimal) : 0 ≤ (ctx.mul x x).toRat := by
  rw [← sign_nonneg_iff, sign_mul]
  exact mul_self_nonneg x.sign

theorem div_isDefined (hy : y.toRat ≠ 0) : IsDefined (ctx.div x y) := by
  obtain ⟨z, hz, -⟩ := div_sign ctx x fun h => hy (sign_eq_zero_iff.1 h)
  exact ⟨z, hz, trivial⟩

theorem div_ofNat_isDefined {n : Nat} (hn : 0 < n) : IsDefined (ctx.div x (ofNat n)) :=
  div_isDefined (by rw [toRat_ofNat]; positivity)

/-- A quotient of two numbers on the same side of zero is positive. -/
theorem toRat_div_pos (h : 0 < x.toRat ∧ 0 < y.toRat ∨ x.toRat < 0 ∧ y.toRat < 0) :
    Succeeds (ctx.div x y) fun z => 0 < z.toRat := by
  have hsign : y.sign ≠ 0 ∧ x.sign * y.sign = 1 := by
    obtain ⟨hx, hy⟩ | ⟨hx, hy⟩ := h
    · rw [sign_of_pos hx, sign_of_pos hy]
      decide
    · rw [sign_of_neg hx, sign_of_neg hy]
      decide
  obtain ⟨z, hz, hzsign⟩ := div_sign ctx x hsign.1
  refine ⟨z, hz, sign_pos_iff.1 ?_⟩
  rw [hzsign, hsign.2]
  exact one_pos

/-! ## Roots -/

theorem sqrt_succeeds (hx : 0 ≤ x.toRat) : Succeeds (ctx.sqrt x) fun r => 0 ≤ r.toRat := by
  unfold sqrt
  rw [if_neg (by rwa [isNegative_iff, not_lt])]
  split
  · exact succeeds_ok toRat_zero.ge
  · exact succeeds_ok (sign_nonneg_iff.1 wholeRoot_nonneg)

/-! ## Series -/

theorem sumFrom_isDefined {series : Series} (hnext : ∀ k x, 0 < k → IsDefined (series.next k x))
    (hterm : ∀ k x, IsDefined (series.term k x)) (limit : Nat) {k : Nat} (hk : 0 < k)
    (factor sum : Decimal) : IsDefined (ctx.sumFrom series limit k factor sum) := by
  induction limit generalizing k factor sum with
  | zero => exact isDefined_ok sum
  | succ limit ih =>
    unfold sumFrom
    refine IsDefined.bind (hnext k factor hk) fun factor => ?_
    refine IsDefined.bind (hterm k factor) fun term => ?_
    split
    · exact isDefined_ok sum
    · exact ih k.succ_pos factor _

theorem sumSeries_isDefined {series : Series} (hnext : ∀ k x, 0 < k → IsDefined (series.next k x))
    (hterm : ∀ k x, IsDefined (series.term k x)) (first : Decimal) :
    IsDefined (ctx.sumSeries series first) :=
  sumFrom_isDefined hnext hterm _ one_pos first first

theorem atanOfReciprocal_isDefined {n : Nat} (hn : 0 < n) :
    IsDefined (ctx.atanOfReciprocal n) := by
  unfold atanOfReciprocal
  refine IsDefined.bind (div_ofNat_isDefined hn) fun first => ?_
  refine sumSeries_isDefined (fun _ _ _ => div_ofNat_isDefined (Nat.mul_pos hn hn)) (fun k x => ?_)
    first
  exact IsDefined.bind (div_ofNat_isDefined (by positivity)) fun _ => isDefined_ok _

theorem pi_isDefined (ctx : Context) : IsDefined ctx.pi := by
  unfold pi
  refine IsDefined.bind (atanOfReciprocal_isDefined (by decide)) fun fifth => ?_
  refine IsDefined.bind (atanOfReciprocal_isDefined (by decide)) fun small => ?_
  exact isDefined_ok _

theorem quarterTurn_isDefined (ctx : Context) : IsDefined ctx.quarterTurn :=
  (pi_isDefined ctx).bind fun _ => div_ofNat_isDefined (by decide)

/-! ## Logarithms -/

theorem approachOne_succeeds (limit : Nat) (hx : 0 ≤ x.toRat) :
    Succeeds (ctx.approachOne limit x) fun reduced => 0 ≤ reduced.1.toRat := by
  induction limit generalizing x with
  | zero => exact succeeds_ok hx
  | succ limit ih =>
    unfold approachOne
    split
    · refine (sqrt_succeeds hx).bind fun root hroot => ?_
      exact (ih hroot).bind fun reduced hreduced => succeeds_ok hreduced
    · exact succeeds_ok hx

theorem lnUpToTen_isDefined (hx : 0 ≤ x.toRat) : IsDefined (ctx.lnUpToTen x) := by
  unfold lnUpToTen
  refine (approachOne_succeeds _ hx).bind fun reduced hreduced => ?_
  have hpos : 0 < ((ctx.wider 4).add reduced.1 1).toRat := toRat_add_pos (by rw [toRat_one]; linarith)
  refine (div_isDefined hpos.ne').bind fun z => ?_
  split
  · exact isDefined_ok _
  · refine IsDefined.bind ?_ fun sum => isDefined_ok _
    exact sumSeries_isDefined (fun _ _ _ => isDefined_ok _)
      (fun _ _ => div_ofNat_isDefined (Nat.succ_pos _)) z

theorem ln_isDefined (hx : 0 < x.toRat) : IsDefined (ctx.ln x) := by
  unfold ln
  rw [if_neg (by simpa [isPositive_iff] using hx)]
  split
  · exact isDefined_ok _
  have hsign : (x.movePoint (-x.exponent)).sign = x.sign := rfl
  have hmoved : 0 ≤ (x.movePoint (-x.exponent)).toRat := by
    rw [← sign_nonneg_iff, hsign, sign_nonneg_iff]
    exact hx.le
  refine (lnUpToTen_isDefined hmoved).bind fun result => ?_
  split
  · exact isDefined_ok _
  · refine (lnUpToTen_isDefined ?_).bind fun lnTen => isDefined_ok _
    exact (toRat_ofNat 10).ge.trans' (by norm_num)

/-! ## Angles -/

theorem halveAngle_isDefined (limit : Nat) (x : Decimal) : IsDefined (ctx.halveAngle limit x) := by
  induction limit generalizing x with
  | zero => exact isDefined_ok _
  | succ limit ih =>
    unfold halveAngle
    split
    · have hsquare : 0 ≤ (ctx.add 1 (ctx.mul x x)).toRat :=
        toRat_add_nonneg (by rw [toRat_one]; linarith [square_nonneg ctx x])
      refine (sqrt_succeeds hsquare).bind fun root hroot => ?_
      have hpos : 0 < (ctx.add 1 root).toRat := toRat_add_pos (by rw [toRat_one]; linarith)
      refine (div_isDefined hpos.ne').bind fun tangent => ?_
      exact (ih tangent).bind fun reduced => isDefined_ok _
    · exact isDefined_ok _

theorem atanUpToOne_isDefined (ctx : Context) (x : Decimal) : IsDefined (ctx.atanUpToOne x) := by
  unfold atanUpToOne
  refine (halveAngle_isDefined 16 x).bind fun reduced => ?_
  refine IsDefined.bind ?_ fun sum => isDefined_ok _
  refine sumSeries_isDefined (fun _ _ _ => isDefined_ok _) (fun k x => ?_) reduced.1
  exact IsDefined.bind (div_ofNat_isDefined (by positivity)) fun _ => isDefined_ok _

theorem atanOfPositive_isDefined (hx : x.toRat ≠ 0) : IsDefined (ctx.atanOfPositive x) := by
  unfold atanOfPositive
  simp only
  split
  · refine (div_isDefined hx).bind fun inverse => ?_
    refine (quarterTurn_isDefined _).bind fun quarter => ?_
    exact (atanUpToOne_isDefined _ inverse).bind fun rest => isDefined_ok _
  · exact (atanUpToOne_isDefined _ x).bind fun angle => isDefined_ok _

theorem atan_isDefined (ctx : Context) (x : Decimal) : IsDefined (ctx.atan x) := by
  unfold atan
  split
  · exact isDefined_ok _
  next hx =>
  rw [isZero_iff] at hx
  split
  · refine (atanOfPositive_isDefined ?_).bind fun angle => isDefined_ok _
    rwa [toRat_neg, neg_ne_zero]
  · exact atanOfPositive_isDefined hx

/-! ## Inverse hyperbolic functions -/

theorem asinhOfPositive_isDefined (hx : 0 < x.toRat) : IsDefined (ctx.asinhOfPositive x) := by
  unfold asinhOfPositive
  refine Succeeds.bind (sqrt_succeeds ?_) fun root hroot => ?_
  · exact toRat_add_nonneg (by rw [toRat_one]; linarith [square_nonneg (ctx.forCancellation x) x])
  · exact (ln_isDefined (toRat_add_pos (by linarith))).bind fun result => isDefined_ok _

theorem asinh_isDefined (ctx : Context) (x : Decimal) : IsDefined (ctx.asinh x) := by
  unfold asinh
  split
  · exact isDefined_ok _
  next hx =>
  rw [isZero_iff] at hx
  split
  · next hneg =>
    rw [isNegative_iff] at hneg
    refine (asinhOfPositive_isDefined ?_).bind fun result => isDefined_ok _
    rwa [toRat_neg, neg_pos]
  · next hneg =>
    rw [isNegative_iff, not_lt] at hneg
    exact asinhOfPositive_isDefined (lt_of_le_of_ne hneg (Ne.symm hx))

theorem acosh_isDefined (hx : 1 ≤ x.toRat) : IsDefined (ctx.acosh x) := by
  unfold acosh
  rw [if_neg (by rwa [lt_iff, toRat_one, not_lt])]
  refine Succeeds.bind (sqrt_succeeds ?_) fun root hroot => ?_
  · exact toRat_sub_nonneg (by rw [toRat_one]; exact one_le_toRat_mul hx hx)
  · exact (ln_isDefined (toRat_add_pos (by linarith))).bind fun result => isDefined_ok _

theorem atanh_isDefined (hx : |x.toRat| < 1) : IsDefined (ctx.atanh x) := by
  unfold atanh
  rw [if_neg (by rwa [le_iff, toRat_one, toRat_abs, not_le])]
  rw [abs_lt] at hx
  split
  · exact isDefined_ok _
  refine (toRat_div_pos (.inl ⟨?_, ?_⟩)).bind fun ratio hratio => ?_
  · exact toRat_add_pos (by rw [toRat_one]; linarith)
  · exact toRat_sub_pos (by rw [toRat_one]; linarith)
  · exact (ln_isDefined hratio).bind fun result => isDefined_ok _

theorem acoth_isDefined (hx : 1 < |x.toRat|) : IsDefined (ctx.acoth x) := by
  unfold acoth
  rw [if_neg (by rwa [le_iff, toRat_one, toRat_abs, not_le])]
  refine (toRat_div_pos ?_).bind fun ratio hratio => ?_
  · rw [lt_abs] at hx
    obtain hx | hx := hx
    · exact .inl ⟨toRat_add_pos (by rw [toRat_one]; linarith), toRat_sub_pos (by rwa [toRat_one])⟩
    · exact .inr ⟨toRat_add_neg (by rw [toRat_one]; linarith), toRat_sub_neg (by rw [toRat_one]; linarith)⟩
  · exact (ln_isDefined hratio).bind fun result => isDefined_ok _

end Context

/-! ## Domains -/

/-- The functions that undo a power, an exponential, a tangent or a hyperbolic function. -/
inductive InverseFunction where
  | sqrt
  | ln
  | acosh
  | atanh
  | acoth
  | atan
  | asinh
  deriving DecidableEq

namespace InverseFunction

def apply : InverseFunction → Context → Decimal → Arithmetic Decimal
  | sqrt => Context.sqrt
  | ln => Context.ln
  | acosh => Context.acosh
  | atanh => Context.atanh
  | acoth => Context.acoth
  | atan => Context.atan
  | asinh => Context.asinh

/-- The numbers of which the function has a value. -/
def Domain : InverseFunction → ℚ → Prop
  | sqrt, q => 0 ≤ q
  | ln, q => 0 < q
  | acosh, q => 1 ≤ q
  | atanh, q => |q| < 1
  | acoth, q => 1 < |q|
  | atan, _ => True
  | asinh, _ => True

/-- The name under which the function refuses an argument. -/
def name : InverseFunction → String
  | sqrt => "sqrt"
  | ln => "ln"
  | acosh => "acosh"
  | atanh => "atanh"
  | acoth => "acoth"
  | atan => "atan"
  | asinh => "asinh"

variable {f : InverseFunction} {ctx : Context} {x : Decimal}

theorem apply_isDefined (ctx : Context) (h : f.Domain x.toRat) : IsDefined (f.apply ctx x) := by
  cases f with
  | sqrt => exact (Context.sqrt_succeeds h).isDefined
  | ln => exact Context.ln_isDefined h
  | acosh => exact Context.acosh_isDefined h
  | atanh => exact Context.atanh_isDefined h
  | acoth => exact Context.acoth_isDefined h
  | atan => exact Context.atan_isDefined ctx x
  | asinh => exact Context.asinh_isDefined ctx x

theorem apply_refuses (ctx : Context) (h : ¬ f.Domain x.toRat) :
    ∃ reason, f.apply ctx x = .error (.undefined f.name reason) := by
  cases f with
  | sqrt =>
    refine ⟨"argument must not be negative", if_pos ?_⟩
    rwa [Decimal.isNegative_iff, ← not_le]
  | ln =>
    refine ⟨"argument must be positive", if_pos ?_⟩
    rwa [Bool.not_eq_true', ← Bool.not_eq_true, Decimal.isPositive_iff]
  | acosh =>
    refine ⟨"argument must be at least 1", if_pos ?_⟩
    rwa [Decimal.lt_iff, Decimal.toRat_one, ← not_le]
  | atanh =>
    refine ⟨"argument must lie strictly between -1 and 1", if_pos ?_⟩
    rwa [Decimal.le_iff, Decimal.toRat_one, Decimal.toRat_abs, ← not_lt]
  | acoth =>
    refine ⟨"argument must lie outside [-1, 1]", if_pos ?_⟩
    rwa [Decimal.le_iff, Decimal.toRat_one, Decimal.toRat_abs, ← not_lt]
  | atan => exact absurd trivial h
  | asinh => exact absurd trivial h

end InverseFunction

end Reckoner
