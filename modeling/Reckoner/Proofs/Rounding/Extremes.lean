import Reckoner.Expression.Aggregate
import Reckoner.Proofs.Rounding.Projection

/-!
# The greatest and the least of several numbers

The aggregates that look for an end of the order round every number before they compare it. What they
find is the rounding of one of the numbers that no other rounding exceeds, so the order in which the
numbers come does not matter. As rounding is monotone, it is the rounding of the greatest or least
number itself, wherever the word range leaves two roundings in order.
-/

namespace Reckoner

open Decimal

/-- An end of the order. -/
inductive Extreme where
  | greatest
  | least
  deriving DecidableEq, Repr

namespace Extreme

variable {extreme : Extreme} {ctx : Context} {x y z m : Decimal} {xs ys : List Decimal}

/-- The aggregate that looks for it. -/
def aggregate : Extreme → Aggregate
  | greatest => .max
  | least => .min

/-- The one of two numbers that is kept. -/
def choose : Extreme → Decimal → Decimal → Decimal
  | greatest => larger
  | least => smaller

/-- Whether the second of two numbers is as close to the end as the first. -/
def Yields : Extreme → Decimal → Decimal → Prop
  | greatest, x, y => x ≤ y
  | least, x, y => y ≤ x

instance (extreme : Extreme) (x y : Decimal) : Decidable (extreme.Yields x y) :=
  match extreme with
  | greatest => inferInstanceAs (Decidable (x ≤ y))
  | least => inferInstanceAs (Decidable (y ≤ x))

/-! ## The order -/

theorem yields_refl (extreme : Extreme) (x : Decimal) : extreme.Yields x x := by
  cases extreme <;> exact le_iff.2 le_rfl

theorem Yields.trans (h : extreme.Yields x y) (h' : extreme.Yields y z) : extreme.Yields x z := by
  cases extreme with
  | greatest => exact le_iff.2 ((le_iff.1 h).trans (le_iff.1 h'))
  | least => exact le_iff.2 ((le_iff.1 h').trans (le_iff.1 h))

theorem Yields.antisymm (h : extreme.Yields x y) (h' : extreme.Yields y x) :
    x.sameValue y = true := by
  rw [sameValue_iff]
  cases extreme with
  | greatest => exact le_antisymm (le_iff.1 h) (le_iff.1 h')
  | least => exact le_antisymm (le_iff.1 h') (le_iff.1 h)

/-- The number that is kept is one of the two, and both yield to it. -/
theorem choose_spec (extreme : Extreme) (x y : Decimal) :
    (extreme.choose x y = x ∨ extreme.choose x y = y) ∧
      extreme.Yields x (extreme.choose x y) ∧ extreme.Yields y (extreme.choose x y) := by
  have hle {a b : Decimal} (h : ¬ b < a) : a ≤ b := by
    rw [lt_iff, not_lt] at h
    exact le_iff.2 h
  have hlt {a b : Decimal} (h : b < a) : b ≤ a := le_iff.2 (lt_iff.1 h).le
  by_cases h : y < x
  · cases extreme with
    | greatest =>
      rw [show greatest.choose x y = x from if_pos h]
      exact ⟨.inl rfl, yields_refl _ _, hlt h⟩
    | least =>
      rw [show least.choose x y = y from if_pos h]
      exact ⟨.inr rfl, hlt h, yields_refl _ _⟩
  · cases extreme with
    | greatest =>
      rw [show greatest.choose x y = y from if_neg h]
      exact ⟨.inr rfl, hle h, yields_refl _ _⟩
    | least =>
      rw [show least.choose x y = x from if_neg h]
      exact ⟨.inl rfl, yields_refl _ _, hle h⟩

/-! ## The search -/

/-- A number of a list that all of them yield to. -/
structure IsFound (extreme : Extreme) (z : Decimal) (xs : List Decimal) : Prop where
  mem : z ∈ xs
  yields : ∀ x ∈ xs, extreme.Yields x z

theorem isFound_foldl (extreme : Extreme) (first : Decimal) (rest : List Decimal) :
    extreme.IsFound (rest.foldl extreme.choose first) (first :: rest) := by
  induction rest generalizing first with
  | nil => exact ⟨List.mem_singleton_self first, fun x hx => by
      rw [List.mem_singleton.1 hx]; exact yields_refl _ _⟩
  | cons next rest ih =>
    obtain ⟨hchosen, hfirst, hnext⟩ := extreme.choose_spec first next
    obtain ⟨hmem, hyields⟩ := ih (extreme.choose first next)
    have hkept := hyields _ List.mem_cons_self
    refine ⟨?_, fun x hx => ?_⟩
    · rcases List.mem_cons.1 hmem with heq | hrest
      · rw [List.foldl_cons, heq]
        rcases hchosen with h | h <;> rw [h] <;> simp
      · exact List.mem_cons_of_mem _ (List.mem_cons_of_mem _ hrest)
    · rcases List.mem_cons.1 hx with rfl | hx
      · exact hfirst.trans hkept
      rcases List.mem_cons.1 hx with rfl | hx
      · exact hnext.trans hkept
      · exact hyields x (List.mem_cons_of_mem _ hx)

instance (extreme : Extreme) (z : Decimal) (xs : List Decimal) :
    Decidable (extreme.IsFound z xs) :=
  decidable_of_iff (z ∈ xs ∧ ∀ x ∈ xs, extreme.Yields x z)
    ⟨fun h => ⟨h.1, h.2⟩, fun h => ⟨h.mem, h.yields⟩⟩

/-- What is found depends on the members of a list alone. -/
theorem IsFound.unique {w : Decimal} (h : extreme.IsFound z xs) (h' : extreme.IsFound w ys)
    (hsame : ∀ x, x ∈ xs ↔ x ∈ ys) : w.sameValue z = true :=
  (h.yields w ((hsame w).2 h'.mem)).antisymm (h'.yields z ((hsame z).1 h.mem))

theorem foldlM_step (extreme : Extreme) (ctx : Context) (total : Decimal) (rest : List Decimal) :
    rest.foldlM (extreme.aggregate.step ctx) total =
      .ok ((rest.map ctx.round).foldl extreme.choose total) := by
  induction rest generalizing total with
  | nil => rfl
  | cons next rest ih =>
    have hstep : extreme.aggregate.step ctx total next =
        .ok (extreme.choose total (ctx.round next)) := by cases extreme <;> rfl
    rw [List.foldlM_cons, hstep]
    exact ih _

/-- Of any numbers, the aggregate finds one of the roundings that all the others yield to. -/
theorem fold_isFound (extreme : Extreme) (ctx : Context) (hxs : xs ≠ []) :
    ∃ z, extreme.aggregate.fold ctx xs = .ok z ∧ extreme.IsFound z (xs.map ctx.round) := by
  obtain ⟨first, rest, rfl⟩ := List.exists_cons_of_ne_nil hxs
  refine ⟨_, ?_, extreme.isFound_foldl (ctx.round first) (rest.map ctx.round)⟩
  unfold Aggregate.fold
  dsimp only
  rw [foldlM_step]
  cases extreme <;> rfl

/-! ## Rounding -/

/-- Of two numbers with one sign, the greater one in size can be written when it is rounded. -/
def KeptApart (ctx : Context) (x y : Decimal) : Prop :=
  0 < x.toRat * y.toRat →
    (|x.toRat| < |y.toRat| → Writable ctx.precision (ctx.rounded y.toRat)) ∧
      (|y.toRat| < |x.toRat| → Writable ctx.precision (ctx.rounded x.toRat))

theorem KeptApart.symm (h : KeptApart ctx x y) : KeptApart ctx y x := fun hsign =>
  (h (by rwa [mul_comm])).symm

theorem keptApart_of_exponent (hx : x.exponent < Word.greatest) (hy : y.exponent < Word.greatest) :
    KeptApart ctx x y := fun _ =>
  ⟨fun _ => Context.writable_rounded ctx hy, fun _ => Context.writable_rounded ctx hx⟩

theorem round_mono_of_keptApart (h : x ≤ y) (hkept : KeptApart ctx x y) :
    ctx.round x ≤ ctx.round y := by
  rcases (le_iff.1 h).eq_or_lt with heq | hlt
  · exact le_iff.2 (Context.toRat_round_congr heq).le
  refine Context.round_mono h (fun hpos => ?_) fun hneg => ?_
  · have hx := toRat_pos.2 hpos
    have hy := hx.trans hlt
    refine (hkept (mul_pos hx hy)).1 ?_
    rwa [abs_of_pos hx, abs_of_pos hy]
  · have hy := toRat_lt_zero.2 hneg
    have hx := hlt.trans hy
    refine (hkept (mul_pos_of_neg_of_neg hx hy)).2 ?_
    rwa [abs_of_neg hx, abs_of_neg hy, neg_lt_neg_iff]

theorem Yields.round (h : extreme.Yields x m) (hkept : KeptApart ctx x m) :
    extreme.Yields (ctx.round x) (ctx.round m) := by
  cases extreme with
  | greatest => exact round_mono_of_keptApart h hkept
  | least => exact round_mono_of_keptApart h hkept.symm

theorem IsFound.round (h : extreme.IsFound m xs) (hkept : ∀ x ∈ xs, KeptApart ctx x m) :
    extreme.IsFound (ctx.round m) (xs.map ctx.round) where
  mem := List.mem_map_of_mem h.mem
  yields := List.forall_mem_map.2 fun x hx => (h.yields x hx).round (hkept x hx)

end Extreme

end Reckoner
