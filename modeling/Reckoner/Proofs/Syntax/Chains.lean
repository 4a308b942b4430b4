import Reckoner.Proofs.Decimal.Canonical
import Reckoner.Proofs.Placeholder.Unbound
import Reckoner.Proofs.Rounding.Projection
import Reckoner.Proofs.Scales.Agreement
import Reckoner.Proofs.Syntax.Evaluation

/-!
# Calls and chains of operations

A sum, a difference, a product and a quotient can be written as a call with arguments or as a
chain of operations on them in parentheses. Both fold the values of the arguments from the left
with one operation. A call rounds its first argument before the first operation and a chain does
not, so they can differ where that argument is longer than the precision.
-/

namespace Reckoner.Syntax

/-- The functions that stand for an operator between their arguments. -/
inductive Folded where
  | sum
  | difference
  | product
  | quotient
  deriving DecidableEq, Repr

namespace Folded

def kind : Folded → Aggregate
  | sum => .sum
  | difference => .reduce
  | product => .multiply
  | quotient => .divide

def sign : Folded → Char
  | sum => '+'
  | difference => '-'
  | product => '*'
  | quotient => '/'

def operator : Folded → Grammar.Operator
  | sum => .sum
  | difference => .difference
  | product => .product
  | quotient => .quotient

theorem signs (f : Folded) : (f.sign, f.operator) ∈ Grammar.sums ++ Grammar.products := by
  cases f <;> decide

theorem named (f : Folded) : Named (.variadic f.kind) f.kind.name.toList :=
  ⟨0, f.kind.name, by cases f <;> rfl, rfl⟩

/-- What the arguments of a chain come to, folded onto the value of the first one. -/
def fold (f : Folded) (ctx : Context) (ys : List Decimal) (x : Decimal) : Arithmetic Decimal :=
  ys.foldlM (f.operator.apply ctx) x

/-- The function folds its arguments with the operator, from the rounded first one. -/
theorem fold_kind (f : Folded) (ctx : Context) (x : Decimal) (ys : List Decimal) :
    f.kind.fold ctx (x :: ys) = f.fold ctx ys (ctx.round x) := by
  have hstep : f.kind.step ctx = f.operator.apply ctx := by cases f <;> rfl
  have hfinish (total : Decimal) (n : Nat) : f.kind.finish ctx total n = pure total := by
    cases f <;> rfl
  rw [Aggregate.fold, hstep, fold]
  simp only [hfinish]
  exact bind_pure _

end Folded

variable {f : Folded} {ctx : Context} {calculator : Calculator} {text : List Char} {tree l t : Tree}
  {ts : Arguments} {x x' : Decimal} {xs ys : List Decimal} {a : Arithmetic Decimal}

/-! ## Answers -/

/-- The answer of a calculator to what its operations come to. -/
def settle (ctx : Context) : Arithmetic Decimal → Except EvalError Decimal
  | .ok x => .ok (ctx.round x).canonical
  | .error error => .error (.arithmetic error)

theorem evaluate_of_value (hprints : PrintsWhole tree text)
    (hdepth : tree.depth ≤ calculator.maxDepth)
    (hvalue : tree.value calculator.context false = perform calculator.context false fun _ => a) :
    calculator.evaluate text .empty = settle calculator.context a := by
  have hanswers := hprints.answers hdepth .empty
  rw [hvalue] at hanswers
  cases a with
  | ok x => exact hanswers
  | error error => exact hanswers

/-! ## Operands -/

/-- A text that has a value, with the tree that it prints. -/
structure Operand (calculator : Calculator) where
  text : List Char
  tree : Tree
  value : Decimal
  prints : PrintsWhole tree text
  depth_le : tree.depth ≤ calculator.maxDepth
  value_eq : tree.value calculator.context false = .ok value

/-- What a text is read to, before it is rounded and stripped. -/
def valueRead (calculator : Calculator) (text : List Char) : Decimal :=
  match calculator.read false text with
  | .done value _ => value
  | .failed _ _ => 0

theorem Operand.valueRead_eq (o : Operand calculator) : valueRead calculator o.text = o.value := by
  have hread : (Frame.ofCalculator calculator false).Shows false [] _ _ :=
    read_printed o.prints o.depth_le
  rw [o.value_eq] at hread
  obtain ⟨behind, hread⟩ := hread
  rw [valueRead, hread]

theorem Operand.evaluate_eq (o : Operand calculator) :
    calculator.evaluate o.text .empty = .ok (calculator.context.round o.value).canonical :=
  @evaluate_of_value calculator _ _ (.ok o.value) o.prints o.depth_le o.value_eq

theorem exists_operand (h : ∃ x, calculator.evaluate text .empty = .ok x) :
    ∃ o : Operand calculator, o.text = text := by
  obtain ⟨x, h⟩ := h
  obtain ⟨tree, hprints, hdepth, value, hvalue, -⟩ :=
    evaluatePlain_eq_ok_iff.1 (Calculator.evaluatePlain_of_evaluate_empty h)
  exact ⟨⟨text, tree, value, hprints, hdepth, hvalue⟩, rfl⟩

theorem exists_operands {texts : List (List Char)}
    (h : ∀ text ∈ texts, ∃ x, calculator.evaluate text .empty = .ok x) :
    ∃ os : List (Operand calculator), os.map Operand.text = texts := by
  have hrange : texts ∈ {texts | ∀ text ∈ texts, text ∈ Set.range (@Operand.text calculator)} :=
    fun text htext => exists_operand (h text htext)
  rwa [← Set.range_list_map] at hrange

/-! ## Texts -/

/-- The call of a function. -/
def Folded.callText (f : Folded) (first : List Char) (rest : List (List Char)) : List Char :=
  f.kind.name.toList ++ '(' :: (first ++ rest.flatMap (',' :: ·) ++ [')'])

def bracketed (text : List Char) : List Char := '(' :: (text ++ [')'])

/-- The chain of operations on the arguments, each in parentheses. -/
def Folded.chainText (f : Folded) (first : List Char) (rest : List (List Char)) : List Char :=
  bracketed first ++ rest.flatMap fun text => f.sign :: bracketed text

/-- Arguments, with nothing but spaces behind them. -/
def PrintsArguments (ts : Arguments) (text : List Char) : Prop :=
  ∃ u n, Prints .arguments ts u ∧ text = u ++ List.replicate n ' '

theorem PrintsWhole.one (h : PrintsWhole tree text) : PrintsArguments (.one tree) text := by
  obtain ⟨u, n, htree, rfl⟩ := h
  exact ⟨u, n, .one htree, rfl⟩

/-- The spaces behind an argument belong to the comma that follows. -/
theorem PrintsArguments.more {v : List Char} (h : PrintsArguments ts text)
    (ht : PrintsWhole t v) : PrintsArguments (.more ts t) (text ++ ',' :: v) := by
  obtain ⟨u, n, hts, rfl⟩ := h
  obtain ⟨w, k, htree, rfl⟩ := ht
  exact ⟨_, k, .more hts (.cons n ',' .nil) htree, by simp⟩

theorem PrintsWhole.bracketed (h : PrintsWhole tree text) :
    Prints .primary (.bracket tree) (bracketed text) := by
  obtain ⟨u, n, htree, rfl⟩ := h
  have hbracket := Prints.bracket (.cons 0 '(' .nil) htree (.cons n ')' .nil)
  simpa [Syntax.bracketed] using hbracket

/-! ## Trees -/

section Trees

variable (f) (o : Operand calculator) (os : List (Operand calculator))

def argumentsOnto (ts : Arguments) : Arguments := os.foldl (fun ts o => .more ts o.tree) ts

def chainOnto (l : Tree) : Tree :=
  os.foldl (fun l o => .operation f.operator l (.bracket o.tree)) l

theorem prints_argumentsOnto (h : PrintsArguments ts text) :
    PrintsArguments (argumentsOnto os ts) (text ++ (os.map Operand.text).flatMap (',' :: ·)) := by
  induction os generalizing ts text with
  | nil => simpa [argumentsOnto] using h
  | cons o os ih => simpa [argumentsOnto] using ih (h.more o.prints)

theorem prints_call : PrintsWhole (.variadic f.kind (argumentsOnto os (.one o.tree)))
    (f.callText o.text (os.map Operand.text)) := by
  obtain ⟨u, n, harguments, htext⟩ := prints_argumentsOnto os o.prints.one
  refine ⟨_, 0, .term (.factor (.primary
    (.variadic f.named (.cons 0 '(' .nil) harguments (.cons n ')' .nil)))), ?_⟩
  simp [Folded.callText, htext]

/-- Sums are chains of terms and products chains of factors; a parenthesis is either. -/
theorem prints_chainOnto {P : Tree → List Char → Prop}
    (hstep : ∀ {l r u v}, P l u → Prints .primary r v →
      P (.operation f.operator l r) (u ++ f.sign :: v))
    (h : P l text) : P (chainOnto f os l)
      (text ++ (os.map Operand.text).flatMap fun text => f.sign :: bracketed text) := by
  induction os generalizing l text with
  | nil => simpa [chainOnto] using h
  | cons o os ih => simpa [chainOnto] using ih (hstep h o.prints.bracketed)

theorem prints_chain : PrintsWhole (chainOnto f os (.bracket o.tree))
    (f.chainText o.text (os.map Operand.text)) := by
  have hfirst := o.prints.bracketed
  refine ⟨_, 0, ?_, (List.append_nil _).symm⟩
  rcases List.mem_append.1 f.signs with hsum | hproduct
  · refine prints_chainOnto f os (P := Prints .expression) (fun hl hr => ?_)
      (.term (.factor (.primary hfirst)))
    exact .sum hsum hl (.cons 0 f.sign .nil) (.factor (.primary hr))
  · refine .term (prints_chainOnto f os (P := Prints .term) (fun hl hr => ?_)
      (.factor (.primary hfirst)))
    exact .product hproduct hl (.cons 0 f.sign .nil) (.primary hr)

theorem depth_argumentsOnto (h : ts.depth ≤ calculator.maxDepth) :
    (argumentsOnto os ts).depth ≤ calculator.maxDepth := by
  induction os generalizing ts with
  | nil => exact h
  | cons o os ih => exact ih (by simpa only [Arguments.depth] using max_le h o.depth_le)

theorem depth_chainOnto (h : l.depth ≤ calculator.maxDepth + 1) :
    (chainOnto f os l).depth ≤ calculator.maxDepth + 1 := by
  induction os generalizing l with
  | nil => exact h
  | cons o os ih =>
    refine ih ?_
    rw [Tree.depth_operation f.signs, Tree.depth]
    exact max_le h (Nat.add_le_add_right o.depth_le 1)

theorem values_argumentsOnto (h : ts.values calculator.context false = .ok xs) :
    (argumentsOnto os ts).values calculator.context false = .ok (xs ++ os.map Operand.value) := by
  induction os generalizing ts xs with
  | nil => simpa [argumentsOnto] using h
  | cons o os ih =>
    have hmore : (Arguments.more ts o.tree).values calculator.context false =
        .ok (xs ++ [o.value]) := by
      rw [Arguments.values, h, o.value_eq]
      rfl
    simpa [argumentsOnto] using ih hmore

theorem value_call :
    (Tree.variadic f.kind (argumentsOnto os (.one o.tree))).value calculator.context false =
      perform calculator.context false fun ctx =>
        f.fold ctx (os.map Operand.value) (ctx.round o.value) := by
  have hfirst : (Arguments.one o.tree).values calculator.context false = .ok [o.value] := by
    rw [Arguments.values, o.value_eq]
    rfl
  rw [Tree.value, values_argumentsOnto os hfirst]
  change perform calculator.context false
    (fun ctx => f.kind.fold ctx (o.value :: os.map Operand.value)) = _
  simp only [Folded.fold_kind]

/-- An operation on the left that fails is the first one that does. -/
theorem value_chainOnto (h : l.value calculator.context false =
      perform calculator.context false fun _ => a) :
    (chainOnto f os l).value calculator.context false =
      perform calculator.context false fun ctx => a >>= f.fold ctx (os.map Operand.value) := by
  induction os generalizing l a with
  | nil =>
    rw [show (fun ctx => a >>= f.fold ctx (List.map Operand.value [])) = fun _ => a from
      funext fun ctx => bind_pure a]
    exact h
  | cons o os ih =>
    have hstep : (Tree.operation f.operator l (.bracket o.tree)).value calculator.context false =
        perform calculator.context false fun _ =>
          a >>= fun x => f.operator.apply calculator.context x o.value := by
      rw [Tree.value, h, Tree.value, o.value_eq]
      cases a <;> rfl
    rw [chainOnto, List.foldl_cons]
    refine (ih hstep).trans ?_
    cases a <;> rfl

end Trees

/-! ## Folded values -/

theorem evaluate_call (f : Folded) (o : Operand calculator) (os : List (Operand calculator)) :
    Calculator.evaluate ⟨calculator.context, calculator.maxDepth + 1⟩
        (f.callText o.text (os.map Operand.text)) .empty =
      settle calculator.context (f.fold calculator.context (os.map Operand.value)
        (calculator.context.round o.value)) := by
  refine @evaluate_of_value ⟨calculator.context, calculator.maxDepth + 1⟩ _ _ _
    (prints_call f o os) ?_ (value_call f o os)
  rw [Tree.depth]
  exact Nat.add_le_add_right (depth_argumentsOnto os (by simpa [Arguments.depth] using o.depth_le)) 1

theorem evaluate_chain (f : Folded) (o : Operand calculator) (os : List (Operand calculator)) :
    Calculator.evaluate ⟨calculator.context, calculator.maxDepth + 1⟩
        (f.chainText o.text (os.map Operand.text)) .empty =
      settle calculator.context (f.fold calculator.context (os.map Operand.value) o.value) := by
  have hfirst : (Tree.bracket o.tree).value calculator.context false =
      perform calculator.context false fun _ => .ok o.value := by
    rw [Tree.value, o.value_eq]
    rfl
  refine @evaluate_of_value ⟨calculator.context, calculator.maxDepth + 1⟩ _ _ _
    (prints_chain f o os) (depth_chainOnto f os ?_) (value_chainOnto f os hfirst)
  rw [Tree.depth]
  exact Nat.add_le_add_right o.depth_le 1

/-! ## Failing folds -/

theorem apply_eq_error (x y : Decimal) (error : ArithmeticError) :
    f.operator.apply ctx x y = .error error ↔
      f = .quotient ∧ y.isZero ∧ error = .divisionByZero := by
  cases f with
  | sum | difference | product => simp [Folded.operator, Grammar.Operator.apply]
  | quotient =>
    change ctx.div x y = _ ↔ _
    by_cases hy : y.isZero
    · rw [show ctx.div x y = .error .divisionByZero from if_pos hy]
      simp [hy, eq_comm]
    · obtain ⟨z, hz, -⟩ := Context.div_sign ctx x fun hsign =>
        hy (Decimal.isZero_iff.2 (Decimal.sign_eq_zero_iff.1 hsign))
      simp [hz, hy]

/-- Whether a fold fails depends on the arguments behind the first one only. -/
theorem fold_eq_error (ys : List Decimal) (x : Decimal) (error : ArithmeticError) :
    f.fold ctx ys x = .error error ↔
      f = .quotient ∧ (∃ y ∈ ys, y.isZero) ∧ error = .divisionByZero := by
  induction ys generalizing x with
  | nil => simp [Folded.fold, pure, Except.pure]
  | cons y ys ih =>
    rw [Folded.fold, List.foldlM_cons]
    cases h : f.operator.apply ctx x y with
    | ok z =>
      have hy : ¬ (f = .quotient ∧ y.isZero) := by
        rintro ⟨hf, hy⟩
        simp [(apply_eq_error x y .divisionByZero).2 ⟨hf, hy, rfl⟩] at h
      change f.fold ctx ys z = _ ↔ _
      rw [ih]
      grind
    | error error' =>
      obtain ⟨hf, hy, rfl⟩ := (apply_eq_error x y error').1 h
      change Except.error _ = Except.error error ↔ _
      rw [Except.error.injEq]
      exact ⟨fun h => ⟨hf, ⟨y, List.mem_cons_self, hy⟩, h.symm⟩, fun h => h.2.2.symm⟩

theorem settle_eq_error {error : EvalError} :
    settle ctx (f.fold ctx ys x) = .error error ↔
      f = .quotient ∧ (∃ y ∈ ys, y.isZero) ∧ error = .arithmetic .divisionByZero := by
  have herror := @fold_eq_error f ctx ys x
  cases hfold : f.fold ctx ys x with
  | ok z =>
    simp only [hfold, reduceCtorEq, false_iff] at herror
    simp only [settle, reduceCtorEq, false_iff]
    exact fun h => herror .divisionByZero ⟨h.1, h.2.1, rfl⟩
  | error error' =>
    obtain ⟨hf, hy, rfl⟩ := (herror error').1 hfold
    rw [settle, Except.error.injEq]
    exact ⟨fun h => ⟨hf, hy, h.symm⟩, fun h => h.2.2.symm⟩

/-! ## Equal first arguments -/

/-- An operation with the scales that it asks for. -/
def Folded.trace (f : Folded) (ctx : Context) : Decimal → Decimal → Traced Decimal :=
  match f with
  | sum => .add ctx
  | difference => .sub ctx
  | product => .mul ctx
  | quotient => .div ctx

/-- A fold with the scales that its operations ask for. -/
def Folded.traceFold (f : Folded) (ctx : Context) (ys : List Decimal) (x : Decimal) :
    Traced Decimal :=
  ys.foldlM (f.trace ctx) x

theorem result_trace (x y : Decimal) : (f.trace ctx x y).result = f.operator.apply ctx x y := by
  cases f
  · exact Traced.result_add
  · exact Traced.result_sub
  · exact Traced.result_mul
  · exact Traced.result_div

theorem result_traceFold (ys : List Decimal) (x : Decimal) :
    (f.traceFold ctx ys x).result = f.fold ctx ys x := by
  induction ys generalizing x with
  | nil => rfl
  | cons y ys ih =>
    rw [Folded.traceFold, List.foldlM_cons, Traced.result_bind, result_trace, Folded.fold,
      List.foldlM_cons]
    exact congrArg _ (funext ih)

theorem agree_traceFold (ys : List Decimal) (h : Traced.Same x x') :
    Traced.Agree Traced.Same (f.traceFold ctx ys x) (f.traceFold ctx ys x') := by
  have hstep {x x' : Decimal} (y : Decimal) (h : Traced.Same x x') :
      Traced.Agree Traced.Same (f.trace ctx x y) (f.trace ctx x' y) := by
    cases f
    · exact Traced.agree_add h (.refl y)
    · exact Traced.agree_sub h (.refl y)
    · exact Traced.agree_mul h (.refl y)
    · exact Traced.agree_div h (.refl y)
  induction ys generalizing x x' with
  | nil => exact Traced.agree_pure h
  | cons y ys ih => exact (hstep y h).bind fun _ _ => ih

theorem settle_fold_congr (h : x.toRat = x'.toRat) (hfits : (f.traceFold ctx ys x).Fits)
    (hfits' : (f.traceFold ctx ys x').Fits) :
    settle ctx (f.fold ctx ys x) = settle ctx (f.fold ctx ys x') := by
  have hmatches := agree_traceFold ys h hfits hfits'
  rw [result_traceFold, result_traceFold] at hmatches
  generalize f.fold ctx ys x = a at *
  generalize f.fold ctx ys x' = b at *
  cases hmatches with
  | ok hsame =>
    exact congrArg Except.ok (Decimal.canonical_eq_of_toRat_eq (Context.toRat_round_congr hsame))
  | error e => rfl

/-! ## Calls beside chains -/

/-- Arguments that have values one by one have one in a call, with one level more, unless a
quotient is taken by zero. It is the value of the chain if the first argument is not longer than
the precision or is the only one; if its value is not longer, no scale must be stopped on the way. -/
theorem call_beside_chain (f : Folded) (ctx : Context) (levels : Nat) (first : List Char)
    (rest : List (List Char))
    (h : ∀ text ∈ first :: rest, ∃ x, Calculator.evaluate ⟨ctx, levels⟩ text .empty = .ok x) :
    let inner : Calculator := ⟨ctx, levels⟩
    let outer : Calculator := ⟨ctx, levels + 1⟩
    let x := valueRead inner first
    let ys := rest.map (valueRead inner)
    let call := outer.evaluate (f.callText first rest) .empty
    let chain := outer.evaluate (f.chainText first rest) .empty
    (∀ text ∈ first :: rest, inner.evaluate text .empty =
      .ok (ctx.round (valueRead inner text)).canonical) ∧
    call = settle ctx (f.fold ctx ys (ctx.round x)) ∧
    chain = settle ctx (f.fold ctx ys x) ∧
    (∀ error, call = .error error ↔
      f = .quotient ∧ (∃ y ∈ ys, y.isZero) ∧ error = .arithmetic .divisionByZero) ∧
    (∀ error, call = .error error ↔ chain = .error error) ∧
    (x.digitCount ≤ ctx.precision ∨ rest = [] → call = chain) ∧
    ((ctx.round x).toRat = x.toRat → (f.traceFold ctx ys (ctx.round x)).Fits →
      (f.traceFold ctx ys x).Fits → call = chain) := by
  intro inner outer x ys call chain
  obtain ⟨o, rfl⟩ := exists_operand (h first List.mem_cons_self)
  obtain ⟨os, rfl⟩ := exists_operands fun text htext => h text (List.mem_cons_of_mem _ htext)
  have hx : x = o.value := o.valueRead_eq
  have hys : ys = os.map Operand.value := by
    rw [show ys = (os.map Operand.text).map (valueRead inner) from rfl, List.map_map]
    exact List.map_congr_left fun o _ => o.valueRead_eq
  -- both settle the same fold; only the call rounds the first value beforehand
  have hcall : call = settle ctx (f.fold ctx ys (ctx.round x)) := by
    rw [hx, hys]
    exact evaluate_call f o os
  have hchain : chain = settle ctx (f.fold ctx ys x) := by
    rw [hx, hys]
    exact evaluate_chain f o os
  refine ⟨fun text htext => ?_, hcall, hchain, fun error => ?_, fun error => ?_, ?_, ?_⟩
  · obtain ⟨o, rfl⟩ := exists_operand (h text htext)
    rw [o.valueRead_eq]
    exact o.evaluate_eq
  · rw [hcall, settle_eq_error]
  · rw [hcall, hchain, settle_eq_error, settle_eq_error]
  · rintro (hshort | hnil)
    · rw [hcall, hchain, Context.round_of_short hshort]
    · obtain rfl := List.map_eq_nil_iff.1 hnil
      have hround : ctx.round (ctx.round x) = ctx.round x :=
        Context.round_of_short (Decimal.digitCount_roundTo_le ctx.precision_pos)
      rw [hcall, hchain, show ys = [] from rfl]
      exact congrArg (fun x => Except.ok x.canonical) hround
  · intro hvalue hfits hfits'
    rw [hcall, hchain]
    exact settle_fold_congr hvalue hfits hfits'

/-- A first argument with three digits, of which the last is a zero. -/
theorem call_beside_chain_zero :
    let ctx : Context := ⟨2, .halfEven, by decide⟩
    let first := "1.20".toList
    let rest := ["0.3 ".toList, " 4".toList]
    let call := Calculator.evaluate ⟨ctx, 2⟩ (Folded.quotient.callText first rest) .empty
    let chain := Calculator.evaluate ⟨ctx, 2⟩ (Folded.quotient.chainText first rest) .empty
    (∀ text ∈ first :: rest, ∃ x, Calculator.evaluate ⟨ctx, 1⟩ text .empty = .ok x) ∧
      call = .ok 1 ∧ chain = .ok 1 := by
  intro ctx first rest call chain
  have h : ∀ text ∈ first :: rest, ∃ x, Calculator.evaluate ⟨ctx, 1⟩ text .empty = .ok x := by
    intro text htext
    obtain rfl | rfl | rfl : text = first ∨ text = "0.3 ".toList ∨ text = " 4".toList := by
      simpa [rest] using htext
    · exact ⟨.ofScaled 12 1, by decide +kernel⟩
    · exact ⟨.ofScaled 3 1, by decide +kernel⟩
    · exact ⟨4, by decide +kernel⟩
  have hcall : call = .ok 1 := by decide +kernel
  obtain ⟨-, -, -, -, -, -, hsame⟩ := call_beside_chain .quotient ctx 1 first rest h
  have heq : call = chain := hsame (by decide +kernel) (by decide +kernel) (by decide +kernel)
  exact ⟨h, hcall, heq.symm.trans hcall⟩

/-- A call rounds its first argument before the sum and once more behind it. -/
theorem call_rounds_twice :
    let ctx : Context := ⟨2, .halfEven, by decide⟩
    Calculator.evaluate ⟨ctx, 1⟩ "1.25".toList .empty = .ok (.ofScaled 12 1) ∧
      Calculator.evaluate ⟨ctx, 1⟩ "0.01".toList .empty = .ok (.ofScaled 1 2) ∧
      Calculator.evaluate ⟨ctx, 2⟩ (Folded.sum.callText "1.25".toList ["0.01".toList]) .empty =
        .ok (.ofScaled 12 1) ∧
      Calculator.evaluate ⟨ctx, 2⟩ (Folded.sum.chainText "1.25".toList ["0.01".toList]) .empty =
        .ok (.ofScaled 13 1) := by
  decide +kernel

end Reckoner.Syntax
