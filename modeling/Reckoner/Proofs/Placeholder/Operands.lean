import Reckoner.Proofs.Placeholder.SinglePass
import Reckoner.Proofs.Placeholder.Templates

/-!
# Placeholders as operands

An expression with placeholders comes to the value of its tree with the bound values written out.
What stands behind a placeholder is no letter, so its name is the longest that could be meant, and
the text with the values filled in prints the tree that is then evaluated.
-/

namespace Reckoner.Syntax

open Bindings Piece
open Grammar (Operator sums products)

variable {bindings : Bindings} {category : Category} {node : category.Node} {tree : Tree}
  {pieces p q : List Piece} {u o : List Char}

/-! ## Names that end where a placeholder ends -/

/-- `$` stands in holes only, and no letter stands right behind a hole. -/
def Spread : List Piece → Prop
  | [] => True
  | .char c :: p => c ≠ '$' ∧ Spread p
  | .hole _ :: p => (∀ c, p.head? = some (.char c) → c.isAlpha = false) ∧ Spread p

theorem Spread.append (hp : Spread p) (hq : Spread q)
    (hnext : ∀ c, q.head? = some (.char c) → c.isAlpha = false) : Spread (p ++ q) := by
  induction p with
  | nil => exact hq
  | cons piece p ih =>
    cases piece with
    | char c => exact ⟨hp.1, ih hp.2⟩
    | hole entry =>
      refine ⟨fun c hc => ?_, ih hp.2⟩
      obtain _ | ⟨next, p⟩ := p
      · exact hnext c hc
      · exact hp.1 c hc

theorem Spread.after_chars (hu : '$' ∉ u) (hq : Spread q) : Spread (chars u ++ q) := by
  induction u with
  | nil => exact hq
  | cons c u ih =>
    obtain ⟨hc, hu⟩ := by simpa using hu
    exact ⟨Ne.symm hc, ih hu⟩

theorem spread_chars (hu : '$' ∉ u) : Spread (chars u) := by
  have h : Spread (chars u ++ []) := .after_chars hu trivial
  rwa [List.append_nil] at h

/-- Signs that keep letters away from what stands before them. -/
def Divider (text : List Char) : Prop :=
  '$' ∉ text ∧ ∃ c rest, text = c :: rest ∧ c.isAlpha = false

theorem divider_spaced {signs : List Char} (h : Spaced signs o) (hne : signs ≠ [])
    (hsigns : ∀ c ∈ signs, c.isAlpha = false ∧ c ≠ '$') : Divider o := by
  refine ⟨no_placeholder_spaced h fun hmem => (hsigns _ hmem).2 rfl, ?_⟩
  cases h with
  | nil => exact absurd rfl hne
  | cons n sign _ =>
    cases n with
    | zero => exact ⟨sign, _, rfl, (hsigns sign List.mem_cons_self).1⟩
    | succ n => exact ⟨' ', _, rfl, by decide⟩

theorem divider_sign {sign : Char} {operator : Operator} (h : (sign, operator) ∈ sums ++ products)
    (ho : Spaced [sign] o) : Divider o := by
  have htable : ∀ entry ∈ sums ++ products, entry.1.isAlpha = false ∧ entry.1 ≠ '$' := by decide
  exact divider_spaced ho (by simp) (by simpa using htable _ h)

theorem divider_tail {signs : List Char} {operator : Operator} (h : (signs, operator) ∈ tails)
    (ho : Spaced signs o) : Divider o := by
  have htable : ∀ entry ∈ tails,
      entry.1 ≠ [] ∧ ∀ c ∈ entry.1, c.isAlpha = false ∧ c ≠ '$' := by decide
  exact divider_spaced ho (htable _ h).1 (htable _ h).2

theorem Spread.separated (hp : Spread p) (ho : Divider o) (hq : Spread q) :
    Spread (p ++ (chars o ++ q)) := by
  obtain ⟨hplaceholder, c, rest, rfl, hc⟩ := ho
  refine hp.append (.after_chars hplaceholder hq) fun d hd => ?_
  obtain rfl : c = d := by simpa [chars] using hd
  exact hc

theorem Spread.closed (hp : Spread p) (ho : Divider o) : Spread (p ++ chars o) := by
  have h : Spread (p ++ (chars o ++ [])) := hp.separated ho trivial
  rwa [List.append_nil] at h

theorem Template.spread (h : Template bindings category node pieces) : Spread pieces := by
  induction h with
  | placeholder n _ _ => exact .after_chars (by simp) ⟨by simp, trivial⟩
  | term _ ih | factor _ ih | primary _ ih | one _ ih => exact ih
  | number hliteral => exact spread_chars hliteral.no_placeholder
  | sum hoperator _ ho _ ihl ihr =>
    exact ihl.separated (divider_sign (List.mem_append_left _ hoperator) ho) ihr
  | product hoperator _ ho _ ihl ihr =>
    exact ihl.separated (divider_sign (List.mem_append_right _ hoperator) ho) ihr
  | tail hoperator _ ho _ ihl ihr => exact ihl.separated (divider_tail hoperator ho) ihr
  | sign negative ho _ ih =>
    refine .after_chars (no_placeholder_spaced ho ?_) ih
    cases negative <;> decide
  | juxtaposed hname _ _ ih => exact .after_chars hname.no_placeholder ih
  | bracket ha _ hb ih =>
    exact .after_chars (no_placeholder_spaced ha (by decide))
      (ih.closed (divider_spaced hb (by decide) (by decide)))
  | constant hname hb =>
    refine .after_chars hname.no_placeholder (spread_chars ?_)
    obtain rfl | hb := hb
    · simp
    · exact no_placeholder_spaced hb (by decide)
  | unary hname ha _ hb ih | variadic hname ha _ hb ih =>
    exact .after_chars hname.no_placeholder (.after_chars (no_placeholder_spaced ha (by decide))
      (ih.closed (divider_spaced hb (by decide) (by decide))))
  | binary hname ha _ hc _ hb ihl ihr =>
    refine .after_chars hname.no_placeholder
      (.after_chars (no_placeholder_spaced ha (by decide)) ?_)
    exact ihl.separated (divider_spaced hc (by decide) (by decide))
      (ihr.closed (divider_spaced hb (by decide) (by decide)))
  | more _ hc _ ihs ih => exact ihs.separated (divider_spaced hc (by decide) (by decide)) ih

theorem mem_chars {entry : String × Decimal} : .hole entry ∉ chars u := by simp [chars]

/-- All placeholders are bound letter names. -/
theorem Template.bound (h : Template bindings category node pieces) (entry : String × Decimal)
    (hentry : .hole entry ∈ pieces) : entry ∈ bindings.named ∧ IsLetterName entry.1 := by
  induction h with
  | placeholder n hbound hletters =>
    obtain rfl : entry = _ := by simpa [mem_chars] using hentry
    exact ⟨hbound, hletters⟩
  | term _ ih | factor _ ih | primary _ ih | one _ ih => exact ih hentry
  | number | constant => simp [mem_chars] at hentry
  | sum _ _ _ _ ihl ihr | product _ _ _ _ ihl ihr | tail _ _ _ _ ihl ihr
  | binary _ _ _ _ _ _ ihl ihr | more _ _ _ ihl ihr =>
    simp only [List.mem_append, mem_chars, false_or, or_false] at hentry
    exact hentry.elim ihl ihr
  | sign _ _ _ ih | juxtaposed _ _ _ ih | bracket _ _ _ ih | unary _ _ _ _ ih
  | variadic _ _ _ _ ih =>
    simp only [List.mem_append, mem_chars, false_or, or_false] at hentry
    exact ih hentry

/-! ## Filling an expression -/

/-- Where a bound name continues a bound letter name, it does so with a letter. -/
def Apart (bindings : Bindings) : Prop :=
  ∀ entry ∈ bindings.named, IsLetterName entry.1 → ∀ other ∈ bindings.named, ∀ c rest,
    other.1.toList = entry.1.toList ++ c :: rest → c.isAlpha

theorem beginsNoHole_of_isAlpha {c : Char} (h : c.isAlpha) : BeginsNoHole c := by
  refine ⟨?_, ?_, Grammar.not_beginsNumber_of_isAlpha h⟩
  · rintro rfl; exact absurd h (by decide)
  · rintro rfl; exact absurd h (by decide)

theorem Spread.clear {entry : String × Decimal} (hp : Spread p)
    (hbound : ∀ entry, .hole entry ∈ p → entry ∈ bindings.named ∧ IsLetterName entry.1)
    (hapart : Apart bindings) (hentry : entry ∈ bindings.named) : Clear entry.1.toList p := by
  induction p with
  | nil => trivial
  | cons piece p ih =>
    have ih := fun hp => ih hp fun other hother => hbound other (List.mem_cons_of_mem _ hother)
    cases piece with
    | char c => exact ⟨fun hc => absurd hc hp.1, ih hp.2⟩
    | hole other =>
      obtain ⟨hother, hletters⟩ := hbound other List.mem_cons_self
      refine clear_hole (ih hp.2) fun more left hmore hprefix => ?_
      obtain _ | ⟨c, more⟩ := more
      · rfl
      have hc := hapart other hother hletters entry hentry c more hmore
      -- a letter of the name would stand behind the hole
      obtain _ | ⟨next, p⟩ := p
      · simp [halfway] at hprefix
      cases next with
      | char d =>
        obtain rfl : c = d := (List.cons_prefix_cons.1 hprefix).1
        simp [hp.1 c rfl] at hc
      | hole next =>
        have hletter : [c] <+: halfway left (.hole next :: p) :=
          List.IsPrefix.trans (by simp) hprefix
        have hnil := eq_nil_of_prefix_hole (by simpa using beginsNoHole_of_isAlpha hc) hletter
        simp at hnil

theorem Spread.resolveSlots {calculator : Calculator} {position : Nat} (hp : Spread p)
    (hletters : ∀ entry, .hole entry ∈ p → IsLetterName entry.1) :
    bindings.resolveSlots calculator position (shown p) = .ok (shown p, []) := by
  induction p generalizing position with
  | nil => rw [shown, write_nil, Bindings.resolveSlots]
  | cons piece p ih =>
    have ih := fun position hp =>
      @ih position hp fun entry hentry => hletters entry (List.mem_cons_of_mem _ hentry)
    cases piece with
    | char c =>
      rw [shown, write_char, resolveSlots_cons fun hc => absurd hc hp.1, ← shown, ih _ hp.2]
      rfl
    | hole entry =>
      obtain ⟨hne, hletters⟩ := hletters entry List.mem_cons_self
      have hcopied : ∀ c ∈ entry.1.toList, c ≠ '$' ∧ c ≠ '(' := by
        rintro c hc
        constructor <;> rintro rfl <;> exact absurd (hletters _ hc) (by decide)
      rw [shown, write_hole, mark, List.cons_append, ← shown, resolveSlots_mark hne hcopied,
        ih _ hp.2]
      rfl

theorem Spread.fillIn {calculator : Calculator} (hp : Spread p)
    (hbound : ∀ entry, .hole entry ∈ p → entry ∈ bindings.named ∧ IsLetterName entry.1)
    (hdistinct : bindings.Distinct) (hapart : Apart bindings) :
    bindings.fillIn calculator (shown p) = .ok (filled p) := by
  by_cases hdollar : '$' ∈ shown p
  · have hprepared : Prepared bindings.named p :=
      ⟨hdistinct, fun entry hentry => (hbound entry hentry).1,
        fun entry hentry hmem => absurd ((hbound entry hentry).2.2 _ hmem) (by decide),
        fun entry hentry => hp.clear hbound hapart hentry⟩
    rw [fillIn_eq hdollar, hp.resolveSlots fun entry hentry => (hbound entry hentry).2]
    exact congrArg Except.ok hprepared.foldl_replaceAll
  · rw [fillIn_of_no_dollar hdollar, filled_of_no_dollar hdollar]

/-- A whole text with placeholders: nothing but spaces may stand behind the expression. -/
def TemplateWhole (bindings : Bindings) (tree : Tree) (pieces : List Piece) : Prop :=
  ∃ p n, Template bindings .expression tree p ∧ pieces = p ++ chars (List.replicate n ' ')

theorem TemplateWhole.fillIn {calculator : Calculator} (h : TemplateWhole bindings tree pieces)
    (hdistinct : bindings.Distinct) (hapart : Apart bindings) :
    bindings.fillIn calculator (shown pieces) = .ok (filled pieces) := by
  obtain ⟨p, n, htree, rfl⟩ := h
  refine Spread.fillIn (htree.spread.append (spread_chars (by simp)) fun c hc => ?_)
    (fun entry hentry => htree.bound entry ?_) hdistinct hapart
  · obtain _ | n := n
    · simp [chars] at hc
    · obtain rfl : ' ' = c := by simpa [chars, List.replicate_succ] using hc
      rfl
  · simpa [mem_chars] using hentry

theorem TemplateWhole.printsWhole (h : TemplateWhole bindings tree pieces) :
    PrintsWhole tree.asWritten (filled pieces) := by
  obtain ⟨p, n, htree, rfl⟩ := h
  exact ⟨filled p, n, htree.printsWritten, by simp [filled]⟩

theorem evaluate_of_fillIn {calculator : Calculator} {text out : List Char}
    (h : bindings.fillIn calculator text = .ok out) :
    calculator.evaluate text bindings = calculator.evaluatePlain out := by
  rw [Calculator.evaluate, h]
  rfl

/-- An expression with placeholders of letter names comes to what its tree comes to with the bound
values written out: each sign in front of its number, and in front of a power, a remainder or a
percentage that the number begins. Where no such operation begins with a negative value, that is
the value of the tree with the bound values at its leaves. -/
theorem evaluate_template (calculator : Calculator) (bindings : Bindings) (tree : Tree)
    (pieces : List Piece) (hdistinct : bindings.Distinct) (hapart : Apart bindings)
    (h : TemplateWhole bindings tree pieces)
    (hdepth : tree.asWritten.depth ≤ calculator.maxDepth) :
    Answers calculator.context (tree.asWritten.value calculator.context false)
        (calculator.evaluate (shown pieces) bindings) ∧
      (tree.steady → Answers calculator.context (tree.value calculator.context false)
        (calculator.evaluate (shown pieces) bindings)) := by
  have hanswers := answers_printed h.printsWhole hdepth
  rw [evaluate_of_fillIn (h.fillIn hdistinct hapart)]
  refine ⟨hanswers, fun hsteady => ?_⟩
  rwa [← tree.value_asWritten calculator.context false hsteady]

theorem template_digit {c : Char} {n : Nat} (hc : c.isDigit)
    (hvalue : Decimal.ofChars? [c] = some (Decimal.ofNat n)) :
    Template bindings .primary (Tree.number (Decimal.ofNat n)) [.char c] :=
  .number ⟨0, [c], [], by simpa using hc, .inl rfl, hvalue, rfl⟩

theorem template_integer {name : String} {n : Int}
    (hbound : (name, Decimal.ofInt n) ∈ bindings.named) (hname : IsLetterName name) :
    Template bindings .primary (Tree.number (Decimal.ofInt n)) [.hole (name, Decimal.ofInt n)] := by
  have hwritten : (Decimal.ofInt n).writtenOut = Decimal.ofInt n := by
    simp [Decimal.writtenOut, Decimal.ofInt, Decimal.integerAt, Integer.pow10]
  have h : Template bindings .primary (Tree.number (Decimal.ofInt n).writtenOut) _ :=
    .placeholder 0 hbound hname
  rwa [hwritten] at h

theorem apart_of_letters (h : ∀ entry ∈ bindings.named, IsLetterName entry.1) : Apart bindings := by
  intro _ _ _ other hother c rest hname
  exact (h other hother).2 c (by simp [hname])

/-- A square of a positive value, and a negative value behind a sign. -/
theorem evaluate_template_difference :
    let calculator : Calculator := ⟨.standard, Calculator.standardDepth⟩
    let bindings : Bindings := ⟨[("x", Decimal.ofInt (-2)), ("y", 3)], []⟩
    let tree : Tree := .operation .difference (.operation .power (.number 3) (.number 2))
      (.number (Decimal.ofInt (-2)))
    let pieces : List Piece :=
      [.hole ("y", 3), .char '^', .char '2', .char '-', .hole ("x", Decimal.ofInt (-2))]
    bindings.Distinct ∧ Apart bindings ∧ TemplateWhole bindings tree pieces ∧
      tree.asWritten.depth ≤ calculator.maxDepth ∧
      Answers calculator.context (tree.asWritten.value calculator.context false)
        (calculator.evaluate (shown pieces) bindings) ∧
      (tree.steady → Answers calculator.context (tree.value calculator.context false)
        (calculator.evaluate (shown pieces) bindings)) := by
  intro calculator bindings tree pieces
  have hdistinct : bindings.Distinct := by
    unfold Distinct
    decide
  have hx : IsLetterName "x" := ⟨by decide, by decide⟩
  have hy : IsLetterName "y" := ⟨by decide, by decide⟩
  have hapart : Apart bindings := apart_of_letters (by simpa [bindings] using ⟨hx, hy⟩)
  have hpower : (['^'], .power) ∈ tails := by decide
  have hdifference : ('-', .difference) ∈ sums := by decide
  have hminus : Template bindings .primary (.number (Decimal.ofInt (-2)))
      [.hole ("x", Decimal.ofInt (-2))] := template_integer List.mem_cons_self hx
  have hthree : Template bindings .primary (.number 3) [.hole ("y", 3)] :=
    template_integer (List.mem_cons_of_mem _ List.mem_cons_self) hy
  have hsquare : Template bindings .factor _ [.hole ("y", 3), .char '^', .char '2'] :=
    .tail hpower hthree (.cons 0 '^' .nil) (.primary (template_digit rfl rfl))
  have h : TemplateWhole bindings tree pieces := by
    refine ⟨pieces, 0, ?_, (List.append_nil _).symm⟩
    exact .sum hdifference (.term (.factor hsquare)) (.cons 0 '-' .nil) (.factor (.primary hminus))
  have hdepth : tree.asWritten.depth ≤ calculator.maxDepth := by decide
  exact ⟨hdistinct, hapart, h, hdepth,
    evaluate_template calculator bindings tree pieces hdistinct hapart h hdepth⟩

theorem evaluate_single {calculator : Calculator} {value : Decimal} {text : List Char}
    {answer : Except EvalError Decimal}
    (h : Template ⟨[("x", value)], []⟩ .expression tree pieces) (htext : shown pieces = text)
    (hplain : calculator.evaluatePlain (filled pieces) = answer) :
    calculator.evaluate text ⟨[("x", value)], []⟩ = answer := by
  have hwhole : TemplateWhole ⟨[("x", value)], []⟩ tree pieces :=
    ⟨pieces, 0, h, (List.append_nil _).symm⟩
  have hname : IsLetterName "x" := ⟨by decide, by decide⟩
  rw [← htext, ← hplain]
  exact evaluate_of_fillIn (hwhole.fillIn (by simp [Distinct]) (apart_of_letters (by simpa)))

/-- Where a placeholder is not an operand that holds its value: in front of a power the sign of a
negative value is taken last, and it takes a level. A longer name goes first if it is no word. A
zero is written without the zeros that its scale stands for. -/
theorem placeholder_differs_from_value :
    let calculator : Calculator := ⟨.standard, Calculator.standardDepth⟩
    let minusTwo : Bindings := ⟨[("x", Decimal.ofInt (-2))], []⟩
    let names : Bindings := ⟨[("x", 1), ("x+1", 7)], []⟩
    let zero : Decimal := Decimal.ofScaled 0 (-2000000)
    let square : Tree := .operation .power (.number (Decimal.ofInt (-2))) (.number 2)
    let increment : Tree := .operation .sum (.number 1) (.number 1)
    let modulo : Tree := .operation .remainder (.number zero) (.number 3)
    (Template minusTwo .expression square
        [.hole ("x", Decimal.ofInt (-2)), .char '^', .char '2'] ∧
      square.value .standard false = .ok 4 ∧
      calculator.evaluate "$x^2".toList minusTwo = .ok (Decimal.ofInt (-4))) ∧
    (Template names .expression increment [.hole ("x", 1), .char '+', .char '1'] ∧
      increment.value .standard false = .ok 2 ∧
      calculator.evaluate "$x+1".toList names = .ok 7) ∧
    (modulo.value .standard false = .error ⟨.exponentTooLarge, false⟩ ∧
      calculator.evaluate "$x%%3".toList ⟨[("x", zero)], []⟩ = .ok 0) ∧
    (Tree.depth (.number (Decimal.ofInt (-2))) = 1 ∧
      ∃ fault, Calculator.evaluate ⟨.standard, 1⟩ "$x".toList minusTwo =
        .error (.unreadable fault)) := by
  intro calculator minusTwo names zero square increment modulo
  have hx : IsLetterName "x" := ⟨by decide, by decide⟩
  have hpower : (['^'], .power) ∈ tails := by decide
  have htail : (['%', '%'], .remainder) ∈ tails := by decide
  have hsum : ('+', .sum) ∈ sums := by decide
  have hminus : Template minusTwo .primary (.number (Decimal.ofInt (-2)))
      [.hole ("x", Decimal.ofInt (-2))] := template_integer List.mem_cons_self hx
  have hsquare : Template minusTwo .expression square
      [.hole ("x", Decimal.ofInt (-2)), .char '^', .char '2'] :=
    .term (.factor (.tail hpower hminus (.cons 0 '^' .nil) (.primary (template_digit rfl rfl))))
  have hone : Template names .primary (.number 1) [.hole ("x", 1)] :=
    template_integer List.mem_cons_self hx
  have hincrement : Template names .expression increment [.hole ("x", 1), .char '+', .char '1'] :=
    .sum hsum (.term (.factor (.primary hone))) (.cons 0 '+' .nil)
      (.factor (.primary (template_digit rfl rfl)))
  have hnumber (x : Decimal) : (Tree.number x).value .standard false = .ok x := by
    rw [Tree.value]
    rfl
  have hremainder : Operator.remainder.apply .standard zero 3 = .error .exponentTooLarge := by
    decide +kernel
  have hsorted : [("x", (1 : Decimal)), ("x+1", 7)].mergeSort replacedBefore =
      [("x+1", 7), ("x", 1)] := by
    have hname (v w : Decimal) : replacedBefore ("x", v) ("x+1", w) = false := rfl
    simp [List.mergeSort, hname]
  have hlonger : names.fillIn calculator "$x+1".toList = .ok ['7'] := by
    have hresolve : names.resolveSlots calculator 0 "$x+1".toList = .ok ("$x+1".toList, []) := by
      decide +kernel
    rw [fillIn_eq (by decide), hresolve, Except.map, List.foldl_nil, hsorted]
    decide +kernel
  have hmodulo : Template ⟨[("x", zero)], []⟩ .expression _
      [.hole ("x", zero), .char '%', .char '%', .char '3'] :=
    .term (.factor (.tail htail (.placeholder 0 List.mem_cons_self hx)
      (.cons 0 '%' (.cons 0 '%' .nil)) (.primary (template_digit rfl rfl))))
  refine ⟨⟨hsquare, ?_, ?_⟩, ⟨hincrement, ?_, ?_⟩, ⟨?_, ?_⟩, ?_, ?_⟩
  · exact Tree.value_operation (hnumber _) (hnumber _) (by decide +kernel)
  · exact evaluate_single hsquare rfl (by decide +kernel)
  · exact Tree.value_operation (hnumber _) (hnumber _) (by decide +kernel)
  · exact (evaluate_of_fillIn hlonger).trans (by decide +kernel)
  · rw [Tree.value, hnumber, hnumber]
    exact congrArg (Except.mapError fun error => Failure.mk error false) hremainder
  · exact evaluate_single hmodulo (by decide) (by decide +kernel)
  · rw [Tree.depth]
  · have hplain : Calculator.evaluatePlain ⟨.standard, 1⟩ "-2".toList =
        .error (.unreadable ⟨.nestingTooDeep 1, 1⟩) := by decide +kernel
    exact ⟨_, evaluate_single (.term (.factor (.primary hminus))) rfl hplain⟩

end Reckoner.Syntax
