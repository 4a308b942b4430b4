import Reckoner.Proofs.Decimal.Order
import Reckoner.Proofs.Placeholder.Replacing
import Reckoner.Proofs.Syntax.Results

/-!
# Expressions with placeholders

A bound letter name may stand wherever a number may. Its value is written into the text in plain
form, so a negative value brings its sign along: it is an operand like any other, except that in
front of a power, a remainder or a percentage its sign is taken last.
-/

namespace Reckoner.Syntax

open Piece
open Grammar (Operator sums products)

/-! ## Templates -/

/-- Characters without a hole among them. -/
def chars (text : List Char) : List Piece := text.map .char

@[simp] theorem write_chars {fill : String × Decimal → List Char} {u : List Char} :
    write fill (chars u) = u := by
  induction u with
  | nil => rfl
  | cons c u ih => exact congrArg (c :: ·) ih

/-- A name made of letters. -/
def IsLetterName (name : String) : Prop := name ≠ "" ∧ ∀ c ∈ name.toList, c.isAlpha

/-- The pieces that print an arithmetic expression. A placeholder stands for a number, with the
value that its plain form shows. -/
inductive Template (bindings : Bindings) :
    (category : Category) → category.Node → List Piece → Prop where
  | placeholder {entry : String × Decimal} (n : Nat) :
    entry ∈ bindings.named → IsLetterName entry.1 →
    Template bindings .primary (Tree.number entry.2.writtenOut)
      (chars (List.replicate n ' ') ++ [.hole entry])
  | term {t : Tree} {p : List Piece} :
    Template bindings .term t p → Template bindings .expression t p
  | sum {sign : Char} {operator : Operator} {l r : Tree} {p q : List Piece} {o : List Char} :
    (sign, operator) ∈ sums → Template bindings .expression l p → Spaced [sign] o →
    Template bindings .term r q →
    Template bindings .expression (Tree.operation operator l r) (p ++ (chars o ++ q))
  | factor {t : Tree} {p : List Piece} :
    Template bindings .factor t p → Template bindings .term t p
  | product {sign : Char} {operator : Operator} {l r : Tree} {p q : List Piece} {o : List Char} :
    (sign, operator) ∈ products → Template bindings .term l p → Spaced [sign] o →
    Template bindings .factor r q →
    Template bindings .term (Tree.operation operator l r) (p ++ (chars o ++ q))
  | sign {t : Tree} {o : List Char} {p : List Piece} (negative : Bool) :
    Spaced [if negative then '-' else '+'] o → Template bindings .factor t p →
    Template bindings .factor (Tree.sign negative t) (chars o ++ p)
  | primary {t : Tree} {p : List Piece} :
    Template bindings .primary t p → Template bindings .factor t p
  | tail {signs : List Char} {operator : Operator} {l r : Tree} {p q : List Piece}
    {o : List Char} :
    (signs, operator) ∈ tails → Template bindings .primary l p → Spaced signs o →
    Template bindings .factor r q →
    Template bindings .factor (Tree.operation operator l r) (p ++ (chars o ++ q))
  | juxtaposed {f : Builtin.Unary} {t : Tree} {u : List Char} {p : List Piece} :
    Named (.unary f) u → Template bindings .factor t p → Juxtaposed (shown p) →
    Template bindings .factor (Tree.unary f t) (chars u ++ p)
  | bracket {t : Tree} {a b : List Char} {p : List Piece} :
    Spaced ['('] a → Template bindings .expression t p → Spaced [')'] b →
    Template bindings .primary (Tree.bracket t) (chars a ++ (p ++ chars b))
  | number {x : Decimal} {u : List Char} :
    Literal x u → Template bindings .primary (Tree.number x) (chars u)
  | constant {f : Builtin.Constant} {u b : List Char} :
    Named (.constant f) u → b = [] ∨ Spaced ['(', ')'] b →
    Template bindings .primary (Tree.constant f) (chars u ++ chars b)
  | unary {f : Builtin.Unary} {t : Tree} {u a b : List Char} {p : List Piece} :
    Named (.unary f) u → Spaced ['('] a → Template bindings .expression t p → Spaced [')'] b →
    Template bindings .primary (Tree.unary f t) (chars u ++ (chars a ++ (p ++ chars b)))
  | binary {f : Builtin.Binary} {l r : Tree} {u a c b : List Char} {p q : List Piece} :
    Named (.binary f) u → Spaced ['('] a → Template bindings .expression l p → Spaced [','] c →
    Template bindings .expression r q → Spaced [')'] b →
    Template bindings .primary (Tree.binary f l r)
      (chars u ++ (chars a ++ (p ++ (chars c ++ (q ++ chars b)))))
  | variadic {kind : Aggregate} {ts : Arguments} {u a b : List Char} {p : List Piece} :
    Named (.variadic kind) u → Spaced ['('] a → Template bindings .arguments ts p →
    Spaced [')'] b →
    Template bindings .primary (Tree.variadic kind ts) (chars u ++ (chars a ++ (p ++ chars b)))
  | one {t : Tree} {p : List Piece} :
    Template bindings .expression t p → Template bindings .arguments (Arguments.one t) p
  | more {ts : Arguments} {t : Tree} {c : List Char} {p q : List Piece} :
    Template bindings .arguments ts p → Spaced [','] c → Template bindings .expression t q →
    Template bindings .arguments (Arguments.more ts t) (p ++ (chars c ++ q))

/-- The categories of arithmetic expressions. -/
def arithmetic : List Category := [.expression, .term, .factor, .primary, .arguments]

/-- Expressions without conditionals are expressions without placeholders. -/
theorem Prints.template {category : Category} {node : category.Node} {u : List Char}
    (h : Prints category node u) (bindings : Bindings) (hcategory : category ∈ arithmetic)
    (hplain : category.unconditional node) : Template bindings category node (chars u) := by
  have happend (u v : List Char) : chars (u ++ v) = chars u ++ chars v := List.map_append
  have hboth {a b : Bool} (h : (a && b) = true) : a = true ∧ b = true := by simpa using h
  induction h with
  | term _ ih => exact .term (ih (by decide) hplain)
  | factor _ ih => exact .factor (ih (by decide) hplain)
  | primary _ ih => exact .primary (ih (by decide) hplain)
  | one _ ih => exact .one (ih (by decide) hplain)
  | number hliteral => exact .number hliteral
  | sum hoperator _ ho _ ihl ihr =>
    obtain ⟨hl, hr⟩ := hboth hplain
    rw [happend, happend]
    exact .sum hoperator (ihl (by decide) hl) ho (ihr (by decide) hr)
  | product hoperator _ ho _ ihl ihr =>
    obtain ⟨hl, hr⟩ := hboth hplain
    rw [happend, happend]
    exact .product hoperator (ihl (by decide) hl) ho (ihr (by decide) hr)
  | tail hoperator _ ho _ ihl ihr =>
    obtain ⟨hl, hr⟩ := hboth hplain
    rw [happend, happend]
    exact .tail hoperator (ihl (by decide) hl) ho (ihr (by decide) hr)
  | sign negative ho _ ih =>
    rw [happend]
    exact .sign negative ho (ih (by decide) hplain)
  | juxtaposed hname _ hplace ih =>
    rw [happend]
    exact .juxtaposed hname (ih (by decide) hplain) (by rwa [shown, write_chars])
  | bracket ha _ hb ih =>
    rw [happend, happend]
    exact .bracket ha (ih (by decide) hplain) hb
  | constant hname hb =>
    rw [happend]
    exact .constant hname hb
  | unary hname ha _ hb ih =>
    rw [happend, happend, happend]
    exact .unary hname ha (ih (by decide) hplain) hb
  | binary hname ha _ hc _ hb ihl ihr =>
    obtain ⟨hl, hr⟩ := hboth hplain
    rw [happend, happend, happend, happend, happend]
    exact .binary hname ha (ihl (by decide) hl) hc (ihr (by decide) hr) hb
  | variadic hname ha _ hb ih =>
    rw [happend, happend, happend]
    exact .variadic hname ha (ih (by decide) hplain) hb
  | more _ hc _ ihs ih =>
    obtain ⟨hs, ht⟩ := hboth hplain
    rw [happend, happend]
    exact .more (ihs (by decide) hs) hc (ih (by decide) ht)
  | conditional => simp [Category.unconditional, Tree.unconditional] at hplain
  | _ => simp [arithmetic] at hcategory

/-! ## Negative values -/

/-- What a negative number is the negative of. -/
def Tree.minus? : Tree → Option Tree
  | .number x => if x.isNegative then some (.number (-x)) else none
  | _ => none

/-- The operations whose left operand is a single number or group. -/
def isTail : Operator → Bool
  | .power | .remainder | .percentage => true
  | _ => false

mutual

/-- The tree that an expression says when its numbers are written out: a negative number is a
number behind a sign, and the sign stands in front of the whole power, remainder or percentage
that the number begins. -/
def Tree.asWritten : Tree → Tree
  | .number x => if x.isNegative then .sign true (.number (-x)) else .number x
  | .sign negative operand => .sign negative operand.asWritten
  | .operation operator left right =>
    match if isTail operator then left.minus? else none with
    | some positive => .sign true (.operation operator positive right.asWritten)
    | none => .operation operator left.asWritten right.asWritten
  | .bracket inner => .bracket inner.asWritten
  | .constant function => .constant function
  | .unary function argument => .unary function argument.asWritten
  | .binary function left right => .binary function left.asWritten right.asWritten
  | .variadic kind arguments => .variadic kind arguments.asWritten
  | .conditional negated test first second => .conditional negated test first second

def Arguments.asWritten : Arguments → Arguments
  | .one argument => .one argument.asWritten
  | .more arguments argument => .more arguments.asWritten argument.asWritten

end

mutual

/-- Whether no power, remainder or percentage begins with a negative number. -/
def Tree.steady : Tree → Prop
  | .sign _ operand => operand.steady
  | .operation operator left right =>
    (isTail operator → left.minus? = none) ∧ left.steady ∧ right.steady
  | .bracket inner => inner.steady
  | .unary _ argument => argument.steady
  | .binary _ left right => left.steady ∧ right.steady
  | .variadic _ arguments => arguments.steady
  | .number _ | .constant _ | .conditional .. => True

def Arguments.steady : Arguments → Prop
  | .one argument => argument.steady
  | .more arguments argument => arguments.steady ∧ argument.steady

end

variable {bindings : Bindings} {category : Category} {node : category.Node} {tree : Tree}
  {pieces p q : List Piece} {u o : List Char}

mutual

theorem Tree.value_asWritten (ctx : Context) (skipping : Bool) (tree : Tree) (h : tree.steady) :
    tree.asWritten.value ctx skipping = tree.value ctx skipping := by
  cases tree with
  | number x =>
    rw [Tree.asWritten]
    split
    · simp only [Tree.value]
      exact congrArg Except.ok (Decimal.negate_twice x)
    · rfl
  | sign negative operand =>
    simp only [Tree.asWritten, Tree.value, operand.value_asWritten ctx skipping h]
  | operation operator left right =>
    obtain ⟨hminus, hleft, hright⟩ := h
    have hnone : (if isTail operator then left.minus? else none) = none := by
      split
      · exact hminus ‹_›
      · rfl
    simp only [Tree.asWritten, hnone, Tree.value, left.value_asWritten ctx skipping hleft,
      right.value_asWritten ctx skipping hright]
  | bracket inner => simp only [Tree.asWritten, Tree.value, inner.value_asWritten ctx skipping h]
  | unary function argument =>
    simp only [Tree.asWritten, Tree.value, argument.value_asWritten ctx skipping h]
  | binary function left right =>
    simp only [Tree.asWritten, Tree.value, left.value_asWritten ctx skipping h.1,
      right.value_asWritten ctx skipping h.2]
  | variadic kind arguments =>
    simp only [Tree.asWritten, Tree.value, arguments.values_asWritten ctx skipping h]
  | constant | conditional => rw [Tree.asWritten]

theorem Arguments.values_asWritten (ctx : Context) (skipping : Bool) (arguments : Arguments)
    (h : arguments.steady) :
    arguments.asWritten.values ctx skipping = arguments.values ctx skipping := by
  cases arguments with
  | one argument =>
    simp only [Arguments.asWritten, Arguments.values, argument.value_asWritten ctx skipping h]
  | more arguments argument =>
    simp only [Arguments.asWritten, Arguments.values, arguments.values_asWritten ctx skipping h.1,
      argument.value_asWritten ctx skipping h.2]

end

/-! ## What a filled text prints -/

theorem minus?_of_negative {x : Decimal} (h : x.isNegative) :
    (Tree.number x).minus? = some (.number (-x)) := if_pos h

theorem minus?_of_not_negative {x : Decimal} (h : x.isNegative = false) :
    (Tree.number x).minus? = none := if_neg (by simp [h])

theorem asWritten_of_minus? {positive : Tree} (h : tree.minus? = some positive) :
    tree.asWritten = .sign true positive := by
  cases tree with
  | number x =>
    rw [Tree.minus?] at h
    split at h
    · next hx => rw [Tree.asWritten, if_pos hx, Option.some.inj h]
    · simp at h
  | _ => simp [Tree.minus?] at h

/-- A phrase that is written out. A negative number is no primary any more, but a factor. -/
def PrintsWritten : (category : Category) → category.Node → List Char → Prop
  | .primary, t, u => Tree.minus? t = none ∧ Prints .primary (Tree.asWritten t) u ∨
    ∃ positive o v, Tree.minus? t = some positive ∧ Spaced ['-'] o ∧ Prints .primary positive v ∧
      u = o ++ v
  | .expression, t, u => Prints .expression (Tree.asWritten t) u
  | .term, t, u => Prints .term (Tree.asWritten t) u
  | .factor, t, u => Prints .factor (Tree.asWritten t) u
  | .arguments, ts, u => Prints .arguments (Arguments.asWritten ts) u
  | _, _, _ => False

theorem isTail_of_mem {signs : List Char} {operator : Operator} (h : (signs, operator) ∈ tails) :
    isTail operator := by
  have htable : ∀ entry ∈ tails, isTail entry.2 := by decide
  exact htable _ h

theorem asWritten_operation {sign : Char} {operator : Operator} {l r : Tree}
    (h : (sign, operator) ∈ sums ++ products) :
    (Tree.operation operator l r).asWritten = .operation operator l.asWritten r.asWritten := by
  have htable : ∀ entry ∈ sums ++ products, isTail entry.2 = false := by decide
  rw [Tree.asWritten, htable _ h]
  rfl

theorem Literal.spaced {x : Decimal} (h : Literal x u) (n : Nat) :
    Literal x (List.replicate n ' ' ++ u) := by
  obtain ⟨m, whole, fraction, hwhole, hfraction, hvalue, rfl⟩ := h
  exact ⟨n + m, whole, fraction, hwhole, hfraction, hvalue, by
    rw [← List.append_assoc, List.replicate_append_replicate]⟩

theorem Literal.not_negative {x : Decimal} (h : Literal x u) : x.isNegative = false := by
  obtain ⟨n, whole, fraction, hwhole, hfraction, hvalue, -⟩ := h
  have hminus : '-' ∉ whole ++ fraction := by
    intro hmem
    obtain hmem | hmem := List.mem_append.1 hmem
    · exact absurd (hwhole _ hmem) (by decide)
    obtain rfl | ⟨digits, hdigits, rfl⟩ := hfraction
    · simp at hmem
    · exact absurd (hdigits '-' (by simpa using hmem)) (by decide)
  have := Decimal.nonneg_of_ofChars? hvalue hminus
  simpa [Decimal.isNegative] using this

theorem isNegative_writtenOut (x : Decimal) : x.writtenOut.isNegative = x.isNegative := by
  rw [Decimal.isNegative, Decimal.isNegative, decide_eq_decide, ← Decimal.toRat_lt_zero,
    ← Decimal.toRat_lt_zero, Decimal.toRat_writtenOut]

/-- A value in plain form is a number that may have a sign in front. -/
theorem printsWritten_toChars (x : Decimal) (n : Nat) : PrintsWritten .primary
    (Tree.number x.writtenOut) (List.replicate n ' ' ++ x.toChars) := by
  have hsigns := isNegative_writtenOut x
  obtain ⟨hsign, hpositive⟩ | ⟨hsign, hpositive⟩ := x.nonneg_or
  · rw [hsign] at hsigns
    refine .inl ⟨minus?_of_not_negative hsigns, ?_⟩
    rw [Tree.asWritten, hsigns]
    exact .number ((literal_toChars hpositive).spaced n)
  · rw [hsign] at hsigns
    refine .inr ⟨_, List.replicate n ' ' ++ ['-'], (-x).toChars, minus?_of_negative hsigns,
      .cons n '-' .nil, .number ?_, ?_⟩
    · rw [← Decimal.writtenOut_neg]
      exact literal_toChars hpositive
    · rw [Decimal.toChars_neg hsign]
      simp

/-- A number behind a sign stands for what it is, in front of whatever follows. -/
theorem PrintsWritten.factor {t : Tree} (h : PrintsWritten .primary t u) :
    Prints .factor t.asWritten u := by
  obtain ⟨-, h⟩ | ⟨positive, o, v, hminus, ho, hv, rfl⟩ := h
  · exact .primary h
  · rw [asWritten_of_minus? hminus]
    exact .sign true ho (.primary hv)

theorem PrintsWritten.tail {signs : List Char} {operator : Operator} {l r : Tree}
    {v : List Char} (hoperator : (signs, operator) ∈ tails) (h : PrintsWritten .primary l u)
    (ho : Spaced signs o) (hr : Prints .factor r.asWritten v) :
    Prints .factor (Tree.operation operator l r).asWritten (u ++ (o ++ v)) := by
  have htail := isTail_of_mem hoperator
  rw [Tree.asWritten, if_pos htail]
  obtain ⟨hminus, h⟩ | ⟨positive, o', v', hminus, ho', hv, rfl⟩ := h
  · rw [hminus]
    exact .tail hoperator h ho hr
  · rw [hminus, List.append_assoc]
    exact .sign true ho' (.tail hoperator hv ho hr)

/-- A value opens no group and continues no name. -/
theorem juxtaposed_toChars (x : Decimal) (text : List Char) : Juxtaposed (x.toChars ++ text) := by
  obtain ⟨c, rest, hcons, hc, -⟩ := figures_toChars x
  have hchar : c ≠ ' ' ∧ c ≠ '(' ∧ c.isAlpha = false := by
    obtain rfl | hc := hc
    · decide
    · refine ⟨?_, ?_, ?_⟩
      · rintro rfl; exact absurd hc (by decide)
      · rintro rfl; exact absurd hc (by decide)
      · by_contra halpha
        have := Grammar.not_beginsNumber_of_isAlpha (by simpa using halpha)
        exact absurd (show Grammar.beginsNumber c from hc) (by simp [this])
  rw [Juxtaposed, hcons, List.cons_append, significant_cons hchar.1]
  simpa using ⟨hchar.2.1, hchar.2.2⟩

theorem Juxtaposed.filled (h : Juxtaposed (shown pieces)) : Juxtaposed (filled pieces) := by
  obtain ⟨hopen, hletter⟩ := h
  constructor
  · clear hletter
    induction pieces with
    | nil => exact hopen
    | cons piece pieces ih =>
      cases piece with
      | hole entry => exact (juxtaposed_toChars entry.2 _).1
      | char c =>
        by_cases hspace : c = ' '
        · subst hspace
          have hskip (text : List Char) : significant (' ' :: text) = significant text :=
            significant_spaces 1 text
          rw [Piece.filled, write_char, hskip]
          rw [shown, write_char, hskip] at hopen
          exact ih hopen
        · rw [Piece.filled, write_char, significant_cons hspace]
          rwa [shown, write_char, significant_cons hspace] at hopen
  · cases pieces with
    | nil => exact hletter
    | cons piece pieces =>
      cases piece with
      | char c => exact hletter
      | hole entry => exact (juxtaposed_toChars entry.2 _).2

theorem Template.printsWritten (h : Template bindings category node pieces) :
    PrintsWritten category node (filled pieces) := by
  induction h with
  | @placeholder entry n _ _ =>
    have h := printsWritten_toChars entry.2 n
    simpa [filled] using h
  | term _ ih => exact Prints.term ih
  | factor _ ih => exact Prints.factor ih
  | primary _ ih => exact ih.factor
  | one _ ih => exact Prints.one ih
  | @number x u hliteral =>
    have hsign := hliteral.not_negative
    refine .inl ⟨minus?_of_not_negative hsign, ?_⟩
    rw [Tree.asWritten, hsign, filled, write_chars]
    exact .number hliteral
  | sum hoperator _ ho _ ihl ihr =>
    change Prints .expression (Tree.asWritten _) _
    rw [asWritten_operation (List.mem_append_left products hoperator)]
    simpa only [filled, write_append, write_chars] using Prints.sum hoperator ihl ho ihr
  | product hoperator _ ho _ ihl ihr =>
    change Prints .term (Tree.asWritten _) _
    rw [asWritten_operation (List.mem_append_right sums hoperator)]
    simpa only [filled, write_append, write_chars] using Prints.product hoperator ihl ho ihr
  | sign negative ho _ ih =>
    change Prints .factor (Tree.asWritten _) _
    rw [Tree.asWritten]
    simpa only [filled, write_append, write_chars] using Prints.sign negative ho ih
  | tail hoperator _ ho _ ihl ihr =>
    change Prints .factor (Tree.asWritten _) _
    simpa only [filled, write_append, write_chars] using ihl.tail hoperator ho ihr
  | juxtaposed hname _ hplace ih =>
    change Prints .factor (Tree.asWritten _) _
    rw [Tree.asWritten]
    simpa only [filled, write_append, write_chars] using Prints.juxtaposed hname ih hplace.filled
  | bracket ha _ hb ih =>
    refine .inl ⟨rfl, ?_⟩
    rw [Tree.asWritten]
    simpa only [filled, write_append, write_chars] using Prints.bracket ha ih hb
  | constant hname hb =>
    refine .inl ⟨rfl, ?_⟩
    rw [Tree.asWritten]
    simpa only [filled, write_append, write_chars] using Prints.constant hname hb
  | unary hname ha _ hb ih =>
    refine .inl ⟨rfl, ?_⟩
    rw [Tree.asWritten]
    simpa only [filled, write_append, write_chars] using Prints.unary hname ha ih hb
  | binary hname ha _ hc _ hb ihl ihr =>
    refine .inl ⟨rfl, ?_⟩
    rw [Tree.asWritten]
    simpa only [filled, write_append, write_chars] using Prints.binary hname ha ihl hc ihr hb
  | variadic hname ha _ hb ih =>
    refine .inl ⟨rfl, ?_⟩
    rw [Tree.asWritten]
    simpa only [filled, write_append, write_chars] using Prints.variadic hname ha ih hb
  | more _ hc _ ihs ih =>
    change Prints .arguments (Arguments.asWritten _) _
    rw [Arguments.asWritten]
    simpa only [filled, write_append, write_chars] using Prints.more ihs hc ih

end Reckoner.Syntax
