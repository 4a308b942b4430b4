import Reckoner.Proofs.Grammar.Brackets
import Reckoner.Proofs.Reading.Places
import Reckoner.Proofs.Syntax.Tree

/-!
# Printed trees

Which texts print a tree: the grammar of expressions and statements without a reader. Any number
of spaces may stand before a sign, a name or a number. Sums and products group from the left.
The operand of a sign, of a function without parentheses or behind a power, a remainder or a
percentage is a factor to the end, so it is the longest factor at its place.
-/

namespace Reckoner.Syntax

open Grammar (Operator Relation sums products)

/-! ## Tokens -/

/-- The name of a builtin function, after spaces. -/
def Named (function : Builtin) (text : List Char) : Prop :=
  ∃ n name, Builtin.ofName? name = some function ∧ text = List.replicate n ' ' ++ name.toList

/-- Digits with at most one point among them, after spaces. -/
def Literal (value : Decimal) (text : List Char) : Prop :=
  ∃ n whole fraction, (∀ c ∈ whole, c.isDigit) ∧
    (fraction = [] ∨ ∃ digits, (∀ c ∈ digits, c.isDigit) ∧ fraction = '.' :: digits) ∧
    Decimal.ofChars? (whole ++ fraction) = some value ∧
    text = List.replicate n ' ' ++ (whole ++ fraction)

/-- The operators of a factor, with their signs. -/
def tails : List (List Char × Operator) :=
  [(['^'], .power), (['%', '%'], .remainder), (['%'], .percentage)]

theorem cons_of_mem_tails {signs : List Char} {operator : Operator}
    (h : (signs, operator) ∈ tails) : ∃ c rest, signs = c :: rest ∧ (c = '^' ∨ c = '%') := by
  simp only [tails, List.mem_cons, Prod.mk.injEq, List.not_mem_nil, or_false] at h
  obtain ⟨rfl, -⟩ | ⟨rfl, -⟩ | ⟨rfl, -⟩ := h <;> simp

def relations : List (List Char × Relation) :=
  [(['>'], .greater), (['>', '='], .atLeast), (['<'], .less), (['<', '='], .atMost),
    (['='], .equal), (['!', '='], .unequal)]

theorem cons_of_mem_relations {signs : List Char} {relation : Relation}
    (h : (signs, relation) ∈ relations) :
    ∃ c rest, signs = c :: rest ∧ (c = '>' ∨ c = '<' ∨ c = '=' ∨ c = '!') := by
  simp only [relations, List.mem_cons, Prod.mk.injEq, List.not_mem_nil, or_false] at h
  obtain ⟨rfl, -⟩ | ⟨rfl, -⟩ | ⟨rfl, -⟩ | ⟨rfl, -⟩ | ⟨rfl, -⟩ | ⟨rfl, -⟩ := h <;> simp

/-- `&` and `|`. -/
def connectives : List (Char × Bool) := [('&', true), ('|', false)]

/-- What may follow the name of a unary function without parentheses: a parenthesis would open its
arguments, and a letter would belong to the name. -/
def Juxtaposed (text : List Char) : Prop :=
  significant text ≠ some '(' ∧ ∀ c ∈ text.head?, !c.isAlpha

/-! ## Phrases -/

inductive Category where
  | expression
  | term
  | factor
  | primary
  | arguments
  | statement
  | conditions
  | condition
  | clause
  deriving DecidableEq, Repr

/-- What a phrase of a category says. -/
abbrev Category.Node : Category → Type
  | .expression | .term | .factor | .primary => Tree
  | .arguments => Arguments
  | .statement | .conditions | .condition | .clause => Statement

/-- The texts that print a phrase. -/
inductive Prints : (category : Category) → category.Node → List Char → Prop where
  | term {t : Tree} {u : List Char} : Prints .term t u → Prints .expression t u
  | sum {sign : Char} {operator : Operator} {l r : Tree} {u o v : List Char} :
    (sign, operator) ∈ sums → Prints .expression l u → Spaced [sign] o → Prints .term r v →
    Prints .expression (Tree.operation operator l r) (u ++ (o ++ v))
  | factor {t : Tree} {u : List Char} : Prints .factor t u → Prints .term t u
  | product {sign : Char} {operator : Operator} {l r : Tree} {u o v : List Char} :
    (sign, operator) ∈ products → Prints .term l u → Spaced [sign] o → Prints .factor r v →
    Prints .term (Tree.operation operator l r) (u ++ (o ++ v))
  | sign {t : Tree} {o u : List Char} (negative : Bool) :
    Spaced [if negative then '-' else '+'] o → Prints .factor t u →
    Prints .factor (Tree.sign negative t) (o ++ u)
  | primary {t : Tree} {u : List Char} : Prints .primary t u → Prints .factor t u
  | tail {signs : List Char} {operator : Operator} {l r : Tree} {u o v : List Char} :
    (signs, operator) ∈ tails → Prints .primary l u → Spaced signs o → Prints .factor r v →
    Prints .factor (Tree.operation operator l r) (u ++ (o ++ v))
  | juxtaposed {f : Builtin.Unary} {t : Tree} {u v : List Char} :
    Named (.unary f) u → Prints .factor t v → Juxtaposed v →
    Prints .factor (Tree.unary f t) (u ++ v)
  | bracket {t : Tree} {a u b : List Char} :
    Spaced ['('] a → Prints .expression t u → Spaced [')'] b →
    Prints .primary (Tree.bracket t) (a ++ (u ++ b))
  | number {x : Decimal} {u : List Char} : Literal x u → Prints .primary (Tree.number x) u
  | constant {f : Builtin.Constant} {u p : List Char} :
    Named (.constant f) u → p = [] ∨ Spaced ['(', ')'] p →
    Prints .primary (Tree.constant f) (u ++ p)
  | unary {f : Builtin.Unary} {t : Tree} {u a v b : List Char} :
    Named (.unary f) u → Spaced ['('] a → Prints .expression t v → Spaced [')'] b →
    Prints .primary (Tree.unary f t) (u ++ (a ++ (v ++ b)))
  | binary {f : Builtin.Binary} {l r : Tree} {u a v c w b : List Char} :
    Named (.binary f) u → Spaced ['('] a → Prints .expression l v → Spaced [','] c →
    Prints .expression r w → Spaced [')'] b →
    Prints .primary (Tree.binary f l r) (u ++ (a ++ (v ++ (c ++ (w ++ b)))))
  | variadic {kind : Aggregate} {ts : Arguments} {u a v b : List Char} :
    Named (.variadic kind) u → Spaced ['('] a → Prints .arguments ts v → Spaced [')'] b →
    Prints .primary (Tree.variadic kind ts) (u ++ (a ++ (v ++ b)))
  | conditional {negated : Bool} {s : Statement} {l r : Tree} {u a v c w d x b : List Char} :
    Named (.conditional negated) u → Spaced ['('] a → Prints .statement s v → Spaced [','] c →
    Prints .expression l w → Spaced [','] d → Prints .expression r x → Spaced [')'] b →
    Prints .primary (Tree.conditional negated s l r)
      (u ++ (a ++ (v ++ (c ++ (w ++ (d ++ (x ++ b)))))))
  | one {t : Tree} {u : List Char} : Prints .expression t u → Prints .arguments (Arguments.one t) u
  | more {ts : Arguments} {t : Tree} {u c v : List Char} :
    Prints .arguments ts u → Spaced [','] c → Prints .expression t v →
    Prints .arguments (Arguments.more ts t) (u ++ (c ++ v))
  | conditions {s : Statement} {u : List Char} : Prints .conditions s u → Prints .statement s u
  /-- A connective that joins nothing before the end of a statement. -/
  | dangling {sign : Char} {conjunction : Bool} {s : Statement} {u o : List Char} :
    (sign, conjunction) ∈ connectives → Prints .conditions s u → Spaced [sign] o →
    Prints .statement s (u ++ o)
  | condition {s : Statement} {u : List Char} : Prints .condition s u → Prints .conditions s u
  | join {sign : Char} {conjunction : Bool} {l r : Statement} {u o v : List Char} :
    (sign, conjunction) ∈ connectives → Prints .conditions l u → Spaced [sign] o →
    Prints .condition r v → Prints .conditions (Statement.join conjunction l r) (u ++ (o ++ v))
  | clause {s : Statement} {u : List Char} : Prints .clause s u → Prints .condition s u
  | negation {s : Statement} {o u : List Char} :
    Spaced ['!'] o → Prints .clause s u → Prints .condition (Statement.negation s) (o ++ u)
  | group {s : Statement} {a u b : List Char} :
    Spaced ['('] a → Prints .statement s u → Spaced [')'] b →
    Prints .clause (Statement.group s) (a ++ (u ++ b))
  | truth {t : Tree} {u : List Char} :
    Prints .expression t u → Prints .clause (Statement.truth t) u
  | comparison {signs : List Char} {relation : Relation} {l r : Tree} {u o v : List Char} :
    (signs, relation) ∈ relations → Prints .expression l u → Spaced signs o →
    Prints .expression r v → Prints .clause (Statement.comparison relation l r) (u ++ (o ++ v))

/-! ## Nesting of operations -/

theorem Tree.depth_operation {sign : Char} {operator : Operator} {l r : Tree}
    (h : (sign, operator) ∈ sums ++ products) :
    (Tree.operation operator l r).depth = max l.depth r.depth := by
  simp only [sums, products, List.cons_append, List.nil_append, List.mem_cons, Prod.mk.injEq,
    List.not_mem_nil, or_false] at h
  obtain ⟨-, rfl⟩ | ⟨-, rfl⟩ | ⟨-, rfl⟩ | ⟨-, rfl⟩ := h <;> simp only [Tree.depth]

theorem Tree.depth_tail {signs : List Char} {operator : Operator} {l r : Tree}
    (h : (signs, operator) ∈ tails) :
    (Tree.operation operator l r).depth = max l.depth (r.depth + 1) := by
  simp only [tails, List.mem_cons, Prod.mk.injEq, List.not_mem_nil, or_false] at h
  obtain ⟨-, rfl⟩ | ⟨-, rfl⟩ | ⟨-, rfl⟩ := h <;> simp only [Tree.depth]

/-! ## Chains -/

/-- Printed operands with operators between them, which belong to the left. Terms and expressions are
both of this form, so what holds of one holds of the other for the same reason. -/
inductive Chained (operators : List (Char × Operator)) (operand : Tree → List Char → Prop) :
    Tree → List Char → Prop where
  | first {t : Tree} {u : List Char} : operand t u → Chained operators operand t u
  | next {sign : Char} {operator : Operator} {l r : Tree} {u o v : List Char} :
    (sign, operator) ∈ operators → Chained operators operand l u → Spaced [sign] o → operand r v →
    Chained operators operand (.operation operator l r) (u ++ (o ++ v))

theorem Chained.term {t : Tree} {u : List Char} (h : Chained products (Prints .factor) t u) :
    Prints .term t u := by
  induction h with
  | first h => exact .factor h
  | next hop _ ho hr ih => exact .product hop ih ho hr

theorem Chained.expression {t : Tree} {u : List Char} (h : Chained sums (Prints .term) t u) :
    Prints .expression t u := by
  induction h with
  | first h => exact .term h
  | next hop _ ho hr ih => exact .sum hop ih ho hr

theorem Prints.chainedTerm {t : Tree} {u : List Char} (h : Prints .term t u) :
    Chained products (Prints .factor) t u := by
  match h with
  | .factor h => exact .first h
  | .product hop hl ho hr => exact .next hop (Prints.chainedTerm hl) ho hr

theorem Prints.chainedExpression {t : Tree} {u : List Char} (h : Prints .expression t u) :
    Chained sums (Prints .term) t u := by
  match h with
  | .term h => exact .first h
  | .sum hop hl ho hr => exact .next hop (Prints.chainedExpression hl) ho hr

/-! ## How phrases begin -/

/-- The names of builtin functions are made of letters. -/
theorem letters_of_ofName? {function : Builtin} {name : String}
    (h : Builtin.ofName? name = some function) :
    name.toList ≠ [] ∧ ∀ c ∈ name.toList, c.isAlpha := by
  have hall : ∀ entry ∈ Builtin.table,
      entry.1.toList ≠ [] ∧ ∀ c ∈ entry.1.toList, c.isAlpha := by
    decide
  obtain ⟨before, after, htable, -⟩ := List.lookup_eq_some_iff.1 h
  exact hall (name, function) (by rw [htable]; simp)

theorem Named.begins {function : Builtin} {text : List Char} (h : Named function text) :
    ∃ c, significant text = some c ∧ c.isAlpha := by
  obtain ⟨n, name, hname, rfl⟩ := h
  obtain ⟨hne, hletters⟩ := letters_of_ofName? hname
  obtain ⟨c, letters, hlist⟩ := List.exists_cons_of_ne_nil hne
  have hc : c.isAlpha := hletters c (by simp [hlist])
  refine ⟨c, ?_, hc⟩
  rw [significant_spaces, hlist, significant_cons (by rintro rfl; exact absurd hc (by decide))]

theorem Named.significant_ne {function : Builtin} {name : List Char} (h : Named function name)
    {c : Char} (hc : c.isAlpha = false) (rest : List Char) :
    significant (name ++ rest) ≠ some c := by
  obtain ⟨d, hd, halpha⟩ := h.begins
  rw [significant_append hd]
  rintro heq
  obtain rfl : d = c := by simpa using heq
  simp [hc] at halpha

theorem begins_of_ofChars? {value : Decimal} {whole fraction : List Char}
    (hwhole : ∀ c ∈ whole, c.isDigit)
    (hfraction : fraction = [] ∨
      ∃ digits, (∀ c ∈ digits, c.isDigit) ∧ fraction = '.' :: digits)
    (hvalue : Decimal.ofChars? (whole ++ fraction) = some value) :
    ∃ c rest, whole ++ fraction = c :: rest ∧ Grammar.beginsNumber c := by
  cases whole with
  | cons c whole => exact ⟨c, whole ++ fraction, rfl, by simp [Grammar.beginsNumber, hwhole c]⟩
  | nil =>
    obtain rfl | ⟨digits, -, rfl⟩ := hfraction
    · rw [show Decimal.ofChars? ([] ++ []) = none from rfl] at hvalue
      exact absurd hvalue (by simp)
    · exact ⟨'.', digits, rfl, rfl⟩

theorem Literal.begins {value : Decimal} {text : List Char} (h : Literal value text) :
    ∃ c, significant text = some c ∧ Grammar.beginsNumber c := by
  obtain ⟨n, whole, fraction, hwhole, hfraction, hvalue, rfl⟩ := h
  obtain ⟨c, rest, hcons, hc⟩ := begins_of_ofChars? hwhole hfraction hvalue
  refine ⟨c, ?_, hc⟩
  rw [significant_spaces, hcons, significant_cons (by rintro rfl; exact absurd hc (by decide))]

/-- A condition may begin with `!`, any other phrase begins as an expression does. -/
def Category.begins (category : Category) (c : Char) : Bool :=
  Grammar.beginsExpression c ||
    [.statement, .conditions, .condition].contains category && c == '!'

theorem Prints.begins {category : Category} {node : category.Node} {text : List Char}
    (h : Prints category node text) : ∃ c, significant text = some c ∧ category.begins c := by
  induction h with
  | term _ ih | factor _ ih | primary _ ih | one _ ih | truth _ ih => exact ih
  | sum _ _ _ _ ih _ | product _ _ _ _ ih _ | tail _ _ _ _ ih _ | more _ _ _ ih _
  | comparison _ _ _ _ ih _ | join _ _ _ _ ih _ | dangling _ _ _ ih =>
    obtain ⟨c, hc, hbegins⟩ := ih
    exact ⟨c, significant_append hc _, hbegins⟩
  | conditions _ ih | condition _ ih => exact ih
  | clause _ ih =>
    obtain ⟨c, hc, hbegins⟩ := ih
    exact ⟨c, hc, by simpa [Category.begins] using Or.inl hbegins⟩
  | sign negative hsign _ _ =>
    cases negative with
    | false => exact ⟨'+', hsign.significant_append (by decide), rfl⟩
    | true => exact ⟨'-', hsign.significant_append (by decide), rfl⟩
  | negation hsign _ _ => exact ⟨'!', hsign.significant_append (by decide), rfl⟩
  | bracket hopen _ _ _ | group hopen _ _ _ =>
    exact ⟨'(', hopen.significant_append (by decide), rfl⟩
  | number hliteral =>
    obtain ⟨c, hc, hbegins⟩ := hliteral.begins
    exact ⟨c, hc, by simp [Category.begins, Grammar.beginsExpression, hbegins]⟩
  | constant hname _ | unary hname _ _ _ _ | juxtaposed hname _ _ _
  | binary hname _ _ _ _ _ _ _ | variadic hname _ _ _ _
  | conditional hname _ _ _ _ _ _ _ _ _ _ =>
    obtain ⟨c, hc, halpha⟩ := hname.begins
    exact ⟨c, significant_append hc _, by
      simp [Category.begins, Grammar.beginsExpression, halpha]⟩

theorem Prints.ne_nil {category : Category} {node : category.Node} {text : List Char}
    (h : Prints category node text) : text ≠ [] := by
  rintro rfl
  obtain ⟨c, hc, -⟩ := h.begins
  simp [significant] at hc

end Reckoner.Syntax
