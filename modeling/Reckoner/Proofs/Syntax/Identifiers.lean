import Reckoner.Proofs.Syntax.Printing

/-!
# The words of a text

The identifiers of a text are its runs of letters. Only a text with the name of a conditional among
them prints a tree with a condition in it, and no printed text holds a placeholder.
-/

namespace Reckoner.Syntax

open Grammar (Operator Relation sums products)

variable {c : Char} {word signs o u v : List Char}

/-! ## Signs between words -/

/-- A text that keeps apart what stands in front of it and behind it. -/
def Separates (o : List Char) : Prop := o ≠ [] ∧ ∀ c ∈ o, c.isAlpha = false

theorem separates_spaced {sign : Char} (h : Spaced (sign :: signs) o)
    (hsigns : ∀ c ∈ sign :: signs, c.isAlpha = false) : Separates o := by
  refine ⟨by cases h; simp, fun c hc => ?_⟩
  obtain rfl | hc := h.mem hc
  · decide
  · exact hsigns c hc

theorem separates_open (h : Spaced ['('] o) : Separates o := separates_spaced h (by decide)

theorem separates_close (h : Spaced [')'] o) : Separates o := separates_spaced h (by decide)

theorem Separates.head (h : Separates o) (v : List Char) :
    ∀ c ∈ (o ++ v).head?, c.isAlpha = false := by
  obtain ⟨hne, hletters⟩ := h
  obtain ⟨d, o, rfl⟩ := List.exists_cons_of_ne_nil hne
  simpa using hletters d List.mem_cons_self

/-! ## Identifiers -/

/-- The runs of letters in a text, with an empty one between two other characters. -/
def identifiers (text : List Char) : List (List Char) := text.splitOnP fun c => !c.isAlpha

theorem identifiers_append (hc : c.isAlpha = false) (u v : List Char) :
    identifiers (u ++ c :: v) = identifiers u ++ identifiers v :=
  List.splitOnP_append_cons u v (by simp [hc])

theorem identifiers_letters (h : ∀ c ∈ word, c.isAlpha) : identifiers word = [word] :=
  List.splitOnP_eq_singleton fun c hc => by simp [h c hc]

/-- The name of a conditional is among the identifiers. -/
def NamesConditional (text : List Char) : Prop :=
  ∃ negated name, Builtin.ofName? name = some (.conditional negated) ∧
    name.toList ∈ identifiers text

theorem NamesConditional.left (h : NamesConditional u) (hv : ∀ c ∈ v.head?, c.isAlpha = false) :
    NamesConditional (u ++ v) := by
  obtain ⟨negated, name, hname, h⟩ := h
  refine ⟨negated, name, hname, ?_⟩
  cases v with
  | nil => rwa [List.append_nil]
  | cons c v =>
    rw [identifiers_append (hv c rfl)]
    exact List.mem_append_left _ h

theorem NamesConditional.closed (h : NamesConditional u) (ho : Separates o) :
    NamesConditional (u ++ o) :=
  h.left (by simpa using ho.head [])

theorem NamesConditional.right (h : NamesConditional v) (hv : ∀ c ∈ v.head?, c.isAlpha = false) :
    NamesConditional (u ++ v) := by
  obtain ⟨negated, name, hname, h⟩ := h
  have hne : name.toList ≠ [] := (letters_of_ofName? hname).1
  refine ⟨negated, name, hname, ?_⟩
  cases v with
  | nil =>
    rw [identifiers_letters (by simp), List.mem_singleton] at h
    exact absurd h hne
  | cons c v =>
    have hc : c.isAlpha = false := hv c rfl
    rw [← List.nil_append (c :: v), identifiers_append hc, identifiers_letters (by simp)] at h
    rw [identifiers_append hc]
    exact List.mem_append_right _ (by simpa [hne] using h)

theorem NamesConditional.past (h : NamesConditional v) (ho : Separates o) (u : List Char) :
    NamesConditional (u ++ (o ++ v)) := by
  obtain ⟨negated, name, hname, h⟩ := h
  refine ⟨negated, name, hname, ?_⟩
  obtain ⟨hne, hletters⟩ := ho
  obtain ⟨o, c, rfl⟩ : ∃ w c, o = w ++ [c] := ⟨_, _, (List.dropLast_append_getLast hne).symm⟩
  have hc : c.isAlpha = false := hletters c (by simp)
  rw [show u ++ (o ++ [c] ++ v) = u ++ o ++ c :: v by simp, identifiers_append hc]
  exact List.mem_append_right _ h

theorem Named.namesConditional {negated : Bool} (h : Named (.conditional negated) u)
    (hv : ∀ c ∈ v.head?, c.isAlpha = false) : NamesConditional (u ++ v) := by
  obtain ⟨n, name, hname, rfl⟩ := h
  have hword : NamesConditional name.toList :=
    ⟨negated, name, hname, by simp [identifiers_letters (letters_of_ofName? hname).2]⟩
  refine NamesConditional.left ?_ hv
  cases n with
  | zero => exact hword
  | succ n =>
    have hspaces : Separates (List.replicate (n + 1) ' ') := by
      refine ⟨by simp, fun c hc => ?_⟩
      rw [List.eq_of_mem_replicate hc]
      decide
    exact hword.past hspaces []

/-! ## Trees without conditions -/

mutual

/-- No conditional stands in a tree. -/
def Tree.unconditional : Tree → Bool
  | .number _ => true
  | .sign _ operand => operand.unconditional
  | .operation _ left right => left.unconditional && right.unconditional
  | .bracket inner => inner.unconditional
  | .constant _ => true
  | .unary _ argument => argument.unconditional
  | .binary _ left right => left.unconditional && right.unconditional
  | .variadic _ arguments => arguments.unconditional
  | .conditional _ _ _ _ => false

def Arguments.unconditional : Arguments → Bool
  | .one argument => argument.unconditional
  | .more arguments argument => arguments.unconditional && argument.unconditional

end

/-- Statements only stand in conditionals, so nothing is asked of them. -/
def Category.unconditional : (category : Category) → category.Node → Bool
  | .expression, t | .term, t | .factor, t | .primary, t => Tree.unconditional t
  | .arguments, ts => Arguments.unconditional ts
  | .statement, _ | .conditions, _ | .condition, _ | .clause, _ => true

theorem separates_of_mem {β : Type} {table : List (Char × β)} {sign : Char} {value : β}
    (h : (sign, value) ∈ table) (ho : Spaced [sign] o)
    (htable : ∀ entry ∈ table, entry.1.isAlpha = false) : Separates o :=
  separates_spaced ho (by simpa using htable _ h)

theorem unconditional_or_between {p q : Bool} (ho : Separates o) (hu : p ∨ NamesConditional u)
    (hv : q ∨ NamesConditional v) : (p && q) ∨ NamesConditional (u ++ (o ++ v)) := by
  obtain hu | hu := hu
  · obtain hv | hv := hv
    · exact .inl (by simp [hu, hv])
    · exact .inr (hv.past ho u)
  · exact .inr (hu.left (ho.head v))

theorem Prints.unconditional_or {category : Category} {node : category.Node}
    (h : Prints category node u) : category.unconditional node ∨ NamesConditional u := by
  induction h with
  | term _ ih | factor _ ih | primary _ ih | one _ ih => exact ih
  | sum hop _ ho _ ihl ihr =>
    exact unconditional_or_between (separates_of_mem hop ho (by decide)) ihl ihr
  | product hop _ ho _ ihl ihr =>
    exact unconditional_or_between (separates_of_mem hop ho (by decide)) ihl ihr
  | tail hop _ ho _ ihl ihr =>
    have htails : ∀ entry ∈ tails, ∀ c ∈ entry.1, c.isAlpha = false := by decide
    obtain ⟨c, rest, rfl, -⟩ := cons_of_mem_tails hop
    exact unconditional_or_between (separates_spaced ho (htails _ hop)) ihl ihr
  | more _ ho _ ihl ihr =>
    exact unconditional_or_between (separates_spaced ho (by decide)) ihl ihr
  | sign negative ho _ ih =>
    refine ih.imp_right fun h => h.past (separates_spaced ho ?_) []
    cases negative <;> decide
  | bracket ha _ hb ih =>
    exact ih.imp_right fun h => (h.closed (separates_close hb)).past (separates_open ha) []
  | unary _ ha _ hb ih | variadic _ ha _ hb ih =>
    exact ih.imp_right fun h => (h.closed (separates_close hb)).past (separates_open ha) _
  | binary _ ha _ hc _ hb ihl ihr =>
    have hclosed := ihr.imp_right fun h => h.closed (separates_close hb)
    have hboth := unconditional_or_between (separates_spaced hc (by decide)) ihl hclosed
    exact hboth.imp_right fun h => h.past (separates_open ha) _
  | juxtaposed _ _ hjuxtaposed ih =>
    exact ih.imp_right fun h => h.right fun c hc => by simpa using hjuxtaposed.2 c hc
  | conditional hname ha _ _ _ _ _ _ =>
    exact .inr (hname.namesConditional ((separates_open ha).head _))
  | number | constant | conditions | dangling | condition | join | clause | negation | group | truth
  | comparison => exact .inl rfl

/-! ## Placeholders -/

theorem no_placeholder_spaced (h : Spaced signs o) (hsigns : '$' ∉ signs) : '$' ∉ o :=
  fun hmem => (h.mem hmem).elim (by decide) hsigns

theorem Named.no_placeholder {function : Builtin} (h : Named function u) : '$' ∉ u := by
  obtain ⟨n, name, hname, rfl⟩ := h
  intro hmem
  obtain hmem | hmem := List.mem_append.1 hmem
  · exact absurd (List.eq_of_mem_replicate hmem) (by decide)
  · exact absurd ((letters_of_ofName? hname).2 '$' hmem) (by decide)

theorem Literal.no_placeholder {value : Decimal} (h : Literal value u) : '$' ∉ u := by
  obtain ⟨n, whole, fraction, hwhole, hfraction, -, rfl⟩ := h
  intro hmem
  obtain hmem | hmem | hmem := by simpa only [List.mem_append] using hmem
  · exact absurd (List.eq_of_mem_replicate hmem) (by decide)
  · exact absurd (hwhole '$' hmem) (by decide)
  · obtain rfl | ⟨digits, hdigits, rfl⟩ := hfraction
    · simp at hmem
    · obtain hpoint | hmem := List.mem_cons.1 hmem
      · exact absurd hpoint (by decide)
      · exact absurd (hdigits '$' hmem) (by decide)

theorem no_placeholder_signs {β : Type} {table : List (List Char × β)} {value : β}
    (h : (signs, value) ∈ table) (ho : Spaced signs o)
    (htable : ∀ entry ∈ table, '$' ∉ entry.1 := by decide) : '$' ∉ o :=
  no_placeholder_spaced ho (htable _ h)

theorem no_placeholder_sign {β : Type} {table : List (Char × β)} {sign : Char} {value : β}
    (h : (sign, value) ∈ table) (ho : Spaced [sign] o)
    (htable : ∀ entry ∈ table, '$' ∉ [entry.1] := by decide) : '$' ∉ o :=
  no_placeholder_spaced ho (htable _ h)

theorem Prints.no_placeholder {category : Category} {node : category.Node}
    (h : Prints category node u) : '$' ∉ u := by
  induction h with
  | term _ ih | factor _ ih | primary _ ih | one _ ih | conditions _ ih | condition _ ih
  | clause _ ih | truth _ ih => exact ih
  | number hliteral => exact hliteral.no_placeholder
  | sum hop _ ho _ ihl ihr | product hop _ ho _ ihl ihr | join hop _ ho _ ihl ihr =>
    simp [ihl, ihr, no_placeholder_sign hop ho]
  | tail hop _ ho _ ihl ihr | comparison hop _ ho _ ihl ihr =>
    simp [ihl, ihr, no_placeholder_signs hop ho]
  | dangling hop _ ho ih => simp [ih, no_placeholder_sign hop ho]
  | sign negative ho _ ih =>
    have hsign : '$' ∉ [if negative then '-' else '+'] := by cases negative <;> decide
    simp [ih, no_placeholder_spaced ho hsign]
  | negation ho _ ih => simp [ih, no_placeholder_spaced ho (by decide)]
  | bracket ha _ hb ih | group ha _ hb ih =>
    simp [ih, no_placeholder_spaced ha (by decide), no_placeholder_spaced hb (by decide)]
  | constant hname hp =>
    obtain rfl | hp := hp
    · simp [hname.no_placeholder]
    · simp [hname.no_placeholder, no_placeholder_spaced hp (by decide)]
  | unary hname ha _ hb ih | variadic hname ha _ hb ih =>
    simp [ih, hname.no_placeholder, no_placeholder_spaced ha (by decide),
      no_placeholder_spaced hb (by decide)]
  | binary hname ha _ hc _ hb ihl ihr =>
    simp [ihl, ihr, hname.no_placeholder, no_placeholder_spaced ha (by decide),
      no_placeholder_spaced hc (by decide), no_placeholder_spaced hb (by decide)]
  | conditional hname ha _ hc _ hd _ hb ihs ihl ihr =>
    simp [ihs, ihl, ihr, hname.no_placeholder, no_placeholder_spaced ha (by decide),
      no_placeholder_spaced hc (by decide), no_placeholder_spaced hd (by decide),
      no_placeholder_spaced hb (by decide)]
  | more _ ho _ ihl ihr => simp [ihl, ihr, no_placeholder_spaced ho (by decide)]
  | juxtaposed hname _ _ ih => simp [ih, hname.no_placeholder]

end Reckoner.Syntax
