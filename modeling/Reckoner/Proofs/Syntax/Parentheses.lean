import Reckoner.Proofs.Syntax.Printing

/-!
# The parentheses of printed phrases

In a printed phrase the parentheses match, and a comma stands inside of them unless the phrase is
a list of arguments. Wherever such a text is cut, no more parentheses were closed than opened.
-/

namespace Reckoner.Syntax

variable {list : Bool} {c : Char} {signs o p q u v a b : List Char}

/-! ## Texts whose parentheses match -/

/-- A parenthesis or a comma. -/
def isMark (c : Char) : Bool := ['(', ')', ','].contains c

/-- Texts whose parentheses match. Outside of parentheses, commas only stand in a list. -/
inductive Nested : (list : Bool) → List Char → Prop where
  | nil {list : Bool} : Nested list []
  | char {list : Bool} {c : Char} : !isMark c → Nested list [c]
  | comma : Nested true [',']
  | append {list : Bool} {u v : List Char} : Nested list u → Nested list v → Nested list (u ++ v)
  | enclosed {list : Bool} {u : List Char} : Nested true u → Nested list ('(' :: (u ++ [')']))

/-- What stands inside of parentheses may be a list. -/
theorem Nested.inside (h : Nested list u) : Nested true u := by
  induction h with
  | nil => exact .nil
  | char hc => exact .char hc
  | comma => exact .comma
  | append _ _ ihu ihv => exact .append ihu ihv
  | enclosed h _ => exact .enclosed h

theorem nested_chars (h : ∀ c ∈ u, !isMark c) : Nested list u := by
  induction u with
  | nil => exact .nil
  | cons c u ih =>
    rw [List.forall_mem_cons] at h
    exact .append (.char h.1) (ih h.2)

theorem Nested.count_eq (h : Nested list u) : u.count '(' = u.count ')' := by
  induction h with
  | nil | comma => rfl
  | @char _ c hc =>
    obtain ⟨hopen, hclose, -⟩ : c ≠ '(' ∧ c ≠ ')' ∧ c ≠ ',' := by simpa [isMark] using hc
    simp [hopen, hclose]
  | append _ _ ihu ihv => simp [ihu, ihv]
  | enclosed _ ih => simp [ih]

/-- Nothing is closed before it was opened. -/
theorem Nested.count_le (h : Nested list u) (hu : u = p ++ q) : p.count ')' ≤ p.count '(' := by
  induction h generalizing p q with
  | nil => simp [(List.nil_eq_append_iff.1 hu).1]
  | @char list c hc =>
    obtain ⟨rfl, rfl⟩ | ⟨rfl, rfl⟩ := List.singleton_eq_append_iff.1 hu
    · rfl
    · have hchar : Nested list [c] := .char hc
      exact hchar.count_eq.ge
  | comma =>
    obtain ⟨rfl, rfl⟩ | ⟨rfl, rfl⟩ := List.singleton_eq_append_iff.1 hu <;> rfl
  | @append list u v hu' _ ihu ihv =>
    -- past the first part its counts agree, inside of it the induction applies
    obtain ⟨a, rfl, hv⟩ | ⟨a, rfl, -⟩ := List.append_eq_append_iff.1 hu
    · have hcount := hu'.count_eq
      have hle := ihv hv
      simp only [List.count_append]
      omega
    · exact ihu rfl
  | @enclosed list u h ih =>
    obtain ⟨rfl, -⟩ | ⟨p, rfl, hsplit⟩ := List.cons_eq_append_iff.1 hu
    · rfl
    obtain ⟨a, rfl, ha⟩ | ⟨a, rfl, -⟩ := List.append_eq_append_iff.1 hsplit
    · have hcount := h.count_eq
      obtain ⟨rfl, -⟩ | ⟨rfl, -⟩ := List.singleton_eq_append_iff.1 ha <;>
        simp [hcount]
    · have hle := ih rfl
      simp only [List.count_cons_self, List.count_cons_of_ne (show '(' ≠ ')' by decide)]
      omega

/-- A text can be cut where more parentheses were closed than opened. -/
def ClosesEarly (text : List Char) : Prop :=
  ∃ p q, text = p ++ q ∧ p.count '(' < p.count ')'

theorem Nested.not_closesEarly (h : Nested list u) : ¬ ClosesEarly u := by
  rintro ⟨p, q, hu, hlt⟩
  exact absurd (h.count_le hu) (by omega)

theorem Nested.closesEarly (h : Nested list u) (v : List Char) : ClosesEarly (u ++ ')' :: v) := by
  refine ⟨u ++ [')'], v, by simp, ?_⟩
  have hcount := h.count_eq
  simp [hcount]

/-- Characters that close nothing can be taken off. -/
theorem ClosesEarly.of_append (h : ClosesEarly (u ++ v)) (hv : ')' ∉ v) : ClosesEarly u := by
  obtain ⟨p, q, hsplit, hlt⟩ := h
  obtain ⟨a, rfl, rfl⟩ | ⟨a, rfl, -⟩ := List.append_eq_append_iff.1 hsplit
  · have hcloses : a.count ')' = 0 := List.count_eq_zero.2 fun ha => hv (List.mem_append_left q ha)
    simp only [List.count_append] at hlt
    exact ⟨u, [], by simp, by omega⟩
  · exact ⟨p, a, rfl, hlt⟩

/-- In front of a comma, a parenthesis is open. -/
theorem Nested.count_lt (h : Nested false u) (hu : u = p ++ ',' :: q) :
    p.count ')' < p.count '(' := by
  generalize hlist : false = list at h
  induction h generalizing p q with
  | nil => simp at hu
  | comma => simp at hlist
  | char hc =>
    obtain ⟨-, rfl, -⟩ := by simpa [List.cons_eq_append_iff] using hu
    simp [isMark] at hc
  | @append list u v hu' _ ihu ihv =>
    obtain ⟨a, rfl, hv⟩ | ⟨_ | ⟨c, a⟩, rfl, hcomma⟩ := List.append_eq_append_iff.1 hu
    · have hcount := hu'.count_eq
      have hlt := ihv hv hlist
      simp only [List.count_append]
      omega
    · simpa using ihv (p := []) hcomma.symm hlist
    · obtain ⟨rfl, rfl⟩ := by simpa using hcomma
      exact ihu rfl hlist
  | @enclosed list u h _ =>
    obtain ⟨-, hopen⟩ | ⟨p, rfl, hsplit⟩ := List.cons_eq_append_iff.1 hu
    · simp at hopen
    obtain ⟨a, rfl, ha⟩ | ⟨a, rfl, -⟩ := List.append_eq_append_iff.1 hsplit
    · simp [List.singleton_eq_append_iff] at ha
    · have hle := h.count_le rfl
      simp only [List.count_cons_self, List.count_cons_of_ne (show '(' ≠ ')' by decide)]
      omega

/-! ## Tokens -/

theorem nested_spaces (n : Nat) : Nested list (List.replicate n ' ') :=
  nested_chars fun c hc => by rw [List.eq_of_mem_replicate hc]; rfl

theorem nested_spaced (h : Spaced signs o) (hsigns : ∀ c ∈ signs, !isMark c) : Nested list o :=
  nested_chars fun c hc => (h.mem hc).elim (by rintro rfl; rfl) (hsigns c)

theorem spaces_of_spaced (h : Spaced [c] o) : ∃ n, o = List.replicate n ' ' ++ [c] := by
  cases h with
  | cons n _ h =>
    cases h
    exact ⟨n, rfl⟩

theorem nested_comma (h : Spaced [','] o) : Nested true o := by
  obtain ⟨n, rfl⟩ := spaces_of_spaced h
  exact (nested_spaces n).append .comma

theorem Nested.parenthesized (ha : Spaced ['('] a) (hb : Spaced [')'] b) (h : Nested true u) :
    Nested list (a ++ (u ++ b)) := by
  obtain ⟨n, rfl⟩ := spaces_of_spaced ha
  obtain ⟨m, rfl⟩ := spaces_of_spaced hb
  have henclosed : Nested list ('(' :: (u ++ List.replicate m ' ' ++ [')'])) :=
    .enclosed (h.append (nested_spaces m))
  simpa using (nested_spaces n).append henclosed

theorem nested_sign {β : Type} {table : List (Char × β)} {sign : Char} {value : β}
    (h : (sign, value) ∈ table) (ho : Spaced [sign] o)
    (htable : ∀ entry ∈ table, !isMark entry.1 := by decide) : Nested list o :=
  nested_spaced ho (by simpa using htable _ h)

theorem nested_signs {β : Type} {table : List (List Char × β)} {value : β}
    (h : (signs, value) ∈ table) (ho : Spaced signs o)
    (htable : ∀ entry ∈ table, ∀ c ∈ entry.1, !isMark c := by decide) : Nested list o :=
  nested_spaced ho (htable _ h)

/-- Letters and digits are neither parentheses nor commas. -/
theorem not_isMark {kind : Char → Bool} (hc : kind c)
    (hkind : ∀ mark ∈ ['(', ')', ','], !kind mark := by decide) : !isMark c := by
  rw [Bool.not_eq_true', isMark, List.contains_eq_mem, decide_eq_false_iff_not]
  intro hmark
  simpa [hc] using hkind c hmark

theorem Named.nested {function : Builtin} (h : Named function u) : Nested list u := by
  obtain ⟨n, name, hname, rfl⟩ := h
  exact (nested_spaces n).append
    (nested_chars fun c hc => not_isMark ((letters_of_ofName? hname).2 c hc))

theorem Literal.nested {value : Decimal} (h : Literal value u) : Nested list u := by
  obtain ⟨n, whole, fraction, hwhole, hfraction, -, rfl⟩ := h
  have hdigits {digits : List Char} (h : ∀ c ∈ digits, c.isDigit) : Nested list digits :=
    nested_chars fun c hc => not_isMark (h c hc)
  refine (nested_spaces n).append ((hdigits hwhole).append ?_)
  obtain rfl | ⟨digits, hfraction, rfl⟩ := hfraction
  · exact .nil
  · exact .append (.char (by decide)) (hdigits hfraction)

/-! ## Phrases -/

/-- Whether commas may stand in a phrase outside of its parentheses. -/
def Category.isList : Category → Bool
  | .arguments => true
  | _ => false

/-- The parentheses of a printed phrase match. -/
theorem Prints.nested {category : Category} {node : category.Node} (h : Prints category node u) :
    Nested category.isList u := by
  induction h with
  | term _ ih | factor _ ih | primary _ ih | conditions _ ih | condition _ ih | clause _ ih
  | truth _ ih => exact ih
  | one _ ih => exact ih.inside
  | number hliteral => exact hliteral.nested
  | sum hop _ ho _ ihl ihr | product hop _ ho _ ihl ihr | join hop _ ho _ ihl ihr =>
    exact ihl.append ((nested_sign hop ho).append ihr)
  | tail hop _ ho _ ihl ihr | comparison hop _ ho _ ihl ihr =>
    exact ihl.append ((nested_signs hop ho).append ihr)
  | dangling hop _ ho ih => exact ih.append (nested_sign hop ho)
  | sign negative ho _ ih =>
    have hsign : ∀ c ∈ [if negative then '-' else '+'], !isMark c := by cases negative <;> decide
    exact (nested_spaced ho hsign).append ih
  | negation ho _ ih => exact (nested_spaced ho (by decide)).append ih
  | bracket ha _ hb ih | group ha _ hb ih => exact .parenthesized ha hb ih.inside
  | constant hname hp =>
    obtain rfl | hp := hp
    · exact hname.nested.append .nil
    · obtain ⟨a, b, ha, hb, rfl⟩ := hp.uncons
      exact hname.nested.append (.parenthesized ha hb .nil)
  | unary hname ha _ hb ih | variadic hname ha _ hb ih =>
    exact hname.nested.append (.parenthesized ha hb ih.inside)
  | binary hname ha _ hc _ hb ihl ihr =>
    have hinside := ihl.inside.append ((nested_comma hc).append ihr.inside)
    simpa using hname.nested.append (.parenthesized ha hb hinside)
  | conditional hname ha _ hc _ hd _ hb ihs ihl ihr =>
    have hinside := ihs.inside.append ((nested_comma hc).append
      (ihl.inside.append ((nested_comma hd).append ihr.inside)))
    simpa using hname.nested.append (.parenthesized ha hb hinside)
  | more _ ho _ ihl ihr => exact ihl.append ((nested_comma ho).append ihr.inside)
  | juxtaposed hname _ _ ih => exact hname.nested.append ih

end Reckoner.Syntax
