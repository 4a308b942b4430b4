import Reckoner.Proofs.Grammar.Cases
import Reckoner.Proofs.Placeholder.Unbound
import Reckoner.Proofs.Reading.Causes

/-!
# Where the grammar gives up

Every production stays in its text and points to the cause of its errors, if the productions inside
it do. A name and a number are kept with the place where they begin, so that their errors can point
back to it.
-/

namespace Reckoner.Grammar

open Reading

variable {text : List Char}

/-! ## Parentheses and chains -/

theorem staysIn_enclosed {α : Type} {phrase : Reading α} (h : StaysIn text phrase) :
    StaysIn text (enclosed phrase) :=
  h.bind fun value => staysIn_closeParenthesis.bind fun _ => staysIn_pure value

section

variable {operand : Reading Decimal}

theorem staysIn_chainStep (h : StaysIn text operand) (operators : List (Char × Operator))
    (left : Decimal) : StaysIn text (chainStep operand operators left) := by
  induction operators with
  | nil => exact staysIn_pure none
  | cons operator rest ih =>
    refine (staysIn_accept operator.1).bind fun taken => .ite (h.bind fun right => ?_) ih
    exact (staysIn_calculate _).bind fun value => staysIn_pure (some value)

theorem staysIn_chain (h : StaysIn text operand) (operators : List (Char × Operator)) :
    StaysIn text (chain operators operand) :=
  h.bind fun value => .iterate (staysIn_chainStep h operators) value

theorem staysIn_expression (h : StaysIn text operand) : StaysIn text (expression operand) :=
  staysIn_chain (staysIn_chain h products) sums

end

variable {factor : Reading Decimal} {inner : Reading Bool}

/-! ## Statements -/

theorem staysIn_relation : StaysIn text relation := by
  have hequals (yes no : Relation) : StaysIn text
      (do return some (if ← accept '=' then yes else no)) :=
    (staysIn_accept '=').bind fun _ => staysIn_pure _
  refine (staysIn_accept '>').bind fun _ => .ite (hequals _ _) ?_
  refine (staysIn_accept '<').bind fun _ => .ite (hequals _ _) ?_
  refine (staysIn_accept '=').bind fun _ => .ite (staysIn_pure _) ?_
  refine (staysIn_accept '!').bind fun _ => .ite ?_ (staysIn_pure _)
  exact (staysIn_expect (fun _ hposition => ⟨hposition, trivial⟩) '=').bind fun _ => staysIn_pure _

theorem staysIn_comparison (h : StaysIn text factor) : StaysIn text (comparison factor) := by
  refine (staysIn_expression h).bind fun left => staysIn_relation.bind fun operator => ?_
  cases operator with
  | none => exact staysIn_pure _
  | some operator => exact (staysIn_expression h).bind fun right => staysIn_pure _

theorem staysIn_group (h : StaysIn text factor) (hi : StaysIn text inner) (levels : Nat) :
    StaysIn text (group levels factor inner) := by
  have htrial := (staysIn_accept '(').bind fun _ => staysIn_enclosed hi
  exact (htrial.orElse (staysIn_comparison h) _).nested levels

theorem staysIn_condition (h : StaysIn text factor) (hi : StaysIn text inner) (levels : Nat) :
    StaysIn text (condition levels factor inner) := by
  have hclause : StaysIn text (clause levels factor inner) :=
    staysIn_peek.bind fun _ => .ite (staysIn_group h hi levels) (staysIn_comparison h)
  exact (staysIn_accept '!').bind fun _ => hclause.bind fun _ => staysIn_pure _

theorem staysIn_connective : StaysIn text connective := by
  refine (staysIn_accept '&').bind fun _ => .ite (staysIn_pure _) ?_
  exact (staysIn_accept '|').bind fun _ => .ite (staysIn_pure _) (staysIn_pure _)

theorem staysIn_conditions {condition : Reading Bool} (h : StaysIn text condition) (stop : Char) :
    StaysIn text (conditions stop condition) := by
  refine h.bind fun first => .iterate (fun left => ?_) first
  refine staysIn_connective.bind fun conjunction => ?_
  cases conjunction with
  | none => exact staysIn_pure none
  | some conjunction =>
    exact staysIn_peek.bind fun _ => .ite (staysIn_pure none) (h.bind fun _ => staysIn_pure _)

/-! ## Function calls -/

theorem staysIn_comma (name : String) : StaysIn text (comma name) :=
  staysIn_expect (fun _ hposition => ⟨hposition, trivial⟩) ','

theorem staysIn_arguments (h : StaysIn text factor) : StaysIn text (arguments factor) := by
  refine (staysIn_expression h).bind fun first => .iterate (fun values => ?_) [first]
  refine (staysIn_accept ',').bind fun _ => .ite ?_ (staysIn_pure none)
  exact (staysIn_expression h).bind fun _ => staysIn_pure _

theorem staysIn_argument (h : StaysIn text factor) : StaysIn text (argument factor) :=
  (staysIn_accept '(').bind fun _ => .ite (staysIn_enclosed (staysIn_expression h)) h

/-- A function that lacks its arguments points back to its name. -/
theorem staysIn_application (h : StaysIn text factor) (hi : StaysIn text inner) {name : String}
    {start : Cursor} (hname : SyntaxError.Points text ⟨.missingArguments name, start.position⟩)
    (function : Builtin) : StaysIn text (application factor inner name start function) := by
  have hexpression := staysIn_expression h
  have hopen : StaysIn text (openParenthesis name start) :=
    (staysIn_accept '(').bind fun _ => .ite (staysIn_failAt hname) (staysIn_pure ())
  have hempty : StaysIn text emptyArguments :=
    (staysIn_accept '(').bind fun _ => .ite staysIn_closeParenthesis (staysIn_pure ())
  cases function with
  | constant function => exact hempty.bind fun _ => staysIn_calculate _
  | unary function => exact (staysIn_argument h).bind fun _ => staysIn_calculate _
  | binary function =>
    refine hopen.bind fun _ => hexpression.bind fun _ => (staysIn_comma name).bind fun _ => ?_
    exact hexpression.bind fun _ => staysIn_closeParenthesis.bind fun _ => staysIn_calculate _
  | conditional negated =>
    refine hopen.bind fun _ => hi.bind fun _ => (staysIn_comma name).bind fun _ => ?_
    refine (hexpression.branch _).bind fun _ => (staysIn_comma name).bind fun _ => ?_
    refine (hexpression.branch _).bind fun _ => staysIn_closeParenthesis.bind fun _ => ?_
    exact staysIn_pure _
  | variadic kind =>
    refine hopen.bind fun _ => (staysIn_arguments h).bind fun _ => ?_
    exact staysIn_closeParenthesis.bind fun _ => staysIn_calculate _

/-! ## Factors -/

theorem staysFrom_fraction {here : Cursor} (hhere : here.Stands text) :
    StaysFrom text here (fun fraction _ => fraction <+: here.place.rest ∧
      (here.place.rest.head? = some '.' → fraction ≠ [])) fraction := by
  refine staysFrom_cursor ?_
  split
  · next hpoint =>
    obtain ⟨digits, hrest⟩ := List.head?_eq_some_iff.1 (hhere.head?_of_current hpoint)
    refine (staysFrom_accept hhere '.').bind fun taken there hthere haccept => ?_
    have htaken : taken = true ∧ there.place.rest = digits := by
      cases taken with
      | true => simpa [hrest, eq_comm] using haccept
      | false =>
        obtain ⟨behind, ahead, rfl⟩ := hhere.eq_facing
        rw [Cursor.rest_facing] at hrest
        refine absurd (Cursor.ahead_facing_eq.2 ?_) haccept
        rw [hrest, significant_cons (by decide)]
    refine (staysFrom_takeWhile hthere _).bind fun digits' last hlast hdigits => ?_
    intro _ _ _
    refine ⟨hlast, ?_, fun _ => List.cons_ne_nil _ _⟩
    rw [hrest, hdigits.1, htaken.2]
    exact List.cons_prefix_cons.2 ⟨rfl, List.takeWhile_prefix _⟩
  · next hpoint =>
    intro _ _ _
    refine ⟨hhere, List.nil_prefix, fun hhead => absurd ?_ hpoint⟩
    rw [hhere.current_eq, hhead]
    rfl

/-- The digits that are no number stand where the number should begin. -/
theorem staysFrom_number {here : Cursor} (hhere : here.Stands text) {c : Char}
    (hc : here.current = .at c) (hbegins : beginsNumber c) :
    StaysFrom text here (fun _ _ => True) number := by
  refine staysFrom_cursor ?_
  refine (staysFrom_takeWhile hhere _).bind fun digits mid hmid hdigits => ?_
  refine (staysFrom_fraction hmid).bind fun fraction last hlast hfraction => ?_
  obtain ⟨hdigits, hrest⟩ := hdigits
  obtain ⟨hbegin, hpoint⟩ := hfraction
  simp only
  split
  · exact staysIn_pure _ last hlast
  refine staysIn_failAt ?_ last hlast
  refine ⟨hhere.position_le, ?_, ?_⟩
  · -- a point is no digit, so it is the first character of the fraction
    obtain ⟨ahead, hahead⟩ := List.head?_eq_some_iff.1 (hhere.head?_of_current hc)
    rw [hahead] at hdigits hrest
    rw [Ne, ← String.toList_eq_nil_iff, String.toList_ofList, List.append_eq_nil_iff]
    rintro ⟨rfl, rfl⟩
    have hdigit : c.isDigit = false := by
      by_contra hdigit
      simp [List.takeWhile_cons, hdigit] at hdigits
    obtain rfl : c = '.' := by simpa [beginsNumber, hdigit] using hbegins
    exact hpoint (by rw [hrest]; rfl) rfl
  · rw [String.toList_ofList, hhere.drop_position, hdigits]
    conv_rhs => rw [← List.takeWhile_append_dropWhile (p := Char.isDigit) (l := here.place.rest)]
    rw [List.prefix_append_right_inj, ← hrest]
    exact hbegin

theorem staysIn_call (h : StaysIn text factor) (hi : StaysIn text inner) :
    StaysIn text (call factor inner) := by
  refine fun start hstart => staysFrom_cursor ?_
  refine (staysFrom_takeWhile hstart _).bind fun letters mid hmid hletters => ?_
  have hname : (text.drop start.position).takeWhile Char.isAlpha =
      (String.ofList letters).toList := by
    rw [String.toList_ofList, hstart.drop_position, hletters.1]
  simp only
  split
  · exact staysIn_application h hi ⟨hstart.position_le, hname⟩ _ mid hmid
  · exact staysIn_failAt ⟨hstart.position_le, hname⟩ mid hmid

/-- A character that begins no operand is the one that the error names. -/
theorem staysFrom_operand (h : StaysIn text factor) (hi : StaysIn text inner) {start : Cursor}
    (hstart : start.Stands text) :
    StaysFrom text start (fun _ _ => True) (operand factor inner start) := by
  unfold operand
  split
  · next c hc =>
    have hfound : text[start.position]? = some c :=
      hstart.getElem?_position.trans (hstart.head?_of_current hc)
    split
    · next hbegins => exact staysFrom_number hstart hc hbegins
    refine StaysIn.ite (staysIn_call h hi) ?_ start hstart
    split
    · next hdollar =>
      obtain rfl := beq_iff_eq.1 hdollar
      exact staysIn_failAt ⟨hstart.position_le, hfound⟩
    · exact staysIn_failAt ⟨hstart.position_le, hfound⟩
  · next hend =>
    refine staysIn_failAt ⟨hstart.position_le, ?_⟩ start hstart
    have hlength := congrArg List.length hstart.drop_position
    rw [hstart.rest_eq_nil hend, List.length_drop, List.length_nil] at hlength
    exact le_antisymm hstart.position_le (Nat.sub_eq_zero_iff_le.1 hlength)

theorem staysIn_primary (h : StaysIn text factor) (hi : StaysIn text inner) :
    StaysIn text (primary factor inner) := by
  refine (staysIn_accept '(').bind fun _ => .ite (staysIn_enclosed (staysIn_expression h)) ?_
  exact staysIn_passSpaces.bind fun _ start hstart =>
    staysFrom_cursor (staysFrom_operand h hi hstart)

theorem staysIn_withTail (h : StaysIn text factor) (value : Decimal) :
    StaysIn text (withTail factor value) := by
  have hoperation (operation : Decimal → Context → Arithmetic Decimal) :
      StaysIn text (factor >>= fun value => calculate (operation value)) :=
    h.bind fun _ => staysIn_calculate _
  have hraised : StaysIn text (raised factor value) :=
    (staysIn_accept '^').bind fun _ => .ite (hoperation _) (staysIn_pure value)
  refine hraised.bind fun value => (staysIn_accept '%').bind fun _ => .ite ?_ (staysIn_pure value)
  exact (staysIn_accept '%').bind fun _ => .ite (hoperation _) (hoperation _)

theorem staysIn_factorWithin (h : StaysIn text factor) (hi : StaysIn text inner) (levels : Nat) :
    StaysIn text (factorWithin levels factor inner) := by
  refine StaysIn.nested ?_ levels
  refine (staysIn_accept '+').bind fun _ => .ite h ((staysIn_accept '-').bind fun _ => ?_)
  refine .ite (h.bind fun _ => staysIn_pure _) ?_
  exact (staysIn_primary h hi).bind (staysIn_withTail h)

/-- Factors and statements stay in their text at every level, by induction on the levels left. -/
theorem staysIn_level (levels : Nat) : StaysIn text (Grammar.factor levels) ∧
    ∀ stop, StaysIn text (statement levels stop) := by
  induction levels with
  | zero =>
    have hfactor : StaysIn text (Grammar.factor 0) := by
      rw [factor_zero]
      exact staysIn_tooDeep
    refine ⟨hfactor, fun stop => ?_⟩
    rw [statement_eq]
    exact staysIn_conditions (staysIn_condition hfactor staysIn_tooDeep 0) stop
  | succ levels ih =>
    have hfactor : StaysIn text (Grammar.factor (levels + 1)) := by
      rw [factor_succ]
      exact staysIn_factorWithin ih.1 (ih.2 ',') (levels + 1)
    refine ⟨hfactor, fun stop => ?_⟩
    rw [statement_eq]
    exact staysIn_conditions (staysIn_condition hfactor (ih.2 ')') (levels + 1)) stop

/-! ## Whole texts -/

theorem staysIn_endOfText : StaysIn text endOfText := by
  refine staysIn_passSpaces.bind fun _ rest hrest => staysFrom_cursor ?_
  split
  · exact staysIn_pure () rest hrest
  · exact staysIn_failAt ⟨hrest.position_le, trivial⟩ rest hrest
  · next hend _ =>
    refine staysIn_failAt ?_ rest hrest
    refine ⟨hrest.position_le, ?_, ?_⟩
    · rw [Ne, ← String.toList_eq_nil_iff, String.toList_ofList]
      intro hnil
      exact hend (by rw [hrest.current_eq, hnil]; rfl)
    · rw [String.toList_ofList, hrest.drop_position]

theorem staysIn_wholeExpression (levels : Nat) : StaysIn text (wholeExpression levels) :=
  (staysIn_expression (staysIn_level levels).1).bind fun value =>
    staysIn_endOfText.bind fun _ => staysIn_pure value

end Grammar

namespace Calculator

/-- Where a text without slots is refused, the error points to its cause, whatever the context and
the nesting limit are. -/
theorem evaluate_points (calculator : Calculator) (text : List Char) (error : SyntaxError)
    (hslot : ¬ ['$', '('] <:+: text)
    (h : calculator.evaluate text .empty = .error (.unreadable error)) : error.Points text := by
  have hstands : (Cursor.facing [] text).Stands text :=
    ⟨⟨[], text, rfl⟩, Cursor.text_facing [] text⟩
  have hread : (calculator.read false text).StaysIn text _ :=
    Grammar.staysIn_wholeExpression calculator.maxDepth _ hstands
      ⟨calculator.context, calculator.maxDepth⟩ 0 false
  rw [evaluate_empty hslot, evaluatePlain] at h
  split at h
  · simp at h
  · next failure last hrun =>
    rw [hrun] at hread
    exact hread error (Except.error.inj h)

/-- The parentheses are read as a statement and then once more as an expression, which reports the
error. -/
theorem evaluate_points_name :
    let calculator : Calculator := ⟨⟨10, .halfUp, by decide⟩, 8⟩
    let text := "if((2* foo(1) ),1,2)".toList
    let error : SyntaxError := ⟨.unknownIdentifier "foo", 7⟩
    ¬ ['$', '('] <:+: text ∧ calculator.evaluate text .empty = .error (.unreadable error) ∧
      error.Points text := by
  intro calculator text error
  have hslot : ¬ ['$', '('] <:+: text := by decide +kernel
  have h : calculator.evaluate text .empty = .error (.unreadable error) := by decide +kernel
  exact ⟨hslot, h, evaluate_points calculator text error hslot h⟩

end Calculator

end Reckoner
