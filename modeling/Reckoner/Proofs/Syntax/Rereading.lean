import Reckoner.Proofs.Syntax.Statements

/-!
# Groups read again

A group that fails is read again as an expression. That reading comes to the expression which the
group begins with: an error found there is found again, and behind it stands a sign that no
expression in parentheses can have.
-/

namespace Reckoner.Syntax

open Grammar Reading

variable {frame : Frame} {rest : List Char} {levels : Nat} {factor : Reading Decimal}

/-! ## What a second reading comes to -/

/-- An outcome that no closing parenthesis can follow: the text is unreadable, or the expression
ends before a sign that only a statement can have. -/
def Frame.Blocked (frame : Frame) (outcome : Outcome Decimal) : Prop :=
  (∃ failure rest, failure.hidden = true ∧ frame.Shows false rest (.error failure) outcome) ∨
    ∃ value behind text c, outcome = .done value (frame.facing behind text) ∧
      significant text = some c ∧ c ∈ ['>', '<', '=', '!', '&', '|']

/-- What comes of reading a statement as an expression. -/
def Frame.Rereads (frame : Frame) (rest : List Char) (outcome : Outcome Decimal) :
    Result Bool → Prop
  | .ok _ => (∃ value, frame.Shows false rest (.ok value) outcome) ∨ frame.Blocked outcome
  | .error failure =>
    if failure.hidden then frame.Blocked outcome
    else frame.Shows false rest (.error failure) outcome

/-- What comes of reading a group as an expression. -/
def Frame.RereadsGroup (frame : Frame) (rest : List Char) (outcome : Outcome Decimal) :
    Result Bool → Prop
  | .ok _ => (∃ value, frame.Shows false rest (.ok value) outcome) ∨
      ∃ failure, failure.hidden = true ∧ frame.Shows false rest (.error failure) outcome
  | .error failure => frame.Shows false rest (.error failure) outcome

theorem Frame.RereadsGroup.rereads {outcome : Outcome Decimal} {holds : Result Bool}
    (h : frame.RereadsGroup rest outcome holds) : frame.Rereads rest outcome holds := by
  cases holds with
  | ok value =>
    obtain hdone | ⟨failure, hhidden, hfailed⟩ := h
    · exact .inl hdone
    · exact .inr (.inl ⟨failure, rest, hhidden, hfailed⟩)
  | error failure =>
    simp only [Frame.Rereads]
    split
    · next hhidden => exact .inl ⟨failure, rest, hhidden, h⟩
    · exact h

/-- Hidden errors end in an unreadable text, whichever they are. -/
theorem Frame.Shows.hidden {failure failure' : Failure} {rest' : List Char}
    {outcome : Outcome Decimal} (h : frame.Shows false rest (.error failure) outcome)
    (hhidden : failure.hidden = true) (hhidden' : failure'.hidden = true) :
    frame.Shows false rest' (.error failure') outcome := by
  obtain ⟨error, cursor, hrun, hexplains⟩ := h
  refine ⟨error, cursor, hrun, ?_⟩
  simpa [Failure.Explains, hhidden, hhidden'] using hexplains

/-! ## In parentheses -/

/-- The statements that a factor's expressions are read against. -/
def RereadsStatements (levels : Nat) (factor : Reading Decimal) : Prop :=
  ∀ (frame : Frame) (s : Statement) (u rest behind : List Char), Prints .statement s u →
    frame.lost + s.depth ≤ levels → significant rest = some ')' →
      frame.Rereads rest (expression factor frame.settings (frame.facing behind (u ++ rest)))
        (frame.holds true s)

theorem closeParenthesis_fails {behind text : List Char} (failure : Failure)
    (hhidden : failure.hidden = true) (hclose : significant text ≠ some ')') :
    frame.Shows false rest (.error failure)
      (closeParenthesis frame.settings (frame.facing behind text)) := by
  have hrefuses : (Cursor.facing behind text).ahead ≠ .at ')' :=
    fun hahead => hclose (Cursor.ahead_facing_eq.1 hahead)
  refine ⟨.unreadable ⟨.unmatchedParenthesis, (Cursor.facing behind text).passSpaces.position⟩,
    (Cursor.facing behind text).passSpaces, ?_, by simp [Failure.Explains, hhidden]⟩
  rw [closeParenthesis, expect, bind_of_done (accept_refuses hrefuses)]
  rfl

theorem Frame.Blocked.enclosed {p : Reading Decimal} {state : State}
    (h : frame.Blocked (p frame.settings state)) (failure : Failure)
    (hhidden : failure.hidden = true) :
    frame.Shows false rest (.error failure) (enclosed p frame.settings state) := by
  obtain ⟨failure', mid, hhidden', hfailed⟩ | ⟨value, behind, text, c, hdone, hc, hsign⟩ := h
  · have hfails : frame.Shows false mid (.error failure') (Grammar.enclosed p frame.settings state) :=
      hfailed.fails
    exact hfails.hidden hhidden' hhidden
  · unfold Grammar.enclosed
    rw [bind_of_done hdone]
    have hclose : significant text ≠ some ')' := by
      rw [hc]
      rintro heq
      obtain rfl : c = ')' := by simpa using heq
      simp at hsign
    have hfails : frame.Shows false rest (.error failure)
        (closeParenthesis frame.settings (frame.facing behind text)) :=
      closeParenthesis_fails failure hhidden hclose
    exact hfails.fails

theorem Frame.Rereads.enclosed {p : Reading Decimal} {state : State} {holds : Result Bool}
    {b : List Char} (h : frame.Rereads (b ++ rest) (p frame.settings state) holds)
    (hb : Spaced [')'] b) :
    frame.RereadsGroup rest (Grammar.enclosed p frame.settings state) holds := by
  cases holds with
  | ok value =>
    obtain ⟨value', hdone⟩ | hblocked := h
    · exact .inl ⟨value', hdone.keep fun x => (reads_close hb).then (reads_pure x rest)⟩
    · exact .inr ⟨⟨.divisionByZero, true⟩, rfl, hblocked.enclosed _ rfl⟩
  | error failure =>
    simp only [Frame.Rereads] at h
    change frame.Shows false rest (.error failure) _
    split at h
    · next hhidden => exact h.enclosed failure hhidden
    · exact h.fails

theorem shows_expression_of_primary {statement : Reading Bool} {behind text : List Char}
    {c : Char} {result : Result Decimal} (hlevels : frame.lost < levels)
    (htext : significant text = some c) (hc : c ≠ '+' ∧ c ≠ '-') (hrest : Followed .expression rest)
    (h : frame.Shows false rest result
      (primary factor statement frame.settings (frame.facing behind text))) :
    frame.Shows false rest result (expression (factorWithin levels factor statement)
      frame.settings (frame.facing behind text)) := by
  have hfactor : frame.Shows false rest result
      (factorWithin levels factor statement frame.settings (frame.facing behind text)) := by
    rw [factorWithin_unsigned htext hc hlevels]
    exact h.keep (reads_no_tail hrest.mono)
  exact shows_chain (shows_chain hfactor (not_products hrest.mono)) (not_sums hrest)

theorem Frame.RereadsGroup.imp {outcome outcome' : Outcome Decimal} {holds : Result Bool}
    (h : frame.RereadsGroup rest outcome holds)
    (hshows : ∀ result, frame.Shows false rest result outcome →
      frame.Shows false rest result outcome') : frame.RereadsGroup rest outcome' holds := by
  cases holds with
  | ok value =>
    obtain ⟨value', hdone⟩ | ⟨failure, hhidden, hfailed⟩ := h
    · exact .inl ⟨value', hshows _ hdone⟩
    · exact .inr ⟨failure, hhidden, hshows _ hfailed⟩
  | error failure => exact hshows (.error failure) h

theorem rereads_group {statement : Reading Bool} {s : Statement} {a u b : List Char}
    (hstatements : RereadsStatements levels factor) (ha : Spaced ['('] a)
    (h : Prints .statement s u) (hb : Spaced [')'] b) (hdepth : frame.lost + s.depth ≤ levels)
    (hrest : Followed .expression rest) (behind : List Char) :
    frame.RereadsGroup rest (expression (factorWithin (levels + 1) factor statement)
      frame.settings (frame.facing behind (a ++ (u ++ (b ++ rest))))) (frame.holds true s) := by
  obtain ⟨behind', hcursor⟩ := Cursor.accept?_spaced ha (by decide)
  have hprimary : primary factor statement frame.settings
      (frame.facing behind (a ++ (u ++ (b ++ rest)))) =
        enclosed (expression factor) frame.settings (frame.facing behind' (u ++ (b ++ rest))) := by
    rw [primary, bind_of_done (accept_takes hcursor)]
    rfl
  have hclose : significant (b ++ rest) = some ')' := hb.significant_append (by decide)
  have henclosed := (hstatements frame s u _ behind' h hdepth hclose).enclosed hb
  rw [← hprimary] at henclosed
  exact henclosed.imp fun result hshows =>
    shows_expression_of_primary (by omega) (ha.significant_append (by decide)) (by decide) hrest
      hshows

/-! ## Conditions -/

theorem Frame.Shows.rereads {outcome : Outcome Decimal} {value : Result Decimal}
    {holds : Decimal → Bool} (h : frame.Shows false rest value outcome) :
    frame.Rereads rest outcome (holds <$> value) := by
  cases value with
  | ok value => exact .inl ⟨value, h⟩
  | error failure =>
    change if failure.hidden then _ else _
    split
    · next hhidden => exact .inl ⟨failure, rest, hhidden, h⟩
    · exact h

theorem Frame.Blocked.rereads {outcome : Outcome Decimal} {holds : Result Bool}
    (h : frame.Blocked outcome)
    (hhidden : ∀ failure, holds = .error failure → failure.hidden = true) :
    frame.Rereads rest outcome holds := by
  cases holds with
  | ok value => exact .inr h
  | error failure =>
    change if failure.hidden then _ else _
    rw [if_pos (hhidden failure rfl)]
    exact h

/-- An error in front stays; any other is hidden behind a sign that no expression can pass. -/
theorem rereads_before_sign {α : Type} {outcome : Outcome Decimal} {first : Result α}
    {second : α → Result Bool} {text : List Char} {c : Char} (holds : α → Bool)
    (h : frame.Rereads text outcome (holds <$> first)) (hc : significant text = some c)
    (hsign : c ∈ ['>', '<', '=', '!', '&', '|'])
    (hsecond : ∀ x failure, second x = .error failure → failure.hidden = true) :
    frame.Rereads rest outcome (first >>= second) := by
  cases first with
  | error failure => exact h
  | ok x =>
    have hblocked : frame.Blocked outcome := by
      obtain ⟨value, behind, hrun⟩ | hblocked := h
      · exact .inr ⟨value, behind, text, c, hrun, hc, hsign⟩
      · exact hblocked
    exact hblocked.rereads (hsecond x)

theorem hidden_of_hide {α : Type} {result : Result α} {failure : Failure}
    (h : hide true result = .error failure) : failure.hidden = true := by
  cases result with
  | ok value => simp [hide, Except.mapError] at h
  | error failure' =>
    obtain rfl : _ = failure := by simpa [hide, Except.mapError] using h
    simp

/-- What is computed from a hidden result fails only where that does. -/
theorem hidden_of_bind {α β : Type} {result : Result α} {f : α → β} {failure : Failure}
    (h : (hide true result >>= fun x => (pure (f x) : Result β)) = .error failure) :
    failure.hidden = true := by
  cases hresult : hide true result with
  | ok value => simp [hresult, bind, Except.bind, pure, Except.pure] at h
  | error failure' =>
    obtain rfl : failure' = failure := by simpa [hresult, bind, Except.bind] using h
    exact hidden_of_hide hresult

theorem primary_of_negation {statement : Reading Bool} {text : List Char}
    (h : significant text = some '!') (behind : List Char) (failure : Failure)
    (hhidden : failure.hidden = true) :
    frame.Shows false rest (.error failure)
      (primary factor statement frame.settings (frame.facing behind text)) := by
  obtain ⟨sign, tail, -, -, hdrop⟩ := spaced_of_significant h
  obtain ⟨behind', hpass⟩ := Cursor.passSpaces_facing behind text
  rw [hdrop] at hpass
  have hrefuses : (Cursor.facing behind text).ahead ≠ .at '(' :=
    fun hahead => absurd (h.symm.trans (Cursor.ahead_facing_eq.1 hahead)) (by decide)
  refine ⟨.unreadable ⟨.unexpectedCharacter '!', (Cursor.facing behind' ('!' :: tail)).position⟩,
    .facing behind' ('!' :: tail), ?_, by simp [Failure.Explains, hhidden]⟩
  rw [primary, bind_of_done (accept_refuses hrefuses)]
  change operand factor statement (Cursor.facing behind text).passSpaces frame.settings
    ⟨(Cursor.facing behind text).passSpaces, _, _⟩ = _
  rw [hpass]
  rfl

section

variable {statement : Reading Bool}

theorem rereads_clause (hfactor : ReadsFactors (levels + 1)
      (factorWithin (levels + 1) factor statement))
    (hstatements : RereadsStatements levels factor) {s : Statement} {u : List Char}
    (h : Prints .clause s u) (hdepth : frame.lost + s.depth ≤ levels + 1)
    (hrest : Followed .clause rest) (behind : List Char) :
    frame.Rereads rest (expression (factorWithin (levels + 1) factor statement) frame.settings
      (frame.facing behind (u ++ rest))) (frame.holds true s) := by
  cases h with
  | @group s a u b ha h hb =>
    simp only [Statement.depth] at hdepth
    simp only [List.append_assoc, Frame.holds, Statement.holds]
    exact (rereads_group hstatements ha h hb (by omega) hrest.mono behind).rereads
  | truth h =>
    simp only [Frame.holds, Statement.holds, ← map_eq_pure_bind]
    exact (reads_expression hfactor h hdepth hrest.mono behind).rereads
  | @comparison signs operator l r u o v hop hl ho hr =>
    simp only [Statement.depth] at hdepth
    simp only [List.append_assoc, Frame.holds, Statement.holds]
    obtain ⟨c, signs, rfl, hsign⟩ := cons_of_mem_relations hop
    have hc : c ≠ ' ' ∧ c ∈ Category.followers .expression ∧
        c ∈ ['>', '<', '=', '!', '&', '|'] := by
      obtain rfl | rfl | rfl | rfl := hsign <;> decide
    have hleft := reads_expression hfactor hl (by omega : frame.lost + l.depth ≤ levels + 1)
      (followed_spaced ho hc.2.1 hc.1 : Followed .expression (o ++ (v ++ rest))) behind
    exact rereads_before_sign (fun _ => true) hleft.rereads (ho.significant_append hc.1) hc.2.2
      fun x failure hfailure => hidden_of_bind hfailure

theorem rereads_condition (hfactor : ReadsFactors (levels + 1)
      (factorWithin (levels + 1) factor statement))
    (hstatements : RereadsStatements levels factor) {s : Statement} {u : List Char}
    (h : Prints .condition s u) (hdepth : frame.lost + s.depth ≤ levels + 1)
    (hrest : Followed .condition rest) (behind : List Char) :
    frame.Rereads rest (expression (factorWithin (levels + 1) factor statement) frame.settings
      (frame.facing behind (u ++ rest))) (frame.holds true s) := by
  cases h with
  | clause h => exact rereads_clause hfactor hstatements h hdepth hrest behind
  | @negation s o u ho h =>
    have hpos := s.depth_pos
    simp only [Statement.depth] at hdepth
    have hnegation : significant (o ++ u ++ rest) = some '!' := by
      rw [List.append_assoc]
      exact ho.significant_append (by decide)
    have hblocked : frame.Blocked (expression (factorWithin (levels + 1) factor statement)
        frame.settings (frame.facing behind (o ++ u ++ rest))) :=
      .inl ⟨⟨.divisionByZero, true⟩, [], rfl, shows_expression_of_primary (by omega) hnegation
        (by decide) (fun c hc => by simp [significant] at hc)
        (primary_of_negation hnegation behind _ rfl)⟩
    exact hblocked.rereads fun failure hfailure => hidden_of_bind hfailure

theorem sign_of_connective {sign : Char} {conjunction : Bool}
    (h : (sign, conjunction) ∈ connectives) :
    sign ≠ ' ' ∧ sign ∈ ['>', '<', '=', '!', '&', '|'] := by
  simp only [connectives, List.mem_cons, Prod.mk.injEq, List.not_mem_nil, or_false] at h
  obtain ⟨rfl, -⟩ | ⟨rfl, -⟩ := h <;> decide

theorem rereads_conditions (hfactor : ReadsFactors (levels + 1)
      (factorWithin (levels + 1) factor statement))
    (hstatements : RereadsStatements levels factor) {s : Statement} {u rest : List Char}
    (h : Prints .conditions s u) (hdepth : frame.lost + s.depth ≤ levels + 1)
    (hrest : Followed .condition rest) (behind : List Char) :
    frame.Rereads rest (expression (factorWithin (levels + 1) factor statement) frame.settings
      (frame.facing behind (u ++ rest))) (frame.holds true s) := by
  match h with
  | .condition h => exact rereads_condition hfactor hstatements h hdepth hrest behind
  | @Prints.join sign conjunction l r u o v hop hl ho hr =>
    simp only [Statement.depth] at hdepth
    simp only [List.append_assoc, Frame.holds, Statement.holds]
    have hfollowed : Followed .condition (o ++ (v ++ rest)) := followed_connective hop ho
    have hleft := rereads_conditions hfactor hstatements hl
      (by omega : frame.lost + l.depth ≤ levels + 1) hfollowed behind
    have hsign := sign_of_connective hop
    rw [← id_map (frame.holds true l)] at hleft
    exact rereads_before_sign id hleft (ho.significant_append hsign.1) hsign.2
      fun x failure hfailure => hidden_of_bind hfailure

theorem rereads_statements (hfactor : ReadsFactors (levels + 1)
      (factorWithin (levels + 1) factor statement))
    (hstatements : RereadsStatements levels factor) :
    RereadsStatements (levels + 1) (factorWithin (levels + 1) factor statement) := by
  intro frame s u rest behind h hdepth hrest
  cases h with
  | conditions h =>
    exact rereads_conditions hfactor hstatements h hdepth
      (followed_of_significant hrest (by decide)) behind
  | @dangling sign conjunction s u o hop h ho =>
    have hfollowed : Followed .condition (o ++ rest) := followed_connective hop ho
    have hleft := rereads_conditions hfactor hstatements h hdepth hfollowed behind
    have hsign := sign_of_connective hop
    rw [← id_map (frame.holds true s)] at hleft
    rw [List.append_assoc, ← bind_pure (frame.holds true s)]
    exact rereads_before_sign id hleft (ho.significant_append hsign.1) hsign.2
      fun x failure hfailure => by simp [pure, Except.pure] at hfailure

end

/-! ## All levels -/

/-- What the readers with a number of levels left take. -/
structure ReadsLevel (levels : Nat) : Prop where
  factors : ReadsFactors levels (Grammar.factor levels)
  statements (stop : Char) (inParentheses : Bool) (hstop : stop = ')' ∨ stop = ',') :
    ReadsStatements levels stop inParentheses (statement levels stop)
  rereads : RereadsStatements levels (Grammar.factor levels)

theorem readsLevel_zero : ReadsLevel 0 where
  factors frame t _ _ _ hdepth _ := by
    have := t.depth_pos
    omega
  statements _ _ _ frame s _ _ _ hdepth _ := by
    have := s.depth_pos
    omega
  rereads frame s _ _ _ _ hdepth _ := by
    have := s.depth_pos
    omega

theorem ReadsLevel.groups (h : ReadsLevel levels) :
    RereadsGroups levels (Grammar.factor (levels + 1)) := by
  intro frame s a u b rest failure ha hs hb hdepth hrest hfailure behind
  have hagain : frame.RereadsGroup rest (expression (factorWithin (levels + 1) _
      (statement levels ',')) _ _) _ :=
    rereads_group h.rereads ha hs hb hdepth hrest.mono behind
  rw [hfailure] at hagain
  rw [factor_succ]
  exact hagain

theorem ReadsLevel.succ (h : ReadsLevel levels) : ReadsLevel (levels + 1) := by
  have hfactors : ReadsFactors (levels + 1) (Grammar.factor (levels + 1)) := by
    rw [factor_succ]
    exact reads_factorWithin h.factors (h.statements ',' false (.inr rfl))
  refine ⟨hfactors, fun stop inParentheses hstop => ?_, ?_⟩
  · rw [statement_eq, groupStatement]
    exact reads_statement
      (reads_condition hfactors (h.statements ')' true (.inl rfl)) h.groups) hstop
  · rw [factor_succ] at hfactors ⊢
    exact rereads_statements hfactors h.rereads

theorem readsLevel (levels : Nat) : ReadsLevel levels := by
  induction levels with
  | zero => exact readsLevel_zero
  | succ levels ih => exact ih.succ

end Reckoner.Syntax
