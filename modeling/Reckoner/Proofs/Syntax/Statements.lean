import Reckoner.Proofs.Syntax.Expressions

/-!
# Printed statements are read

The readers of statements take a printed statement off a text and come to its truth. A group is
tried first and read again as a comparison if it fails: what comes of that second reading is told
for every statement whose truth fails.
-/

namespace Reckoner.Syntax

open Grammar Reading

variable {frame : Frame} {inParentheses : Bool} {rest : List Char} {levels : Nat}
  {factor : Reading Decimal}

/-! ## Comparisons -/

theorem Prints.begins_expression {t : Tree} {u : List Char} (h : Prints .expression t u) :
    ∃ c, significant u = some c ∧ beginsExpression c := by
  obtain ⟨c, hc, hbegins⟩ := h.begins
  exact ⟨c, hc, by simpa [Category.begins] using hbegins⟩

theorem Prints.significant_ne {t : Tree} {u : List Char} (h : Prints .expression t u) {c : Char}
    (hc : beginsExpression c = false) (rest : List Char) : significant (u ++ rest) ≠ some c := by
  obtain ⟨d, hd, hbegins⟩ := h.begins_expression
  rw [significant_append hd]
  rintro heq
  obtain rfl : d = c := by simpa using heq
  simp [hc] at hbegins

theorem reads_relation {signs : List Char} {operator : Relation} {o : List Char}
    (h : (signs, operator) ∈ relations) (ho : Spaced signs o)
    (hrest : significant rest ≠ some '=') :
    frame.Reads inParentheses relation (o ++ rest) rest (.ok (some operator)) := by
  have hfirst {c : Char} {signs o : List Char} (ho : Spaced (c :: signs) o) (hc : c ≠ ' ')
      {d : Char} (hd : c ≠ d) : significant (o ++ rest) ≠ some d := by
    simp [ho.significant_append hc, hd]
  simp only [relations, List.mem_cons, Prod.mk.injEq, List.not_mem_nil, or_false] at h
  -- each sign is looked for once those in front of it in the list have been refused
  obtain ⟨rfl, rfl⟩ | ⟨rfl, rfl⟩ | ⟨rfl, rfl⟩ | ⟨rfl, rfl⟩ | ⟨rfl, rfl⟩ | ⟨rfl, rfl⟩ := h
  · exact reads_taken ho (by decide) ((reads_refusal hrest).then (reads_pure _ rest))
  · obtain ⟨a, b, ha, hb, rfl⟩ := ho.uncons
    rw [List.append_assoc]
    exact reads_taken ha (by decide) ((reads_accept hb (by decide)).then (reads_pure _ rest))
  · refine reads_refused (hfirst ho (by decide) (by decide)) ?_
    exact reads_taken ho (by decide) ((reads_refusal hrest).then (reads_pure _ rest))
  · refine reads_refused (hfirst ho (by decide) (by decide)) ?_
    obtain ⟨a, b, ha, hb, rfl⟩ := ho.uncons
    rw [List.append_assoc]
    exact reads_taken ha (by decide) ((reads_accept hb (by decide)).then (reads_pure _ rest))
  · refine reads_refused (hfirst ho (by decide) (by decide)) ?_
    refine reads_refused (hfirst ho (by decide) (by decide)) ?_
    exact reads_taken ho (by decide) (reads_pure _ rest)
  · refine reads_refused (hfirst ho (by decide) (by decide)) ?_
    refine reads_refused (hfirst ho (by decide) (by decide)) ?_
    refine reads_refused (hfirst ho (by decide) (by decide)) ?_
    obtain ⟨a, b, ha, hb, rfl⟩ := ho.uncons
    rw [List.append_assoc]
    exact reads_taken ha (by decide) ((reads_expect hb (by decide)).then (reads_pure _ rest))

theorem reads_no_relation (hrest : Followed .clause rest) :
    frame.Reads inParentheses relation rest rest (.ok none) := by
  refine reads_refused (hrest.ne (by decide)) (reads_refused (hrest.ne (by decide)) ?_)
  refine reads_refused (hrest.ne (by decide)) (reads_refused (hrest.ne (by decide)) ?_)
  exact reads_pure none rest

theorem reads_truth (hfactor : ReadsFactors levels factor) {t : Tree} {u : List Char}
    (h : Prints .expression t u) (hdepth : frame.lost + t.depth ≤ levels)
    (hrest : Followed .clause rest) :
    frame.Reads inParentheses (comparison factor) (u ++ rest) rest
      (frame.holds inParentheses (.truth t)) := by
  simp only [Frame.holds, Statement.holds]
  refine ((reads_expression hfactor h hdepth hrest.mono).loosely _).bind fun value _ => ?_
  exact (reads_no_relation hrest).then (reads_pure _ rest)

theorem reads_comparison (hfactor : ReadsFactors levels factor) {signs : List Char}
    {operator : Relation} {l r : Tree} {u o v : List Char} (hop : (signs, operator) ∈ relations)
    (hl : Prints .expression l u) (ho : Spaced signs o) (hr : Prints .expression r v)
    (hdepth : frame.lost + max l.depth r.depth ≤ levels) (hrest : Followed .clause rest) :
    frame.Reads inParentheses (comparison factor) (u ++ (o ++ (v ++ rest))) rest
      (frame.holds inParentheses (.comparison operator l r)) := by
  have hfollowed : Followed .expression (o ++ (v ++ rest)) := by
    obtain ⟨c, signs, rfl, rfl | rfl | rfl | rfl⟩ := cons_of_mem_relations hop <;>
      exact followed_spaced ho (by decide) (by decide)
  simp only [Frame.holds, Statement.holds]
  refine ((reads_expression hfactor hl (by omega) hfollowed).loosely _).bind fun x _ => ?_
  refine (reads_relation hop ho (hr.significant_ne (by decide) rest)).then ?_
  have hright : frame.Reads inParentheses (expression factor) (v ++ rest) rest
      (hide inParentheses (frame.value r)) :=
    ((reads_expression hfactor hr (by omega) hrest.mono).loosely _).hide
  exact hright.bind fun y _ => reads_pure _ rest

/-! ## Leading parentheses -/

/-- A text that opens with an expression in parentheses, which is either all of the tree or goes
on with an operator. -/
def Leads (t : Tree) (u : List Char) : Prop :=
  ∃ (inner : Tree) (a e b w : List Char), Spaced ['('] a ∧ Prints .expression inner e ∧
    Spaced [')'] b ∧ u = a ++ (e ++ (b ++ w)) ∧ inner.depth + 1 ≤ t.depth ∧
    (w = [] ∧ t = .bracket inner ∨ ∃ c, significant w = some c ∧ extendsOperand c)

theorem Leads.extend {l t : Tree} {u o v : List Char} {c : Char} (h : Leads l u)
    (ho : significant o = some c) (hc : extendsOperand c) (hdepth : l.depth ≤ t.depth) :
    Leads t (u ++ (o ++ v)) := by
  obtain ⟨inner, a, e, b, w, ha, he, hb, rfl, hinner, hw⟩ := h
  refine ⟨inner, a, e, b, w ++ (o ++ v), ha, he, hb, by simp, hinner.trans hdepth, .inr ?_⟩
  obtain ⟨rfl, -⟩ | ⟨d, hd, hextends⟩ := hw
  · exact ⟨c, significant_append ho v, hc⟩
  · exact ⟨d, significant_append hd _, hextends⟩

theorem leads_of_primary {t : Tree} {u : List Char} (h : Prints .primary t u)
    (hopen : significant u = some '(') : Leads t u := by
  cases h with
  | @bracket x a u b ha h hb =>
    exact ⟨x, a, u, b, [], ha, h, hb, by simp, by simp [Tree.depth], .inl ⟨rfl, rfl⟩⟩
  | number hliteral =>
    obtain ⟨c, hc, hbegins⟩ := hliteral.begins
    obtain rfl : c = '(' := by simpa [hc] using hopen
    exact absurd hbegins (by decide)
  | constant h | unary h | binary h | variadic h | conditional h =>
    exact absurd hopen (h.significant_ne (by decide) _)

theorem leads_of_factor {t : Tree} {u : List Char} (h : Prints .factor t u)
    (hopen : significant u = some '(') : Leads t u := by
  cases h with
  | sign negative ho _ => cases negative <;> simp [ho.significant_append] at hopen
  | primary h => exact leads_of_primary h hopen
  | juxtaposed hname _ _ => exact absurd hopen (hname.significant_ne (by decide) _)
  | @tail signs operator l r u o v hop hl ho hr =>
    obtain ⟨d, hd, -⟩ := hl.begins
    rw [significant_append hd, ← hd] at hopen
    have hdepth : l.depth ≤ (Tree.operation operator l r).depth := by
      rw [Tree.depth_tail hop]
      exact le_max_left _ _
    obtain ⟨c, signs, rfl, rfl | rfl⟩ := cons_of_mem_tails hop <;>
      exact (leads_of_primary hl hopen).extend (ho.significant (by decide)) rfl hdepth

theorem leads_of_chained {operators : List (Char × Operator)}
    {printed : Tree → List Char → Prop} (hoperators : ∀ entry ∈ operators, entry ∈ sums ++ products)
    (hoperand : ∀ t u, printed t u → significant u = some '(' → Leads t u)
    (hne : ∀ t u, Chained operators printed t u → ∃ c, significant u = some c)
    {t : Tree} {u : List Char} (h : Chained operators printed t u)
    (hopen : significant u = some '(') : Leads t u := by
  induction h with
  | first h => exact hoperand _ _ h hopen
  | @next sign operator l r u o v hop hl ho hr ih =>
    obtain ⟨c, hc⟩ := hne l u hl
    rw [significant_append hc, ← hc] at hopen
    have hextends : extendsOperand sign ∧ sign ≠ ' ' :=
      (by decide : ∀ entry ∈ sums ++ products, extendsOperand entry.1 ∧ entry.1 ≠ ' ') _
        (hoperators _ hop)
    refine (ih hopen).extend (ho.significant hextends.2) hextends.1 ?_
    rw [Tree.depth_operation (hoperators _ hop)]
    exact le_max_left _ _

theorem leads_of_term {t : Tree} {u : List Char} (h : Prints .term t u)
    (hopen : significant u = some '(') : Leads t u :=
  leads_of_chained (by decide) (fun _ _ => leads_of_factor)
    (fun _ _ h => h.term.begins.imp fun _ => And.left) h.chainedTerm hopen

theorem leads_of_expression {t : Tree} {u : List Char} (h : Prints .expression t u)
    (hopen : significant u = some '(') : Leads t u :=
  leads_of_chained (by decide) (fun _ _ => leads_of_term)
    (fun _ _ h => h.expression.begins.imp fun _ => And.left) h.chainedExpression hopen

/-! ## Groups -/

variable {statement : Reading Bool} {inner : Reading Bool}

theorem reads_trial {s : Statement} {a u b : List Char}
    (hinner : ReadsStatements levels ')' true inner) (ha : Spaced ['('] a)
    (h : Prints .statement s u) (hb : Spaced [')'] b) (hdepth : frame.lost + s.depth ≤ levels) :
    frame.Reads true (trial inner) (a ++ (u ++ (b ++ rest))) rest (frame.holds true s) :=
  (reads_accept ha (by decide)).then
    (reads_enclosed (hinner frame s u _ h hdepth (hb.significant_append (by decide))) hb)

/-- A comparison that opens with a parenthesis is tried as a group first. The trial is accepted
only where it is the whole comparison, and then it comes to the same. -/
theorem reads_group_of_comparison {e : Tree} {a u b mid : List Char} {result : Result Bool}
    (hinner : ReadsStatements levels ')' true inner) (ha : Spaced ['('] a)
    (h : Prints .expression e u) (hb : Spaced [')'] b) (hdepth : frame.lost + e.depth ≤ levels)
    (hcomparison : frame.Reads inParentheses (comparison factor) (a ++ (u ++ (b ++ mid))) rest
      result)
    (hmid : mid = rest ∧ result = frame.holds true (.truth e) ∨
      ∃ c, significant mid = some c ∧ extendsOperand c) :
    frame.Reads inParentheses (group (levels + 1) factor inner) (a ++ (u ++ (b ++ mid))) rest
      result := by
  have hstatement : Prints .statement (.truth e) u := .conditions (.condition (.clause (.truth h)))
  have htrial : frame.Reads true (trial inner) (a ++ (u ++ (b ++ mid))) mid _ :=
    reads_trial hinner ha hstatement hb hdepth
  refine reads_nested (by omega) (reads_orElse htrial (fun _ => hcomparison) ?_)
  intro value hvalue ⟨behind, haccepted⟩
  obtain ⟨rfl, rfl⟩ | ⟨c, hc, hextends⟩ := hmid
  · exact ⟨rfl, hvalue⟩
  · rw [Cursor.peek_facing, hc] at haccepted
    simp [Spot.ofOption, Spot.satisfies, hextends] at haccepted

theorem reads_group {s : Statement} {a u b : List Char}
    (hinner : ReadsStatements levels ')' true inner) (ha : Spaced ['('] a)
    (h : Prints .statement s u) (hb : Spaced [')'] b) (hdepth : frame.lost + s.depth ≤ levels)
    (hrest : Followed .clause rest)
    (hagain : ∀ failure, frame.holds true s = .error failure →
      frame.Reads inParentheses (comparison factor) (a ++ (u ++ (b ++ rest))) rest
        (.error failure)) :
    frame.Reads inParentheses (group (levels + 1) factor inner) (a ++ (u ++ (b ++ rest))) rest
      (frame.holds true s) := by
  have htrial : frame.Reads true (trial inner) (a ++ (u ++ (b ++ rest))) rest _ :=
    reads_trial hinner ha h hb hdepth
  refine reads_nested (by omega) (reads_orElse htrial ?_ fun value hvalue _ => ⟨rfl, hvalue⟩)
  rintro (⟨failure, hfailure⟩ | ⟨behind, hrefused⟩)
  · rw [hfailure]
    exact hagain failure hfailure
  · rw [Cursor.peek_facing] at hrefused
    cases hsignificant : significant rest with
    | none => simp [hsignificant, Spot.ofOption, Spot.satisfies] at hrefused
    | some c =>
      have hc := hrest c hsignificant
      simp only [Category.followers, List.mem_cons, List.not_mem_nil, or_false] at hc
      obtain rfl | rfl | rfl | rfl := hc <;>
        simp [hsignificant, Spot.ofOption, Spot.satisfies, extendsOperand] at hrefused

/-! ## Clauses and conditions -/

/-- A failed group is no operand of a comparison: it fails as an expression for the same reason. -/
def RereadsGroups (levels : Nat) (factor : Reading Decimal) : Prop :=
  ∀ (frame : Frame) (s : Statement) (a u b rest : List Char) (failure : Failure),
    Spaced ['('] a → Prints .statement s u → Spaced [')'] b → frame.lost + s.depth ≤ levels →
      Followed .clause rest → frame.holds true s = .error failure →
        frame.Reads false (expression factor) (a ++ (u ++ (b ++ rest))) rest (.error failure)

theorem reads_clause_of {text : List Char} {result : Result Bool}
    (hgroup : significant text = some '(' →
      frame.Reads inParentheses (group levels factor inner) text rest result)
    (hcomparison : significant text ≠ some '(' →
      frame.Reads inParentheses (comparison factor) text rest result) :
    frame.Reads inParentheses (clause levels factor inner) text rest result := by
  refine (reads_peek text).then ?_
  cases hsignificant : significant text with
  | none => exact hcomparison (by simp [hsignificant])
  | some c =>
    by_cases hc : c = '('
    · subst hc
      exact hgroup hsignificant
    · simp only [Spot.ofOption, Spot.at.injEq, hc, ↓reduceIte]
      exact hcomparison (by simpa [hsignificant] using hc)

theorem reads_clause (hfactor : ReadsFactors (levels + 1) factor)
    (hinner : ReadsStatements levels ')' true inner) (hgroups : RereadsGroups levels factor)
    {s : Statement} {u : List Char} (h : Prints .clause s u)
    (hdepth : frame.lost + s.depth ≤ levels + 1) (hrest : Followed .clause rest) :
    frame.Reads inParentheses (clause (levels + 1) factor inner) (u ++ rest) rest
      (frame.holds inParentheses s) := by
  cases h with
  | @group s a u b ha h hb =>
    simp only [Statement.depth] at hdepth
    simp only [List.append_assoc, Frame.holds, Statement.holds]
    refine reads_clause_of (fun _ => ?_) fun hopen =>
      absurd (ha.significant_append (by decide)) hopen
    refine reads_group hinner ha h hb (by omega) hrest fun failure hfailure => ?_
    have hagain := hgroups frame s a u b rest failure ha h hb (by omega) hrest hfailure
    exact fun behind => (hagain.loosely _ behind).fails
  | @truth t u h =>
    simp only [Statement.depth] at hdepth
    have hcomparison : frame.Reads inParentheses (comparison factor) (u ++ rest) rest _ :=
      reads_truth hfactor h hdepth hrest
    refine reads_clause_of (fun hopen => ?_) fun _ => hcomparison
    obtain ⟨d, hd, -⟩ := h.begins
    rw [significant_append hd, ← hd] at hopen
    obtain ⟨e, a, x, b, w, ha, he, hb, rfl, hle, hw⟩ := leads_of_expression h hopen
    simp only [List.append_assoc] at hcomparison ⊢
    refine reads_group_of_comparison hinner ha he hb (by omega) hcomparison ?_
    obtain ⟨rfl, rfl⟩ | ⟨c, hc, hextends⟩ := hw
    · refine .inl ⟨rfl, ?_⟩
      simp only [Frame.holds, Statement.holds, Tree.value]
    · exact .inr ⟨c, significant_append hc rest, hextends⟩
  | @comparison signs operator l r u o v hop hl ho hr =>
    simp only [Statement.depth] at hdepth
    have hcomparison : frame.Reads inParentheses (comparison factor) (u ++ (o ++ (v ++ rest)))
        rest _ := reads_comparison hfactor hop hl ho hr hdepth hrest
    simp only [List.append_assoc]
    refine reads_clause_of (fun hopen => ?_) fun _ => hcomparison
    obtain ⟨d, hd, -⟩ := hl.begins
    rw [significant_append hd, ← hd] at hopen
    obtain ⟨e, a, x, b, w, ha, he, hb, rfl, hle, hw⟩ := leads_of_expression hl hopen
    simp only [List.append_assoc] at hcomparison ⊢
    refine reads_group_of_comparison hinner ha he hb (by omega) hcomparison (.inr ?_)
    obtain ⟨rfl, -⟩ | ⟨c, hc, hextends⟩ := hw
    · obtain ⟨c, signs, rfl, rfl | rfl | rfl | rfl⟩ := cons_of_mem_relations hop <;>
        exact ⟨_, ho.significant_append (by decide), rfl⟩
    · exact ⟨c, significant_append hc _, hextends⟩

theorem Prints.significant_ne_negation {s : Statement} {u : List Char} (h : Prints .clause s u)
    (rest : List Char) : significant (u ++ rest) ≠ some '!' := by
  obtain ⟨c, hc, hbegins⟩ := h.begins
  rw [significant_append hc]
  rintro heq
  obtain rfl : c = '!' := by simpa using heq
  exact absurd hbegins (by decide)

/-- The reader of a condition takes every printed condition that is not nested too deep. -/
def ReadsConditions (levels : Nat) (inParentheses : Bool) (condition : Reading Bool) : Prop :=
  ∀ (frame : Frame) (s : Statement) (u rest : List Char), Prints .condition s u →
    frame.lost + s.depth ≤ levels → Followed .condition rest →
      frame.Reads inParentheses condition (u ++ rest) rest (frame.holds inParentheses s)

theorem reads_condition (hfactor : ReadsFactors (levels + 1) factor)
    (hinner : ReadsStatements levels ')' true inner) (hgroups : RereadsGroups levels factor) :
    ReadsConditions (levels + 1) inParentheses (condition (levels + 1) factor inner) := by
  intro frame s u rest h hdepth hrest
  cases h with
  | clause h =>
    refine (reads_refusal (h.significant_ne_negation rest)).then ?_
    refine (reads_clause hfactor hinner hgroups h hdepth hrest).keep fun holds => ?_
    rw [Bool.bne_false]
    exact reads_pure holds rest
  | @negation s o u ho h =>
    simp only [Statement.depth] at hdepth
    simp only [List.append_assoc, Frame.holds, Statement.holds]
    refine (reads_accept ho (by decide)).then ?_
    refine (reads_clause hfactor hinner hgroups h hdepth hrest).hide.bind fun holds _ => ?_
    rw [Bool.bne_true]
    exact reads_pure _ rest

/-! ## Statements -/

theorem reads_connective {sign : Char} {conjunction : Bool} {o : List Char}
    (h : (sign, conjunction) ∈ connectives) (ho : Spaced [sign] o) :
    frame.Reads inParentheses connective (o ++ rest) rest (.ok (some conjunction)) := by
  simp only [connectives, List.mem_cons, Prod.mk.injEq, List.not_mem_nil, or_false] at h
  obtain ⟨rfl, rfl⟩ | ⟨rfl, rfl⟩ := h
  · exact reads_taken ho (by decide) (reads_pure _ rest)
  · have hbar : significant (o ++ rest) = some '|' := ho.significant_append (by decide)
    exact reads_refused (by simp [hbar]) (reads_taken ho (by decide) (reads_pure _ rest))

variable {stop : Char} {condition : Reading Bool}

theorem reads_conditionStep (hcondition : ReadsConditions levels inParentheses condition)
    {sign : Char} {conjunction : Bool} {r : Statement} {o v : List Char}
    (hop : (sign, conjunction) ∈ connectives) (ho : Spaced [sign] o) (hr : Prints .condition r v)
    (hstop : stop = ')' ∨ stop = ',') (hdepth : frame.lost + r.depth ≤ levels)
    (hrest : Followed .condition rest) (left : Bool) :
    frame.Reads inParentheses (conditionStep stop condition left) (o ++ (v ++ rest)) rest
      (some <$> (do
        let right ← hide inParentheses (frame.holds inParentheses r)
        return Grammar.join conjunction left right)) := by
  have hgoes : Spot.ofOption (significant (v ++ rest)) ≠ .at stop := by
    obtain ⟨c, hc, hbegins⟩ := hr.begins
    rw [significant_append hc]
    rintro heq
    obtain rfl : c = stop := by simpa [Spot.ofOption] using heq
    obtain rfl | rfl := hstop <;> exact absurd hbegins (by decide)
  refine (reads_connective hop ho).then ((reads_peek _).then ?_)
  rw [if_neg hgoes, map_bind]
  exact (hcondition frame r v rest hr hdepth hrest).hide.bind fun right _ => reads_pure _ rest

theorem followed_connective {sign : Char} {conjunction : Bool} {o : List Char}
    (h : (sign, conjunction) ∈ connectives) (ho : Spaced [sign] o) :
    Followed .condition (o ++ rest) := by
  simp only [connectives, List.mem_cons, Prod.mk.injEq, List.not_mem_nil, or_false] at h
  obtain ⟨rfl, -⟩ | ⟨rfl, -⟩ := h <;> exact followed_spaced ho (by decide) (by decide)

theorem repeats_conditions (hcondition : ReadsConditions levels inParentheses condition)
    (hstop : stop = ')' ∨ stop = ',') {s : Statement} {u rest : List Char}
    (h : Prints .conditions s u) (hdepth : frame.lost + s.depth ≤ levels)
    (hrest : Followed .condition rest) (behind : List Char) :
    frame.Repeats inParentheses (conditionStep stop condition) rest (frame.holds inParentheses s)
      (conditions stop condition frame.settings (frame.facing behind (u ++ rest))) := by
  match h with
  | .condition h =>
    have hstart : frame.Repeats inParentheses (conditionStep stop condition) _ _ _ :=
      repeats_start (hcondition frame s u rest h hdepth hrest behind) id
    rwa [id_map] at hstart
  | @Prints.join sign conjunction l r u o v hop hl ho hr =>
    simp only [Statement.depth] at hdepth
    have hfollowed : Followed .condition (o ++ (v ++ rest)) := followed_connective hop ho
    have hleft := repeats_conditions hcondition hstop hl (by omega) hfollowed behind
    have hnext := hleft.next
      (reads_conditionStep hcondition hop ho hr hstop (by omega) hrest)
      (length_after_sign ho v rest)
    simp only [List.append_assoc]
    simpa only [Frame.holds, Statement.holds] using hnext

theorem reads_statement (hcondition : ReadsConditions levels inParentheses condition)
    (hstop : stop = ')' ∨ stop = ',') :
    ReadsStatements levels stop inParentheses (conditions stop condition) := by
  intro frame s u rest h hdepth hrest behind
  have hfollowed : Followed .condition rest :=
    followed_of_significant hrest (by obtain rfl | rfl := hstop <;> decide)
  have hne (c : Char) (hc : c ≠ ')' ∧ c ≠ ',') : significant rest ≠ some c := by
    rw [hrest]
    obtain rfl | rfl := hstop <;> simp [hc.1.symm, hc.2.symm]
  cases h with
  | conditions h =>
    refine (repeats_conditions hcondition hstop h hdepth hfollowed behind).stop (fun left => ?_) id
    have hnone : frame.Reads inParentheses connective rest rest (.ok none) :=
      reads_refused (hne '&' (by decide)) (reads_refused (hne '|' (by decide))
        (reads_pure none rest))
    exact hnone.then (reads_pure none rest)
  | @dangling sign conjunction s u o hop h ho =>
    rw [List.append_assoc]
    refine (repeats_conditions hcondition hstop h hdepth (followed_connective hop ho) behind).stop
      (fun left => ?_) (fun hnil => ?_)
    · refine (reads_connective hop ho).then ((reads_peek _).then ?_)
      simp only [hrest, Spot.ofOption, ↓reduceIte]
      exact reads_pure none rest
    · simp [significant, (List.append_eq_nil_iff.1 hnil).2] at hrest

end Reckoner.Syntax
