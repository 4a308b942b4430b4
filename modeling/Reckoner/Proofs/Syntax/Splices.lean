import Reckoner.Proofs.Syntax.Parentheses
import Reckoner.Proofs.Syntax.Truth

/-!
# Statements put into a choice

The truth of a text is asked for by putting the text into a choice between one and zero as it is.
What comes back is the truth of the text as a statement, unless the text closes the call itself:
then the condition of the choice is only its beginning.
-/

namespace Reckoner.Syntax

open Grammar Reading

variable {category : Category} {node : category.Node} {m n : Nat} {s : Statement} {l r t : Tree}
  {u v w p text test first second more : List Char} {calculator : Calculator} {ctx : Context}
  {levels : Nat} {b : Bool}

/-! ## Phrases that begin with a choice -/

/-- The call of a choice stands at the head of a text, and its condition takes fewer levels. -/
def OpensChoice (levels : Nat) (u : List Char) : Prop :=
  ∃ s l r test first second more, PrintsTest s test ∧ s.depth < levels ∧ PrintsWhole l first ∧
    PrintsWhole r second ∧ u = choiceText "if" test first second ++ more

theorem OpensChoice.extend (h : OpensChoice m u) (hle : m ≤ n) (w : List Char) :
    OpensChoice n (u ++ w) := by
  obtain ⟨s, l, r, test, first, second, more, hs, hdepth, hl, hr, rfl⟩ := h
  exact ⟨s, l, r, test, first, second, more ++ w, hs, by omega, hl, hr, by simp⟩

theorem significant_if (h : "if(".toList <+: u) : significant u = some 'i' := by
  obtain ⟨w, rfl⟩ := h
  rfl

/-- No other name stands in front of this parenthesis. -/
theorem Named.eq_if {function : Builtin} (h : Named function v) (hif : "if(".toList <+: v ++ w) :
    function = .conditional false ∧ v = "if".toList := by
  have htable : ∀ entry ∈ Builtin.table,
      "if(".toList <+: entry.1.toList ∨ entry.1.toList <+: "if(".toList →
        entry = ("if", .conditional false) := by decide
  obtain ⟨n, name, hname, rfl⟩ := h
  cases n with
  | succ n => simp [List.replicate_succ] at hif
  | zero =>
    obtain ⟨before, after, hsplit, -⟩ := List.lookup_eq_some_iff.1 hname
    have hcomparable := List.prefix_or_prefix_of_prefix hif (List.prefix_append name.toList w)
    have hentry := htable (name, function) (by rw [hsplit]; simp) hcomparable
    obtain ⟨rfl, rfl⟩ := Prod.mk.inj hentry
    exact ⟨rfl, rfl⟩

/-- A text that is followed by spaces or by a sign goes on in front of them. -/
theorem prefix_of_append (h : p <+: u ++ w) (hspace : ' ' ∉ p)
    (hw : ∀ c, significant w = some c → c ∉ p) : p <+: u := by
  obtain h' | ⟨a, rfl⟩ := List.prefix_or_prefix_of_prefix h (List.prefix_append u w)
  · exact h'
  obtain ⟨b, rfl⟩ := (List.prefix_append_right_inj u).1 h
  cases a with
  | nil => simp
  | cons c a =>
    have hc : significant (c :: a ++ b) = some c := by
      rw [List.cons_append, significant_cons (by rintro rfl; simp at hspace)]
    exact absurd (List.mem_append_right u List.mem_cons_self) (hw c hc)

/-- What stands in front of a sign begins with a choice if the whole does. -/
theorem opensChoice_before {sign : Char} {signs o : List Char}
    (hu : "if(".toList <+: u → OpensChoice m u) (ho : Spaced (sign :: signs) o)
    (hsign : sign ∉ ' ' :: "if(".toList) (hle : m ≤ n) (hif : "if(".toList <+: u ++ (o ++ v)) :
    OpensChoice n (u ++ (o ++ v)) := by
  obtain ⟨hspace, hsign⟩ := not_or.1 (List.mem_cons.not.1 hsign)
  have hprefix : "if(".toList <+: u := prefix_of_append hif (by decide) fun c hc => by
    rw [ho.significant_append hspace, Option.some_inj] at hc
    rwa [← hc]
  exact (hu hprefix).extend hle _

theorem sign_not_mem {β : Type} {table : List (Char × β)} {sign : Char} {value : β}
    (h : (sign, value) ∈ table)
    (htable : ∀ entry ∈ table, entry.1 ∉ ' ' :: "if(".toList := by decide) :
    sign ∉ ' ' :: "if(".toList :=
  htable _ h

/-- A printed phrase that begins like the call of a choice begins with such a call. -/
theorem Prints.opensChoice (h : Prints category node u) (hif : "if(".toList <+: u) :
    OpensChoice (category.depth node) u := by
  induction h with
  | term _ ih | factor _ ih | primary _ ih | conditions _ ih | condition _ ih | clause _ ih
  | one _ ih => exact ih hif
  | truth _ ih =>
    simpa only [Category.depth, Statement.depth] using ih hif
  | number hliteral =>
    obtain ⟨c, hc, hbegins⟩ := hliteral.begins
    obtain rfl : c = 'i' := by simpa [significant_if hif] using hc.symm
    exact absurd hbegins (by decide)
  | sum hop _ ho _ ih =>
    refine opensChoice_before ih ho (sign_not_mem hop) ?_ hif
    simp [Category.depth, Tree.depth_operation (List.mem_append_left products hop)]
  | product hop _ ho _ ih =>
    refine opensChoice_before ih ho (sign_not_mem hop) ?_ hif
    simp [Category.depth, Tree.depth_operation (List.mem_append_right sums hop)]
  | tail hop _ ho _ ih =>
    obtain ⟨c, signs, rfl, hc⟩ := cons_of_mem_tails hop
    refine opensChoice_before ih ho ?_ ?_ hif
    · obtain rfl | rfl := hc <;> decide
    · simp [Category.depth, Tree.depth_tail hop]
  | comparison hop _ ho _ ih =>
    obtain ⟨c, signs, rfl, hc⟩ := cons_of_mem_relations hop
    refine opensChoice_before ih ho ?_ ?_ hif
    · obtain rfl | rfl | rfl | rfl := hc <;> decide
    · simp [Category.depth, Statement.depth]
  | join hop _ ho _ ih =>
    refine opensChoice_before ih ho (sign_not_mem hop) ?_ hif
    simp [Category.depth, Statement.depth]
  | @dangling _ _ s u o hop _ ho ih =>
    have hbefore : OpensChoice s.depth (u ++ (o ++ [])) :=
      opensChoice_before ih ho (sign_not_mem hop) le_rfl (by simpa using hif)
    rwa [List.append_nil] at hbefore
  | more _ ho _ ih =>
    refine opensChoice_before ih ho (by decide) ?_ hif
    simp [Category.depth, Arguments.depth]
  | sign negative ho _ ih =>
    have hfirst := significant_if hif
    cases negative <;> simp [ho.significant_append] at hfirst
  | negation ho _ _ => simpa [ho.significant_append] using significant_if hif
  | bracket ha _ _ _ | group ha _ _ _ =>
    simpa [ha.significant_append] using significant_if hif
  | constant hname _ => simpa using (hname.eq_if hif).1
  | unary hname _ _ _ _ | variadic hname _ _ _ _ | binary hname _ _ _ _ _ _ _
  | juxtaposed hname _ _ _ => simpa using (hname.eq_if hif).1
  | @conditional negated s l r _ a v c w d x b hname ha hs hc hl hd hr hb _ _ _ =>
    obtain ⟨hfunction, rfl⟩ := hname.eq_if hif
    obtain rfl : negated = false := by simpa using hfunction
    obtain ⟨_ | h, rfl⟩ := spaces_of_spaced ha
    -- the spaces in front of a sign belong to the part that it ends
    · obtain ⟨i, rfl⟩ := spaces_of_spaced hc
      obtain ⟨j, rfl⟩ := spaces_of_spaced hd
      obtain ⟨k, rfl⟩ := spaces_of_spaced hb
      have hdepth : s.depth < (Tree.conditional false s l r).depth := by
        simp only [Tree.depth]
        omega
      refine ⟨s, l, r, _, _, _, [], ⟨v, i, hs, rfl⟩, hdepth, ⟨w, j, hl, rfl⟩, ⟨x, k, hr, rfl⟩, ?_⟩
      simp [choiceText]
    · simp [List.replicate_succ] at hif

/-! ## The call around a text -/

theorem PrintsWhole.nested (h : PrintsWhole t u) : Nested false u := by
  obtain ⟨v, n, h, rfl⟩ := h
  exact h.nested.append (nested_spaces n)

theorem PrintsTest.nested (h : PrintsTest s u) : Nested false u := by
  obtain ⟨v, n, h, rfl⟩ := h
  exact h.nested.append (nested_spaces n)

/-- What stands behind the last comma, if it has no parentheses, is all of a printed expression. -/
theorem last_part {x : List Char} (hw : Nested false w) (hv : ∀ c ∈ v, !isMark c)
    (h : u ++ ',' :: v = x ++ ',' :: w) : u = x ∧ v = w := by
  obtain ⟨_ | ⟨c, a⟩, rfl, ha⟩ | ⟨_ | ⟨c, a⟩, rfl, ha⟩ := List.append_eq_append_iff.1 h
  · simpa using ha
  · obtain ⟨rfl, rfl⟩ := by simpa using ha
    exact absurd (hv ',' (by simp)) (by decide)
  · simpa [eq_comm] using ha
  · obtain ⟨rfl, rfl⟩ := by simpa using ha
    have hopen := hw.count_lt rfl
    have heven := hw.count_eq
    have hchars : Nested false v := nested_chars hv
    have hcount := hchars.count_eq
    rw [List.count_append, List.count_append, List.count_cons_of_ne (by decide),
      List.count_cons_of_ne (by decide)] at heven
    omega

/-- A call that opens no differently than the one a text is put into has the text for a test. -/
theorem test_of_choiceText (hs : PrintsTest s test) (hl : PrintsWhole l first)
    (hr : PrintsWhole r second) (hcloses : ¬ ClosesEarly text)
    (h : choiceText "if" text ['1'] ['0'] = choiceText "if" test first second ++ more) :
    text = test := by
  obtain ⟨body, hbody⟩ : ∃ body, body = test ++ ',' :: (first ++ ',' :: second) := ⟨_, rfl⟩
  have hinside : Nested true body := by
    rw [hbody]
    exact hs.nested.inside.append (.append .comma
      (hl.nested.inside.append (.append .comma hr.nested.inside)))
  have hends : text ++ [',', '1', ',', '0'] ++ [')'] = body ++ ')' :: more := by
    rw [hbody]
    simpa [choiceText] using h
  -- if the call ended earlier, the text would have closed it
  obtain rfl : more = [] := by
    by_contra hmore
    obtain ⟨more, d, rfl⟩ : ∃ w d, more = w ++ [d] :=
      ⟨_, _, (List.dropLast_append_getLast hmore).symm⟩
    rw [← List.cons_append, ← List.append_assoc] at hends
    have hearly := hinside.closesEarly more
    rw [← (List.append_inj' hends rfl).1] at hearly
    exact hcloses (hearly.of_append (by decide))
  have hparts : text ++ [',', '1', ',', '0'] = test ++ ',' :: (first ++ ',' :: second) :=
    (List.append_inj' hends rfl).1.trans hbody
  obtain ⟨hfront, rfl⟩ := last_part (u := text ++ [',', '1']) (v := ['0'])
    (x := test ++ ',' :: first) hr.nested (by decide) (by simpa using hparts)
  exact (last_part (v := ['1']) hl.nested (by decide) hfront).1

theorem PrintsWhole.opensChoice (h : PrintsWhole t u) (hif : "if(".toList <+: u) :
    OpensChoice t.depth u := by
  obtain ⟨v, n, h, rfl⟩ := h
  have hprefix : "if(".toList <+: v :=
    prefix_of_append hif (by decide) (by simp [significant_replicate])
  exact (h.opensChoice hprefix).extend le_rfl _

theorem read_of_holds (hplaceholder : '$' ∉ text) (h : calculator.holds text = .ok b) :
    ∃ value last, calculator.read false (choiceText "if" text ['1'] ['0']) = .done value last := by
  unfold Calculator.holds at h
  rw [show "if(".toList ++ text ++ ",1,0)".toList = choiceText "if" text ['1'] ['0'] by
    simp [choiceText], evaluate_eq_evaluatePlain .empty (by simp [choiceText, hplaceholder]),
    Calculator.evaluatePlain] at h
  split at h
  · next value last hread => exact ⟨value, last, hread⟩
  · simp at h

/-- A text is given the truth of the statement it prints, and none if the statement has none. -/
theorem holds_eq_ok_iff_of_test (hs : PrintsTest s text) (hdepth : s.depth < calculator.maxDepth) :
    calculator.holds text = .ok b ↔ s.holds calculator.context false false = .ok b := by
  refine ⟨fun h => ?_, holds_of_test hs hdepth⟩
  rcases hholds : s.holds calculator.context false false with ⟨error, _ | _⟩ | truth
  · have hanswers := answers_test hs hdepth
    simp only [Tree.value, hholds] at hanswers
    rw [Calculator.holds, show calculator.evaluate _ _ = _ from hanswers] at h
    simp at h
  · have hanswers := answers_test hs hdepth
    simp only [Tree.value, hholds] at hanswers
    obtain ⟨fault, hfault⟩ := hanswers
    rw [Calculator.holds, hfault] at h
    simp at h
  · rw [Except.ok.inj ((holds_of_test hs hdepth hholds).symm.trans h)]

/-- The condition of the choice that a text was put into is the text, unless it closes the call. -/
theorem test_of_holds (hplaceholder : '$' ∉ text) (hcloses : ¬ ClosesEarly text)
    (h : calculator.holds text = .ok b) :
    ∃ s, PrintsTest s text ∧ s.depth < calculator.maxDepth ∧
      s.holds calculator.context false false = .ok b := by
  obtain ⟨value, last, hread⟩ := read_of_holds hplaceholder h
  obtain ⟨t, ht, hdepth⟩ := printed_of_read hread
  obtain ⟨s, l, r, test, first, second, more, hs, hlt, hl, hr, hsplit⟩ :=
    ht.opensChoice ⟨text ++ [',', '1', ',', '0', ')'], by simp [choiceText]⟩
  obtain rfl : text = test := test_of_choiceText hs hl hr hcloses hsplit
  have hlevels : s.depth < calculator.maxDepth := hlt.trans_le hdepth
  exact ⟨s, hs, hlevels, (holds_eq_ok_iff_of_test hs hlevels).1 h⟩

/-! ## Statements in front of a comma -/

/-- In front of a comma, a text is a statement to its end, and it is read to this truth. -/
def ConditionIs (ctx : Context) (levels : Nat) (text : List Char) (b : Bool) : Prop :=
  ∃ last, statement levels ',' ⟨ctx, levels⟩ ⟨⟨.after [] (text ++ [',']), true⟩, 0, false⟩ =
    .done b last ∧ last.cursor.place.rest.dropWhile (· == ' ') = [',']

theorem shows_condition (hs : Prints .statement s u) (hdepth : s.depth ≤ levels) (n : Nat) :
    (Frame.ofCalculator ⟨ctx, levels⟩ false).Shows false (List.replicate n ' ' ++ [','])
      (s.holds ctx false false) (statement levels ',' ⟨ctx, levels⟩
        ⟨⟨.after [] (u ++ List.replicate n ' ' ++ [',']), true⟩, 0, false⟩) := by
  have hcomma : significant (List.replicate n ' ' ++ [',']) = some ',' := by
    rw [significant_spaces, significant_cons (by decide)]
  rw [List.append_assoc]
  exact (readsLevel levels).statements ',' false (.inr rfl) _ s u _ hs
    ((Nat.zero_add _).trans_le hdepth) hcomma []

theorem spaces_of_dropWhile {c : Char} (h : u.dropWhile (· == ' ') = [c]) :
    ∃ n, u = List.replicate n ' ' ++ [c] := by
  obtain ⟨sign, more, hsign, rfl, hdrop⟩ :=
    spaced_of_significant (show significant u = some c by rw [significant, h]; rfl)
  obtain rfl : more = [] := by simpa [h] using hdrop.symm
  rw [List.append_nil]
  exact spaces_of_spaced hsign

/-- Such a text prints a statement of this truth, spaces behind it apart. -/
theorem ConditionIs.holds (h : ConditionIs ctx levels text b) :
    ∃ s, PrintsTest s text ∧ s.depth ≤ levels ∧ s.holds ctx false false = .ok b := by
  obtain ⟨last, hrun, hend⟩ := h
  obtain ⟨u, rest, behind, htext, rfl, s, hs, hdepth⟩ :=
    (takesLevel levels).statements ',' (.ofCalculator ⟨ctx, levels⟩ false) _ [] b last hrun
  rw [Frame.facing, Cursor.rest_facing] at hend
  obtain ⟨n, rfl⟩ := spaces_of_dropWhile hend
  rw [← List.append_assoc] at htext
  obtain rfl : text = u ++ List.replicate n ' ' := (List.append_inj' htext rfl).1
  have hlevels : s.depth ≤ levels := (Nat.zero_add _).symm.trans_le hdepth
  have hshows : (Frame.ofCalculator ⟨ctx, levels⟩ false).Shows false _ _ _ :=
    shows_condition hs hlevels n
  rw [hrun] at hshows
  refine ⟨s, ⟨u, n, hs, rfl⟩, hlevels, ?_⟩
  rcases hholds : s.holds ctx false false with failure | truth <;> rw [hholds] at hshows
  · obtain ⟨error, cursor, hfailed, -⟩ := hshows
    simp at hfailed
  · obtain ⟨_, hdone⟩ := hshows
    rw [(Outcome.done.inj hdone).1]

theorem PrintsTest.conditionIs (hs : PrintsTest s text) (hdepth : s.depth ≤ levels)
    (hholds : s.holds ctx false false = .ok b) : ConditionIs ctx levels text b := by
  obtain ⟨u, n, hs, rfl⟩ := hs
  have hshows : (Frame.ofCalculator ⟨ctx, levels⟩ false).Shows false _ _ _ :=
    shows_condition hs hdepth n
  rw [hholds] at hshows
  obtain ⟨behind, hdone⟩ := hshows
  refine ⟨_, hdone, ?_⟩
  rw [Frame.facing, Cursor.rest_facing, dropWhile_spaces]
  rfl

theorem ConditionIs.not_closesEarly (h : ConditionIs ctx levels text b) : ¬ ClosesEarly text := by
  obtain ⟨s, hs, -⟩ := h.holds
  exact hs.nested.not_closesEarly

/-- A text without placeholders that is given a truth is a statement of that truth to its end if
and only if it never closes more parentheses than it has opened. Every statement is given its
truth. -/
theorem holds_iff_condition (calculator : Calculator) (text : List Char) (b : Bool) (levels : Nat)
    (hplaceholder : '$' ∉ text) (hlevels : calculator.maxDepth ≤ levels + 1) :
    (calculator.holds text = .ok b →
      (ConditionIs calculator.context levels text b ↔ ¬ ClosesEarly text)) ∧
    (ConditionIs calculator.context (calculator.maxDepth - 1) text b →
      calculator.holds text = .ok b) := by
  refine ⟨fun h => ⟨ConditionIs.not_closesEarly, fun hcloses => ?_⟩, fun h => ?_⟩
  · obtain ⟨s, hs, hdepth, hholds⟩ := test_of_holds hplaceholder hcloses h
    exact hs.conditionIs (by omega) hholds
  · obtain ⟨s, hs, hdepth, hholds⟩ := h.holds
    have hpos := s.depth_pos
    exact holds_of_test hs (by omega) hholds

theorem holds_iff_condition_dangling :
    let calculator : Calculator := ⟨⟨10, .halfUp, by decide⟩, 4⟩
    let text := "(1+1=2)&!(max(3,4)>4) | ".toList
    '$' ∉ text ∧ calculator.maxDepth ≤ 3 + 1 ∧ calculator.holds text = .ok true ∧
      (ConditionIs calculator.context 3 text true ↔ ¬ ClosesEarly text) := by
  intro calculator text
  have hplaceholder : '$' ∉ text := by decide
  have hholds : calculator.holds text = .ok true := by decide +kernel
  exact ⟨hplaceholder, le_rfl, hholds,
    (holds_iff_condition calculator text true 3 hplaceholder le_rfl).1 hholds⟩

/-- The text closes the choice it is put into and opens another one, so it is given the truth of
their product. As a statement it ends behind the first digit. -/
theorem holds_of_two_choices :
    let calculator : Calculator := ⟨⟨10, .halfUp, by decide⟩, 4⟩
    let text := "1,1,0)*if(1".toList
    '$' ∉ text ∧ calculator.holds text = .ok true ∧
      ∀ levels b, ¬ ConditionIs calculator.context levels text b := by
  intro calculator text
  have hcloses : ClosesEarly text := ⟨"1,1,0)".toList, "*if(1".toList, rfl, by decide⟩
  exact ⟨by decide, by decide +kernel, fun levels b h => h.not_closesEarly hcloses⟩

end Reckoner.Syntax
