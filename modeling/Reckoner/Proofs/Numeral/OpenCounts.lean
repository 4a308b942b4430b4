import Reckoner.Proofs.Numeral.Histories

/-!
# Open counts

The open count of a whole number that is read is held in a word and starts over from zero where it
passes the end. Reading with a count that has no end takes the same steps, so both readings agree as
long as no count on the way passes the end of the word. Each hundred multiplies the count, and only the
name of a power closes it: that few hundreds stand between the powers is enough.
-/

namespace Reckoner.Numeral

open Decimal

variable {α β : Type} {known known' : Names} {total total' : Decimal} {count count' : Nat}
  {word : List Char} {words : List (List Char)}

/-! ## Runs of conversions -/

theorem run_map (f : α → β) (p : Conversion α) (known : Names) :
    (f <$> p).run known = ((p.run known).1.map f, (p.run known).2) := by
  rw [ExceptT.run_map]
  rfl

theorem run_bind (p : Conversion α) (f : α → Conversion β) (known : Names) :
    (p >>= f).run known = match p.run known with
      | (.ok a, known) => (f a).run known
      | (.error error, known) => (.error error, known) := by
  have hbind (p : Naming (Except ConversionError α))
      (f : Except ConversionError α → Naming (Except ConversionError β)) :
      (p >>= f) known = f (p known).1 (p known).2 := rfl
  rw [ExceptT.run_bind, hbind]
  generalize p.run known = reached
  obtain ⟨result, known'⟩ := reached
  cases result <;> rfl

theorem run_bind_lift (p : Naming α) (f : α → Conversion β) (known : Names) :
    ((liftM p : Conversion α) >>= f).run known = (f (p known).1).run (p known).2 := by
  rw [run_bind]
  rfl

/-! ## The exact reading -/

/-- Reads one more word, with an open count that has no end. -/
def readWordExactly (total : Decimal) (count : Nat) (word : List Char) :
    Conversion (Decimal × Nat) := do
  if isWord "hundred" word then
    if count = 0 then throw (needsMultiplier word)
    return (total, count * 100)
  match ← exponentOf? word with
  | some exponent =>
    if count = 0 then throw (needsMultiplier word)
    return (context.add total ((ofNat count).movePoint exponent), 0)
  | none =>
    match entryOf? word with
    | some entry => return (total, count + entry.value)
    | none =>
      if isWord "zero" word then throw (badPhrase "'Zero' must stand alone")
      throw (unknownWord word)

/-- The total and the open count after some words. -/
def readCountExactly (total : Decimal) (count : Nat) :
    List (List Char) → Conversion (Decimal × Nat)
  | [] => return (total, count)
  | word :: rest => do
    let (total, count) ← readWordExactly total count word
    readCountExactly total count rest

def readWordsExactly (total : Decimal) (count : Nat) (words : List (List Char)) :
    Conversion Decimal :=
  (fun (total, count) => context.add total (ofNat count)) <$> readCountExactly total count words

/-- Reads a whole number, with an open count that has no end. -/
def readWholeExactly (words : List (List Char)) : Conversion Decimal :=
  match words with
  | [] => throw (badPhrase "expected a number")
  | [only] => if isWord "zero" only then return 0 else readWordsExactly 0 0 words
  | _ => readWordsExactly 0 0 words

/-- A word is read as it is exactly, and then the count is put into a word. -/
theorem readWord_eq (total : Decimal) (count : Nat) (word : List Char) :
    readWord total count word =
      (fun (total, count) => (total, Word.wrap count)) <$> readWordExactly total count word := by
  unfold readWord readWordExactly
  split
  · split
    · rfl
    · rfl
  · rw [map_bind]
    refine bind_congr fun exponent => ?_
    cases exponent with
    | some exponent =>
      dsimp only
      split <;> rfl
    | none =>
      cases entryOf? word with
      | some entry => rfl
      | none =>
        dsimp only
        split <;> rfl

theorem run_readCountExactly_cons {next : Decimal × Nat}
    (h : (readWordExactly total count word).run known = (.ok next, known')) :
    (readCountExactly total count (word :: words)).run known =
      (readCountExactly next.1 next.2 words).run known' := by
  rw [readCountExactly, run_bind, h]

/-- No open count on the way passes the end of the word. -/
def CountsFit (known : Names) (start : Decimal × Nat) (words : List (List Char)) : Prop :=
  ∀ read reached known', read <+: words →
    (readCountExactly start.1 start.2 read).run known = (.ok reached, known') →
      reached.2 < Word.count

/-- A word that is read leaves a count that fits, and then the others do. -/
theorem CountsFit.step {next : Decimal × Nat} (h : CountsFit known (total, count) (word :: words))
    (hrun : (readWordExactly total count word).run known = (.ok next, known')) :
    next.2 < Word.count ∧ CountsFit known' next words := by
  refine ⟨h [word] next known' ⟨words, rfl⟩ ?_, fun read reached known'' hread hreached => ?_⟩
  · rw [run_readCountExactly_cons hrun]
    rfl
  · refine h (word :: read) reached known'' (List.cons_prefix_cons.2 ⟨rfl, hread⟩) ?_
    rw [run_readCountExactly_cons hrun, hreached]

theorem CountsFit.readWords_run (h : CountsFit known (total, count) words) :
    (readWords total count words).run known = (readWordsExactly total count words).run known := by
  induction words generalizing known total count with
  | nil => rfl
  | cons word rest ih =>
    rw [readWords, readWordsExactly, readCountExactly, map_bind, run_bind, run_bind, readWord_eq,
      run_map]
    generalize hrun : (readWordExactly total count word).run known = step
    obtain ⟨result, known'⟩ := step
    cases result with
    | error error => rfl
    | ok next =>
      obtain ⟨hcount, hrest⟩ := h.step hrun
      have hwrap : Word.wrap next.2 = next.2 := Nat.mod_eq_of_lt hcount
      change (readWords next.1 (Word.wrap next.2) rest).run known' = _
      rw [hwrap]
      exact ih hrest

/-- Both readings agree as long as the counts fit. -/
theorem CountsFit.readWhole_run (h : CountsFit known (0, 0) words) :
    (readWhole words).run known = (readWholeExactly words).run known := by
  match words with
  | [] => rfl
  | [only] =>
    unfold readWhole readWholeExactly
    dsimp only
    split
    · rfl
    · exact h.readWords_run
  | _ :: _ :: _ => exact h.readWords_run

/-! ## Groups of words -/

/-- The word is the name of a power of a thousand, in any letter case. -/
def NamesPower (word : List Char) : Prop :=
  ∃ index, Text.lower (powerName index).toList = Text.lower word

theorem not_namesPower_hundred (h : isWord "hundred" word = true) : ¬ NamesPower word := by
  rintro ⟨index, hname⟩
  refine hundred_ne_powerName index (hname.trans (beq_iff_eq.1 h |>.trans ?_))
  decide

theorem value_le_of_small {entry : NumberWord} (hmem : entry ∈ vocabulary)
    (hsmall : entry.value < 1000) (hhundred : Text.lower entry.word.toList ≠ "hundred".toList) :
    entry.value ≤ 90 := by
  have hall : ∀ entry ∈ vocabulary, entry.value < 1000 →
      Text.lower entry.word.toList ≠ "hundred".toList → entry.value ≤ 90 := by decide
  exact hall entry hmem hsmall hhundred

theorem gives_exponentOf?_of_not_namesPower (h : ¬ NamesPower word) :
    Gives (exponentOf? word) none := by
  refine gives_exponentOf?_none (fun entry hentry => ?_) fun index hname => h ⟨index, hname⟩
  by_contra hgreat
  obtain ⟨hmem, hword⟩ := of_entryOf? hentry
  obtain ⟨index, hname, -⟩ := great_entry hmem (not_lt.1 hgreat)
  exact h ⟨index, by rw [hword, hname]⟩

theorem value_le_of_no_exponent {entry : NumberWord} (hentry : entryOf? word = some entry)
    (hword : ¬ isWord "hundred" word = true) (hnone : (exponentOf? word known).1 = none) :
    ¬ NamesPower word ∧ entry.value ≤ 90 := by
  obtain ⟨hmem, hsame⟩ := of_entryOf? hentry
  have hsmall : entry.value < 1000 := by
    by_contra hgreat
    unfold exponentOf? at hnone
    rw [hentry, Option.filter_some_pos (by simpa using hgreat)] at hnone
    cases hnone
  refine ⟨?_, value_le_of_small hmem hsmall fun hhundred => hword ?_⟩
  · rintro ⟨index, hname⟩
    exact small_entry hmem hsmall index (hname.trans hsame)
  · exact beq_iff_eq.2 (hsame.trans hhundred)

/-- What a word does to the open count. -/
inductive Counts : List Char → Nat → Nat → Prop where
  | hundred {word : List Char} {count : Nat} (hword : isWord "hundred" word = true)
    (hname : ¬ NamesPower word) : Counts word count (count * 100)
  | power {word : List Char} {count : Nat} (hname : NamesPower word) : Counts word count 0
  | small {word : List Char} {count value : Nat} (hname : ¬ NamesPower word)
    (hvalue : value ≤ 90) : Counts word count (count + value)

theorem counts_of_run (hreached : known.Reached)
    (h : (readWordExactly total count word).run known = (.ok (total', count'), known')) :
    known'.Reached ∧ Counts word count count' := by
  unfold readWordExactly at h
  split at h
  · next hhundred =>
    split at h
    · cases h
    · cases h
      exact ⟨hreached, .hundred hhundred (not_namesPower_hundred hhundred)⟩
  next hword =>
  obtain ⟨-, hsteady⟩ := (steady_exponentOf? word).reached hreached
  rw [run_bind_lift] at h
  generalize hexponent : exponentOf? word known = found at h hsteady
  obtain ⟨exponent, known''⟩ := found
  -- a power is looked for before the vocabulary, so a word in both closes the count
  cases exponent with
  | some exponent =>
    dsimp only at h
    split at h
    · cases h
    · cases h
      refine ⟨hsteady, .power ?_⟩
      by_contra hname
      obtain ⟨_, hrun, -⟩ := gives_exponentOf?_of_not_namesPower hname known hreached
      rw [hexponent] at hrun
      cases hrun
  | none =>
    have hnone : (exponentOf? word known).1 = none := congrArg Prod.fst hexponent
    cases hentry : entryOf? word with
    | some entry =>
      rw [hentry] at h
      cases h
      obtain ⟨hname, hvalue⟩ := value_le_of_no_exponent hentry hword hnone
      exact ⟨hsteady, .small hname hvalue⟩
    | none =>
      rw [hentry] at h
      dsimp only at h
      split at h <;> cases h

/-! ## Bounds -/

/-- What words without a power among them can leave open at the most. -/
def countBound (words : List (List Char)) : Nat :=
  90 * words.length * 100 ^ words.countP (isWord "hundred")

/-- No words between two powers can pass the end of the word. -/
def GroupsFit (words : List (List Char)) : Prop :=
  ∀ group, group <:+: words → (∀ word ∈ group, ¬ NamesPower word) → countBound group < Word.count

theorem Counts.eq_zero (h : Counts word count count') (hname : NamesPower word) : count' = 0 := by
  cases h with
  | power _ => rfl
  | hundred _ hother => exact absurd hname hother
  | small hother _ => exact absurd hname hother

theorem Counts.le_countBound {read : List (List Char)} (h : Counts word count count')
    (hname : ¬ NamesPower word) (hcount : count ≤ countBound read) :
    count' ≤ countBound (read ++ [word]) := by
  unfold countBound at *
  rw [List.length_append, List.length_singleton, List.countP_append, List.countP_singleton]
  cases h with
  | hundred hword _ =>
    rw [if_pos hword, pow_succ]
    calc count * 100 ≤ 90 * read.length * 100 ^ read.countP (isWord "hundred") * 100 :=
          Nat.mul_le_mul_right _ hcount
      _ = 90 * read.length * (100 ^ read.countP (isWord "hundred") * 100) := Nat.mul_assoc _ _ _
      _ ≤ 90 * (read.length + 1) * (100 ^ read.countP (isWord "hundred") * 100) :=
          Nat.mul_le_mul_right _ (by omega)
  | power hpower => exact absurd hpower hname
  | small _ hvalue =>
    have hpow : 1 ≤ 100 ^ read.countP (isWord "hundred") := Nat.one_le_pow _ _ (by decide)
    calc count + _ ≤ 90 * read.length * 100 ^ read.countP (isWord "hundred") +
            90 * 100 ^ read.countP (isWord "hundred") := by omega
      _ = 90 * (read.length + 1) * 100 ^ read.countP (isWord "hundred") := by ring
      _ ≤ _ := Nat.mul_le_mul_left _ (Nat.pow_le_pow_right (by decide) (Nat.le_add_right _ _))

/-- The open count comes from the last words without a power among them. -/
theorem exists_group_of_run {group : List (List Char)} {reached : Decimal × Nat}
    (hreached : known.Reached)
    (h : (readCountExactly total count words).run known = (.ok reached, known'))
    (hgroup : ∀ word ∈ group, ¬ NamesPower word) (hcount : count ≤ countBound group) :
    ∃ last, last <:+ group ++ words ∧ (∀ word ∈ last, ¬ NamesPower word) ∧
      reached.2 ≤ countBound last := by
  induction words generalizing known total count group with
  | nil =>
    cases h
    exact ⟨group, by rw [List.append_nil], hgroup, hcount⟩
  | cons word rest ih =>
    generalize hrun : (readWordExactly total count word).run known = step at h
    obtain ⟨result, known''⟩ := step
    cases result with
    | error error =>
      rw [readCountExactly, run_bind, hrun] at h
      cases h
    | ok next =>
      rw [run_readCountExactly_cons hrun] at h
      obtain ⟨hreached', hcounts⟩ := counts_of_run hreached hrun
      by_cases hname : NamesPower word
      · obtain ⟨last, hlast, hbound⟩ := @ih known'' next.1 next.2 [] hreached' h
          (List.forall_mem_nil _) (hcounts.eq_zero hname).le
        exact ⟨last, hlast.trans (List.suffix_append_of_suffix (List.suffix_cons _ _)), hbound⟩
      · obtain ⟨last, hlast, hbound⟩ := @ih known'' next.1 next.2 (group ++ [word]) hreached' h
          (by simpa [or_imp, forall_and] using ⟨hgroup, hname⟩) (hcounts.le_countBound hname hcount)
        exact ⟨last, by simpa using hlast, hbound⟩

theorem countsFit_of_groupsFit (hreached : known.Reached) (h : GroupsFit words) :
    CountsFit known (0, 0) words := by
  intro read reached known' hread hrun
  obtain ⟨last, hlast, hnames, hbound⟩ := @exists_group_of_run known known' 0 0 read [] reached
    hreached hrun (List.forall_mem_nil _) (Nat.zero_le _)
  exact hbound.trans_lt (h last (hlast.isInfix.trans hread.isInfix) hnames)

/-- In a phrase with few hundreds no words can pass the end of the word. -/
theorem groupsFit_of_countBound (h : countBound words < Word.count) : GroupsFit words := by
  intro group hgroup _
  refine lt_of_le_of_lt ?_ h
  exact Nat.mul_le_mul (Nat.mul_le_mul_left _ hgroup.length_le)
    (Nat.pow_le_pow_right (by decide) hgroup.sublist.countP_le)

/-- With any names remembered, a whole number is read as if the open count had no end, with the same
result and the same names remembered after it, as long as no open count on the way passes the end of the
word. No count does so in a phrase in which the words between two powers have few enough hundreds among
them. -/
theorem readWhole_exact_of_countsFit (words : List (List Char)) (known : Names)
    (hreached : known.Reached) :
    (CountsFit known (0, 0) words →
      (readWhole words).run known = (readWholeExactly words).run known) ∧
    (GroupsFit words → CountsFit known (0, 0) words) :=
  ⟨CountsFit.readWhole_run, countsFit_of_groupsFit hreached⟩

/-- A phrase with a hundred in each of its groups. -/
theorem readWhole_exact_of_countsFit_millions :
    let words := ["nine".toList, "HUNDRED".toList, "ninety".toList, "million".toList, "one".toList,
      "hundred".toList, "six".toList]
    Names.empty.Reached ∧ GroupsFit words ∧ CountsFit Names.empty (0, 0) words ∧
      (readWhole words).run Names.empty = (readWholeExactly words).run Names.empty := by
  intro words
  have hgroups : GroupsFit words := groupsFit_of_countBound (by decide)
  obtain ⟨hexact, hfits⟩ := readWhole_exact_of_countsFit words Names.empty .empty
  exact ⟨.empty, hgroups, hfits hgroups, hexact (hfits hgroups)⟩

/-! ## Hundreds in a row -/

theorem Yields.wrapped (h : Yields (readWordExactly total count word) (total', count')) :
    Yields (readWord total count word) (total', Word.wrap count') := by
  rw [readWord_eq]
  exact h.map fun (total, count) => (total, Word.wrap count)

theorem yields_one (total : Decimal) :
    Yields (readWordExactly total 0 "one".toList) (total, 1) := by
  have hnone : Gives (exponentOf? "one".toList) none :=
    gives_exponentOf?_of_not_namesPower fun ⟨index, hname⟩ =>
      @small_entry ⟨"One", 1⟩ (by decide) (by decide) index (hname.trans (by decide))
  unfold readWordExactly
  rw [if_neg (by decide)]
  exact hnone.lift.bind (yields_pure _)

theorem yields_hundred (hpos : count ≠ 0) :
    Yields (readWordExactly total count "hundred".toList) (total, count * 100) := by
  unfold readWordExactly
  rw [if_pos (by decide), if_neg hpos]
  exact yields_pure _

theorem yields_hundreds (hpos : count ≠ 0) (k : Nat) :
    Yields (readCountExactly total count (List.replicate k "hundred".toList))
      (total, count * 100 ^ k) := by
  induction k generalizing count with
  | zero =>
    rw [pow_zero, Nat.mul_one]
    exact yields_pure _
  | succ k ih =>
    rw [List.replicate_succ, readCountExactly, pow_succ', ← Nat.mul_assoc]
    exact (yields_hundred hpos).bind (ih (by omega))

/-- The word holds what is left of the exact count, until nothing is left. -/
theorem yields_hundreds_wrapped (k : Nat) (hpos : ∀ j < k, Word.wrap (count * 100 ^ j) ≠ 0) :
    Yields (readWords total (Word.wrap count) (List.replicate k "hundred".toList))
      (context.add total (ofNat (Word.wrap (count * 100 ^ k)))) := by
  induction k generalizing count with
  | zero =>
    rw [pow_zero, Nat.mul_one]
    exact yields_pure _
  | succ k ih =>
    have hwrap : Word.wrap (Word.wrap count * 100) = Word.wrap (count * 100) :=
      Nat.mod_mul_mod count 100 Word.count
    have hfirst : Word.wrap count ≠ 0 := by
      have h := hpos 0 (Nat.succ_pos k)
      rwa [pow_zero, Nat.mul_one] at h
    have hrest (j : Nat) (hj : j < k) : Word.wrap (count * 100 * 100 ^ j) ≠ 0 := by
      rw [Nat.mul_assoc, ← pow_succ']
      exact hpos (j + 1) (Nat.succ_lt_succ hj)
    have hstep := (@yields_hundred total _ hfirst).wrapped
    rw [hwrap] at hstep
    rw [List.replicate_succ, readWords, pow_succ', ← Nat.mul_assoc]
    exact hstep.bind (ih hrest)

/-- Ten hundreds behind a one pass the end of the word, and the phrase is read as another number. -/
theorem readWhole_wraps :
    let words := "one".toList :: List.replicate 10 "hundred".toList
    Yields (readCountExactly 0 0 words) (0, 10 ^ 20) ∧ Word.count ≤ 10 ^ 20 ∧
      Yields (readWholeExactly words) (ofNat (10 ^ 20)) ∧
      Yields (readWhole words) (ofNat 7766279631452241920) := by
  intro words
  have hcount : Yields (readCountExactly 0 0 words) (0, 10 ^ 20) :=
    (yields_one 0).bind (yields_hundreds one_ne_zero 10)
  have hexact : context.add 0 (ofNat (10 ^ 20)) = ofNat (10 ^ 20) := by decide +kernel
  have hwrapped : context.add 0 (ofNat (Word.wrap (1 * 100 ^ 10))) = ofNat 7766279631452241920 := by
    decide +kernel
  refine ⟨hcount, by decide, ?_, ?_⟩
  · rw [← hexact]
    exact hcount.map fun (total, count) => context.add total (ofNat count)
  · rw [← hwrapped]
    exact (yields_one 0).wrapped.bind (@yields_hundreds_wrapped 0 1 10 (by decide))

end Reckoner.Numeral
