import Reckoner.Proofs.Decimal.Written

/-!
# Decimal literals

The grammar of written decimals: a sign, digits with at most one point among them and an exponent
behind a mark, with white space around the whole. Every text of the grammar whose exponent and scale
are words is read, as the number that it shows, and no other text is.
-/

namespace Reckoner.Decimal

variable {text sign figures digits whole fraction : List Char} {negative : Bool}
  {exponent : Int} {x : Decimal}

/-! ## The grammar -/

/-- A sign, which may be left out, and whether it is a minus. -/
inductive SignText : Bool → List Char → Prop where
  | none : SignText false []
  | plus : SignText false ['+']
  | minus : SignText true ['-']

/-- Digits with at most one point: those in front of it, those behind it, and the text. -/
inductive FigureText : List Char → List Char → List Char → Prop where
  | whole {digits : List Char} : digits ≠ [] → (∀ c ∈ digits, c.isDigit) →
    FigureText digits [] digits
  | point {whole fraction : List Char} : whole ++ fraction ≠ [] →
    (∀ c ∈ whole ++ fraction, c.isDigit) → FigureText whole fraction (whole ++ '.' :: fraction)

/-- The integer that digits stand for behind a sign. -/
def signedDigits (negative : Bool) (digits : List Char) : Int :=
  if negative then -(Nat.ofDigitChars 10 digits 0 : Int) else Nat.ofDigitChars 10 digits 0

inductive IntegerText : Int → List Char → Prop where
  | digits {negative : Bool} {sign digits : List Char} : SignText negative sign → digits ≠ [] →
    (∀ c ∈ digits, c.isDigit) → IntegerText (signedDigits negative digits) (sign ++ digits)

/-- An exponent, which may be left out. -/
inductive ExponentText : Int → List Char → Prop where
  | none : ExponentText 0 []
  | marked {mark : Char} {exponent : Int} {text : List Char} : mark = 'e' ∨ mark = 'E' →
    IntegerText exponent text → ExponentText exponent (mark :: text)

/-- A literal: its sign, its digits in front of and behind the point, and its exponent. -/
inductive LiteralText : Bool → List Char → List Char → Int → List Char → Prop where
  | parts {negative : Bool} {whole fraction : List Char} {exponent : Int}
    {sign figures tail : List Char} : SignText negative sign → FigureText whole fraction figures →
    ExponentText exponent tail → LiteralText negative whole fraction exponent (sign ++ figures ++ tail)

/-- A literal with white space around it. -/
def IsLiteral (negative : Bool) (whole fraction : List Char) (exponent : Int) (text : List Char) :
    Prop :=
  ∃ before body after, text = before ++ body ++ after ∧
    (∀ c ∈ before ++ after, Text.isBlank c) ∧ LiteralText negative whole fraction exponent body

/-! ## Splitting -/

theorem splitFirst_cases (p : Char → Bool) (text : List Char) :
    (∀ c ∈ text, p c = false) ∧ splitFirst p text = (text, none) ∨
      ∃ before c after, text = before ++ c :: after ∧ (∀ d ∈ before, p d = false) ∧ p c ∧
        splitFirst p text = (before, some after) := by
  by_cases h : ∀ c ∈ text, p c = false
  · exact .inl ⟨h, splitFirst_of_not h⟩
  · right
    have hne : text.dropWhile (!p ·) ≠ [] := by simpa using h
    have hbefore : ∀ d ∈ text.takeWhile (!p ·), p d = false := by
      intro d hd
      simpa using List.mem_takeWhile_imp hd
    have hhead := List.head_dropWhile_not (!p ·) hne
    obtain ⟨c, after, hdrop⟩ := List.exists_cons_of_ne_nil hne
    have hc : p c := by simpa [hdrop] using hhead
    have htext : text = text.takeWhile (!p ·) ++ c :: after := by
      rw [← hdrop, List.takeWhile_append_dropWhile]
    generalize text.takeWhile (!p ·) = before at hbefore htext
    refine ⟨before, c, after, htext, hbefore, hc, ?_⟩
    rw [htext, splitFirst_append hbefore hc]

theorem digit_ne {c d : Char} (hc : c.isDigit) (hd : d.isDigit = false) : c ≠ d := by
  rintro rfl
  rw [hc] at hd
  exact Bool.noConfusion hd

/-! ## Digits -/

theorem digitsOfChars?_of_split {fraction : Option (List Char)} {n places : Nat}
    (h : splitFirst (· == '.') text = (whole, fraction)) :
    digitsOfChars? text = some (n, places) ↔ whole ++ fraction.getD [] ≠ [] ∧
      (∀ c ∈ whole ++ fraction.getD [], c.isDigit) ∧
      n = Nat.ofDigitChars 10 (whole ++ fraction.getD []) 0 ∧ places = (fraction.getD []).length := by
  unfold digitsOfChars?
  rw [h]
  dsimp only
  generalize whole ++ fraction.getD [] = digits
  split
  · next hbad =>
    refine iff_of_false (by simp) fun ⟨hne, hall, _⟩ => ?_
    obtain hempty | hother := Bool.or_eq_true_iff.1 hbad
    · exact hne (List.isEmpty_iff.1 hempty)
    · rw [List.all_eq_true.2 hall] at hother
      cases hother
  · next hgood =>
    rw [Bool.or_eq_true_iff, not_or, List.isEmpty_iff, Bool.not_eq_true', Bool.not_eq_false,
      List.all_eq_true] at hgood
    rw [Option.some_inj, Prod.mk.injEq]
    exact ⟨fun ⟨hn, hplaces⟩ => ⟨hgood.1, hgood.2, hn.symm, hplaces.symm⟩,
      fun ⟨_, _, hn, hplaces⟩ => ⟨hn.symm, hplaces.symm⟩⟩

/-- The digits with at most one point are those of the grammar. -/
theorem digitsOfChars?_eq_some_iff {n places : Nat} :
    digitsOfChars? text = some (n, places) ↔ ∃ whole fraction, FigureText whole fraction text ∧
      n = Nat.ofDigitChars 10 (whole ++ fraction) 0 ∧ places = fraction.length := by
  have hpoint {digits : List Char} (h : ∀ c ∈ digits, c.isDigit) : ∀ c ∈ digits, (c == '.') = false :=
    fun c hc => beq_eq_false_iff_ne.2 (digit_ne (h c hc) (by decide))
  constructor
  · intro h
    obtain ⟨-, hsplit⟩ | ⟨whole, c, fraction, rfl, -, hc, hsplit⟩ :=
      splitFirst_cases (· == '.') text
    · obtain ⟨hne, hdigits, hn, hplaces⟩ := (digitsOfChars?_of_split hsplit).1 h
      rw [Option.getD_none, List.append_nil] at hne hdigits hn
      exact ⟨text, [], .whole hne hdigits, by rwa [List.append_nil], hplaces⟩
    · obtain ⟨hne, hdigits, hn, hplaces⟩ := (digitsOfChars?_of_split hsplit).1 h
      obtain rfl : c = '.' := beq_iff_eq.1 hc
      exact ⟨whole, fraction, .point hne hdigits, hn, hplaces⟩
  · rintro ⟨whole, fraction, htext, hn, hplaces⟩
    cases htext with
    | whole hne hdigits =>
      refine (digitsOfChars?_of_split (splitFirst_of_not (hpoint hdigits))).2 ⟨?_, ?_, hn, hplaces⟩
      all_goals simpa using ‹_›
    | point hne hdigits =>
      have hwhole := hpoint fun c hc => hdigits c (List.mem_append_left _ hc)
      exact (digitsOfChars?_of_split (splitFirst_append hwhole rfl)).2 ⟨hne, hdigits, hn, hplaces⟩

/-! ## Signs and exponents -/

/-- The sign in front of a text, as the readers take it off. -/
def splitSign (text : List Char) : Bool × List Char :=
  match text with
  | '-' :: rest => (true, rest)
  | '+' :: rest => (false, rest)
  | rest => (false, rest)

theorem exists_sign (text : List Char) :
    ∃ sign, SignText (splitSign text).1 sign ∧ text = sign ++ (splitSign text).2 := by
  unfold splitSign
  split
  · exact ⟨['-'], .minus, rfl⟩
  · exact ⟨['+'], .plus, rfl⟩
  · exact ⟨[], .none, rfl⟩

theorem splitSign_append {rest : List Char} (hsign : SignText negative sign)
    (hrest : ∀ c ∈ rest.head?, c ≠ '-' ∧ c ≠ '+') : splitSign (sign ++ rest) = (negative, rest) := by
  cases hsign with
  | plus | minus => rfl
  | none =>
    cases rest with
    | nil => rfl
    | cons c rest =>
      obtain ⟨hminus, hplus⟩ := hrest c rfl
      simp [splitSign, hminus, hplus]

theorem head_of_digits (h : ∀ c ∈ digits, c.isDigit) : ∀ c ∈ digits.head?, c ≠ '-' ∧ c ≠ '+' :=
  fun c hc => ⟨digit_ne (h c (List.mem_of_mem_head? hc)) (by decide),
    digit_ne (h c (List.mem_of_mem_head? hc)) (by decide)⟩

theorem word_ofChars?_eq (text : List Char) : Word.ofChars? text =
    if (splitSign text).2.isEmpty || !(splitSign text).2.all Char.isDigit then none
    else if Word.Fits (signedDigits (splitSign text).1 (splitSign text).2) then
      some (signedDigits (splitSign text).1 (splitSign text).2) else none := rfl

/-- Integers in the range of a word are read, and nothing else is. -/
theorem word_ofChars?_eq_some_iff {n : Int} :
    Word.ofChars? text = some n ↔ IntegerText n text ∧ Word.Fits n := by
  rw [word_ofChars?_eq]
  constructor
  · intro h
    split at h
    · cases h
    next hgood =>
    rw [Bool.or_eq_true_iff, not_or, List.isEmpty_iff, Bool.not_eq_true', Bool.not_eq_false,
      List.all_eq_true] at hgood
    split at h
    · next hfits =>
      obtain rfl := Option.some.inj h
      obtain ⟨sign, hsign, htext⟩ := exists_sign text
      refine ⟨?_, hfits⟩
      conv_rhs => rw [htext]
      exact .digits hsign hgood.1 hgood.2
    · cases h
  · rintro ⟨⟨hsign, hne, hdigits⟩, hfits⟩
    rw [splitSign_append hsign (head_of_digits hdigits), if_neg, if_pos hfits]
    simpa [hne] using hdigits

/-! ## Literals -/

def isMark (c : Char) : Bool := c == 'e' || c == 'E'

theorem isMark_iff {c : Char} : isMark c ↔ c = 'e' ∨ c = 'E' := by simp [isMark]

theorem FigureText.ne_nil (h : FigureText whole fraction figures) : figures ≠ [] := by
  cases h with
  | whole hne _ => exact hne
  | point _ _ => simp

theorem FigureText.isFigure (h : FigureText whole fraction figures) :
    ∀ c ∈ figures, isFigure c := by
  intro c hc
  cases h with
  | whole _ hdigits => simp [Decimal.isFigure, hdigits c hc]
  | point _ hdigits =>
    obtain hc | rfl | hc := by simpa using hc
    · simp [Decimal.isFigure, hdigits c (List.mem_append_left _ hc)]
    · rfl
    · simp [Decimal.isFigure, hdigits c (List.mem_append_right _ hc)]

theorem SignText.plain (h : SignText negative sign) :
    ∀ c ∈ sign, isMark c = false ∧ Text.isBlank c = false := by
  intro c hc
  have hsign : c = '-' ∨ c = '+' := by
    cases h <;> simp_all
  obtain rfl | rfl := hsign <;> decide

/-- In front of the exponent of a literal there is no mark. -/
theorem mantissa_unmarked (hsign : SignText negative sign)
    (hfigures : FigureText whole fraction figures) : ∀ c ∈ sign ++ figures, isMark c = false := by
  intro c hc
  obtain hc | hc := List.mem_append.1 hc
  · exact (hsign.plain c hc).1
  · exact (of_isFigure (hfigures.isFigure c hc)).2.2.2

/-- Reads what stands in front of the mark of an exponent and what stands behind it. -/
def readParts (mantissa : List Char) (tail : Option (List Char)) : Option Decimal :=
  match tail.elim (some 0) Word.ofChars? with
  | none => none
  | some exponent =>
    match digitsOfChars? (splitSign mantissa).2 with
    | none => none
    | some (magnitude, places) =>
      if h : Word.Fits (places - exponent) then
        some ⟨if (splitSign mantissa).1 then -(magnitude : Int) else magnitude, places - exponent, h⟩
      else none

theorem ofChars?_eq (text : List Char) : ofChars? text =
    readParts (splitFirst isMark (Text.trim text)).1 (splitFirst isMark (Text.trim text)).2 := rfl

theorem readParts_eq_some_iff {mantissa : List Char} {tail : Option (List Char)} :
    readParts mantissa tail = some x ↔ ∃ exponent magnitude places,
      tail.elim (some 0) Word.ofChars? = some exponent ∧
      digitsOfChars? (splitSign mantissa).2 = some (magnitude, places) ∧
      x.unscaled = (if (splitSign mantissa).1 then -(magnitude : Int) else magnitude) ∧
      x.scale = places - exponent := by
  unfold readParts
  split
  · next hnone => simp [hnone]
  next exponent hexponent =>
  split
  · next hnone => simp [hnone]
  next magnitude places hdigits =>
  simp only [hexponent, hdigits, Option.some_inj, Prod.mk.injEq]
  constructor
  · intro hx
    split at hx
    · obtain rfl := Option.some.inj hx
      exact ⟨exponent, magnitude, places, rfl, ⟨rfl, rfl⟩, rfl, rfl⟩
    · cases hx
  · rintro ⟨_, _, _, rfl, ⟨rfl, rfl⟩, hunscaled, hscale⟩
    obtain ⟨u, s, hfits⟩ := x
    obtain rfl : s = _ := hscale
    obtain rfl : u = _ := hunscaled
    rw [dif_pos hfits]

/-- The exponent that is read is the one shown behind the mantissa, if any is. -/
theorem exponentText_of_split {mantissa : List Char} {tail : Option (List Char)} {exponent : Int}
    (hsplit : splitFirst isMark text = (mantissa, tail))
    (hexponent : tail.elim (some 0) Word.ofChars? = some exponent) :
    ∃ rest, text = mantissa ++ rest ∧ ExponentText exponent rest ∧ Word.Fits exponent := by
  obtain ⟨-, hparts⟩ | ⟨before, mark, after, htext, -, hmark, hparts⟩ := splitFirst_cases isMark text
  all_goals obtain ⟨rfl, rfl⟩ := Prod.mk.inj (hsplit.symm.trans hparts)
  · obtain rfl : 0 = exponent := Option.some.inj hexponent
    exact ⟨[], (List.append_nil _).symm, .none, Word.zero_fits⟩
  · obtain ⟨hinteger, hfits⟩ := word_ofChars?_eq_some_iff.1 hexponent
    exact ⟨_, htext, .marked (isMark_iff.1 hmark) hinteger, hfits⟩

/-- What is read are the literals whose exponent is a word, as the numbers that they show. -/
theorem ofChars?_eq_some_iff :
    ofChars? text = some x ↔ ∃ negative whole fraction exponent,
      LiteralText negative whole fraction exponent (Text.trim text) ∧ Word.Fits exponent ∧
      x.unscaled = signedDigits negative (whole ++ fraction) ∧
      x.scale = fraction.length - exponent := by
  rw [ofChars?_eq, readParts_eq_some_iff]
  constructor
  · rintro ⟨exponent, magnitude, places, hexponent, hdigits, hunscaled, hscale⟩
    generalize hsplit : splitFirst isMark (Text.trim text) = parts at *
    obtain ⟨mantissa, tail⟩ := parts
    obtain ⟨rest, htext, htail, hfits⟩ := exponentText_of_split hsplit hexponent
    obtain ⟨sign, hsign, hmantissa⟩ := exists_sign mantissa
    obtain ⟨whole, fraction, hfigures, rfl, rfl⟩ := digitsOfChars?_eq_some_iff.1 hdigits
    refine ⟨_, whole, fraction, exponent, ?_, hfits, hunscaled, hscale⟩
    rw [htext]
    conv_rhs => rw [hmantissa]
    exact .parts hsign hfigures htail
  · rintro ⟨negative, whole, fraction, exponent, htext, hfits, hunscaled, hscale⟩
    generalize hbody : Text.trim text = body at htext
    obtain ⟨hsign, hfigures, htail⟩ := htext
    rename_i sign figures tail
    have hunmarked := mantissa_unmarked hsign hfigures
    -- figures begin with no sign, so the one that is split off is that of the literal
    have hhead : ∀ c ∈ figures.head?, c ≠ '-' ∧ c ≠ '+' := fun c hc =>
      have hfigure := of_isFigure (hfigures.isFigure c (List.mem_of_mem_head? hc))
      ⟨hfigure.2.1, hfigure.2.2.1⟩
    have hdigits := digitsOfChars?_eq_some_iff.2 ⟨whole, fraction, hfigures, rfl, rfl⟩
    cases htail with
    | none =>
      rw [List.append_nil, splitFirst_of_not hunmarked, splitSign_append hsign hhead]
      exact ⟨0, _, _, rfl, hdigits, hunscaled, hscale⟩
    | marked hmark hinteger =>
      rw [splitFirst_append hunmarked (isMark_iff.2 hmark), splitSign_append hsign hhead]
      exact ⟨exponent, _, _, word_ofChars?_eq_some_iff.2 ⟨hinteger, hfits⟩, hdigits, hunscaled,
        hscale⟩

/-! ## White space -/

theorem dropWhile_isBlank {before : List Char} (hbefore : ∀ c ∈ before, Text.isBlank c)
    (htext : ∀ c ∈ text.head?, Text.isBlank c = false) :
    (before ++ text).dropWhile Text.isBlank = text := by
  rw [List.dropWhile_append_of_pos hbefore]
  cases text with
  | nil => rfl
  | cons c text => rw [List.dropWhile_cons_of_neg (by simp [htext c rfl])]

theorem trim_surrounded {before after : List Char} (hbefore : ∀ c ∈ before, Text.isBlank c)
    (hafter : ∀ c ∈ after, Text.isBlank c) (hne : text ≠ [])
    (htext : ∀ c ∈ text, Text.isBlank c = false) :
    Text.trim (before ++ text ++ after) = text := by
  have hhead : ∀ c ∈ (text ++ after).head?, Text.isBlank c = false := by
    intro c hc
    rw [List.head?_append_of_ne_nil _ hne] at hc
    exact htext c (List.mem_of_mem_head? hc)
  have hlast : ∀ c ∈ text.reverse.head?, Text.isBlank c = false := fun c hc =>
    htext c (List.mem_reverse.1 (List.mem_of_mem_head? hc))
  rw [Text.trim, List.append_assoc, dropWhile_isBlank hbefore hhead, List.reverse_append,
    dropWhile_isBlank (by simpa using hafter) hlast, List.reverse_reverse]

theorem exists_surrounding (text : List Char) : ∃ before after,
    text = before ++ Text.trim text ++ after ∧ ∀ c ∈ before ++ after, Text.isBlank c := by
  have hback := List.takeWhile_append_dropWhile
    (p := Text.isBlank) (l := (text.dropWhile Text.isBlank).reverse)
  refine ⟨text.takeWhile Text.isBlank,
    ((text.dropWhile Text.isBlank).reverse.takeWhile Text.isBlank).reverse, ?_, ?_⟩
  · rw [List.append_assoc, Text.trim, ← List.reverse_append, hback, List.reverse_reverse,
      List.takeWhile_append_dropWhile]
  · intro c hc
    obtain hc | hc := List.mem_append.1 hc
    · exact List.mem_takeWhile_imp hc
    · exact List.mem_takeWhile_imp (List.mem_reverse.1 hc)

theorem isBlank_of_isDigit {c : Char} (h : c.isDigit) : Text.isBlank c = false :=
  (of_isFigure (by simp [isFigure, h])).1

theorem ExponentText.no_blank {tail : List Char} (h : ExponentText exponent tail) :
    ∀ c ∈ tail, Text.isBlank c = false := by
  cases h with
  | none => simp
  | marked hmark hinteger =>
    obtain ⟨hsign, -, hdigits⟩ := hinteger
    intro c hc
    obtain rfl | hc := List.mem_cons.1 hc
    · obtain rfl | rfl := hmark <;> decide
    · obtain hc | hc := List.mem_append.1 hc
      · exact (hsign.plain c hc).2
      · exact isBlank_of_isDigit (hdigits c hc)

theorem LiteralText.ne_nil (h : LiteralText negative whole fraction exponent text) : text ≠ [] := by
  obtain ⟨-, hfigures, -⟩ := h
  simp [hfigures.ne_nil]

theorem LiteralText.no_blank (h : LiteralText negative whole fraction exponent text) :
    ∀ c ∈ text, Text.isBlank c = false := by
  obtain ⟨hsign, hfigures, htail⟩ := h
  intro c hc
  obtain hc | hc := List.mem_append.1 hc
  · obtain hc | hc := List.mem_append.1 hc
    · exact (hsign.plain c hc).2
    · exact (of_isFigure (hfigures.isFigure c hc)).1
  · exact htail.no_blank c hc

/-- The white space around a literal is what trimming takes off. -/
theorem isLiteral_iff :
    IsLiteral negative whole fraction exponent text ↔
      LiteralText negative whole fraction exponent (Text.trim text) := by
  constructor
  · rintro ⟨before, body, after, rfl, hblank, hbody⟩
    rwa [trim_surrounded (fun c hc => hblank c (List.mem_append_left _ hc))
      (fun c hc => hblank c (List.mem_append_right _ hc)) hbody.ne_nil hbody.no_blank]
  · intro h
    obtain ⟨before, after, htext, hblank⟩ := exists_surrounding text
    exact ⟨before, Text.trim text, after, htext, hblank, h⟩

/-! ## Reading -/

theorem parse_eq_ok_iff {text : String} :
    parse text = .ok x ↔ ∃ negative whole fraction exponent,
      IsLiteral negative whole fraction exponent text.toList ∧ Word.Fits exponent ∧
      x.unscaled = signedDigits negative (whole ++ fraction) ∧
      x.scale = fraction.length - exponent := by
  simp only [isLiteral_iff]
  rw [← ofChars?_eq_some_iff, parse, ofString?]
  cases ofChars? text.toList <;> simp

/-- A text is read exactly if it is a literal, between white space, whose exponent is a word and whose
number of places less the exponent is a word. Then it is read as its digits times the power of ten
that the exponent and the number of places give, with that scale. Any other text is refused by the
error that carries it. -/
theorem parse_reads_literals (text : String) :
    ((∃ x, parse text = .ok x) ↔ ∃ negative whole fraction exponent,
      IsLiteral negative whole fraction exponent text.toList ∧ Word.Fits exponent ∧
        Word.Fits (fraction.length - exponent)) ∧
    (∀ negative whole fraction exponent, IsLiteral negative whole fraction exponent text.toList →
      Word.Fits exponent → Word.Fits (fraction.length - exponent) →
      ∃ x, parse text = .ok x ∧ x.unscaled = signedDigits negative (whole ++ fraction) ∧
        x.scale = fraction.length - exponent ∧
        x.toRat = signedDigits negative (whole ++ fraction) * 10 ^ (exponent - fraction.length)) ∧
    ((∀ x, parse text ≠ .ok x) → parse text = .error (.invalidNumber text)) := by
  refine ⟨⟨?_, ?_⟩, ?_, ?_⟩
  · rintro ⟨x, hx⟩
    obtain ⟨negative, whole, fraction, exponent, htext, hfits, -, hscale⟩ := parse_eq_ok_iff.1 hx
    exact ⟨negative, whole, fraction, exponent, htext, hfits, hscale ▸ x.scale_fits⟩
  · rintro ⟨negative, whole, fraction, exponent, htext, hfits, hscale⟩
    exact ⟨⟨_, _, hscale⟩, parse_eq_ok_iff.2 ⟨_, _, _, _, htext, hfits, rfl, rfl⟩⟩
  · intro negative whole fraction exponent htext hfits hscale
    refine ⟨⟨signedDigits negative (whole ++ fraction), _, hscale⟩,
      parse_eq_ok_iff.2 ⟨_, _, _, _, htext, hfits, rfl, rfl⟩, rfl, rfl, ?_⟩
    rw [toRat, neg_sub]
  · intro hnone
    unfold parse at hnone ⊢
    cases hread : ofString? text with
    | none => rfl
    | some x => exact absurd (by rw [hread]; rfl) (hnone x)

/-- A number without a digit in front of its point, between a space and a line end, and a text with a
second sign. -/
theorem parse_reads_literals_signs :
    IsLiteral true [] ['5', '0'] 3 " -.50E+3\n".toList ∧ Word.Fits 3 ∧
      Word.Fits ((['5', '0'].length : Int) - 3) ∧
      (∃ x, parse " -.50E+3\n" = .ok x ∧ x.unscaled = -50 ∧ x.scale = -1 ∧
        x.toRat = signedDigits true ['5', '0'] * 10 ^ (3 - (['5', '0'].length : Int))) ∧
      (∀ x, parse "--5" ≠ .ok x) ∧ parse "--5" = .error (.invalidNumber "--5") := by
  have hdigits : ∀ c ∈ ['5', '0'], c.isDigit := List.all_eq_true.1 (by decide)
  have hinteger : IntegerText 3 (['+'] ++ ['3']) :=
    @IntegerText.digits false ['+'] ['3'] .plus (by decide) (List.all_eq_true.1 (by decide))
  have hliteral : IsLiteral true [] ['5', '0'] 3 " -.50E+3\n".toList :=
    ⟨[' '], "-.50E+3".toList, ['\n'], by decide, List.all_eq_true.1 (by decide),
      @LiteralText.parts true [] ['5', '0'] 3 ['-'] ".50".toList "E+3".toList .minus
        (.point (by decide) hdigits) (.marked (.inr rfl) hinteger)⟩
  have hexponent : Word.Fits 3 := by decide
  have hscale : Word.Fits ((['5', '0'].length : Int) - 3) := by decide
  have hrefused : ∀ x, parse "--5" ≠ .ok x := by
    have hnone : ofString? "--5" = none := by decide
    intro x hx
    rw [parse, hnone] at hx
    cases hx
  obtain ⟨-, hread, -⟩ := parse_reads_literals " -.50E+3\n"
  obtain ⟨x, hx, hunscaled, hplaces, hvalue⟩ := hread true [] ['5', '0'] 3 hliteral hexponent hscale
  obtain ⟨-, -, herror⟩ := parse_reads_literals "--5"
  exact ⟨hliteral, hexponent, hscale, ⟨x, hx, hunscaled, hplaces, hvalue⟩, hrefused, herror hrefused⟩

end Reckoner.Decimal
