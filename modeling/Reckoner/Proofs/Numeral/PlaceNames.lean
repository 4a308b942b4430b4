import Reckoner.Proofs.Numeral.Groups
import Reckoner.Proofs.Numeral.Scanning

/-!
# Place names are read back

The name of a place behind the point is read as that place, in the singular and in the plural.
-/

namespace Reckoner.Numeral

/-- What the name of a place ends with, in the singular and in the plural. -/
def placeEndings : List (List Char) := [['t', 'h'], ['t', 'h', 's']]

/-- The two forms of a place name, in any letter case. -/
def PlaceForm (base word : List Char) : Prop :=
  ∃ ending ∈ placeEndings, Text.lower word = Text.lower base ++ ending

variable {base word : List Char}

/-! ## Words -/

theorem isWordText_append {a b : List Char} (h : IsWordText a) (hb : ∀ c ∈ b, Token.isWordChar c) :
    IsWordText (a ++ b) := by
  obtain ⟨c, rest, rfl, hc⟩ := h.first
  refine ⟨⟨c, rest ++ b, rfl, hc⟩, fun d hd => ?_⟩
  obtain hd | hd := List.mem_append.1 hd
  · exact h.chars d hd
  · exact hb d hd

/-- A place name is no sign, as no sign ends like one. -/
theorem PlaceForm.isPlainWord (h : PlaceForm base word) (hbase : IsWordText base) :
    IsPlainWord word := by
  have hsigns : ∀ ending ∈ placeEndings,
      ¬ ending <:+ "negative".toList ∧ ¬ ending <:+ "and".toList := by decide
  have hchars : placeEndings.all fun ending => ending.all Token.isWordChar := by decide
  obtain ⟨ending, hending, hword⟩ := h
  have hlower : IsWordText (Text.lower word) := by
    rw [hword]
    refine isWordText_append (hbase.of_lower (lower_lower base)) ?_
    exact List.all_eq_true.1 (List.all_eq_true.1 hchars ending hending)
  have hsuffix : ending <:+ Text.lower word := hword ▸ List.suffix_append _ _
  refine ⟨hlower.of_lower (lower_lower word).symm, fun hsign => ?_, fun hsign => ?_⟩
  · exact (hsigns ending hending).1 (hsign ▸ hsuffix)
  · exact (hsigns ending hending).2 (hsign ▸ hsuffix)

/-! ## Taking a place name apart -/

theorem dropEnding?_eq_none {ending text : List Char} (h : ¬ ending <:+ text) :
    Text.dropEnding? ending text = none := by
  rw [Text.dropEnding?, if_neg (by simpa using h)]

theorem dropBeginning?_append (beginning text : List Char) :
    Text.dropBeginning? beginning (beginning ++ text) = some text := by
  simp [Text.dropBeginning?]

theorem dropBeginning?_eq_none {beginning text : List Char} (h : ¬ beginning <+: text) :
    Text.dropBeginning? beginning text = none := by
  rw [Text.dropBeginning?, if_neg (by simpa using h)]

/-- The plural is brought to the singular. -/
theorem PlaceForm.singular (h : PlaceForm base word) :
    ((Text.dropEnding? ['s'] (Text.lower word)).filter (['t', 'h'].isSuffixOf ·)).getD
      (Text.lower word) = Text.lower base ++ ['t', 'h'] := by
  obtain ⟨ending, hending, hword⟩ := h
  obtain rfl | rfl : ending = ['t', 'h'] ∨ ending = ['t', 'h', 's'] := by
    simpa [placeEndings] using hending
  · have hnone : Text.dropEnding? ['s'] (Text.lower word) = none := by
      refine dropEnding?_eq_none ?_
      rintro ⟨front, hfront⟩
      have hlast := congrArg List.getLast? (hfront.trans hword)
      simp at hlast
    rw [hnone, hword]
    rfl
  · have hsome : Text.dropEnding? ['s'] (Text.lower word) =
        some (Text.lower base ++ ['t', 'h']) := by
      rw [hword, ← dropEnding?_append (Text.lower base ++ ['t', 'h']) ['s'], List.append_assoc]
      rfl
    rw [hsome, Option.filter_some, if_pos (by simp)]
    rfl

/-- The beginnings of place names with the places that they add. -/
def placeBeginnings : List (String × Int) := [("", 0), ("Ten-", 1), ("Hundred-", 2)]

/-- Beginnings have hyphens, and powers have not. -/
theorem dropBeginning?_powerName {beginning : List Char} (index : Nat) (h : '-' ∈ beginning) :
    Text.dropBeginning? beginning (Text.lower (powerName index).toList) = none := by
  refine dropBeginning?_eq_none fun hbegins => ?_
  obtain ⟨c, hc, hhyphen⟩ := List.mem_map.1 (hbegins.subset h)
  have hletter := (countName_powerName index).letters c hc
  rw [toLower_eq_of_not_isAlpha hhyphen (by decide)] at hletter
  exact absurd hletter (by decide)

/-- The name of a power with a beginning is read as the places of both. -/
theorem PlaceForm.yields_power {beginning : String} {extra : Int} {index : Nat}
    (h : PlaceForm (beginning.toList ++ (powerName index).toList) word)
    (hbeginning : (beginning, extra) ∈ placeBeginnings) (hfits : Word.Fits ((index + 1) * 3)) :
    Yields (placesOf word) ((index + 1) * 3 + extra) := by
  have hpower : Yields (liftM (exponentOf? (Text.lower (powerName index).toList)))
      (some (((index : Int) + 1) * 3)) :=
    (gives_exponentOf? hfits (lower_lower _)).lift
  have hten : (Text.lower (powerName index).toList == "ten".toList) = false :=
    beq_eq_false_iff_ne.2 (@small_entry ⟨"Ten", 10⟩ (by decide) (by decide) index)
  have hhundred : (Text.lower (powerName index).toList == "hundred".toList) = false :=
    beq_eq_false_iff_ne.2 (@small_entry ⟨"Hundred", 100⟩ (by decide) (by decide) index)
  have hlower : Text.lower (beginning.toList ++ (powerName index).toList) =
      Text.lower beginning.toList ++ Text.lower (powerName index).toList := List.map_append
  unfold placesOf
  simp only [h.singular, dropEnding?_append, hlower]
  -- without a beginning, the name must not be taken for one of the small place names
  obtain heq | heq | heq : (beginning, extra) = ("", 0) ∨ (beginning, extra) = ("Ten-", 1) ∨
      (beginning, extra) = ("Hundred-", 2) := by simpa [placeBeginnings] using hbeginning
  all_goals obtain ⟨rfl, rfl⟩ := Prod.mk.inj heq
  · have hnone : Text.lower "".toList = [] := rfl
    have hplain (text : String) (h : '-' ∈ text.toList) :=
      @dropBeginning?_powerName text.toList index h
    simp only [hnone, List.nil_append, hplain "ten-" (by decide), hplain "hundred-" (by decide),
      hten, hhundred]
    exact hpower.bind (yields_pure _)
  · have hten : Text.lower "Ten-".toList = "ten-".toList := by decide
    simp only [hten, dropBeginning?_append]
    exact hpower.bind (yields_pure _)
  · have hten : Text.lower "Hundred-".toList = "hundred-".toList := by decide
    have hother : Text.dropBeginning? "ten-".toList
        ("hundred-".toList ++ Text.lower (powerName index).toList) = none := rfl
    simp only [hten, hother, dropBeginning?_append]
    exact hpower.bind (yields_pure _)

theorem PlaceForm.yields_tenth (h : PlaceForm "Ten".toList word) : Yields (placesOf word) 1 := by
  unfold placesOf
  simp only [h.singular, dropEnding?_append]
  exact yields_pure _

theorem PlaceForm.yields_hundredth (h : PlaceForm "Hundred".toList word) :
    Yields (placesOf word) 2 := by
  unfold placesOf
  simp only [h.singular, dropEnding?_append]
  exact yields_pure _

/-! ## Naming a place -/

/-- A word both forms of which are read as a place, in any letter case. -/
structure NamesPlace (base : List Char) (places : Nat) : Prop where
  isWordText : IsWordText base
  reads (word : List Char) : PlaceForm base word → Yields (placesOf word) places

/-- The names of later places have a beginning and a power. -/
theorem namesPlace_power {beginning : String} {extra index : Nat}
    (h : (beginning, (extra : Int)) ∈ placeBeginnings) (hfits : Word.Fits ((index + 1) * 3)) :
    NamesPlace (beginning.toList ++ (powerName index).toList) ((index + 1) * 3 + extra) := by
  have hpower := countName_powerName index
  have hplain : beginning.toList = [] ∨ IsWordText beginning.toList := by
    simp only [placeBeginnings, List.mem_cons, Prod.mk.injEq, List.not_mem_nil, or_false] at h
    rcases h with ⟨rfl, -⟩ | ⟨rfl, -⟩ | ⟨rfl, -⟩
    · exact .inl rfl
    · exact .inr ⟨⟨'T', _, rfl, by decide⟩, by simp; decide⟩
    · exact .inr ⟨⟨'H', _, rfl, by decide⟩, by simp; decide⟩
  constructor
  · rcases hplain with hempty | hword
    · rw [hempty]
      exact isWordText_of_letters hpower.nonempty hpower.letters
    · apply isWordText_append hword
      intro c hc
      simp [Token.isWordChar, hpower.letters c hc]
  · intro word hword
    exact_mod_cast hword.yields_power h hfits

theorem namesPlace_word {name : String} {places : Nat} (hne : name.toList ≠ [])
    (hletters : name.toList.all Char.isAlpha)
    (h : ∀ word, PlaceForm name.toList word → Yields (placesOf word) places) :
    NamesPlace name.toList places :=
  ⟨isWordText_of_letters hne (List.all_eq_true.1 hletters), h⟩

theorem yields_nameOfPlace {places : Nat} (hpos : 0 < places) (hfits : Word.Fits places) :
    ∃ base name, Yields (nameOfPlace places) name ∧ name.toList = base ++ ['t', 'h'] ∧
      NamesPlace base places := by
  unfold nameOfPlace
  -- below a thousandth the name of the power is not asked for
  by_cases hone : places = 1
  · subst hone
    exact ⟨"Ten".toList, "Tenth", yields_pure _, rfl,
      namesPlace_word (by decide) rfl fun _ hword => hword.yields_tenth⟩
  by_cases htwo : places = 2
  · subst htwo
    exact ⟨"Hundred".toList, "Hundredth", yields_pure _, rfl,
      namesPlace_word (by decide) rfl fun _ hword => hword.yields_hundredth⟩
  by_cases hthree : places = 3
  · subst hthree
    exact ⟨"".toList ++ (powerName 0).toList, "Thousandth", yields_pure _, rfl,
      @namesPlace_power "" 0 0 (by decide) (by decide)⟩
  rw [if_neg (by omega), if_neg (by omega), if_neg (by omega)]
  rcases hindex : places / 3 with - | index
  · omega
  have hexponent : namedExponent places = ((index + 1) * 3 : Nat) := by
    unfold namedExponent
    omega
  have hpower : Word.Fits ((index + 1) * 3) := by
    unfold Word.Fits Word.least Word.greatest at *
    omega
  simp only [hexponent]
  have hplaces : places = (index + 1) * 3 + 0 ∨ places = (index + 1) * 3 + 1 ∨
      places = (index + 1) * 3 + 2 := by omega
  rcases hplaces with hplaces | hplaces | hplaces
  · refine ⟨_, _, yields_nameOfPower.bind (yields_pure _), ?_,
      hplaces ▸ @namesPlace_power "" 0 index (by decide) hpower⟩
    simp [hplaces]
  · refine ⟨_, _, yields_nameOfPower.bind (yields_pure _), ?_,
      hplaces ▸ @namesPlace_power "Ten-" 1 index (by decide) hpower⟩
    simp [hplaces]
  · refine ⟨_, _, yields_nameOfPower.bind (yields_pure _), ?_,
      hplaces ▸ @namesPlace_power "Hundred-" 2 index (by decide) hpower⟩
    simp [hplaces]

end Reckoner.Numeral
