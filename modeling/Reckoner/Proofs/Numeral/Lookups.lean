import Reckoner.Proofs.Numeral.Histories

/-!
# Looking names up

A store gives out the name of every power that an unsigned word counts and finds each name that it has
given out. What it answers does not depend on the lookups before, but for one name: that of the first
power is not put together from segments and cannot be taken apart, so it is found only by a store that
has given it out.
-/

namespace Reckoner.Numeral

/-! ## Words -/

theorem lt_count_of_foldlM_appendSegment? {segments : List (List Char)} {index found : Nat}
    (h : segments.foldlM appendSegment? index = some found) (hindex : index < Word.count) :
    found < Word.count := by
  induction segments generalizing index with
  | nil =>
    obtain rfl : index = found := by simpa using h
    exact hindex
  | cons segment segments ih =>
    rw [List.foldlM_cons, Option.bind_eq_bind, Option.bind_eq_some_iff] at h
    obtain ⟨next, hnext, h⟩ := h
    refine ih h ?_
    simp only [appendSegment?, Option.bind_eq_bind, Option.bind_eq_some_iff] at hnext
    obtain ⟨group, -, hnext⟩ := hnext
    split at hnext
    · next hlt => rwa [← Option.some.inj hnext]
    · cases hnext

/-- What taking a name apart gives is a word and not the index of the first power. -/
theorem bounds_of_readPowerName? {name : List Char} {index : Nat}
    (h : readPowerName? name = some index) : 0 < index ∧ index < Word.count := by
  simp only [readPowerName?, Option.bind_eq_bind, Option.bind_eq_some_iff] at h
  obtain ⟨_, -, segments, -, found, hfound, h⟩ := h
  split at h
  · next hsame =>
    obtain rfl : found = index := Option.some.inj h
    rw [Bool.and_eq_true, decide_eq_true_eq] at hsame
    exact ⟨hsame.1, lt_count_of_foldlM_appendSegment? hfound (by decide)⟩
  · cases h

/-! ## The first power -/

variable {known : Names} {given : Bool} {name : List Char} {index : Nat}

theorem lower_powerName_eq_thousand_iff :
    Text.lower (powerName index).toList = "thousand".toList ↔ index = 0 := by
  rw [← lower_powerName_zero]
  exact ⟨powerName_injective, fun h => by rw [h]⟩

/-- A store that remembers words only, and the name of the first power in both directions exactly if it
was given out. -/
structure Names.Kept (known : Names) (given : Bool) : Prop where
  words (key : String) (index : Nat) : known.indices[key]? = some index → index < Word.count
  named : (known.names[0]?).isSome = given
  keyed : known.indices["thousand"]? = if given then some 0 else none

theorem Names.kept_empty : Names.empty.Kept false where
  words key index h := by simp [Names.empty] at h
  named := by simp [Names.empty]
  keyed := by simp [Names.empty]

theorem Names.Kept.words_remember (h : known.Kept given) (hindex : index < Word.count)
    (name key other : String) (found : Nat)
    (hfound : (known.remember index name key).indices[other]? = some found) :
    found < Word.count := by
  rw [Names.remember, Std.HashMap.getElem?_insertIfNew] at hfound
  split at hfound
  · rwa [← Option.some.inj hfound]
  · exact h.words other found hfound

/-- Another power leaves what is known of the first one. -/
theorem Names.Kept.remember (h : known.Kept given) (hpos : index ≠ 0) (hindex : index < Word.count)
    {name key : String} (hkey : key.toList = Text.lower (powerName index).toList) :
    (known.remember index name key).Kept given where
  words := h.words_remember hindex name key
  named := by
    rw [← h.named, Names.remember, Std.HashMap.getElem?_insertIfNew, if_neg]
    simp [hpos]
  keyed := by
    have hother : key ≠ "thousand" := by
      rintro rfl
      exact hpos (lower_powerName_eq_thousand_iff.1 hkey.symm)
    rw [← h.keyed, Names.remember, Std.HashMap.getElem?_insertIfNew, if_neg]
    simp [hother]

/-- The first power itself is remembered in both directions at once. -/
theorem Names.Kept.remember_first (h : known.Kept false) :
    (known.remember 0 (powerName 0) (lowerText (powerName 0))).Kept true where
  words := h.words_remember (by decide) _ _
  named := by simp [Names.remember]
  keyed := by
    have hkey : lowerText (powerName 0) = "thousand" := by decide
    have hnew : "thousand" ∉ known.indices := by
      rw [Std.HashMap.mem_iff_isSome_getElem?, h.keyed]
      decide
    rw [Names.remember, hkey, Std.HashMap.getElem?_insertIfNew, if_pos ⟨beq_self_eq_true _, hnew⟩]
    rfl

/-! ## One lookup -/

theorem Names.Kept.nameOf (h : known.Kept given) (hindex : index < Word.count) :
    (nameOf index known).2.Kept (given || index == 0) := by
  rw [nameOf_apply]
  by_cases hpos : index = 0
  · subst hpos
    rw [beq_self_eq_true, Bool.or_true]
    split
    · next name hname =>
      obtain rfl : true = given := by rw [← h.named, hname]; rfl
      exact h
    · next hnone =>
      obtain rfl : false = given := by rw [← h.named, hnone]; rfl
      exact h.remember_first
  · rw [beq_false_of_ne hpos, Bool.or_false]
    split
    · exact h
    · exact h.remember hpos hindex (by simp [lowerText])

theorem Names.Kept.indexOf? (h : known.Kept given) (name : List Char) :
    (indexOf? name known).2.Kept given := by
  rw [indexOf?_apply]
  split
  · exact h
  split
  · exact h
  next index hread =>
  obtain ⟨hpos, hindex⟩ := bounds_of_readPowerName? hread
  refine h.remember hpos.ne' hindex ?_
  rw [String.toList_ofList, readPowerName?_eq_some hread, lower_lower]

/-- A name is found as the index whose name it is, the first power only if its name was given out. -/
theorem Names.Kept.indexOf?_eq_some (h : known.Kept given) (hreached : known.Reached) :
    (Numeral.indexOf? name known).1 = some index ↔
      index < Word.count ∧ Text.lower name = Text.lower (powerName index).toList ∧
        (index = 0 → given = true) := by
  constructor
  · intro hfound
    have hname := name_of_indexOf? hreached hfound
    rw [indexOf?_apply] at hfound
    split at hfound
    · next known' hhit =>
      obtain rfl : known' = index := Option.some.inj hfound
      refine ⟨h.words _ _ hhit, hname, ?_⟩
      rintro rfl
      rw [hname, lower_powerName_zero, String.ofList_toList, h.keyed] at hhit
      by_contra hnew
      rw [if_neg hnew] at hhit
      cases hhit
    · split at hfound
      · cases hfound
      · next read hread =>
        obtain rfl : read = index := Option.some.inj hfound
        obtain ⟨hpos, hindex⟩ := bounds_of_readPowerName? hread
        exact ⟨hindex, hname, fun hzero => absurd hzero hpos.ne'⟩
  · rintro ⟨hindex, hname, hgiven⟩
    -- only the first power cannot be read, so it has to stand in the store
    by_cases hpos : index = 0
    · subst hpos
      rw [indexOf?_apply, hname, lower_powerName_zero, String.ofList_toList, h.keyed,
        if_pos (hgiven rfl)]
    · obtain ⟨_, hrun, -⟩ := gives_indexOf? hpos hindex hname known hreached
      rw [hrun]

/-! ## Histories of lookups -/

/-- A question to a store: the name of a word, or the index of a name. -/
inductive Lookup where
  | nameOf (index : Fin Word.count)
  | indexOf (name : List Char)
  deriving DecidableEq

namespace Lookup

def call : Lookup → Call
  | nameOf index => .nameOf index
  | indexOf name => .indexOf name

/-- The question for the name of the first power. -/
def firstName : Lookup := nameOf ⟨0, by decide⟩

/-- The store that lookups one after another leave. -/
def storeAfter (history : List Lookup) : Names :=
  ((respondAll (history.map call)).run Names.empty).2

theorem kept_call (h : known.Kept given) (lookup : Lookup) :
    (lookup.call.respond known).2.Kept (given || lookup == firstName) := by
  cases lookup with
  | nameOf index =>
    have hfirst : (Lookup.nameOf index == firstName) = (index.val == 0) := by
      rw [Bool.eq_iff_iff, beq_iff_eq, beq_iff_eq, firstName, nameOf.injEq, Fin.ext_iff]
    rw [hfirst]
    exact h.nameOf index.isLt
  | indexOf name =>
    rw [show (Lookup.indexOf name == firstName) = false from rfl, Bool.or_false]
    exact h.indexOf? name

theorem kept_respondAll (h : known.Kept given) (history : List Lookup) :
    (respondAll (history.map call) known).2.Kept (given || history.contains firstName) := by
  induction history generalizing known given with
  | nil =>
    rw [List.contains_nil, Bool.or_false]
    exact h
  | cons lookup history ih =>
    have hrest := ih (kept_call h lookup)
    rw [Bool.or_assoc] at hrest
    rw [List.contains_cons, Bool.beq_comm]
    exact hrest

theorem kept_storeAfter (history : List Lookup) :
    (storeAfter history).Kept (history.contains firstName) :=
  kept_respondAll Names.kept_empty history

theorem reached_respondAll (h : known.Reached) (calls : List Call) :
    (respondAll calls known).2.Reached := by
  induction calls generalizing known with
  | nil => exact h
  | cons call calls ih => exact ih (call.reached h)

theorem reached_storeAfter (history : List Lookup) : (storeAfter history).Reached :=
  reached_respondAll .empty _

theorem indexOf?_storeAfter (history : List Lookup) (name : List Char) (index : Nat) :
    ((indexOf? name).run (storeAfter history)).1 = some index ↔
      index < Word.count ∧ Text.sameLetters name (powerName index).toList = true ∧
        (index = 0 → firstName ∈ history) := by
  change (indexOf? name (storeAfter history)).1 = _ ↔ _
  rw [(kept_storeAfter history).indexOf?_eq_some (reached_storeAfter history),
    List.contains_iff_mem, Text.sameLetters, beq_iff_eq]

theorem nameOf_storeAfter (history : List Lookup) (index : Nat) :
    (Numeral.nameOf index (storeAfter history)).1 = powerName index := by
  obtain ⟨_, hrun, -⟩ := gives_nameOf index (storeAfter history) (reached_storeAfter history)
  rw [hrun]

theorem naming_bind {α β : Type} (p : Naming α) (f : α → Naming β) (known : Names) :
    (p >>= f).run known = f (p known).1 (p known).2 := rfl

/-- A name that was just given out is found, that of the first power too. -/
theorem indexOf?_nameOf (history : List Lookup) (index : Fin Word.count) :
    ((do indexOf? (← Numeral.nameOf index).toList).run (storeAfter history)).1 =
      some index.val := by
  rw [naming_bind, nameOf_storeAfter, ((kept_storeAfter history).nameOf index.isLt).indexOf?_eq_some
    ((reached_storeAfter history).named index)]
  exact ⟨index.isLt, rfl, fun hzero => by rw [hzero, beq_self_eq_true, Bool.or_true]⟩

/-- Whatever was looked up before, every word has the name of its power, and that name is then found as
the word. Any name in any letter case is found as it is by an empty store, except that of the first
power, which an empty store does not find: it is found exactly if it was given out. -/
theorem lookups_after (history : List Lookup) :
    (∀ index : Fin Word.count,
      ((Numeral.nameOf index).run (storeAfter history)).1 = powerName index ∧
        ((do indexOf? (← Numeral.nameOf index).toList).run (storeAfter history)).1 =
          some index.val) ∧
      (∀ name, ((indexOf? name).run (storeAfter history)).1 =
        if Text.sameLetters name (powerName 0).toList && history.contains firstName then some 0
        else ((indexOf? name).run Names.empty).1) ∧
      ∀ name index, ((indexOf? name).run Names.empty).1 = some index ↔
        0 < index ∧ index < Word.count ∧
          Text.sameLetters name (powerName index).toList = true := by
  have hempty (name : List Char) (index : Nat) :
      ((indexOf? name).run Names.empty).1 = some index ↔
        0 < index ∧ index < Word.count ∧
          Text.sameLetters name (powerName index).toList = true := by
    rw [show Names.empty = storeAfter [] from rfl, indexOf?_storeAfter, Nat.pos_iff_ne_zero]
    simp only [List.not_mem_nil, imp_false]
    tauto
  refine ⟨fun index => ⟨nameOf_storeAfter history index, indexOf?_nameOf history index⟩,
    fun name => ?_, hempty⟩
  split
  · next hfirst =>
    rw [Bool.and_eq_true, List.contains_iff_mem] at hfirst
    exact (indexOf?_storeAfter history name 0).2 ⟨by decide, hfirst.1, fun _ => hfirst.2⟩
  · next hother =>
    refine Option.ext fun index => ?_
    rw [indexOf?_storeAfter, hempty]
    rw [Bool.and_eq_true, List.contains_iff_mem, not_and] at hother
    constructor
    · rintro ⟨hindex, hname, hgiven⟩
      refine ⟨Nat.pos_of_ne_zero ?_, hindex, hname⟩
      rintro rfl
      exact hother hname (hgiven rfl)
    · rintro ⟨hpos, hindex, hname⟩
      exact ⟨hindex, hname, fun hzero => absurd hzero hpos.ne'⟩

/-- The first power has a name that is not found before it is given out. -/
theorem thousand_depends_on_history :
    ((indexOf? "Thousand".toList).run Names.empty).1 = none ∧
      ((indexOf? "Thousand".toList).run (storeAfter [firstName])).1 = some 0 := by
  have hname : Text.sameLetters "Thousand".toList (powerName 0).toList = true := by decide
  constructor
  · refine Option.eq_none_iff_forall_not_mem.2 fun index hfound => ?_
    obtain ⟨-, hsame, hzero⟩ := (indexOf?_storeAfter [] _ index).1 hfound
    rw [Text.sameLetters, beq_iff_eq] at hname hsame
    cases hzero (powerName_injective (hname.symm.trans hsame)).symm
  · exact (indexOf?_storeAfter [firstName] _ 0).2 ⟨by decide, hname, fun _ => .head _⟩

end Lookup

end Reckoner.Numeral
