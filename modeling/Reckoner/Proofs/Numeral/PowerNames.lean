import Mathlib
import Reckoner.Proofs.Numeral.Segments

/-!
# Names of powers are read back

A Latin name is cut into the segments it was put together from, each segment has its digit back,
and the digits make up the index. So names of different powers differ, in any letter case.
-/

namespace Reckoner.Numeral

/-! ## Cutting -/

theorem cutSegments_stem {stem : List Char} (h : Plain stem) (taken rest : List Char) :
    cutSegments taken (stem ++ (segmentEnd ++ rest)) =
      (cutSegments [] rest).map ((taken.reverse ++ stem ++ segmentEnd) :: ·) := by
  induction stem generalizing taken with
  | nil => simp [segmentEnd, cutSegments]
  | cons c stem ih =>
    have hl : ∀ d ∈ stem, d ≠ 'l' := fun d hd => (h d (List.mem_cons_of_mem _ hd)).2
    have hskip : cutSegments taken (c :: (stem ++ (segmentEnd ++ rest))) =
        cutSegments (c :: taken) (stem ++ (segmentEnd ++ rest)) := by
      rw [cutSegments.eq_2]
      -- the end of a segment cannot begin in a stem, where no `l` follows
      rintro rest' rfl hcons
      cases stem with
      | nil => simp [segmentEnd] at hcons
      | cons d stem =>
        obtain ⟨rfl, -⟩ := List.cons_eq_cons.1 hcons
        exact hl 'l' List.mem_cons_self rfl
    rw [List.cons_append, hskip, ih (fun d hd => h d (List.mem_cons_of_mem _ hd))]
    simp

theorem cutSegments_segments (groups : List Nat) :
    cutSegments [] (groups.flatMap segment) = some (groups.map segment) := by
  induction groups with
  | nil => rfl
  | cons group groups ih =>
    rw [List.flatMap_cons, segment_eq, List.append_assoc,
      cutSegments_stem (plain_trimmedStem _), ih]
    rfl

/-! ## Digits -/

theorem thousands_lt (index : Nat) : ∀ group ∈ thousands index, group < 1000 := by
  fun_induction thousands index with
  | case1 index h => simpa using h
  | case2 index h ih =>
    intro group hgroup
    obtain hgroup | hgroup := List.mem_append.1 hgroup
    · exact ih group hgroup
    · rw [List.mem_singleton.1 hgroup]
      exact Nat.mod_lt _ (by decide)

theorem foldl_insert_getElem? {key : Nat → String} {groups : List Nat}
    (hkey : ∀ a ∈ groups, ∀ b ∈ groups, key a = key b → a = b) {group : Nat}
    (hgroup : group ∈ groups) :
    (groups.foldl (fun (known : Std.HashMap String Nat) group => known.insert (key group) group)
      ∅)[key group]? = some group := by
  induction groups using List.reverseRecOn with
  | nil => simp at hgroup
  | append_singleton groups last ih =>
    rw [List.foldl_append, List.foldl_cons, List.foldl_nil, Std.HashMap.getElem?_insert]
    split
    · next hlast => exact congrArg some (hkey _ (by simp) _ hgroup (by simpa using hlast))
    · next hlast =>
      have hbefore : group ∈ groups := by
        obtain hmem | hmem := List.mem_append.1 hgroup
        · exact hmem
        · rw [List.mem_singleton.1 hmem] at hlast
          simp at hlast
      exact ih (fun a ha b hb => hkey a (by simp [ha]) b (by simp [hb])) hbefore

theorem segmentValues_segment {group : Nat} (h : group < 1000) :
    segmentValues[String.ofList (segment group)]? = some group := by
  have hkey : ∀ a ∈ List.range 1000, ∀ b ∈ List.range 1000,
      String.ofList (segment a) = String.ofList (segment b) → a = b := fun a ha b hb heq =>
    segment_injective (List.mem_range.1 ha) (List.mem_range.1 hb) (String.ofList_injective heq)
  exact foldl_insert_getElem? hkey (List.mem_range.2 h)

/-- An index is put together from its digits. -/
theorem foldlM_appendSegment? {index : Nat} (h : index < Word.count) :
    ((thousands index).map segment).foldlM appendSegment? 0 = some index := by
  fun_induction thousands index with
  | case1 index hsmall =>
    simp [appendSegment?, segmentValues_segment hsmall, h]
  | case2 index hlarge ih =>
    have hfront : index / 1000 < Word.count := (Nat.div_le_self _ _).trans_lt h
    have hback : index / 1000 * 1000 + index % 1000 = index := by omega
    rw [List.map_append, List.foldlM_append, ih hfront]
    simp [appendSegment?, segmentValues_segment (Nat.mod_lt index (by decide : 0 < 1000)), hback, h]

theorem foldl_thousands (index : Nat) :
    (thousands index).foldl (fun n group => n * 1000 + group) 0 = index := by
  fun_induction thousands index with
  | case1 index h => simp
  | case2 index h ih =>
    rw [List.foldl_append, ih, List.foldl_cons, List.foldl_nil]
    omega

/-! ## Letter case -/

theorem lower_lower (text : List Char) : Text.lower (Text.lower text) = Text.lower text := by
  simp [Text.lower]

theorem lower_capitalize (text : List Char) :
    Text.lower (Text.capitalize text) = Text.lower text := by
  cases text <;> simp [Text.capitalize, Text.lower]

theorem lower_eq_self {text : List Char} (h : ∀ c ∈ text, c.isLower) : Text.lower text = text := by
  have hmap : text.map Char.toLower = text.map id := List.map_congr_left fun c hc =>
    Char.toLower_eq_of_not_isUpper (Char.not_isUpper_of_isLower (h c hc))
  rwa [List.map_id] at hmap

/-- A Latin name in small letters. -/
def latinName (index : Nat) : List Char := (thousands index).flatMap segment ++ ['o', 'n']

theorem isLower_latinName (index : Nat) : ∀ c ∈ latinName index, c.isLower := by
  intro c hc
  obtain hc | hc := List.mem_append.1 hc
  · obtain ⟨group, -, hc⟩ := List.mem_flatMap.1 hc
    rw [segment_eq] at hc
    obtain hc | hc := List.mem_append.1 hc
    · exact (plain_trimmedStem _ c hc).1
    · have hend : segmentEnd.all Char.isLower := by decide
      exact List.all_eq_true.1 hend c hc
  · have hend : ['o', 'n'].all Char.isLower := by decide
    exact List.all_eq_true.1 hend c hc

theorem lower_powerName {index : Nat} (h : index ≠ 0) :
    Text.lower (powerName index).toList = latinName index := by
  rw [powerName, if_neg h, String.toList_ofList, lower_capitalize]
  exact lower_eq_self (isLower_latinName index)

theorem lower_powerName_zero : Text.lower (powerName 0).toList = "thousand".toList := by
  decide

theorem latinName_injective {i j : Nat} (h : latinName i = latinName j) : i = j := by
  have hvalues (index : Nat) : ((thousands index).map segment).map
      (fun segment => segmentValues[String.ofList segment]?) = (thousands index).map some := by
    rw [List.map_map]
    exact List.map_congr_left fun group hgroup =>
      segmentValues_segment (thousands_lt index group hgroup)
  have hcut := congrArg (cutSegments []) (List.append_cancel_right h)
  rw [cutSegments_segments, cutSegments_segments, Option.some.injEq] at hcut
  have hgroups : thousands i = thousands j := by
    refine List.map_injective_iff.2 (Option.some_injective Nat) ?_
    rw [← hvalues i, hcut, hvalues j]
  rw [← foldl_thousands i, hgroups, foldl_thousands]

theorem powerName_ends {index : Nat} (h : index ≠ 0) :
    ['o', 'n'] <:+ Text.lower (powerName index).toList := by
  rw [lower_powerName h]
  exact List.suffix_append _ _

/-- Names of different powers differ by more than the case of letters. -/
theorem powerName_injective {i j : Nat}
    (h : Text.lower (powerName i).toList = Text.lower (powerName j).toList) : i = j := by
  have hthousand : ¬ ['o', 'n'] <:+ "thousand".toList := by decide
  by_cases hi : i = 0 <;> by_cases hj : j = 0
  · rw [hi, hj]
  · subst hi
    rw [lower_powerName_zero] at h
    exact absurd (h ▸ powerName_ends hj) hthousand
  · subst hj
    rw [lower_powerName_zero] at h
    exact absurd (h ▸ powerName_ends hi) hthousand
  · rw [lower_powerName hi, lower_powerName hj] at h
    exact latinName_injective h

/-! ## Reading names -/

theorem dropEnding?_append (text ending : List Char) :
    Text.dropEnding? ending (text ++ ending) = some text := by
  simp [Text.dropEnding?]

/-- A Latin name is read as its index, in any letter case. -/
theorem readPowerName?_of_lower {index : Nat} {name : List Char} (hpos : index ≠ 0)
    (hindex : index < Word.count) (hname : Text.lower name = Text.lower (powerName index).toList) :
    readPowerName? name = some index := by
  unfold readPowerName?
  rw [hname, lower_powerName hpos, latinName, dropEnding?_append]
  simp only [Option.bind_eq_bind, Option.bind_some, cutSegments_segments,
    foldlM_appendSegment? hindex]
  simp [Text.sameLetters, hname, Nat.pos_of_ne_zero hpos]

theorem readPowerName?_eq_some {index : Nat} {name : List Char}
    (h : readPowerName? name = some index) :
    Text.lower (powerName index).toList = Text.lower name := by
  simp only [readPowerName?, Option.bind_eq_bind, Option.bind_eq_some_iff] at h
  obtain ⟨_, -, _, -, found, -, h⟩ := h
  split at h
  · next hsame =>
    obtain rfl : found = index := by simpa using h
    rw [Bool.and_eq_true] at hsame
    simpa [Text.sameLetters] using hsame.2
  · simp at h

/-! ## Unique decoding -/

/-- The name of a power that an unsigned word can count is read as that power, in any letter case.
So no two powers share a name. -/
theorem powerName_decodes :
    (∀ index, 0 < index → index < Word.count →
      readPowerName? (powerName index).toList = some index ∧
        ∀ name, Text.sameLetters name (powerName index).toList = true →
          readPowerName? name = some index) ∧
      Function.Injective powerName := by
  refine ⟨fun index hpos hindex => ?_, fun i j h => ?_⟩
  · have hread : ∀ name, Text.sameLetters name (powerName index).toList = true →
        readPowerName? name = some index := by
      intro name hname
      unfold Text.sameLetters at hname
      exact readPowerName?_of_lower hpos.ne' hindex (beq_iff_eq.1 hname)
    exact ⟨hread _ (beq_self_eq_true _), hread⟩
  · exact powerName_injective (by rw [h])

/-- The first name of two segments, in capital letters. -/
theorem powerName_decodes_capitals :
    0 < 1000 ∧ 1000 < Word.count ∧
      Text.sameLetters "MILLINILLION".toList (powerName 1000).toList = true ∧
      readPowerName? "MILLINILLION".toList = some 1000 := by
  have hname : powerName 1000 = "Millinillion" := by
    have hdigits : thousands 1000 = [1, 0] := by simp [thousands]
    rw [powerName, if_neg (by decide), hdigits]
    decide
  have hsame : Text.sameLetters "MILLINILLION".toList (powerName 1000).toList = true := by
    rw [hname]
    decide
  exact ⟨by decide, by decide, hsame,
    (powerName_decodes.1 1000 (by decide) (by decide)).2 _ hsame⟩

end Reckoner.Numeral
