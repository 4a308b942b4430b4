import Mathlib.Data.List.Infix
import Reckoner.Expression.Placeholder
import Reckoner.Proofs.Decimal.Written

/-!
# Replacing names one after the other

A text with placeholders is a list of pieces: characters that stay and holes that are bound. Names
are replaced in the whole text one by one. If no name is written where there is no hole, and none
reaches from one hole into what stands behind it, every replacement fills the holes of its own name
and leaves everything else alone.
-/

namespace Reckoner

/-- A character that stays, or a bound name with its value. -/
inductive Piece where
  | char (c : Char)
  | hole (entry : String × Decimal)

namespace Piece

/-- The text of pieces, with the holes as `fill` writes them. -/
def write (fill : String × Decimal → List Char) (pieces : List Piece) : List Char :=
  pieces.flatMap fun
    | char c => [c]
    | hole entry => fill entry

/-- A name as it stands in a text. -/
def mark (entry : String × Decimal) : List Char := '$' :: entry.1.toList

/-- The text with every placeholder still in it. -/
def shown (pieces : List Piece) : List Char := write mark pieces

/-- The text with the plain form of its value in place of every placeholder. -/
def filled (pieces : List Piece) : List Char := write (fun entry => entry.2.toChars) pieces

/-- How a hole is written while the entries `left` are still to be replaced. -/
def stage (left : List (String × Decimal)) (entry : String × Decimal) : List Char :=
  if entry.1 ∈ left.map Prod.fst then mark entry else entry.2.toChars

/-- The text while the entries `left` are still to be replaced. -/
def halfway (left : List (String × Decimal)) (pieces : List Piece) : List Char :=
  write (stage left) pieces

variable {fill fill' : String × Decimal → List Char} {c : Char} {entry : String × Decimal}
  {pieces : List Piece} {left entries : List (String × Decimal)} {name : List Char}

@[simp] theorem write_nil : write fill [] = [] := rfl

@[simp] theorem write_char : write fill (char c :: pieces) = c :: write fill pieces := rfl

@[simp] theorem write_hole : write fill (hole entry :: pieces) = fill entry ++ write fill pieces :=
  rfl

@[simp] theorem write_append {pieces' : List Piece} :
    write fill (pieces ++ pieces') = write fill pieces ++ write fill pieces' := by
  simp [write]

theorem write_congr (h : ∀ entry, hole entry ∈ pieces → fill entry = fill' entry) :
    write fill pieces = write fill' pieces := by
  induction pieces with
  | nil => rfl
  | cons piece pieces ih =>
    have hpieces := ih fun entry hentry => h entry (List.mem_cons_of_mem _ hentry)
    cases piece with
    | char c => rw [write_char, write_char, hpieces]
    | hole entry => rw [write_hole, write_hole, hpieces, h entry List.mem_cons_self]

/-- No value has a character that could begin a placeholder. -/
theorem figures_toChars (x : Decimal) :
    ∃ c rest, x.toChars = c :: rest ∧ (c = '-' ∨ Decimal.isFigure c) ∧
      ∀ d ∈ rest, Decimal.isFigure d := by
  obtain ⟨-, hpositive⟩ | ⟨hnegative, hpositive⟩ := x.nonneg_or
  · obtain ⟨hne, hall⟩ := (Decimal.written_toChars hpositive).figures
    obtain ⟨c, rest, hcons⟩ := List.exists_cons_of_ne_nil hne
    rw [hcons] at hall
    exact ⟨c, rest, hcons, .inr (hall c List.mem_cons_self),
      fun d hd => hall d (List.mem_cons_of_mem _ hd)⟩
  · exact ⟨'-', _, Decimal.toChars_neg hnegative, .inl rfl,
      (Decimal.written_toChars hpositive).figures.2⟩

theorem dollar_not_mem_toChars (x : Decimal) : '$' ∉ x.toChars := by
  obtain ⟨c, rest, hcons, hc, hrest⟩ := figures_toChars x
  rw [hcons, List.mem_cons, not_or]
  refine ⟨?_, fun hmem => absurd (hrest _ hmem) (by decide)⟩
  rintro rfl
  exact hc.elim (by decide) (by decide)

end Piece

namespace Bindings

open Piece

variable {pattern value text u : List Char} {c : Char} {pieces : List Piece}
  {entry other : String × Decimal} {left entries : List (String × Decimal)}

/-! ## One replacement -/

theorem replaceAll_prefix (hpattern : pattern ≠ []) (rest : List Char) :
    replaceAll pattern value (pattern ++ rest) = value ++ replaceAll pattern value rest := by
  obtain ⟨c, pattern, rfl⟩ := List.exists_cons_of_ne_nil hpattern
  have hprefix : (c :: pattern).isPrefixOf (c :: (pattern ++ rest)) :=
    List.isPrefixOf_iff_prefix.2 ⟨rest, rfl⟩
  rw [List.cons_append, replaceAll, if_pos hprefix]
  simp

theorem replaceAll_cons (h : ¬ pattern <+: c :: text) :
    replaceAll pattern value (c :: text) = c :: replaceAll pattern value text := by
  rw [replaceAll, if_neg (by rwa [List.isPrefixOf_iff_prefix])]

/-- What has no `$` is passed over. -/
theorem replaceAll_append {name : List Char} (h : '$' ∉ u) :
    replaceAll ('$' :: name) value (u ++ text) = u ++ replaceAll ('$' :: name) value text := by
  induction u with
  | nil => rfl
  | cons c u ih =>
    obtain ⟨hc, hu⟩ := by simpa using h
    rw [List.cons_append, replaceAll_cons (by simp [hc]), ih hu, List.cons_append]

/-- Where a name is written it belongs to a hole, and it reaches no further than that hole's own. -/
def Clear (name : List Char) : List Piece → Prop
  | [] => True
  | .char c :: pieces =>
    (c = '$' → ∀ left, ¬ name <+: halfway left pieces) ∧ Clear name pieces
  | .hole entry :: pieces =>
    (∀ left, name <+: entry.1.toList ++ halfway left pieces →
      name.length ≤ entry.1.toList.length) ∧ Clear name pieces

/-- A name reaches past a hole only if it goes on with what stands behind it. -/
theorem clear_hole {name : List Char} (hclear : Clear name pieces)
    (hbehind : ∀ more left, name = entry.1.toList ++ more → more <+: halfway left pieces →
      more = []) : Clear name (.hole entry :: pieces) := by
  refine ⟨fun left hprefix => ?_, hclear⟩
  by_contra hlonger
  obtain ⟨more, rfl⟩ : entry.1.toList <+: name :=
    List.prefix_of_prefix_length_le (List.prefix_append _ _) hprefix (by omega)
  rw [List.prefix_append_right_inj] at hprefix
  have hnil : more = [] := hbehind more left rfl hprefix
  simp [hnil] at hlonger

/-- A longer name has more bytes. -/
theorem utf8ByteSize_lt {a b : String} (h : a.toList <+: b.toList) (hne : a ≠ b) :
    a.utf8ByteSize < b.utf8ByteSize := by
  obtain ⟨rest, hrest⟩ := h
  have hb : b = a ++ String.ofList rest := by
    rw [← String.toList_inj, String.toList_append, String.toList_ofList, hrest]
  subst hb
  have hpos : (String.ofList rest).utf8ByteSize ≠ 0 := by
    intro hzero
    rw [String.utf8ByteSize_eq_zero_iff.1 hzero] at hne
    simp at hne
  rw [String.utf8ByteSize_append]
  omega

/-- Entries that can be replaced in this order: no name occurs twice, and none stands before a
longer one. -/
def Ordered (entries : List (String × Decimal)) : Prop :=
  entries.Pairwise fun a b => a.1 ≠ b.1 ∧ b.1.utf8ByteSize ≤ a.1.utf8ByteSize

/-- A hole that is filled later is passed over: the name that is replaced first is not the
beginning of its name. -/
theorem replaceAll_mark (hname : other.1 ≠ entry.1)
    (hsize : other.1.utf8ByteSize ≤ entry.1.utf8ByteSize) (hdollar : '$' ∉ other.1.toList)
    (hreach : entry.1.toList <+: other.1.toList ++ text →
      entry.1.toList.length ≤ other.1.toList.length) :
    replaceAll (mark entry) value (mark other ++ text) =
      mark other ++ replaceAll (mark entry) value text := by
  have hnot : ¬ mark entry <+: '$' :: (other.1.toList ++ text) := by
    rintro ⟨rest, hrest⟩
    have hrest : entry.1.toList ++ rest = other.1.toList ++ text := by simpa [mark] using hrest
    have hwithin : entry.1.toList <+: other.1.toList :=
      List.prefix_of_prefix_length_le ⟨rest, hrest⟩ (List.prefix_append _ _)
        (hreach ⟨rest, hrest⟩)
    exact absurd (utf8ByteSize_lt hwithin hname.symm) (by omega)
  calc replaceAll (mark entry) value (mark other ++ text)
      = '$' :: replaceAll (mark entry) value (other.1.toList ++ text) := replaceAll_cons hnot
    _ = mark other ++ replaceAll (mark entry) value text :=
        congrArg ('$' :: ·) (replaceAll_append hdollar)

theorem replaceAll_stage (hordered : Ordered (entry :: left)) (hdollar : '$' ∉ other.1.toList)
    (hvalue : other.1 = entry.1 → other = entry)
    (hreach : entry.1.toList <+: other.1.toList ++ text →
      entry.1.toList.length ≤ other.1.toList.length) :
    replaceAll (mark entry) entry.2.toChars (stage (entry :: left) other ++ text) =
      stage left other ++ replaceAll (mark entry) entry.2.toChars text := by
  obtain ⟨hfirst, -⟩ := List.pairwise_cons.1 hordered
  have hlater {name : String} (h : name ∈ left.map Prod.fst) :
      entry.1 ≠ name ∧ name.utf8ByteSize ≤ entry.1.utf8ByteSize := by
    obtain ⟨later, hmem, rfl⟩ := List.mem_map.1 h
    exact hfirst later hmem
  unfold stage
  by_cases hname : other.1 = entry.1
  · obtain rfl := hvalue hname
    rw [if_pos (by simp), if_neg fun h => (hlater h).1 rfl, replaceAll_prefix (by simp [mark])]
  by_cases hmem : other.1 ∈ left.map Prod.fst
  · rw [if_pos (by simp [hmem]), if_pos hmem,
      replaceAll_mark hname (hlater hmem).2 hdollar hreach]
  · rw [if_neg (by simp [hname, hmem]), if_neg hmem]
    exact replaceAll_append (dollar_not_mem_toChars other.2)

/-- A replacement fills the holes of its name and no others. -/
theorem replaceAll_halfway (hordered : Ordered (entry :: left))
    (hbound : ∀ other, .hole other ∈ pieces → '$' ∉ other.1.toList ∧
      (other.1 = entry.1 → other = entry))
    (hclear : Clear entry.1.toList pieces) :
    replaceAll (mark entry) entry.2.toChars (halfway (entry :: left) pieces) =
      halfway left pieces := by
  induction pieces with
  | nil => simp [halfway, replaceAll]
  | cons piece pieces ih =>
    have ih := ih fun other hother => hbound other (List.mem_cons_of_mem _ hother)
    cases piece with
    | char c =>
      obtain ⟨hc, hclear⟩ := hclear
      refine (replaceAll_cons ?_).trans (congrArg (c :: ·) (ih hclear))
      rintro ⟨rest, hrest⟩
      obtain ⟨hdollar, hrest⟩ := List.cons.inj hrest
      exact hc hdollar.symm _ ⟨rest, hrest⟩
    | hole other =>
      obtain ⟨hreach, hclear⟩ := hclear
      obtain ⟨hdollar, hvalue⟩ := hbound other List.mem_cons_self
      exact (replaceAll_stage hordered hdollar hvalue (hreach _)).trans
        (congrArg (stage left other ++ ·) (ih hclear))

/-! ## All replacements -/

/-- Pieces whose holes are bound by the entries and whose names are written nowhere else. -/
structure Prepared (entries : List (String × Decimal)) (pieces : List Piece) : Prop where
  distinct : (entries.map Prod.fst).Nodup
  bound : ∀ entry, .hole entry ∈ pieces → entry ∈ entries
  plain : ∀ entry, .hole entry ∈ pieces → '$' ∉ entry.1.toList
  clear : ∀ entry ∈ entries, Clear entry.1.toList pieces

theorem eq_of_name (h : (entries.map Prod.fst).Nodup) (hentry : entry ∈ entries)
    (hother : other ∈ entries) (hname : other.1 = entry.1) : other = entry :=
  List.inj_on_of_nodup_map h hother hentry hname

theorem foldl_replaceAll (hordered : Ordered entries)
    (hbound : ∀ entry ∈ entries, ∀ other, .hole other ∈ pieces → '$' ∉ other.1.toList ∧
      (other.1 = entry.1 → other = entry))
    (hclear : ∀ entry ∈ entries, Clear entry.1.toList pieces) :
    entries.foldl (fun text entry => replaceAll (mark entry) entry.2.toChars text)
      (halfway entries pieces) = filled pieces := by
  induction entries with
  | nil => exact write_congr fun entry _ => if_neg (by simp)
  | cons entry left ih =>
    rw [List.foldl_cons, replaceAll_halfway hordered (hbound entry List.mem_cons_self)
      (hclear entry List.mem_cons_self)]
    exact ih (List.pairwise_cons.1 hordered).2
      (fun entry hentry => hbound entry (List.mem_cons_of_mem _ hentry))
      fun entry hentry => hclear entry (List.mem_cons_of_mem _ hentry)

theorem replacedBefore_iff {a b : String × Decimal} : replacedBefore a b = true ↔
    b.1.utf8ByteSize < a.1.utf8ByteSize ∨
      b.1.utf8ByteSize = a.1.utf8ByteSize ∧ a.1 ≤ b.1 := by
  unfold replacedBefore
  split
  · next h => simp [Nat.compare_eq_lt.1 h]
  · next h =>
    have := Nat.compare_eq_gt.1 h
    simp
    omega
  · next h => simp [Nat.compare_eq_eq.1 h]

theorem replacedBefore_trans {a b c : String × Decimal} (hab : replacedBefore a b = true)
    (hbc : replacedBefore b c = true) : replacedBefore a c = true := by
  rw [replacedBefore_iff] at *
  obtain hab | ⟨hab, hname⟩ := hab <;> obtain hbc | ⟨hbc, hname'⟩ := hbc
  · exact .inl (by omega)
  · exact .inl (by omega)
  · exact .inl (by omega)
  · exact .inr ⟨by omega, String.le_trans hname hname'⟩

theorem replacedBefore_total (a b : String × Decimal) :
    (replacedBefore a b || replacedBefore b a) = true := by
  rw [Bool.or_eq_true, replacedBefore_iff, replacedBefore_iff]
  obtain h | h | h := lt_trichotomy a.1.utf8ByteSize b.1.utf8ByteSize
  · exact .inr (.inl h)
  · exact (String.le_total a.1 b.1).imp (.inr ⟨h.symm, ·⟩) (.inr ⟨h, ·⟩)
  · exact .inl (.inl h)

theorem ordered_mergeSort (h : (entries.map Prod.fst).Nodup) :
    Ordered (entries.mergeSort replacedBefore) := by
  have hsorted := @List.pairwise_mergeSort _ replacedBefore (fun _ _ _ => replacedBefore_trans)
    replacedBefore_total entries
  have hdistinct : (entries.mergeSort replacedBefore).Pairwise fun a b => a.1 ≠ b.1 :=
    List.pairwise_map.1 (((List.mergeSort_perm entries _).map Prod.fst).nodup_iff.2 h)
  refine (hdistinct.and hsorted).imp fun ⟨hne, hbefore⟩ => ⟨hne, ?_⟩
  obtain h | ⟨h, -⟩ := replacedBefore_iff.1 hbefore <;> omega

/-- Longest first, the replacements fill all holes. -/
theorem Prepared.foldl_replaceAll (h : Prepared entries pieces) :
    (entries.mergeSort replacedBefore).foldl
      (fun text entry => replaceAll (mark entry) entry.2.toChars text) (shown pieces) =
      filled pieces := by
  have hmem (entry : String × Decimal) :
      entry ∈ entries.mergeSort replacedBefore ↔ entry ∈ entries := List.mem_mergeSort
  have hshown : shown pieces = halfway (entries.mergeSort replacedBefore) pieces := by
    refine write_congr fun entry hentry => (if_pos ?_).symm
    exact List.mem_map_of_mem ((hmem entry).2 (h.bound entry hentry))
  rw [hshown]
  refine Bindings.foldl_replaceAll (ordered_mergeSort h.distinct) ?_ ?_
  · exact fun entry hentry other hother => ⟨h.plain other hother,
      eq_of_name h.distinct ((hmem entry).1 hentry) (h.bound other hother)⟩
  · exact fun entry hentry => h.clear entry ((hmem entry).1 hentry)

end Bindings

end Reckoner
