import Reckoner.Proofs.Decimal.Whole
import Reckoner.Proofs.Placeholder.Replacing

/-!
# Slots

A slot is a `$` in front of a group. Its index is the value of what the group holds, and the slot
is written with that index before anything is replaced. From then on it is a name like the others.
-/

namespace Reckoner

/-! ## Groups -/

/-- A text whose parentheses match. -/
inductive Balanced : List Char → Prop where
  | nil : Balanced []
  | char {c : Char} {text : List Char} :
    c ≠ '(' → c ≠ ')' → Balanced text → Balanced (c :: text)
  | group {inner text : List Char} :
    Balanced inner → Balanced text → Balanced ('(' :: (inner ++ ')' :: text))

/-- A text that closes `k` groups more than it opens. -/
def Closing : Nat → List Char → Prop
  | 0, text => Balanced text
  | k + 1, text => ∃ first rest, Balanced first ∧ Closing k rest ∧ text = first ++ ')' :: rest

namespace Closing

variable {k : Nat} {c : Char} {text inner : List Char}

theorem char (hopen : c ≠ '(') (hclose : c ≠ ')') (h : Closing k text) : Closing k (c :: text) := by
  cases k with
  | zero => exact .char hopen hclose h
  | succ k =>
    obtain ⟨first, rest, hfirst, hrest, rfl⟩ := h
    exact ⟨c :: first, rest, .char hopen hclose hfirst, hrest, rfl⟩

theorem opening (h : Closing (k + 1) text) : Closing k ('(' :: text) := by
  obtain ⟨inner, rest, hinner, hrest, rfl⟩ := h
  cases k with
  | zero => exact .group hinner hrest
  | succ k =>
    obtain ⟨first, rest, hfirst, hrest, rfl⟩ := hrest
    exact ⟨'(' :: (inner ++ ')' :: first), rest, .group hinner hfirst, hrest, by simp⟩

theorem closing (h : Closing k text) : Closing (k + 1) (')' :: text) := ⟨[], text, .nil, h, rfl⟩

end Closing

namespace Bindings

open Piece

variable {bindings other : Bindings} {calculator : Calculator} {position n : Nat}
  {text inner after rest rewritten out u : List Char} {c : Char} {found : Nat × Decimal}
  {slots : List (Nat × Decimal)} {pieces : List Piece} {entry : String × Decimal}
  {known left : List (String × Decimal)}

theorem takeGroup_opening (k : Nat) : takeGroup (k + 1) ('(' :: text) =
    (takeGroup (k + 2) text).map fun found => ('(' :: found.1, found.2) := by
  rw [takeGroup, if_neg (by simp)]
  rfl

theorem takeGroup_closing (k : Nat) : takeGroup (k + 2) (')' :: text) =
    (takeGroup (k + 1) text).map fun found => (')' :: found.1, found.2) := by
  rw [takeGroup, if_neg (by simp)]
  rfl

theorem takeGroup_char (hopen : c ≠ '(') (hclose : c ≠ ')') (k : Nat) :
    takeGroup (k + 1) (c :: text) =
      (takeGroup (k + 1) text).map fun found => (c :: found.1, found.2) := by
  rw [takeGroup, if_neg (by simp [hclose]), if_neg hopen, if_neg hclose]

/-- Groups that are opened and closed on the way are passed over. -/
theorem takeGroup_append (h : Balanced inner) (k : Nat) : takeGroup (k + 1) (inner ++ text) =
    (takeGroup (k + 1) text).map fun found => (inner ++ found.1, found.2) := by
  induction h generalizing k text with
  | nil => simp
  | char hopen hclose _ ih =>
    rw [List.cons_append, takeGroup_char hopen hclose, ih, Option.map_map]
    rfl
  | group _ _ ihinner ihtext =>
    rw [List.cons_append, List.append_assoc, List.cons_append, takeGroup_opening, ihinner,
      takeGroup_closing, ihtext, Option.map_map, Option.map_map, Option.map_map]
    simp [Function.comp_def]

theorem takeGroup_balanced (h : Balanced inner) :
    takeGroup 1 (inner ++ ')' :: after) = some (inner, after) := by
  rw [takeGroup_append h, show takeGroup (0 + 1) (')' :: after) = some ([], after) from rfl]
  simp

theorem closing_of_takeGroup {k : Nat} (h : takeGroup (k + 1) text = some (inner, after)) :
    text = inner ++ ')' :: after ∧ Closing k inner := by
  induction text generalizing k inner with
  | nil => simp [takeGroup] at h
  | cons c text ih =>
    -- the level that is left to close is the one that the rest of the text starts from
    have hstep {j : Nat} (h : (takeGroup (j + 1) text).map (fun found => (c :: found.1, found.2)) =
        some (inner, after)) : ∃ rest, inner = c :: rest ∧ text = rest ++ ')' :: after ∧
        Closing j rest := by
      obtain ⟨⟨rest, end'⟩, hrest, hpair⟩ := Option.map_eq_some_iff.1 h
      obtain ⟨rfl, rfl⟩ := Prod.mk.inj hpair
      exact ⟨rest, rfl, ih hrest⟩
    by_cases hclose : c = ')'
    · subst hclose
      obtain _ | k := k
      · obtain ⟨rfl, rfl⟩ := by simpa [takeGroup] using h
        exact ⟨rfl, .nil⟩
      · rw [takeGroup_closing] at h
        obtain ⟨rest, rfl, rfl, hrest⟩ := hstep h
        exact ⟨rfl, hrest.closing⟩
    by_cases hopen : c = '('
    · subst hopen
      rw [takeGroup_opening] at h
      obtain ⟨rest, rfl, rfl, hrest⟩ := hstep h
      exact ⟨rfl, hrest.opening⟩
    · rw [takeGroup_char hopen hclose] at h
      obtain ⟨rest, rfl, rfl, hrest⟩ := hstep h
      exact ⟨rfl, hrest.char hopen hclose⟩

theorem balanced_of_takeGroup (h : takeGroup 1 text = some (inner, after)) :
    text = inner ++ ')' :: after ∧ Balanced inner :=
  closing_of_takeGroup (k := 0) h

/-! ## Indices -/

theorem bind_eq_ok {ε α β : Type} {x : Except ε α} {f : α → Except ε β} {b : β} :
    x >>= f = .ok b ↔ ∃ a, x = .ok a ∧ f a = .ok b := by
  cases x <;> simp [bind, Except.bind]

theorem map_eq_ok {ε α β : Type} {x : Except ε α} {f : α → β} {b : β} :
    x.map f = .ok b ↔ ∃ a, x = .ok a ∧ f a = b := by
  cases x <;> simp [Except.map]

/-- A slot that is found stands for the value at the place that its expression comes to. -/
theorem slot_eq_ok (h : bindings.slot calculator inner position = .ok found) :
    ∃ index, calculator.evaluatePlain inner = .ok index ∧ index.toRat = found.1 ∧
      bindings.positional[found.1]? = some found.2 := by
  obtain ⟨index, hindex, h⟩ := bind_eq_ok.1 h
  refine ⟨index, hindex, ?_⟩
  dsimp only at h
  split at h
  · next chosen hchosen =>
    obtain rfl : chosen = found := Except.ok.inj h
    obtain ⟨n, hword, hn⟩ := Option.bind_eq_some_iff.1 hchosen
    split at hn
    · next hpos =>
      obtain ⟨value, hvalue, rfl⟩ := Option.map_eq_some_iff.1 hn
      refine ⟨?_, hvalue⟩
      rw [Decimal.toRat_of_toWord? hword, ← Int.cast_natCast, Int.toNat_of_nonneg hpos]
    · simp at hn
  · simp [throw, throwThe, MonadExceptOf.throw] at h

theorem not_mem_toDigits (n : Nat) {c : Char} (hc : c.isDigit = false) : c ∉ Nat.toDigits 10 n := by
  intro hmem
  simp [Nat.isDigit_of_mem_toDigits (by decide) (by decide) hmem] at hc

theorem eq_of_begins_slotName {m : Nat} (h : slotName m <+: slotName n ++ text) : m = n := by
  obtain ⟨rest, hrest⟩ := h
  have hrest : Nat.toDigits 10 m ++ ')' :: rest = Nat.toDigits 10 n ++ ')' :: text := by
    simpa [slotName] using hrest
  have hdigits : Nat.toDigits 10 m = Nat.toDigits 10 n := by
    have htake (k : Nat) (text : List Char) :
        (Nat.toDigits 10 k ++ ')' :: text).takeWhile (· != ')') = Nat.toDigits 10 k := by
      have hdigits : ∀ c ∈ Nat.toDigits 10 k, (c != ')') = true := fun c hc =>
        bne_iff_ne.2 fun heq => not_mem_toDigits k (by decide) (heq ▸ hc)
      rw [List.takeWhile_append_of_pos hdigits]
      simp
    rw [← htake m rest, hrest, htake]
  rw [← Nat.ofDigitChars_ten_toDigits (n := m), hdigits, Nat.ofDigitChars_ten_toDigits]

theorem dollar_not_mem_slotName (n : Nat) : '$' ∉ slotName n := by
  simp [slotName, not_mem_toDigits]

/-- The entry that a slot is replaced as. -/
def slotEntry (found : Nat × Decimal) : String × Decimal :=
  (String.ofList (slotName found.1), found.2)

/-! ## Reading a text -/

theorem resolveSlots_cons (h : c = '$' → rest.head? ≠ some '(') :
    bindings.resolveSlots calculator position (c :: rest) =
      (bindings.resolveSlots calculator (position + 1) rest).map fun found =>
        (c :: found.1, found.2) := by
  have hnot : ∀ more, c = '$' → rest = '(' :: more → False := by
    rintro more hc rfl
    exact h hc rfl
  rw [resolveSlots]
  · cases bindings.resolveSlots calculator (position + 1) rest <;> rfl
  · exact hnot

theorem resolveSlots_append (h : '$' ∉ u) :
    bindings.resolveSlots calculator position (u ++ rest) =
      (bindings.resolveSlots calculator (position + u.length) rest).map fun found =>
        (u ++ found.1, found.2) := by
  induction u generalizing position with
  | nil =>
    rw [List.nil_append, List.length_nil, Nat.add_zero]
    cases bindings.resolveSlots calculator position rest <;> rfl
  | cons c u ih =>
    obtain ⟨hc, hu⟩ := by simpa using h
    rw [List.cons_append, resolveSlots_cons fun heq => absurd heq.symm hc, ih hu,
      List.length_cons, Nat.add_assoc, Nat.add_comm 1]
    cases bindings.resolveSlots calculator (position + (u.length + 1)) rest <;> rfl

theorem exists_cons_of_name {name : String} (h : name ≠ "") : ∃ c rest, name.toList = c :: rest :=
  List.exists_cons_of_ne_nil fun hnil => h (String.toList_eq_nil_iff.1 hnil)

/-- A name that opens no group is copied. -/
theorem resolveSlots_mark {name : String} (hne : name ≠ "")
    (hname : ∀ c ∈ name.toList, c ≠ '$' ∧ c ≠ '(') :
    bindings.resolveSlots calculator position ('$' :: (name.toList ++ rest)) =
      (bindings.resolveSlots calculator (position + 1 + name.toList.length) rest).map fun found =>
        ('$' :: (name.toList ++ found.1), found.2) := by
  have hopen : (name.toList ++ rest).head? ≠ some '(' := by
    obtain ⟨c, letters, hcons⟩ := exists_cons_of_name hne
    rw [hcons, List.cons_append, List.head?_cons, Ne, Option.some.injEq]
    exact (hname c (by simp [hcons])).2
  rw [resolveSlots_cons fun _ => hopen, resolveSlots_append fun hmem => (hname _ hmem).1 rfl]
  cases bindings.resolveSlots calculator (position + 1 + name.toList.length) rest <;> rfl

theorem resolveSlots_of_no_dollar (h : '$' ∉ text) :
    bindings.resolveSlots calculator position text = .ok (text, []) := by
  rw [← List.append_nil text, resolveSlots_append h, resolveSlots]
  simp [Except.map]

/-- A group behind a `$` is a slot if it holds no other placeholder. -/
theorem resolveSlots_slot
    (h : bindings.resolveSlots calculator position ('$' :: '(' :: rest) = .ok (rewritten, slots)) :
    ∃ inner after found more others, takeGroup 1 rest = some (inner, after) ∧ '$' ∉ inner ∧
      bindings.slot calculator inner position = .ok found ∧
      bindings.resolveSlots calculator (position + inner.length + 3) after = .ok (more, others) ∧
      rewritten = '$' :: (slotName found.1 ++ more) ∧ slots = found :: others := by
  rw [resolveSlots] at h
  split at h
  · simp at h
  next inner after hgroup =>
  split at h
  · simp at h
  next hplain =>
  obtain ⟨found, hfound, h⟩ := bind_eq_ok.1 h
  obtain ⟨⟨more, others⟩, hmore, h⟩ := bind_eq_ok.1 h
  obtain ⟨rfl, rfl⟩ := Prod.mk.inj (Except.ok.inj h)
  refine ⟨inner, after, found, more, others, hgroup, ?_, hfound, hmore, rfl, rfl⟩
  intro hmem
  simpa using List.findIdx?_eq_none_iff.1 hplain '$' hmem

/-! ## Slots beside the bound names -/

/-- Adds a slot to the names that are replaced, unless one of them looks like it. -/
def noteSlot (known : List (String × Decimal)) (found : Nat × Decimal) : List (String × Decimal) :=
  if known.any (·.1 == (slotEntry found).1) then known else known ++ [slotEntry found]

theorem fillIn_of_no_dollar (h : '$' ∉ text) : bindings.fillIn calculator text = .ok text := by
  have hcontains : text.contains '$' = false := by simpa using h
  unfold fillIn
  rw [hcontains]
  rfl

theorem fillIn_eq (h : '$' ∈ text) : bindings.fillIn calculator text =
    (bindings.resolveSlots calculator 0 text).map fun found =>
      ((found.2.foldl noteSlot bindings.named).mergeSort replacedBefore).foldl
        (fun text entry => replaceAll (mark entry) entry.2.toChars text) found.1 := by
  have hcontains : text.contains '$' := by simpa using h
  unfold fillIn
  rw [hcontains]
  cases bindings.resolveSlots calculator 0 text <;> rfl

/-- The names that are replaced: those that are bound and slots that have a value, none twice. -/
structure Noted (bindings : Bindings) (known : List (String × Decimal)) : Prop where
  distinct : (known.map Prod.fst).Nodup
  origin : ∀ entry ∈ known, entry ∈ bindings.named ∨
    ∃ found, bindings.positional[found.1]? = some found.2 ∧ entry = slotEntry found

/-- No bound name looks like a slot. -/
def Unhidden (bindings : Bindings) : Prop := ∀ entry ∈ bindings.named, '(' ∉ entry.1.toList

theorem Noted.noteSlot (h : Noted bindings known) (hnames : bindings.Unhidden)
    (hfound : bindings.positional[found.1]? = some found.2) :
    Noted bindings (noteSlot known found) ∧ slotEntry found ∈ Bindings.noteSlot known found := by
  unfold Bindings.noteSlot
  split
  · next hany =>
    obtain ⟨entry, hentry, hname⟩ := List.any_eq_true.1 hany
    have hname : entry.1 = (slotEntry found).1 := beq_iff_eq.1 hname
    refine ⟨h, ?_⟩
    obtain hnamed | ⟨other, hother, rfl⟩ := h.origin entry hentry
    · exact absurd (by simp [hname, slotEntry, slotName]) (hnames entry hnamed)
    · -- the same slot was noted before, with the same value
      have hindex : other.1 = found.1 := by
        have hslot : slotName other.1 <+: slotName found.1 ++ [] := by
          rw [show slotName other.1 = slotName found.1 from String.ofList_injective hname,
            List.append_nil]
        exact eq_of_begins_slotName hslot
      have hvalue : other.2 = found.2 := by simpa [← hindex, hother] using hfound
      rwa [show found = other from Prod.ext hindex.symm hvalue.symm]
  · next hany =>
    have hnew : (slotEntry found).1 ∉ known.map Prod.fst := by
      intro hmem
      obtain ⟨entry, hentry, hname⟩ := List.mem_map.1 hmem
      exact hany (List.any_eq_true.2 ⟨entry, hentry, by simp [hname]⟩)
    refine ⟨⟨?_, fun entry hentry => ?_⟩, by simp⟩
    · rw [List.map_append, List.map_singleton, ← List.concat_eq_append, List.nodup_concat]
      exact ⟨hnew, h.distinct⟩
    · obtain hentry | rfl := by simpa using hentry
      · exact h.origin entry hentry
      · exact .inr ⟨found, hfound, rfl⟩

theorem mem_noteSlot (h : entry ∈ known) : entry ∈ noteSlot known found := by
  unfold noteSlot
  split
  · exact h
  · exact List.mem_append_left _ h

theorem mem_foldl_noteSlot (h : entry ∈ known) : entry ∈ slots.foldl noteSlot known := by
  induction slots generalizing known with
  | nil => exact h
  | cons found slots ih => exact ih (mem_noteSlot h)

theorem Noted.foldl (h : Noted bindings known) (hnames : bindings.Unhidden)
    (hslots : ∀ found ∈ slots, bindings.positional[found.1]? = some found.2) :
    Noted bindings (slots.foldl Bindings.noteSlot known) ∧
      ∀ found ∈ slots, slotEntry found ∈ slots.foldl Bindings.noteSlot known := by
  induction slots generalizing known with
  | nil => exact ⟨h, by simp⟩
  | cons found slots ih =>
    obtain ⟨hnoted, hmem⟩ := h.noteSlot hnames (hslots found List.mem_cons_self)
    obtain ⟨hall, hothers⟩ :=
      ih hnoted fun other hother => hslots other (List.mem_cons_of_mem _ hother)
    refine ⟨hall, fun other hother => ?_⟩
    obtain rfl | hother := List.mem_cons.1 hother
    · rw [List.foldl_cons]
      exact mem_foldl_noteSlot hmem
    · exact hothers other hother

end Bindings

end Reckoner
