import Mathlib.Order.Preorder.Finite
import Reckoner.Proofs.Placeholder.Slots

/-!
# Replacing as a single pass

One pass from left to right over the text as it is given cuts it into characters and placeholders:
a slot up to its closing parenthesis, or the longest bound name. Replacing the names one after the
other fills exactly these placeholders, in whatever order the names were bound.
-/

namespace Reckoner.Bindings

open Piece

/-- Bindings in which no name occurs twice. -/
def Distinct (bindings : Bindings) : Prop := (bindings.named.map Prod.fst).Nodup

/-- A name that no part of a value or of a slot could be taken for. -/
def IsPlainName (name : String) : Prop :=
  name ≠ "" ∧ ∀ c ∈ name.toList, c ≠ '$' ∧ c ≠ '(' ∧ c.isDigit = false ∧ c ≠ '.' ∧ c ≠ '-'

/-- The longest name among the entries that a text begins with. -/
structure Longest (entries : List (String × Decimal)) (text : List Char)
    (entry : String × Decimal) : Prop where
  bound : entry ∈ entries
  begins : entry.1.toList <+: text
  longest : ∀ other ∈ entries, other.1.toList <+: text →
    other.1.toList.length ≤ entry.1.toList.length

/-- How one pass from left to right cuts a text into pieces. -/
inductive Cut (bindings : Bindings) (calculator : Calculator) : List Char → List Piece → Prop where
  | nil : Cut bindings calculator [] []
  /-- A slot: the place in the list is the value of the expression in its parentheses. -/
  | slot {inner after : List Char} {pieces : List Piece} {index value : Decimal} {n : Nat} :
    Balanced inner → '$' ∉ inner → calculator.evaluatePlain inner = .ok index → index.toRat = n →
    bindings.positional[n]? = some value → Cut bindings calculator after pieces →
    Cut bindings calculator ('$' :: '(' :: (inner ++ ')' :: after))
      (.hole (slotEntry (n, value)) :: pieces)
  | name {entry : String × Decimal} {after : List Char} {pieces : List Piece} :
    Longest bindings.named (entry.1.toList ++ after) entry → Cut bindings calculator after pieces →
    Cut bindings calculator ('$' :: (entry.1.toList ++ after)) (.hole entry :: pieces)
  | char {c : Char} {rest : List Char} {pieces : List Piece} :
    (c = '$' → rest.head? ≠ some '(' ∧ ∀ entry ∈ bindings.named, ¬ entry.1.toList <+: rest) →
    Cut bindings calculator rest pieces → Cut bindings calculator (c :: rest) (.char c :: pieces)

/-! ## Bindings without repetitions -/

theorem distinct_empty : empty.Distinct := List.nodup_nil

theorem mem_insert (bindings : Bindings) (name : String) (value : Decimal)
    (entry : String × Decimal) : entry ∈ (bindings.insert name value).named ↔
      entry.1 ≠ name ∧ entry ∈ bindings.named ∨ entry = (name, value) := by
  simp [insert, and_comm]

theorem Distinct.insert {bindings : Bindings} (h : bindings.Distinct) (name : String)
    (value : Decimal) : (bindings.insert name value).Distinct := by
  unfold Distinct Bindings.insert
  rw [List.map_append, List.map_singleton, ← List.concat_eq_append, List.nodup_concat]
  refine ⟨by simp, List.Nodup.sublist ?_ h⟩
  exact List.Sublist.map _ List.filter_sublist

theorem Distinct.push {bindings : Bindings} (h : bindings.Distinct) (value : Decimal) :
    (bindings.push value).Distinct := h

variable {bindings other : Bindings} {calculator : Calculator} {position : Nat}
  {text rest rewritten out u : List Char} {c : Char} {slots : List (Nat × Decimal)}
  {pieces : List Piece} {entry : String × Decimal} {entries left : List (String × Decimal)}

theorem IsPlainName.copied {name : String} (h : IsPlainName name) :
    ∀ c ∈ name.toList, c ≠ '$' ∧ c ≠ '(' :=
  fun c hc => ⟨(h.2 c hc).1, (h.2 c hc).2.1⟩

/-! ## There is a cut -/

theorem exists_longest (h : ∃ entry ∈ entries, entry.1.toList <+: text) :
    ∃ entry, Longest entries text entry := by
  have hfinite : {entry | entry ∈ entries ∧ entry.1.toList <+: text}.Finite :=
    (List.finite_toSet entries).subset fun _ hentry => hentry.1
  obtain ⟨entry, ⟨hbound, hbegins⟩, hlongest⟩ :=
    Set.exists_max_image _ (fun entry => entry.1.toList.length) hfinite h
  exact ⟨entry, hbound, hbegins, fun other hother hprefix => hlongest other ⟨hother, hprefix⟩⟩

theorem exists_cut (hnames : ∀ entry ∈ bindings.named, IsPlainName entry.1)
    (h : bindings.resolveSlots calculator position text = .ok (rewritten, slots)) :
    ∃ pieces, Cut bindings calculator text pieces := by
  obtain ⟨k, hk⟩ : ∃ k, text.length ≤ k := ⟨_, le_rfl⟩
  induction k generalizing text position rewritten slots with
  | zero =>
    obtain rfl := List.eq_nil_of_length_eq_zero (Nat.le_zero.1 hk)
    exact ⟨[], .nil⟩
  | succ k ih =>
    obtain _ | ⟨c, rest⟩ := text
    · exact ⟨[], .nil⟩
    have hk : rest.length ≤ k := by simpa using hk
    -- a slot is looked for before a name, and any other character is copied
    by_cases hslot : c = '$' ∧ rest.head? = some '('
    · obtain ⟨rfl, hslot⟩ := hslot
      obtain ⟨rest, rfl⟩ := List.head?_eq_some_iff.1 hslot
      obtain ⟨inner, after, found, more, others, hgroup, hplain, hfound, hmore, -⟩ :=
        resolveSlots_slot h
      obtain ⟨rfl, hbalanced⟩ := balanced_of_takeGroup hgroup
      obtain ⟨index, hindex, hvalue, hbound⟩ := slot_eq_ok hfound
      obtain ⟨pieces, hpieces⟩ := ih hmore (by simp at hk; omega)
      exact ⟨_, .slot hbalanced hplain hindex hvalue hbound hpieces⟩
    by_cases hname : c = '$' ∧ ∃ entry ∈ bindings.named, entry.1.toList <+: rest
    · obtain ⟨rfl, hname⟩ := hname
      obtain ⟨entry, hlongest⟩ := exists_longest hname
      obtain ⟨after, rfl⟩ := hlongest.begins
      have hplain := hnames entry hlongest.bound
      rw [resolveSlots_mark hplain.1 hplain.copied] at h
      obtain ⟨⟨more, others⟩, hmore, -⟩ := map_eq_ok.1 h
      obtain ⟨pieces, hpieces⟩ := ih hmore (by simp at hk; omega)
      exact ⟨_, .name hlongest hpieces⟩
    · have hslot : c = '$' → rest.head? ≠ some '(' := fun hc hrest => hslot ⟨hc, hrest⟩
      rw [resolveSlots_cons hslot] at h
      obtain ⟨⟨more, others⟩, hmore, -⟩ := map_eq_ok.1 h
      obtain ⟨pieces, hpieces⟩ := ih hmore hk
      refine ⟨_, .char (fun hc => ⟨hslot hc, fun entry hentry hprefix => ?_⟩) hpieces⟩
      exact hname ⟨hc, entry, hentry, hprefix⟩

/-! ## The cut is what is replaced -/

/-- The text whose indices are evaluated shows the pieces, and their holes are known. -/
theorem Cut.resolved (hcut : Cut bindings calculator text pieces)
    (hnames : ∀ entry ∈ bindings.named, IsPlainName entry.1)
    (h : bindings.resolveSlots calculator position text = .ok (rewritten, slots)) :
    rewritten = shown pieces ∧
      (∀ found ∈ slots, bindings.positional[found.1]? = some found.2) ∧
      ∀ entry, .hole entry ∈ pieces →
        entry ∈ bindings.named ∨ ∃ found ∈ slots, entry = slotEntry found := by
  induction hcut generalizing position rewritten slots with
  | nil =>
    rw [resolveSlots] at h
    obtain ⟨rfl, rfl⟩ := Prod.mk.inj (Except.ok.inj h)
    exact ⟨rfl, by simp, by simp⟩
  | @slot inner after pieces index value n hbalanced _ hindex hvalue hbound _ ih =>
    obtain ⟨inner', after', found, more, others, hgroup, -, hfound, hmore, rfl, rfl⟩ :=
      resolveSlots_slot h
    rw [takeGroup_balanced hbalanced] at hgroup
    obtain ⟨rfl, rfl⟩ := Prod.mk.inj (Option.some.inj hgroup)
    -- the index has the value that it had when the piece was cut
    obtain ⟨index', hindex', hvalue', hbound'⟩ := slot_eq_ok hfound
    obtain rfl := Except.ok.inj (hindex.symm.trans hindex')
    have hn : n = found.1 := by
      rw [hvalue] at hvalue'
      exact_mod_cast hvalue'
    subst hn
    obtain rfl := Option.some.inj (hbound.symm.trans hbound')
    obtain ⟨rfl, hslots, hholes⟩ := ih hmore
    refine ⟨by simp [shown, mark, slotEntry], ?_, fun entry hentry => ?_⟩
    · simpa using ⟨hbound, by simpa using hslots⟩
    · obtain heq | hentry := List.mem_cons.1 hentry
      · exact .inr ⟨found, List.mem_cons_self, Piece.hole.inj heq⟩
      obtain hnamed | ⟨other, hother, heq⟩ := hholes entry hentry
      · exact .inl hnamed
      · exact .inr ⟨other, List.mem_cons_of_mem _ hother, heq⟩
  | @name entry after pieces hlongest _ ih =>
    have hplain := hnames entry hlongest.bound
    rw [resolveSlots_mark hplain.1 hplain.copied] at h
    obtain ⟨⟨more, others⟩, hmore, hpair⟩ := map_eq_ok.1 h
    obtain ⟨rfl, rfl⟩ := Prod.mk.inj hpair
    obtain ⟨rfl, hslots, hholes⟩ := ih hmore
    refine ⟨by simp [shown, mark], hslots, fun other hother => ?_⟩
    obtain heq | hother := List.mem_cons.1 hother
    · exact .inl (Piece.hole.inj heq ▸ hlongest.bound)
    · exact hholes other hother
  | char hc _ ih =>
    rw [resolveSlots_cons fun heq => (hc heq).1] at h
    obtain ⟨⟨more, others⟩, hmore, hpair⟩ := map_eq_ok.1 h
    obtain ⟨rfl, rfl⟩ := Prod.mk.inj hpair
    obtain ⟨rfl, hslots, hholes⟩ := ih hmore
    refine ⟨rfl, hslots, fun entry hentry => hholes entry (by simpa using hentry)⟩

/-! ## Nothing else is replaced -/

/-- A character that neither a placeholder nor a value begins with. -/
def BeginsNoHole (c : Char) : Prop := c ≠ '$' ∧ c ≠ '-' ∧ Decimal.isFigure c = false

theorem stage_begins (left : List (String × Decimal)) (entry : String × Decimal) :
    ∃ c rest, stage left entry = c :: rest ∧ ¬ BeginsNoHole c := by
  unfold stage
  split
  · exact ⟨'$', _, rfl, fun h => h.1 rfl⟩
  · obtain ⟨c, rest, hcons, hc, -⟩ := figures_toChars entry.2
    refine ⟨c, rest, hcons, fun ⟨_, hminus, hfigure⟩ => ?_⟩
    obtain rfl | hc := hc
    · exact hminus rfl
    · simp [hc] at hfigure

theorem eq_nil_of_prefix_hole (hu : ∀ c ∈ u, BeginsNoHole c)
    (h : u <+: halfway left (.hole entry :: pieces)) : u = [] := by
  obtain ⟨c, rest, hstage, hc⟩ := stage_begins left entry
  rw [halfway, write_hole, hstage, List.cons_append] at h
  obtain rfl | ⟨u, rfl, -⟩ := List.prefix_cons_iff.1 h
  · rfl
  · exact absurd (hu c List.mem_cons_self) hc

/-- What stands between two holes stood in the text. -/
theorem Cut.prefix_of_halfway (hcut : Cut bindings calculator text pieces)
    (hu : ∀ c ∈ u, BeginsNoHole c) (h : u <+: halfway left pieces) : u <+: text := by
  induction hcut generalizing u with
  | nil => exact h
  | slot | name => exact eq_nil_of_prefix_hole hu h ▸ List.nil_prefix
  | char _ _ ih =>
    obtain rfl | ⟨u, rfl, hrest⟩ := List.prefix_cons_iff.1 h
    · exact List.nil_prefix
    · exact List.cons_prefix_cons.2
        ⟨rfl, ih (fun c hc => hu c (List.mem_cons_of_mem _ hc)) hrest⟩

theorem IsPlainName.beginsNoHole {name : String} (h : IsPlainName name) :
    ∀ c ∈ name.toList, BeginsNoHole c := by
  intro c hc
  obtain ⟨hdollar, -, hdigit, hpoint, hminus⟩ := h.2 c hc
  exact ⟨hdollar, hminus, by simp [Decimal.isFigure, hdigit, hpoint]⟩

/-- A name of which the longest is taken wherever it is written. -/
theorem Cut.clear_name (hcut : Cut bindings calculator text pieces)
    (hentry : entry ∈ bindings.named) (hname : IsPlainName entry.1) :
    Clear entry.1.toList pieces := by
  induction hcut with
  | nil => trivial
  | @slot inner after pieces index value n _ _ _ _ _ _ ih =>
    refine ⟨fun left hprefix => ?_, ih⟩
    -- a slot begins with a parenthesis, and the name has none
    obtain ⟨c, name, hcons⟩ := exists_cons_of_name hname.1
    have hopen : c = '(' := by
      rw [hcons, slotEntry, String.toList_ofList, slotName, List.cons_append, List.cons_append,
        List.cons_prefix_cons] at hprefix
      exact hprefix.1
    exact absurd hopen (hname.2 c (by simp [hcons])).2.1
  | @name other after pieces hlongest hcut ih =>
    refine clear_hole ih fun more left hmore hprefix => ?_
    have hafter : more <+: after := hcut.prefix_of_halfway
      (fun c hc => hname.beginsNoHole c (hmore ▸ List.mem_append_right _ hc)) hprefix
    have hshort := hlongest.longest entry hentry
      (by rwa [hmore, List.prefix_append_right_inj])
    rw [hmore, List.length_append] at hshort
    exact List.eq_nil_of_length_eq_zero (by omega)
  | char hc hcut ih =>
    refine ⟨fun heq left hprefix => ?_, ih⟩
    exact (hc heq).2 entry hentry (hcut.prefix_of_halfway hname.beginsNoHole hprefix)

/-- Slots are written for slots only. -/
theorem Cut.clear_slot (hcut : Cut bindings calculator text pieces)
    (hnames : ∀ entry ∈ bindings.named, IsPlainName entry.1) (n : Nat) :
    Clear (slotName n) pieces := by
  have hopen (text : List Char) (h : slotName n <+: text) : ['('] <+: text := by
    refine List.IsPrefix.trans ?_ h
    simp [slotName]
  induction hcut with
  | nil => trivial
  | @slot inner after pieces index value m _ _ _ _ _ _ ih =>
    refine ⟨fun left hprefix => ?_, ih⟩
    have hslot : (slotEntry (m, value)).1.toList = slotName m := by simp [slotEntry]
    rw [hslot] at hprefix ⊢
    rw [eq_of_begins_slotName hprefix]
  | @name entry after pieces hlongest _ ih =>
    refine ⟨fun left hprefix => ?_, ih⟩
    have hname := hnames entry hlongest.bound
    obtain ⟨c, name, hcons⟩ := exists_cons_of_name hname.1
    have hc : '(' = c := by simpa [hcons] using hopen _ hprefix
    exact absurd hc.symm (hname.2 c (by simp [hcons])).2.1
  | char hc hcut ih =>
    refine ⟨fun heq left hprefix => (hc heq).1 ?_, ih⟩
    have hbegins : ∀ c ∈ ['('], BeginsNoHole c := by
      simp only [List.mem_singleton, forall_eq]
      exact ⟨by decide, by decide, by decide⟩
    obtain ⟨more, rfl⟩ := hcut.prefix_of_halfway hbegins (hopen _ hprefix)
    rfl

/-! ## Replacing is one pass -/

theorem filled_of_no_dollar (h : '$' ∉ shown pieces) : filled pieces = shown pieces := by
  refine write_congr fun entry hentry => absurd ?_ h
  exact List.mem_flatMap.2 ⟨_, hentry, by simp [mark]⟩

theorem resolveSlots_of_fillIn (h : bindings.fillIn calculator text = .ok out) :
    ∃ rewritten slots, bindings.resolveSlots calculator 0 text = .ok (rewritten, slots) := by
  by_cases hdollar : '$' ∈ text
  · rw [fillIn_eq hdollar] at h
    obtain ⟨⟨rewritten, slots⟩, hresolve, -⟩ := map_eq_ok.1 h
    exact ⟨rewritten, slots, hresolve⟩
  · exact ⟨text, [], resolveSlots_of_no_dollar hdollar⟩

/-- Whatever is written is what the pieces of a single pass are filled with. -/
theorem Cut.filled (hcut : Cut bindings calculator text pieces) (hdistinct : bindings.Distinct)
    (hnames : ∀ entry ∈ bindings.named, IsPlainName entry.1)
    (h : bindings.fillIn calculator text = .ok out) : filled pieces = out := by
  obtain ⟨rewritten, slots, hresolve⟩ := resolveSlots_of_fillIn h
  obtain ⟨rfl, hslots, hholes⟩ := hcut.resolved hnames hresolve
  by_cases hdollar : '$' ∈ text
  · rw [fillIn_eq hdollar, hresolve] at h
    obtain rfl := Except.ok.inj h
    have hunhidden : bindings.Unhidden := fun entry hentry hmem =>
      ((hnames entry hentry).2 _ hmem).2.1 rfl
    obtain ⟨hnoted, hknown⟩ := Noted.foldl ⟨hdistinct, fun _ => .inl⟩ hunhidden hslots
    -- no known name can be found anywhere but in the holes that are written for it
    have hprepared : Prepared (slots.foldl noteSlot bindings.named) pieces := by
      refine ⟨hnoted.distinct, fun entry hentry => ?_, fun entry hentry => ?_,
        fun entry hentry => ?_⟩
      · obtain hnamed | ⟨found, hfound, rfl⟩ := hholes entry hentry
        · exact mem_foldl_noteSlot hnamed
        · exact hknown found hfound
      · obtain hnamed | ⟨found, -, rfl⟩ := hholes entry hentry
        · exact fun hmem => ((hnames entry hnamed).2 _ hmem).1 rfl
        · simpa [slotEntry] using dollar_not_mem_slotName found.1
      · obtain hnamed | ⟨found, -, rfl⟩ := hnoted.origin entry hentry
        · exact hcut.clear_name hnamed (hnames entry hnamed)
        · simpa [slotEntry] using hcut.clear_slot hnames found.1
    exact hprepared.foldl_replaceAll.symm
  · rw [fillIn_of_no_dollar hdollar] at h
    rw [resolveSlots_of_no_dollar hdollar] at hresolve
    obtain ⟨htext, -⟩ := Prod.mk.inj (Except.ok.inj hresolve)
    rw [htext] at hdollar h
    exact (filled_of_no_dollar hdollar).trans (Except.ok.inj h)

/-- The positional values alone decide about the slots. -/
theorem resolveSlots_congr (h : other.positional = bindings.positional) :
    other.resolveSlots calculator position text =
      bindings.resolveSlots calculator position text := by
  have hslot : other.slot = bindings.slot := by
    unfold slot
    rw [h]
  fun_induction bindings.resolveSlots calculator position text with
  | case1 => rw [resolveSlots]
  | case2 position rest hgroup =>
    rw [resolveSlots]
    split <;> simp_all
  | case3 position rest inner after hgroup offset hfind =>
    rw [resolveSlots]
    split <;> simp_all
  | case4 position rest inner after hgroup hfind ih =>
    rw [resolveSlots]
    split
    · simp_all
    next inner' after' hgroup' =>
    obtain ⟨rfl, rfl⟩ := Prod.mk.inj (Option.some.inj (hgroup'.symm.trans hgroup))
    split
    · simp_all
    · rw [ih, hslot]
  | case5 position c rest hnot ih => rw [resolveSlots, ih]; exact hnot

/-- Bindings of the same names to the same values cut a text into the same pieces. -/
theorem Cut.congr (hcut : Cut bindings calculator text pieces)
    (hnamed : ∀ entry, entry ∈ other.named ↔ entry ∈ bindings.named)
    (hpositional : other.positional = bindings.positional) : Cut other calculator text pieces := by
  induction hcut with
  | nil => exact .nil
  | slot hbalanced hplain hindex hvalue hbound _ ih =>
    exact .slot hbalanced hplain hindex hvalue (hpositional ▸ hbound) ih
  | name hlongest _ ih =>
    exact .name ⟨(hnamed _).2 hlongest.bound, hlongest.begins,
      fun entry hentry => hlongest.longest entry ((hnamed entry).1 hentry)⟩ ih
  | char hc _ ih =>
    exact .char (fun heq => ⟨(hc heq).1, fun entry hentry =>
      (hc heq).2 entry ((hnamed entry).1 hentry)⟩) ih

theorem fillIn_of_resolveSlots
    (h : bindings.resolveSlots calculator 0 text = .ok (rewritten, slots)) :
    ∃ out, bindings.fillIn calculator text = .ok out := by
  by_cases hdollar : '$' ∈ text
  · rw [fillIn_eq hdollar, h]
    exact ⟨_, rfl⟩
  · exact ⟨text, fillIn_of_no_dollar hdollar⟩

/-- Where the names can be told from values and slots, replacing them one after the other is one
pass over the text that fills each slot and takes the longest name at each other placeholder. It
does not matter in which order the names were bound. -/
theorem fillIn_eq_single_pass (bindings : Bindings) (calculator : Calculator)
    (text out : List Char) (hdistinct : bindings.Distinct)
    (hnames : ∀ entry ∈ bindings.named, IsPlainName entry.1)
    (h : bindings.fillIn calculator text = .ok out) :
    (∃ pieces, Cut bindings calculator text pieces) ∧
      (∀ pieces, Cut bindings calculator text pieces → filled pieces = out) ∧
      ∀ other : Bindings, other.Distinct →
        (∀ entry, entry ∈ other.named ↔ entry ∈ bindings.named) →
        other.positional = bindings.positional → other.fillIn calculator text = .ok out := by
  obtain ⟨rewritten, slots, hresolve⟩ := resolveSlots_of_fillIn h
  obtain ⟨pieces, hcut⟩ := exists_cut hnames hresolve
  have hfilled {pieces} (hcut : Cut bindings calculator text pieces) : filled pieces = out :=
    hcut.filled hdistinct hnames h
  refine ⟨⟨pieces, hcut⟩, fun _ => hfilled, fun other hother hnamed hpositional => ?_⟩
  rw [← resolveSlots_congr hpositional] at hresolve
  obtain ⟨out', hout'⟩ := fillIn_of_resolveSlots hresolve
  have hfilled' := (hcut.congr hnamed hpositional).filled hother
    (fun entry hentry => hnames entry ((hnamed entry).1 hentry)) hout'
  rw [hout', ← hfilled', hfilled hcut]

/-- One name begins the other, and neither of them is bound behind the last `$`. -/
theorem fillIn_eq_single_pass_overlapping :
    let calculator : Calculator := ⟨⟨10, .halfUp, by decide⟩, 4⟩
    let bindings : Bindings := ⟨[("x", 2), ("xy", -3)], [10, 20]⟩
    let text := "$x^$xyz+$(2-1)$q".toList
    let out := "2^-3z+20$q".toList
    bindings.Distinct ∧ (∀ entry ∈ bindings.named, IsPlainName entry.1) ∧
      bindings.fillIn calculator text = .ok out ∧
      (∃ pieces, Cut bindings calculator text pieces) ∧
      (∀ pieces, Cut bindings calculator text pieces → filled pieces = out) ∧
      ∀ other : Bindings, other.Distinct →
        (∀ entry, entry ∈ other.named ↔ entry ∈ bindings.named) →
        other.positional = bindings.positional → other.fillIn calculator text = .ok out := by
  intro calculator bindings text out
  have hdistinct : bindings.Distinct := by
    unfold Distinct
    decide
  have hnames : ∀ entry ∈ bindings.named, IsPlainName entry.1 := by
    simp [bindings, IsPlainName]
  have hresolve : bindings.resolveSlots calculator 0 text =
      .ok ("$x^$xyz+$(1)$q".toList, [(1, 20)]) := by decide +kernel
  have hsorted : [("x", (2 : Decimal)), ("xy", -3), ("(1)", 20)].mergeSort replacedBefore =
      [("(1)", 20), ("xy", -3), ("x", 2)] := by
    have hname (v w : Decimal) : replacedBefore ("x", v) ("xy", w) = false := rfl
    have hslot (v w : Decimal) : replacedBefore ("xy", v) ("(1)", w) = false := rfl
    simp [List.mergeSort, hname, hslot]
  have h : bindings.fillIn calculator text = .ok out := by
    have hknown : [(1, (20 : Decimal))].foldl noteSlot bindings.named =
        [("x", 2), ("xy", -3), ("(1)", 20)] := by decide +kernel
    rw [fillIn_eq (by decide), hresolve, Except.map, hknown, hsorted]
    decide +kernel
  exact ⟨hdistinct, hnames, h,
    fillIn_eq_single_pass bindings calculator text out hdistinct hnames h⟩

end Reckoner.Bindings
