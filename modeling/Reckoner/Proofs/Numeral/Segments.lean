import Mathlib.Tactic
import Reckoner.Numeral.PowerName

/-!
# Segments of Latin names

Segments are made of small letters, hold no `l` before their end, and are different for different
digits. The last is checked on fingerprints: the thousand segments are put together from letters
that are looked up once, and a bit is set for each.
-/

namespace Reckoner.Numeral

/-! ## Letters -/

/-- A text of small letters without `l`. -/
def Plain (text : List Char) : Prop := ∀ c ∈ text, c.isLower ∧ c ≠ 'l'

instance (text : List Char) : Decidable (Plain text) := List.decidableBAll _ text

theorem Plain.append {a b : List Char} (ha : Plain a) (hb : Plain b) : Plain (a ++ b) := by
  intro c hc
  obtain hc | hc := List.mem_append.1 hc
  · exact ha c hc
  · exact hb c hc

theorem Plain.getD {α : Type} {text : α → List Char} {table : List α} {default : α}
    (h : ∀ entry ∈ default :: table, Plain (text entry)) (i : Nat) :
    Plain (text (table.getD i default)) := by
  refine h _ ?_
  rw [List.getD_eq_getElem?_getD]
  cases hget : table[i]? with
  | none => exact List.mem_cons_self
  | some entry => exact List.mem_cons_of_mem _ (List.mem_of_getElem? hget)

theorem plain_euphony {unit : String} (h : Plain unit.toList) (following : List Marker) :
    Plain (euphony unit following).toList := by
  have hrules : ∀ rule ∈ euphonyRules, Plain rule.replacement.toList := by decide
  unfold euphony
  split
  · next rule hrule => exact hrules rule (List.mem_of_find?_eq_some hrule)
  · exact h

theorem plain_segmentStem (group : Nat) : Plain (segmentStem group) := by
  have hunits : ∀ unit ∈ "" :: units, Plain unit.toList := by decide
  have htens : ∀ fragment ∈ ⟨"", []⟩ :: tens, Plain fragment.text.toList := by decide
  have hhundreds : ∀ fragment ∈ ⟨"", []⟩ :: hundreds, Plain fragment.text.toList := by decide
  have hstems : ∀ stem ∈ "" :: aloneStems, Plain stem.toList := by decide
  unfold segmentStem
  split
  · exact Plain.getD hstems group
  · have hunit := plain_euphony (Plain.getD hunits (group % 10))
    exact ((hunit _).append (Plain.getD htens _)).append (Plain.getD hhundreds _)

/-- The stem of a segment, without the vowel that gives way. -/
def trimmedStem (stem : List Char) : List Char :=
  if stem.getLast?.any isVowel then stem.dropLast else stem

theorem segment_eq (group : Nat) :
    segment group = trimmedStem (segmentStem (group % 1000)) ++ segmentEnd := rfl

theorem plain_trimmedStem (group : Nat) : Plain (trimmedStem (segmentStem group)) := by
  unfold trimmedStem
  split
  · exact fun c hc => plain_segmentStem group c (List.dropLast_subset _ hc)
  · exact plain_segmentStem group

/-! ## Fingerprints -/

/-- The units as they sound in front of each fragment of a table. -/
def spoken (following : List Fragment) : List (List (List Char)) :=
  units.map fun unit => following.map fun fragment => (euphony unit fragment.markers).toList

def lettersOf (fragments : List Fragment) : List (List Char) := fragments.map (·.text.toList)

/-- The stem of a segment, put together from tables of letters. -/
def stemLetters (group : Nat) : List Char :=
  if group < 10 then (aloneStems.map String.toList).getD group []
  else
    let unit := group % 10
    let ten := group / 10 % 10
    let hundred := group / 100
    (if ten = 0 then ((spoken hundreds).getD unit []).getD hundred []
      else ((spoken tens).getD unit []).getD ten []) ++
      (lettersOf tens).getD ten [] ++ (lettersOf hundreds).getD hundred []

theorem spoken_getD {following : List Fragment} {i j : Nat} (hi : i < units.length)
    (hj : j < following.length) :
    ((spoken following).getD i []).getD j [] =
      (euphony (units.getD i "") (following.getD j ⟨"", []⟩).markers).toList := by
  simp [spoken, List.getD_eq_getElem?_getD, hi, hj]

theorem lettersOf_getD {fragments : List Fragment} {i : Nat} (hi : i < fragments.length) :
    (lettersOf fragments).getD i [] = (fragments.getD i ⟨"", []⟩).text.toList := by
  simp [lettersOf, List.getD_eq_getElem?_getD, hi]

theorem segmentStem_eq_stemLetters {group : Nat} (h : group < 1000) :
    segmentStem group = stemLetters group := by
  have hten : ∀ i < 10, (tens.getD i ⟨"", []⟩).text.isEmpty = decide (i = 0) := by decide
  have hunit : group % 10 < units.length := Nat.mod_lt _ (by decide)
  have hten' : group / 10 % 10 < tens.length := Nat.mod_lt _ (by decide)
  have hhundred : group / 100 < hundreds.length := by
    change group / 100 < 10
    omega
  unfold segmentStem stemLetters
  split
  · next hsmall =>
    have hgroup : group < aloneStems.length := hsmall
    simp [List.getD_eq_getElem?_getD, hgroup]
  · simp only [lettersOf_getD hten', lettersOf_getD hhundred, spoken_getD hunit hten',
      spoken_getD hunit hhundred, hten _ (Nat.mod_lt _ (by decide)), decide_eq_true_eq]
    split <;> rfl

/-- A small number made from a text. -/
def fingerprint (text : List Char) : Nat := text.foldl (fun n c => n * 31 + c.toNat) 0 % 49967

/-- Sets a bit for each number, unless it is set already. -/
def setsBits (bits : Nat) : List Nat → Bool
  | [] => true
  | n :: rest => !bits.testBit n && setsBits (bits ||| 1 <<< n) rest

theorem nodup_of_setsBits {bits : Nat} {numbers : List Nat} (h : setsBits bits numbers) :
    numbers.Nodup ∧ ∀ n ∈ numbers, bits.testBit n = false := by
  induction numbers generalizing bits with
  | nil => simp
  | cons n rest ih =>
    simp only [setsBits, Bool.and_eq_true, Bool.not_eq_true'] at h
    obtain ⟨hn, hrest⟩ := h
    obtain ⟨hnodup, hunset⟩ := ih hrest
    refine ⟨List.nodup_cons.2 ⟨fun hmem => ?_, hnodup⟩, ?_⟩
    · simpa using hunset n hmem
    · intro m hm
      obtain rfl | hm := List.mem_cons.1 hm
      · exact hn
      · simpa using (by simpa using hunset m hm : _ ∧ _).1

/-- Segments of different digits are different. -/
theorem segment_injective {a b : Nat} (ha : a < 1000) (hb : b < 1000)
    (h : segment a = segment b) : a = b := by
  have hbits : setsBits 0
      ((List.range 1000).map fun group => fingerprint (trimmedStem (stemLetters group))) := by
    decide +kernel
  have hinjective := List.inj_on_of_nodup_map (nodup_of_setsBits hbits).1
  rw [segment_eq, segment_eq, List.append_left_inj, Nat.mod_eq_of_lt ha, Nat.mod_eq_of_lt hb,
    segmentStem_eq_stemLetters ha, segmentStem_eq_stemLetters hb] at h
  exact hinjective (List.mem_range.2 ha) (List.mem_range.2 hb) (congrArg fingerprint h)

end Reckoner.Numeral
