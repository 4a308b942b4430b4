import Reckoner.Numeral.Reading
import Reckoner.Numeral.Short
import Reckoner.Numeral.Spelling
import Reckoner.Proofs.Numeral.Steps

/-!
# Histories of calls

A converter answers a conversion as it would with an empty store, whatever calls came before. Taking
names apart does depend on the store, but only for the first power and for names beyond the words,
and a conversion tells neither from what it would find anyway.
-/

namespace Reckoner.Numeral

/-! ## Calls -/

/-- A call on a converter or on its store of names. -/
inductive Call where
  | spell (x : Decimal)
  | read (text : List Char)
  | spellShort (x : Decimal) (places digits : Nat)
  | nameOfPower (exponent : Int)
  | nameOf (index : Nat)
  | indexOf (name : List Char)

inductive Answer where
  | text (result : Except ConversionError String)
  | number (result : Except ConversionError Decimal)
  | name (name : String)
  | index (index : Option Nat)

def Call.respond : Call → Naming Answer
  | .spell x => Answer.text <$> (Numeral.spell x).run
  | .read text => Answer.number <$> (Numeral.read text).run
  | .spellShort x places digits => Answer.text <$> (Numeral.spellShort x places digits).run
  | .nameOfPower exponent => Answer.text <$> (Numeral.nameOfPower exponent).run
  | .nameOf index => Answer.name <$> Numeral.nameOf index
  | .indexOf name => Answer.index <$> Numeral.indexOf? name

/-- Whether a call converts; the others ask the store itself. -/
def Call.converts : Call → Bool
  | .spell _ | .read _ | .spellShort .. | .nameOfPower _ => true
  | .nameOf _ | .indexOf _ => false

/-- The answers to calls one after another, and the store that they leave. -/
def respondAll : List Call → Naming (List Answer)
  | [] => return []
  | call :: calls => do
    let answer ← call.respond
    return answer :: (← respondAll calls)

/-! ## Computations that forget -/

variable {α β : Type}

/-- A computation that comes to the same with every store that can come about. -/
def Steady (p : Naming α) : Prop := ∃ a, Gives p a

theorem steady_pure (a : α) : Steady (pure a) := ⟨a, gives_pure a⟩

theorem Steady.bind {p : Naming α} {f : α → Naming β} (hp : Steady p) (hf : ∀ a, Steady (f a)) :
    Steady (p >>= f) := by
  obtain ⟨a, ha⟩ := hp
  obtain ⟨b, hb⟩ := hf a
  exact ⟨b, ha.bind hb⟩

theorem Steady.map {p : Naming α} (f : α → β) (hp : Steady p) : Steady (f <$> p) := by
  rw [map_eq_bind_pure_comp]
  exact hp.bind fun a => steady_pure (f a)

theorem Steady.reached {p : Naming α} (hp : Steady p) {known : Names} (h : known.Reached) :
    (p known).1 = (p Names.empty).1 ∧ (p known).2.Reached := by
  obtain ⟨a, ha⟩ := hp
  obtain ⟨_, hrun, h'⟩ := ha known h
  obtain ⟨_, hempty, -⟩ := ha Names.empty .empty
  rw [hrun, hempty]
  exact ⟨rfl, h'⟩

theorem steady_nameOf (index : Nat) : Steady (nameOf index) := ⟨_, gives_nameOf index⟩

/-! ## Conversions that forget -/

def Forgets (p : Conversion α) : Prop := Steady p.run

theorem forgets_pure (a : α) : Forgets (pure a) := steady_pure _

theorem forgets_throw (error : ConversionError) : Forgets (throw error : Conversion α) :=
  steady_pure _

theorem forgets_lift (result : Except ConversionError α) :
    Forgets (liftM result : Conversion α) := steady_pure _

theorem Forgets.bind {p : Conversion α} {f : α → Conversion β} (hp : Forgets p)
    (hf : ∀ a, Forgets (f a)) : Forgets (p >>= f) := by
  rw [Forgets, ExceptT.run_bind]
  refine Steady.bind hp fun result => ?_
  cases result with
  | ok a => exact hf a
  | error e => exact steady_pure _

theorem Steady.lift {p : Naming α} (hp : Steady p) : Forgets (liftM p : Conversion α) :=
  hp.map Except.ok

theorem forgets_nameOfPower (exponent : Int) : Forgets (nameOfPower exponent) := by
  unfold nameOfPower
  split
  · exact forgets_throw _
  · exact (steady_nameOf _).lift

/-! ## Reading -/

theorem name_of_indexOf? {known : Names} (h : known.Reached) {name : List Char} {index : Nat}
    (hindex : (indexOf? name known).1 = some index) :
    Text.lower name = Text.lower (powerName index).toList := by
  rw [indexOf?_apply] at hindex
  split at hindex
  · next found hfound =>
    obtain rfl : found = index := by simpa using hindex
    rw [← h.sound.indices _ _ hfound, String.toList_ofList]
  · split at hindex
    · simp at hindex
    · next found hfound =>
      obtain rfl : found = index := by simpa using hindex
      rw [readPowerName?_eq_some hfound, lower_lower]

/-- The store may know the first power, which the vocabulary has as well, and powers beyond the
words, whose exponents are none. -/
theorem steady_exponentOf? (word : List Char) : Steady (exponentOf? word) := by
  by_cases hnamed : ∃ index : Nat, Word.Fits ((index + 1) * 3) ∧
      Text.lower word = Text.lower (powerName index).toList
  · obtain ⟨index, hfits, hword⟩ := hnamed
    exact ⟨_, gives_exponentOf? hfits hword⟩
  unfold exponentOf?
  split
  · exact steady_pure _
  refine ⟨none, fun known h => ⟨(indexOf? word known).2, ?_, h.indexed word⟩⟩
  have hnone : ((indexOf? word known).1.bind fun index =>
      if Word.Fits ((index + 1) * 3) then some (((index : Int) + 1) * 3) else none) = none := by
    refine Option.bind_eq_none_iff.2 fun index hindex => if_neg fun hfits => ?_
    exact hnamed ⟨index, hfits, name_of_indexOf? h hindex⟩
  exact congrArg (·, (indexOf? word known).2) hnone

theorem forgets_readWord (total : Decimal) (count : Nat) (word : List Char) :
    Forgets (readWord total count word) := by
  unfold readWord
  split
  · split
    · exact (forgets_throw _).bind fun _ => forgets_pure _
    · exact forgets_pure _
  refine (steady_exponentOf? word).lift.bind fun exponent => ?_
  cases exponent with
  | some exponent =>
    dsimp only
    split
    · exact (forgets_throw _).bind fun _ => forgets_pure _
    · exact forgets_pure _
  | none =>
    dsimp only
    split
    · exact forgets_pure _
    · split
      · exact (forgets_throw _).bind fun _ => forgets_throw _
      · exact forgets_throw _

theorem forgets_readWords (total : Decimal) (count : Nat) (words : List (List Char)) :
    Forgets (readWords total count words) := by
  induction words generalizing total count with
  | nil => exact forgets_pure _
  | cons word rest ih =>
    exact (forgets_readWord total count word).bind fun (total, count) => ih total count

theorem forgets_readWhole (words : List (List Char)) : Forgets (readWhole words) := by
  unfold readWhole
  split
  · exact forgets_throw _
  · split
    · exact forgets_pure _
    · exact forgets_readWords _ _ _
  · exact forgets_readWords _ _ _

theorem Forgets.ite {condition : Prop} [Decidable condition] {p q : Conversion α}
    (hp : Forgets p) (hq : Forgets q) : Forgets (if condition then p else q) := by
  split
  · exact hp
  · exact hq

theorem forgets_placesOf (word : List Char) : Forgets (placesOf word) := by
  unfold placesOf
  dsimp only
  split
  · exact forgets_throw _
  next base _ =>
  split
  on_goal 2 => split
  -- whatever was cut off in front
  all_goals
    refine .ite (forgets_pure _) (.ite (forgets_pure _) ?_)
    refine (steady_exponentOf? _).lift.bind fun places => ?_
    cases places
    · exact forgets_throw _
    · exact forgets_pure _

theorem forgets_readFraction (whole : Decimal) (tokens : List Token) :
    Forgets (readFraction whole tokens) := by
  refine (forgets_lift _).bind fun words => ?_
  split
  · exact forgets_throw _
  · exact (forgets_placesOf _).bind fun _ => (forgets_readWhole _).bind fun _ => forgets_pure _

theorem forgets_read (text : List Char) : Forgets (read text) := by
  unfold read
  split
  · exact forgets_throw _
  next tokens _ =>
  dsimp only
  split
  all_goals
    refine (forgets_lift _).bind fun words => (forgets_readWhole words).bind fun whole => ?_
    split
    · exact forgets_pure _
    · exact (forgets_readFraction _ _).bind fun _ => forgets_pure _

/-! ## Spelling -/

theorem forgets_groupWords (limit : Nat) (rest : Decimal) : Forgets (groupWords limit rest) := by
  induction limit generalizing rest with
  | zero => exact forgets_pure _
  | succ limit ih =>
    rw [groupWords]
    split
    · exact (forgets_lift _).bind fun _ => (forgets_nameOfPower _).bind fun _ =>
        (ih _).bind fun _ => forgets_pure _
    · split
      · exact forgets_pure _
      · exact (forgets_lift _).bind fun _ => forgets_pure _

theorem forgets_wholeWords (n : Decimal) : Forgets (wholeWords n) := by
  unfold wholeWords
  split
  · exact forgets_pure _
  · exact forgets_groupWords _ _

theorem forgets_nameOfPlace (places : Int) : Forgets (nameOfPlace places) := by
  unfold nameOfPlace
  split_ifs
  all_goals first
    | exact forgets_pure _
    | exact (forgets_nameOfPower _).bind fun _ => forgets_pure _

theorem forgets_wordsOf (x : Decimal) : Forgets (wordsOf x) := by
  unfold wordsOf
  dsimp only
  split
  · exact forgets_pure _
  refine (forgets_wholeWords _).bind fun _ => ?_
  split
  · exact forgets_pure _
  · exact (forgets_wholeWords _).bind fun _ => (forgets_nameOfPlace _).bind fun _ =>
      forgets_pure _

theorem forgets_spell (x : Decimal) : Forgets (spell x) :=
  (forgets_wordsOf x).bind fun _ => forgets_pure _

theorem forgets_spellShort (x : Decimal) (places digits : Nat) :
    Forgets (spellShort x places digits) := by
  refine (forgets_lift _).bind fun (numeral, exponent) => ?_
  dsimp only
  split
  · exact forgets_pure _
  · exact (forgets_nameOfPower _).bind fun _ => forgets_pure _

/-! ## Histories -/

variable {known : Names}

theorem Call.steady {call : Call} (h : call.converts) : Steady call.respond := by
  cases call with
  | spell x => exact (forgets_spell x).map _
  | read text => exact (forgets_read text).map _
  | spellShort x places digits => exact (forgets_spellShort x places digits).map _
  | nameOfPower exponent => exact (forgets_nameOfPower exponent).map _
  | nameOf | indexOf => simp [converts] at h

/-- Every call leaves a store that can come about. -/
theorem Call.reached (call : Call) (h : known.Reached) : (call.respond known).2.Reached := by
  by_cases hconverts : call.converts
  · exact ((Call.steady hconverts).reached h).2
  · cases call with
    | nameOf index => exact h.named index
    | indexOf name => exact h.indexed name
    | _ => exact absurd rfl hconverts

theorem respondAll_cons (call : Call) (calls : List Call) (known : Names) :
    (respondAll (call :: calls) known).1 =
      (call.respond known).1 :: (respondAll calls (call.respond known).2).1 := rfl

theorem respondAll_getElem? {calls : List Call} {i : Nat} {call : Call}
    (hcall : calls[i]? = some call) (hconverts : call.converts) (h : known.Reached) :
    (respondAll calls known).1[i]? = some (call.respond Names.empty).1 := by
  induction calls generalizing i known with
  | nil => simp at hcall
  | cons first calls ih =>
    rw [respondAll_cons]
    cases i with
    | zero =>
      obtain rfl : first = call := by simpa using hcall
      exact congrArg some ((Call.steady hconverts).reached h).1
    | succ i => exact ih hcall (first.reached h)

/-- In any history of calls on one converter, each conversion is answered, with a value or with an
error, as it is answered by a converter whose store is empty. -/
theorem conversion_answered_afresh (calls : List Call) (i : Nat) (call : Call)
    (hcall : calls[i]? = some call) (hconverts : call.converts) :
    ((respondAll calls).run Names.empty).1[i]? = some (call.respond.run Names.empty).1 :=
  respondAll_getElem? hcall hconverts .empty

/-- A name that taking apart alone does not find, remembered before it is read. -/
theorem conversion_answered_afresh_thousand :
    let calls : List Call := [.nameOf 0, .indexOf "thousand".toList, .read "Two THOUSAND".toList]
    let call : Call := .read "Two THOUSAND".toList
    calls[2]? = some call ∧ call.converts ∧
      ((respondAll calls).run Names.empty).1[2]? = some (call.respond.run Names.empty).1 := by
  intro calls call
  have hcall : calls[2]? = some call := rfl
  exact ⟨hcall, rfl, conversion_answered_afresh calls 2 call hcall rfl⟩

end Reckoner.Numeral
