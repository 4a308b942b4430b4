import Reckoner.Numeral.Conversion
import Reckoner.Proofs.Numeral.PowerNames

/-!
# Remembered names

However many names have been given out or taken apart before, what is remembered is what would be
made up again. So a conversion gives the same with any store of names that can come about.
-/

namespace Reckoner.Numeral

/-! ## Stores -/

/-- Every name in a store is that of its index, in both directions. -/
structure Names.Sound (known : Names) : Prop where
  names (index : Nat) (name : String) : known.names[index]? = some name → name = powerName index
  indices (key : String) (index : Nat) : known.indices[key]? = some index →
    key.toList = Text.lower (powerName index).toList

/-- The stores that come about by giving out names and taking names apart. -/
inductive Names.Reached : Names → Prop where
  | empty : Names.Reached Names.empty
  | named {known : Names} (index : Nat) :
    Names.Reached known → Names.Reached ((nameOf index).run known).2
  | indexed {known : Names} (name : List Char) :
    Names.Reached known → Names.Reached ((indexOf? name).run known).2

variable {known : Names}

theorem Names.sound_empty : Names.empty.Sound := by
  constructor <;> intro _ _ h <;> simp [Names.empty] at h

theorem Names.Sound.remember (h : known.Sound) {index : Nat} {key : String}
    (hkey : key.toList = Text.lower (powerName index).toList) :
    (known.remember index (powerName index) key).Sound := by
  constructor
  · intro i name hname
    rw [Names.remember, Std.HashMap.getElem?_insertIfNew] at hname
    split at hname
    · next hnew =>
      obtain rfl : index = i := by simpa using hnew.1
      simpa using hname.symm
    · exact h.names i name hname
  · intro other i hi
    rw [Names.remember, Std.HashMap.getElem?_insertIfNew] at hi
    split at hi
    · next hnew =>
      obtain rfl : key = other := by simpa using hnew.1
      obtain rfl : index = i := by simpa using hi
      exact hkey
    · exact h.indices other i hi

/-! ## Names and indices -/

theorem nameOf_apply (index : Nat) : nameOf index known =
    match known.names[index]? with
    | some name => (name, known)
    | none => (powerName index,
        known.remember index (powerName index) (lowerText (powerName index))) := by
  cases h : known.names[index]? <;>
    simp [nameOf, h, bind, StateT.bind, get, getThe, MonadStateOf.get, StateT.get, pure,
      StateT.pure, set, StateT.set]

theorem indexOf?_apply (name : List Char) : indexOf? name known =
    match known.indices[String.ofList (Text.lower name)]? with
    | some index => (some index, known)
    | none =>
      match readPowerName? (Text.lower name) with
      | none => (none, known)
      | some index => (some index,
          known.remember index (powerName index) (String.ofList (Text.lower name))) := by
  cases h : known.indices[String.ofList (Text.lower name)]? <;>
    cases h' : readPowerName? (Text.lower name) <;>
    simp [indexOf?, h, h', bind, StateT.bind, get, getThe, MonadStateOf.get, StateT.get, pure,
      StateT.pure, set, StateT.set]

/-- However many names were given out or taken apart, the store is sound. -/
theorem Names.Reached.sound (h : known.Reached) : known.Sound := by
  induction h with
  | empty => exact Names.sound_empty
  | @named known index _ ih =>
    change (nameOf index known).2.Sound
    rw [nameOf_apply]
    split
    · exact ih
    · exact ih.remember (by simp [lowerText])
  | @indexed known name _ ih =>
    change (indexOf? name known).2.Sound
    rw [indexOf?_apply]
    split
    · exact ih
    · split
      · exact ih
      · next found hfound =>
        refine ih.remember ?_
        rw [String.toList_ofList, readPowerName?_eq_some hfound, lower_lower]

/-! ## What a computation gives -/

variable {α β : Type}

/-- A computation gives the same with every store that can come about, and leaves such a store. -/
def Gives (p : Naming α) (a : α) : Prop :=
  ∀ known : Names, known.Reached → ∃ known' : Names, p known = (a, known') ∧ known'.Reached

theorem gives_pure (a : α) : Gives (pure a) a := fun known h => ⟨known, rfl, h⟩

theorem Gives.bind {p : Naming α} {f : α → Naming β} {a : α} {b : β} (hp : Gives p a)
    (hf : Gives (f a) b) : Gives (p >>= f) b := by
  intro known h
  obtain ⟨known', hrun, h'⟩ := hp known h
  obtain ⟨known'', hrun', h''⟩ := hf known' h'
  refine ⟨known'', ?_, h''⟩
  change (p known >>= fun (a, known) => f a known) = _
  rw [hrun]
  exact hrun'

/-- A computation gives one thing. -/
theorem Gives.unique {p : Naming α} {a b : α} (ha : Gives p a) (hb : Gives p b) : a = b := by
  obtain ⟨_, hrun, -⟩ := ha Names.empty .empty
  obtain ⟨_, hrun', -⟩ := hb Names.empty .empty
  exact congrArg Prod.fst (hrun.symm.trans hrun')

theorem gives_nameOf (index : Nat) : Gives (nameOf index) (powerName index) := by
  intro known h
  refine ⟨(nameOf index known).2, ?_, h.named index⟩
  rw [nameOf_apply]
  split
  · next name hname => rw [h.sound.names index name hname]
  · rfl

theorem gives_indexOf? {index : Nat} {name : List Char} (hpos : index ≠ 0)
    (hindex : index < Word.count) (hname : Text.lower name = Text.lower (powerName index).toList) :
    Gives (indexOf? name) (some index) := by
  intro known h
  refine ⟨(indexOf? name known).2, ?_, h.indexed name⟩
  rw [indexOf?_apply]
  split
  · next found hfound =>
    have hkey := h.sound.indices _ _ hfound
    rw [String.toList_ofList, hname] at hkey
    rw [powerName_injective hkey]
  · rw [readPowerName?_of_lower hpos hindex (by rw [lower_lower, hname])]

theorem gives_indexOf?_none {name : List Char}
    (hname : ∀ index, Text.lower (powerName index).toList ≠ Text.lower name) :
    Gives (indexOf? name) none := by
  intro known h
  refine ⟨(indexOf? name known).2, ?_, h.indexed name⟩
  rw [indexOf?_apply]
  split
  · next found hfound =>
    exact absurd (by rw [← h.sound.indices _ _ hfound, String.toList_ofList]) (hname found)
  · split
    · rfl
    · next found hfound =>
      rw [← lower_lower] at hname
      exact absurd (readPowerName?_eq_some hfound) (hname found)

/-! ## What a conversion yields -/

/-- A conversion succeeds with the same value for every store that can come about. -/
def Yields (p : Conversion α) (a : α) : Prop := Gives p.run (.ok a)

theorem yields_pure (a : α) : Yields (pure a) a := gives_pure _

theorem Yields.bind {p : Conversion α} {f : α → Conversion β} {a : α} {b : β} (hp : Yields p a)
    (hf : Yields (f a) b) : Yields (p >>= f) b := by
  rw [Yields, ExceptT.run_bind]
  exact Gives.bind hp hf

theorem Yields.map {p : Conversion α} {a : α} (f : α → β) (h : Yields p a) :
    Yields (f <$> p) (f a) := by
  rw [map_eq_bind_pure_comp]
  exact h.bind (yields_pure (f a))

theorem Gives.lift {p : Naming α} {a : α} (hp : Gives p a) :
    Yields (liftM p : Conversion α) a := by
  intro known h
  obtain ⟨known', hrun, h'⟩ := hp known h
  refine ⟨known', ?_, h'⟩
  change (p known >>= fun (a, known) => pure (Except.ok a, known)) = _
  rw [hrun]
  rfl

theorem yields_ok {a : α} : Yields (liftM (Except.ok a : Except ConversionError α)) a :=
  gives_pure _

end Reckoner.Numeral
