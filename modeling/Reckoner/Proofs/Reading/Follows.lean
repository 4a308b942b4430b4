import Reckoner.Proofs.Reading.Runs

/-!
# Readings that follow others

One reading follows another if it succeeds wherever the other does and stops at the same place,
even from a state with more levels left or one that skips. Values have to agree only as long as
the second reading does not skip what the first computes. Along the way the first reading is
tame: it skips afterwards as it did before, gets no lost level back, loses none where it
succeeds, and raises no arithmetic error while it skips.
-/

namespace Reckoner

variable {α β γ δ : Type}

/-- The same place with other levels lost, and skipping if asked to. -/
def State.eased (state : State) (lost : Nat) (skips : Bool) : State :=
  { state with lost, skipping := state.skipping || skips }

theorem State.eased_self (state : State) : state.eased state.lost false = state := by
  simp [State.eased]

/-- Equal, unless one of the two was skipped. -/
def Alike (skips : Bool) (v w : α) : Prop := skips = false → v = w

theorem Alike.refl {skips : Bool} (v : α) : Alike skips v v := fun _ => rfl

/-- What a run that failed keeps of the state it started from. -/
structure KeptByFailure (start : State) (error : EvalError) (last : State) : Prop where
  skipping : last.skipping = start.skipping
  lost : start.lost ≤ last.lost
  quiet : start.skipping = true → ∀ e, error ≠ .arithmetic e

theorem KeptByFailure.trans {start mid last : State} {error : EvalError}
    (h : KeptByFailure mid error last) (hskipping : mid.skipping = start.skipping)
    (hlost : start.lost ≤ mid.lost) : KeptByFailure start error last where
  skipping := h.skipping.trans hskipping
  lost := hlost.trans h.lost
  quiet hskip := h.quiet (hskipping.trans hskip)

/-- What the outcome of a run from `start` says about that of an eased run. -/
def Outcome.Tracks (start : State) (lost : Nat) (skips : Bool) (R : α → β → Prop)
    (outcome : Outcome α) (eased : Outcome β) : Prop :=
  match outcome with
  | .done value last =>
    last.skipping = start.skipping ∧ last.lost = start.lost ∧
      ∃ value', R value value' ∧ eased = .done value' (last.eased lost skips)
  | .failed error last => KeptByFailure start error last

namespace Reading

/-- Where `p` succeeds, `q` succeeds with `more` levels above it and up to as many more lost. -/
def Follows (more : Nat) (skips : Bool) (R : α → β → Prop) (p : Reading α) (q : Reading β) :
    Prop :=
  ∀ settings state lost, lost ≤ state.lost + more →
    (p settings state).Tracks state lost skips R (q settings (state.eased lost skips))

variable {more lost : Nat} {skips : Bool} {R : α → β → Prop} {S : γ → δ → Prop}
  {p : Reading α} {q : Reading β} {settings : Settings} {state last : State}

theorem Follows.done {value : α} (h : Follows more skips R p q) (hlost : lost ≤ state.lost + more)
    (hrun : p settings state = .done value last) :
    last.skipping = state.skipping ∧ last.lost = state.lost ∧ ∃ value', R value value' ∧
      q settings (state.eased lost skips) = .done value' (last.eased lost skips) := by
  have ht := h settings state lost hlost
  rwa [hrun] at ht

theorem Follows.doneFromSame {value : α} (h : Follows more false R p q)
    (hrun : p settings state = .done value last) :
    last.skipping = state.skipping ∧ last.lost = state.lost ∧
      ∃ value', R value value' ∧ q settings state = .done value' last := by
  obtain ⟨hs, hl, value', hR, hq⟩ := h.done (Nat.le_add_right state.lost more) hrun
  rw [State.eased_self, ← hl, State.eased_self] at hq
  exact ⟨hs, hl, value', hR, hq⟩

theorem Follows.failed {error : EvalError} (h : Follows more skips R p q)
    (hrun : p settings state = .failed error last) : KeptByFailure state error last := by
  have ht := h settings state state.lost (by omega)
  rwa [hrun] at ht

theorem Follows.mono {R' : α → β → Prop} (h : Follows more skips R p q)
    (hR : ∀ value value', R value value' → R' value value') : Follows more skips R' p q := by
  intro settings state lost hlost
  have ht := h settings state lost hlost
  cases hp : p settings state with
  | failed error last => rwa [hp] at ht
  | done value last =>
    rw [hp] at ht
    obtain ⟨hs, hl, value', hv, hq⟩ := ht
    exact ⟨hs, hl, value', hR value value' hv, hq⟩

/-! ## Elementary readings -/

theorem follows_pure {value : α} {value' : β} (h : R value value') :
    Follows more skips R (pure value) (pure value') :=
  fun _ _ _ _ => ⟨rfl, rfl, value', h, rfl⟩

theorem follows_cursor : Follows more skips Eq cursor cursor :=
  fun _ _ _ _ => ⟨rfl, rfl, _, rfl, rfl⟩

theorem follows_peek : Follows more skips Eq peek peek :=
  fun _ _ _ _ => ⟨rfl, rfl, _, rfl, rfl⟩

theorem follows_passSpaces : Follows more skips Eq passSpaces passSpaces :=
  fun _ _ _ _ => ⟨rfl, rfl, _, rfl, rfl⟩

theorem follows_takeWhile (p : Char → Bool) :
    Follows more skips Eq (takeWhile p) (takeWhile p) :=
  fun _ _ _ _ => ⟨rfl, rfl, _, rfl, rfl⟩

theorem follows_failAt {fault : Fault} {place : Cursor} :
    Follows more skips R (failAt fault place) q :=
  fun _ _ _ _ => ⟨rfl, le_rfl, fun _ _ => by simp⟩

theorem follows_tooDeep : Follows more skips R tooDeep q :=
  fun _ state _ _ => ⟨rfl, Nat.le_succ state.lost, fun _ _ => by simp⟩

theorem follows_accept (c : Char) : Follows more skips Eq (accept c) (accept c) := by
  intro settings state lost _
  unfold accept
  rw [show (state.eased lost skips).cursor = state.cursor from rfl]
  cases state.cursor.accept? c <;> exact ⟨rfl, rfl, _, rfl, rfl⟩

theorem follows_calculate {operation operation' : Context → Arithmetic Decimal}
    (h : Alike skips operation operation') :
    Follows more skips (Alike skips) (calculate operation) (calculate operation') := by
  intro settings state lost _
  unfold calculate
  split
  · next hskip => exact ⟨rfl, rfl, 0, .refl 0, by simp [State.eased, hskip]⟩
  · next hskip =>
    split
    · next value hv =>
      refine ⟨rfl, rfl, ?_⟩
      cases skips with
      | true => exact ⟨0, fun h => by simp at h, by simp [State.eased]⟩
      | false => exact ⟨value, .refl value, by simp [State.eased, hskip, ← h rfl, hv]⟩
    · exact ⟨rfl, le_rfl, fun h => absurd h hskip⟩

/-! ## Composed readings -/

theorem Follows.bind {next : α → Reading γ} {next' : β → Reading δ}
    (h : Follows more skips R p q)
    (hnext : ∀ value value', R value value' → Follows more skips S (next value) (next' value')) :
    Follows more skips S (p >>= next) (q >>= next') := by
  intro settings state lost hlost
  have ht := h settings state lost hlost
  rw [bind_run p next]
  cases hp : p settings state with
  | failed error mid => rwa [hp] at ht
  | done value mid =>
    rw [hp] at ht
    obtain ⟨hs, hl, value', hR, hq⟩ := ht
    have hn := hnext value value' hR settings mid lost (by omega)
    rw [bind_of_done hq]
    simp only
    cases hr : next value settings mid with
    | failed error last =>
      rw [hr] at hn
      exact hn.trans hs hl.ge
    | done result last =>
      rw [hr] at hn
      exact ⟨hn.1.trans hs, hn.2.1.trans hl, hn.2.2⟩

theorem Follows.bindSame {p q : Reading α} {next next' : α → Reading γ}
    {S : γ → γ → Prop} (h : Follows more skips Eq p q)
    (hnext : ∀ value, Follows more skips S (next value) (next' value)) :
    Follows more skips S (p >>= next) (q >>= next') :=
  h.bind fun value _ hv => hv ▸ hnext value

theorem Follows.ite {condition : Prop} [Decidable condition] {p' : Reading α} {q' : Reading β}
    (h : Follows more skips R p q) (h' : Follows more skips R p' q') :
    Follows more skips R (if condition then p else p') (if condition then q else q') := by
  split <;> assumption

theorem follows_failNext {fault : Fault} : Follows more skips R (failNext fault) (failNext fault) :=
  follows_passSpaces.bind fun _ _ _ => follows_cursor.bind fun _ _ _ => follows_failAt

theorem follows_expect (c : Char) (fault : Fault) :
    Follows more skips Eq (expect c fault) (expect c fault) := by
  exact (follows_accept c).bindSame fun taken => .ite follows_failNext (follows_pure rfl)

theorem Follows.branch (h : Follows more skips R p q) {taken taken' : Bool}
    (htaken : Alike skips taken taken') :
    Follows more skips R (branch taken p) (branch taken' q) := by
  intro settings state lost hlost
  have ht := h settings { state with skipping := state.skipping || !taken } lost hlost
  -- Where the second reading skips, it does so whichever branch is taken.
  have hstart : State.eased { state with skipping := state.skipping || !taken } lost skips =
      { state.eased lost skips with skipping := (state.eased lost skips).skipping || !taken' } := by
    cases skips with
    | true => simp [State.eased]
    | false => simp [State.eased, htaken rfl]
  rw [hstart] at ht
  unfold Reading.branch
  cases hp : p settings { state with skipping := state.skipping || !taken } with
  | failed error inner =>
    rw [hp] at ht
    exact ⟨rfl, ht.lost, fun hskip => ht.quiet (by simp [hskip])⟩
  | done value inner =>
    rw [hp] at ht
    obtain ⟨-, hl, value', hR, hq⟩ := ht
    exact ⟨rfl, hl, value', hR, by rw [hq]; rfl⟩

theorem tracks_nested {levels : Nat} (hlost : lost ≤ state.lost + more)
    (h : state.lost < levels →
      (p settings state).Tracks state lost skips R (q settings (state.eased lost skips))) :
    (nested levels p settings state).Tracks state lost skips R
      (nested (levels + more) q settings (state.eased lost skips)) := by
  unfold nested
  split
  · next hlevels =>
    have heased : (state.eased lost skips).lost < levels + more := by
      simp only [State.eased]
      omega
    rw [if_pos heased]
    exact h hlevels
  · exact ⟨rfl, Nat.le_succ state.lost, fun _ _ => by simp⟩

theorem Follows.nested (h : Follows more skips R p q) (levels : Nat) :
    Follows more skips R (nested levels p) (nested (levels + more) q) :=
  fun settings state lost hlost => tracks_nested hlost fun _ => h settings state lost hlost

theorem Follows.iterateAlong {step : α → Reading (Option α)} {step' : β → Reading (Option β)}
    (h : ∀ value value', R value value' →
      Follows more skips (Option.Rel R) (step value) (step' value'))
    (text : List Char) {value : α} {value' : β} (hR : R value value') :
    Follows more skips R (iterateAlong step text value) (iterateAlong step' text value') := by
  induction text generalizing value value' with
  | nil => exact follows_pure hR
  | cons c text ih =>
    refine (h value value' hR).bind fun next next' hnext => ?_
    cases hnext with
    | none => exact follows_pure hR
    | some hR => exact ih hR

theorem Follows.iterate {step : α → Reading (Option α)} {step' : β → Reading (Option β)}
    (h : ∀ value value', R value value' →
      Follows more skips (Option.Rel R) (step value) (step' value'))
    {value : α} {value' : β} (hR : R value value') :
    Follows more skips R (iterate step value) (iterate step' value') :=
  fun settings state => Follows.iterateAlong h state.cursor.place.rest hR settings state

/-- The second reading must be of no use where the first one failed: that is what keeps the place
where both runs stop the same. -/
theorem tracks_orElse {first second : Reading α} {first' second' : Reading β}
    (hfirst : Follows more skips R first first') (hsecond : Follows more skips R second second')
    (accepted : Cursor → Bool) (hlost : lost ≤ state.lost + more)
    (hvain : ∀ error mid, first settings state = .failed error mid →
      ∀ value last, second settings { mid with cursor := state.cursor } ≠ .done value last) :
    (orElse first accepted second settings state).Tracks state lost skips R
      (orElse first' accepted second' settings (state.eased lost skips)) := by
  have ht := hfirst settings state lost hlost
  unfold orElse
  cases hf : first settings state with
  | failed error mid =>
    rw [hf] at ht
    simp only
    cases hs : second settings { mid with cursor := state.cursor } with
    | done value last => exact absurd hs (hvain error mid hf value last)
    | failed error' last => exact (hsecond.failed hs).trans ht.skipping ht.lost
  | done trial mid =>
    rw [hf] at ht
    obtain ⟨hskip, hl, trial', hR, hq⟩ := ht
    rw [hq]
    simp only
    rw [show (mid.eased lost skips).cursor = mid.cursor from rfl]
    split
    · exact ⟨hskip, hl, trial', hR, rfl⟩
    · have hn := hsecond settings { mid with cursor := state.cursor } lost (by simp only; omega)
      cases hs : second settings { mid with cursor := state.cursor } with
      | failed error last =>
        rw [hs] at hn
        exact hn.trans hskip hl.ge
      | done value last =>
        rw [hs] at hn
        exact ⟨hn.1.trans hskip, hn.2.1.trans hl, hn.2.2⟩

end Reading

end Reckoner
