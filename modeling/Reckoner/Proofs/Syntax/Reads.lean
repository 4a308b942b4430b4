import Reckoner.Proofs.Reading.Places
import Reckoner.Proofs.Syntax.Tree

/-!
# Readings that come to a result

A reading comes to a result if it takes a given text off what lies ahead and gives the value of
the result, or fails for the reason that the result names. A hidden error must end in an
unreadable text; inside parentheses it may still be an error of arithmetic, as they are read
once more.
-/

namespace Reckoner.Syntax

open Reading

variable {α β : Type}

/-- What does not change while a phrase is read. -/
structure Frame where
  settings : Settings
  lost : Nat
  skipping : Bool

/-- Where a phrase begins or ends. -/
def Frame.facing (frame : Frame) (behind text : List Char) : State :=
  ⟨.facing behind text, frame.lost, frame.skipping⟩

/-- Whether an error is one that a failure may end in. -/
def Failure.Explains (failure : Failure) (inParentheses : Bool) (error : EvalError) : Prop :=
  if failure.hidden then inParentheses = false → ∃ fault, error = .unreadable fault
  else error = .arithmetic failure.error

/-- Whether an outcome is that of a reading which comes to a result before `rest`. -/
def Frame.Shows (frame : Frame) (inParentheses : Bool) (rest : List Char) :
    Result α → Outcome α → Prop
  | .ok value, outcome => ∃ behind, outcome = .done value (frame.facing behind rest)
  | .error failure, outcome => ∃ error cursor,
      outcome = .failed error ⟨cursor, frame.lost, frame.skipping⟩ ∧
        failure.Explains inParentheses error

/-- A reading takes a text up to `rest` and comes to a result. -/
def Frame.Reads (frame : Frame) (inParentheses : Bool) (reading : Reading α)
    (text rest : List Char) (result : Result α) : Prop :=
  ∀ behind, frame.Shows inParentheses rest result
    (reading frame.settings (frame.facing behind text))

variable {frame : Frame} {inParentheses : Bool} {p : Reading α} {text mid rest : List Char}
  {result : Result α}

/-! ## Sequences -/

theorem reads_pure (value : α) (text : List Char) :
    frame.Reads inParentheses (pure value) text text (.ok value) :=
  fun behind => ⟨behind, rfl⟩

theorem Frame.Shows.bind {state : State} {next : α → Reading β} {then' : α → Result β}
    (h : frame.Shows inParentheses mid result (p frame.settings state))
    (hnext : ∀ value, result = .ok value →
      frame.Reads inParentheses (next value) mid rest (then' value)) :
    frame.Shows inParentheses rest (result >>= then') ((p >>= next) frame.settings state) := by
  cases result with
  | ok value =>
    obtain ⟨behind, hrun⟩ := h
    rw [bind_of_done hrun]
    exact hnext value rfl behind
  | error failure =>
    obtain ⟨error, cursor, hrun, hexplains⟩ := h
    rw [bind_of_failed hrun]
    exact ⟨error, cursor, rfl, hexplains⟩

theorem Frame.Reads.bind {next : α → Reading β} {then' : α → Result β}
    (h : frame.Reads inParentheses p text mid result)
    (hnext : ∀ value, result = .ok value →
      frame.Reads inParentheses (next value) mid rest (then' value)) :
    frame.Reads inParentheses (p >>= next) text rest (result >>= then') :=
  fun behind => (h behind).bind hnext

theorem Frame.Reads.then {value : α} {next : α → Reading β} {result : Result β}
    (h : frame.Reads inParentheses p text mid (.ok value))
    (hnext : frame.Reads inParentheses (next value) mid rest result) :
    frame.Reads inParentheses (p >>= next) text rest result := by
  intro behind
  obtain ⟨behind', hrun⟩ := h behind
  rw [bind_of_done hrun]
  exact hnext behind'

theorem Frame.Shows.fails {failure : Failure} {state : State} {next : α → Reading β}
    (h : frame.Shows inParentheses mid (.error failure) (p frame.settings state)) :
    frame.Shows inParentheses rest (.error failure) ((p >>= next) frame.settings state) := by
  obtain ⟨error, cursor, hrun, hexplains⟩ := h
  rw [bind_of_failed hrun]
  exact ⟨error, cursor, rfl, hexplains⟩

theorem Frame.Shows.keep {state : State} {next : α → Reading α}
    (h : frame.Shows inParentheses mid result (p frame.settings state))
    (hnext : ∀ value, frame.Reads inParentheses (next value) mid rest (.ok value)) :
    frame.Shows inParentheses rest result ((p >>= next) frame.settings state) := by
  have hbind : frame.Shows inParentheses rest (result >>= pure) _ :=
    h.bind fun value _ => hnext value
  rwa [bind_pure] at hbind

theorem Frame.Reads.keep {next : α → Reading α}
    (h : frame.Reads inParentheses p text mid result)
    (hnext : ∀ value, frame.Reads inParentheses (next value) mid rest (.ok value)) :
    frame.Reads inParentheses (p >>= next) text rest result :=
  fun behind => (h behind).keep hnext

/-! ## Parentheses -/

theorem Failure.Explains.loosely {failure : Failure} {error : EvalError}
    (h : failure.Explains false error) : failure.Explains true error := by
  unfold Failure.Explains at h ⊢
  split
  · simp
  · next hhidden => simpa [hhidden] using h

theorem Frame.Reads.loosely (h : frame.Reads false p text rest result) (inner : Bool) :
    frame.Reads inner p text rest result := by
  cases inner with
  | false => exact h
  | true =>
    intro behind
    have hp := h behind
    cases result with
    | ok value => exact hp
    | error failure =>
      obtain ⟨error, cursor, hrun, hexplains⟩ := hp
      exact ⟨error, cursor, hrun, hexplains.loosely⟩

theorem Frame.Reads.hide (h : frame.Reads inParentheses p text rest result) :
    frame.Reads inParentheses p text rest (hide inParentheses result) := by
  intro behind
  have hp := h behind
  cases result with
  | ok value => exact hp
  | error failure =>
    obtain ⟨error, cursor, hrun, hexplains⟩ := hp
    refine ⟨error, cursor, hrun, ?_⟩
    cases inParentheses with
    | false => simpa [Failure.Explains] using hexplains
    | true => simp [Failure.Explains]

/-! ## Characters -/

theorem reads_accept {c : Char} {sign : List Char} (h : Spaced [c] sign) (hc : c ≠ ' ') :
    frame.Reads inParentheses (accept c) (sign ++ rest) rest (.ok true) := by
  intro behind
  obtain ⟨behind', hcursor⟩ := Cursor.accept?_spaced h hc
  exact ⟨behind', accept_takes hcursor⟩

theorem reads_refusal {c : Char} (h : significant text ≠ some c) :
    frame.Reads inParentheses (accept c) text text (.ok false) :=
  fun behind => ⟨behind, accept_refuses fun hahead => h (Cursor.ahead_facing_eq.1 hahead)⟩

section

variable {c : Char} {sign : List Char} {yes no : Reading α}

theorem reads_taken (h : Spaced [c] sign) (hc : c ≠ ' ')
    (hyes : frame.Reads inParentheses yes mid rest result) :
    frame.Reads inParentheses (accept c >>= fun taken => if taken then yes else no)
      (sign ++ mid) rest result :=
  Frame.Reads.then (reads_accept h hc) hyes

theorem reads_refused (h : significant text ≠ some c)
    (hno : frame.Reads inParentheses no text rest result) :
    frame.Reads inParentheses (accept c >>= fun taken => if taken then yes else no)
      text rest result :=
  Frame.Reads.then (reads_refusal h) hno

end

theorem reads_expect {c : Char} {sign : List Char} {fault : Fault} (h : Spaced [c] sign)
    (hc : c ≠ ' ') :
    frame.Reads inParentheses (expect c fault) (sign ++ rest) rest (.ok ()) := by
  intro behind
  obtain ⟨behind', hcursor⟩ := Cursor.accept?_spaced h hc
  exact ⟨behind', expect_takes hcursor⟩

theorem reads_passSpaces (text : List Char) :
    frame.Reads inParentheses passSpaces text (text.dropWhile (· == ' ')) (.ok ()) := by
  intro behind
  obtain ⟨behind', hpass⟩ := Cursor.passSpaces_facing behind text
  refine ⟨behind', ?_⟩
  simp [passSpaces, Frame.facing, hpass]

theorem reads_takeWhile (q : Char → Bool) (text : List Char) :
    frame.Reads inParentheses (takeWhile q) text (text.dropWhile q) (.ok (text.takeWhile q)) := by
  intro behind
  refine ⟨(text.takeWhile q).reverse ++ behind, ?_⟩
  simp [takeWhile, Frame.facing, Cursor.facing, Cursor.takeWhile, Place.span_after]

/-- The cursor is asked for to see what it stands on, or to blame it. -/
theorem reads_cursor {next : Cursor → Reading α}
    (h : ∀ behind, frame.Reads inParentheses (next (.facing behind text)) text rest result) :
    frame.Reads inParentheses (Reading.cursor >>= next) text rest result := by
  intro behind
  rw [bind_of_done (show Reading.cursor frame.settings (frame.facing behind text) =
    .done (.facing behind text) _ from rfl)]
  exact h behind behind

theorem reads_peek (text : List Char) :
    frame.Reads inParentheses peek text text (.ok (.ofOption (significant text))) := by
  intro behind
  refine ⟨behind, ?_⟩
  rw [← show (Cursor.facing behind text).peek = _ from Cursor.peek_facing]
  rfl

/-- A second reading decides wherever the first one fails or is not accepted. -/
theorem reads_orElse {first second : Reading α} {accepted : Cursor → Bool} {tried : Result α}
    (hfirst : frame.Reads true first text mid tried)
    (hsecond : (∃ failure, tried = .error failure) ∨
        (∃ behind, accepted (.facing behind mid) = false) →
      frame.Reads inParentheses second text rest result)
    (haccepted : ∀ value, tried = .ok value →
      (∃ behind, accepted (.facing behind mid) = true) → mid = rest ∧ result = .ok value) :
    frame.Reads inParentheses (orElse first accepted second) text rest result := by
  intro behind
  have hf := hfirst behind
  unfold orElse
  cases tried with
  | ok value =>
    obtain ⟨behind', hrun⟩ := hf
    rw [hrun]
    simp only
    split
    · next h =>
      obtain ⟨rfl, rfl⟩ := haccepted value rfl ⟨behind', h⟩
      exact ⟨behind', rfl⟩
    · next h => exact hsecond (.inr ⟨behind', Bool.eq_false_iff.2 h⟩) behind
  | error failure =>
    obtain ⟨error, cursor, hrun, -⟩ := hf
    rw [hrun]
    exact hsecond (.inl ⟨failure, rfl⟩) behind

/-! ## Computing -/

theorem reads_calculate (operation : Context → Arithmetic Decimal) (text : List Char) :
    frame.Reads inParentheses (calculate operation) text text
      (perform frame.settings.context frame.skipping operation) := by
  intro behind
  unfold calculate perform
  rw [show (frame.facing behind text).skipping = frame.skipping from rfl]
  split
  · exact ⟨behind, rfl⟩
  · cases operation frame.settings.context with
    | ok value => exact ⟨behind, rfl⟩
    | error error => exact ⟨.arithmetic error, .facing behind text, rfl, rfl⟩

theorem reads_branch {taken : Bool}
    (h : { frame with skipping := frame.skipping || !taken }.Reads inParentheses p text rest
      result) :
    frame.Reads inParentheses (branch taken p) text rest result := by
  intro behind
  have hp := h behind
  unfold branch
  dsimp only [Frame.facing] at hp ⊢
  cases result with
  | ok value =>
    obtain ⟨behind', hrun⟩ := hp
    rw [hrun]
    exact ⟨behind', rfl⟩
  | error failure =>
    obtain ⟨error, cursor, hrun, hexplains⟩ := hp
    rw [hrun]
    exact ⟨error, cursor, rfl, hexplains⟩

theorem reads_nested {levels : Nat} (hlevels : frame.lost < levels)
    (h : frame.Reads inParentheses p text rest result) :
    frame.Reads inParentheses (nested levels p) text rest result := by
  intro behind
  unfold nested
  rw [if_pos (show (frame.facing behind text).lost < levels from hlevels)]
  exact h behind

/-! ## Repetition -/

/-- An outcome is that of going on with steps from a result and the text that is left. -/
def Frame.Repeats (frame : Frame) (inParentheses : Bool) (step : α → Reading (Option α))
    (text : List Char) : Result α → Outcome α → Prop
  | .ok value, outcome => ∃ behind more, text.length ≤ more.length ∧
      outcome = iterateAlong step more value frame.settings (frame.facing behind text)
  | .error failure, outcome => frame.Shows inParentheses text (.error failure) outcome

variable {step : α → Reading (Option α)} {outcome : Outcome α}

/-- The steps go on from what a first run came to. -/
theorem repeats_start {p : Reading β} {result : Result β} {state : State}
    (h : frame.Shows inParentheses mid result (p frame.settings state)) (first : β → α) :
    frame.Repeats inParentheses step mid (first <$> result)
      ((p >>= fun value => iterate step (first value)) frame.settings state) := by
  cases result with
  | ok value =>
    obtain ⟨behind, hrun⟩ := h
    rw [bind_of_done hrun]
    refine ⟨behind, mid, le_rfl, ?_⟩
    unfold iterate
    rw [show (frame.facing behind mid).cursor.place.rest = mid from Cursor.rest_facing]
  | error failure =>
    obtain ⟨error, cursor, hrun, hexplains⟩ := h
    rw [bind_of_failed hrun]
    exact ⟨error, cursor, rfl, hexplains⟩

theorem Frame.Repeats.next {then' : α → Result α}
    (h : frame.Repeats inParentheses step text result outcome)
    (hstep : ∀ value, frame.Reads inParentheses (step value) text rest (some <$> then' value))
    (hlength : rest.length < text.length) :
    frame.Repeats inParentheses step rest (result >>= then') outcome := by
  cases result with
  | error failure => exact h
  | ok value =>
    obtain ⟨behind, more, hmore, rfl⟩ := h
    cases more with
    | nil => simp only [List.length_nil] at hmore; omega
    | cons c more =>
      have hs := hstep value behind
      change frame.Repeats _ _ _ (then' value) ((step value >>= _) _ _)
      simp only [List.length_cons] at hmore
      cases hthen : then' value with
      | ok next =>
        rw [hthen] at hs
        obtain ⟨behind', hrun⟩ := hs
        rw [bind_of_done hrun]
        exact ⟨behind', more, by omega, rfl⟩
      | error failure =>
        rw [hthen] at hs
        obtain ⟨error, cursor, hrun, hexplains⟩ := hs
        rw [bind_of_failed hrun]
        exact ⟨error, cursor, rfl, hexplains⟩

/-- A step that says to stop may have taken a text, but not at the end. -/
theorem Frame.Repeats.stop (h : frame.Repeats inParentheses step text result outcome)
    (hstep : ∀ value, frame.Reads inParentheses (step value) text rest (.ok none))
    (hend : text = [] → rest = []) :
    frame.Shows inParentheses rest result outcome := by
  cases result with
  | error failure => exact h
  | ok value =>
    obtain ⟨behind, more, hmore, rfl⟩ := h
    cases more with
    | nil =>
      have htext : text = [] := List.eq_nil_of_length_eq_zero (by simpa using hmore)
      rw [hend htext, htext]
      exact ⟨behind, rfl⟩
    | cons c more =>
      obtain ⟨behind', hrun⟩ := hstep value behind
      change frame.Shows _ _ _ ((step value >>= _) _ _)
      rw [bind_of_done hrun]
      exact ⟨behind', rfl⟩

end Reckoner.Syntax
