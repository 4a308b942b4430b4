import Reckoner.Proofs.Syntax.Reads

/-!
# What successful readings have taken

A reading takes texts of some kind if, wherever it succeeds, it has taken such a text off what
lay ahead. Nothing is said of its value beyond what is read next.
-/

namespace Reckoner.Syntax

open Reading

variable {α β : Type}

/-- A successful reading of `text` has taken off a part of it that has a property with the value
and with what is left. -/
def Frame.Takes (frame : Frame) (text : List Char) (p : Reading α)
    (Q : α → List Char → List Char → Prop) : Prop :=
  ∀ behind value last, p frame.settings (frame.facing behind text) = .done value last →
    ∃ u rest behind', text = u ++ rest ∧ last = frame.facing behind' rest ∧ Q value u rest

variable {frame : Frame} {text : List Char} {p : Reading α}
  {Q Q' : α → List Char → List Char → Prop} {S : β → List Char → List Char → Prop}

/-! ## Sequences -/

theorem Frame.Takes.mono (h : frame.Takes text p Q)
    (hQ : ∀ value u rest, text = u ++ rest → Q value u rest → Q' value u rest) :
    frame.Takes text p Q' := by
  intro behind value last hrun
  obtain ⟨u, rest, behind', htext, hlast, hu⟩ := h behind value last hrun
  exact ⟨u, rest, behind', htext, hlast, hQ value u rest htext hu⟩

theorem takes_pure {value : α} (h : Q value [] text) : frame.Takes text (pure value) Q := by
  intro behind value' last hrun
  rw [pure_run, Outcome.done.injEq] at hrun
  obtain ⟨rfl, rfl⟩ := hrun
  exact ⟨[], text, behind, rfl, rfl, h⟩

theorem Frame.Takes.bind {next : α → Reading β} (h : frame.Takes text p Q)
    (hnext : ∀ value u mid, text = u ++ mid → Q value u mid →
      frame.Takes mid (next value) fun result v rest => S result (u ++ v) rest) :
    frame.Takes text (p >>= next) S := by
  intro behind result last hrun
  obtain ⟨value, mid, hp, hn⟩ := bind_eq_done.1 hrun
  obtain ⟨u, rest, behind', htext, rfl, hu⟩ := h behind value mid hp
  obtain ⟨v, rest', behind'', rfl, hlast, hv⟩ :=
    hnext value u rest htext hu behind' result last hn
  exact ⟨u ++ v, rest', behind'', by rw [htext, List.append_assoc], hlast, hv⟩

theorem takes_failAt {fault : Fault} {place : Cursor} : frame.Takes text (failAt fault place) Q := by
  intro behind value last hrun
  simp [failAt] at hrun

/-! ## Characters -/

theorem takes_accept (c : Char) : frame.Takes text (accept c) fun taken u rest =>
    if taken then Spaced [c] u else u = [] ∧ significant rest ≠ some c := by
  intro behind taken last hrun
  cases taken with
  | true =>
    obtain ⟨cursor, hcursor, rfl⟩ := accept_eq_true hrun
    obtain ⟨sign, rest, behind', hsign, rfl, rfl⟩ := Cursor.accept?_facing hcursor
    exact ⟨sign, rest, behind', rfl, rfl, hsign⟩
  | false =>
    obtain ⟨hrefuses, rfl⟩ := accept_eq_false hrun
    exact ⟨[], text, behind, rfl, rfl, rfl, fun h => hrefuses (Cursor.ahead_facing_eq.2 h)⟩

theorem takes_choice {c : Char} {yes no : Reading α}
    (hyes : ∀ u mid, Spaced [c] u →
      frame.Takes mid yes fun value v rest => Q value (u ++ v) rest)
    (hno : significant text ≠ some c → frame.Takes text no Q) :
    frame.Takes text (accept c >>= fun taken => if taken then yes else no) Q := by
  refine (takes_accept c).bind fun taken u mid htext hu => ?_
  cases taken with
  | true => exact hyes u mid hu
  | false =>
    obtain ⟨rfl, hrefuses⟩ := hu
    obtain rfl : text = mid := htext
    exact hno hrefuses

theorem takes_expect {c : Char} {fault : Fault} :
    frame.Takes text (expect c fault) fun _ u _ => Spaced [c] u := by
  intro behind value last hrun
  obtain ⟨cursor, hcursor, rfl⟩ := expect_eq_done hrun
  obtain ⟨sign, rest, behind', hsign, rfl, rfl⟩ := Cursor.accept?_facing hcursor
  exact ⟨sign, rest, behind', rfl, rfl, hsign⟩

theorem takes_takeWhile (q : Char → Bool) : frame.Takes text (takeWhile q) fun taken u rest =>
    u = taken ∧ (∀ c ∈ taken, q c) ∧ ∀ c, rest.head? = some c → q c = false := by
  intro behind taken last hrun
  have hreads : frame.Reads false (takeWhile q) text _ _ := reads_takeWhile q text
  obtain ⟨behind', hreads⟩ := hreads behind
  rw [hrun, Outcome.done.injEq] at hreads
  obtain ⟨rfl, rfl⟩ := hreads
  refine ⟨text.takeWhile q, text.dropWhile q, behind', List.takeWhile_append_dropWhile.symm, rfl,
    rfl, List.all_eq_true.1 List.all_takeWhile, fun c hc => ?_⟩
  have hnot := List.head?_dropWhile_not q text
  rwa [hc] at hnot

theorem takes_passSpaces : frame.Takes text passSpaces fun _ u rest =>
    (∃ n, u = List.replicate n ' ') ∧ rest.head? = significant text := by
  intro behind value last hrun
  have hreads : frame.Reads false passSpaces text _ _ := reads_passSpaces text
  obtain ⟨behind', hreads⟩ := hreads behind
  rw [hrun, Outcome.done.injEq] at hreads
  obtain ⟨-, rfl⟩ := hreads
  refine ⟨text.takeWhile (· == ' '), text.dropWhile (· == ' '), behind',
    List.takeWhile_append_dropWhile.symm, rfl, ⟨_, List.eq_replicate_of_mem fun c hc => ?_⟩, rfl⟩
  simpa using List.all_eq_true.1 List.all_takeWhile c hc

theorem takes_cursor {next : Cursor → Reading α}
    (h : ∀ behind, frame.Takes text (next (.facing behind text)) Q) :
    frame.Takes text (Reading.cursor >>= next) Q :=
  fun behind => h behind behind

theorem takes_peek {next : Spot → Reading α}
    (h : frame.Takes text (next (.ofOption (significant text))) Q) :
    frame.Takes text (peek >>= next) Q := by
  intro behind value last hrun
  refine h behind value last ?_
  rw [← show (Cursor.facing behind text).peek = _ from Cursor.peek_facing]
  exact hrun

/-! ## Computing and nesting -/

theorem takes_calculate {operation : Context → Arithmetic Decimal} :
    frame.Takes text (calculate operation) fun _ u _ => u = [] := by
  intro behind value last hrun
  refine ⟨[], text, behind, rfl, ?_, rfl⟩
  unfold calculate at hrun
  split at hrun
  · exact (Outcome.done.inj hrun).2.symm
  · split at hrun
    · exact (Outcome.done.inj hrun).2.symm
    · simp at hrun

theorem takes_branch {taken : Bool}
    (h : { frame with skipping := frame.skipping || !taken }.Takes text p Q) :
    frame.Takes text (branch taken p) Q := by
  intro behind value last hrun
  unfold branch at hrun
  split at hrun
  · next value' after hp =>
    obtain ⟨u, rest, behind', htext, rfl, hu⟩ := h behind value' after hp
    obtain ⟨rfl, rfl⟩ := Outcome.done.inj hrun
    exact ⟨u, rest, behind', htext, rfl, hu⟩
  · simp at hrun

theorem takes_nested {levels : Nat} (h : frame.lost < levels → frame.Takes text p Q) :
    frame.Takes text (nested levels p) Q := by
  intro behind value last hrun
  unfold nested at hrun
  split at hrun
  · next hlevels => exact h hlevels behind value last hrun
  · simp [tooDeep] at hrun

/-! ## Repetition -/

/-- Steps that keep `I` of what they have taken so far, until one of them ends with `D`. -/
theorem takes_iterate {step : α → Reading (Option α)} {I D : List Char → Prop}
    (hstep : ∀ value u mid, I u → frame.Takes mid (step value) fun next v _ =>
      match next with
      | some _ => I (u ++ v) ∧ v ≠ []
      | none => D (u ++ v))
    (hend : ∀ u, I u → D u) {value : α} {u : List Char} (hI : I u) :
    frame.Takes text (iterate step value) fun _ v _ => D (u ++ v) := by
  -- the induction is on the text that bounds the passes, and each pass takes a character at least
  have halong : ∀ (more : List Char) (text u : List Char) (value : α), I u →
      text.length ≤ more.length →
        frame.Takes text (iterateAlong step more value) fun _ v _ => D (u ++ v) := by
    intro more
    induction more with
    | nil => exact fun text u value hI _ => takes_pure (by simpa using hend u hI)
    | cons c more ih =>
      intro text u value hI hmore
      refine (hstep value u text hI).bind fun next v mid htext hv => ?_
      cases next with
      | none => exact takes_pure (by simpa using hv)
      | some next =>
        have hlength : mid.length ≤ more.length := by
          have := List.length_pos_of_ne_nil hv.2
          simp only [htext, List.length_append, List.length_cons] at hmore
          omega
        exact (ih mid (u ++ v) next hv.1 hlength).mono fun _ w _ _ hw => by
          rwa [List.append_assoc] at hw
  intro behind value' last hrun
  refine halong text text u value hI le_rfl behind value' last ?_
  unfold iterate at hrun
  rwa [show (frame.facing behind text).cursor.place.rest = text from Cursor.rest_facing] at hrun

end Reckoner.Syntax
