/-
# Cctools.Scrub.Progress -- the scrubber comes to the end of its input

Every call of `do_scrub_next_char` that gives a character makes `measure` smaller: a
character that is read weighs more than what can come of it.  Quotes and `#` weigh most,
as a string may put a newline back at the end of the input and a line number is put out
as a directive.

One loop does not look for the end: the one that drops the rest of a line after the name
of a file.  `doScrubNextChar_progress`: the scrubber comes to `EOF` if it never stands
there with no newline left.
-/
import Cctools.Scrub.Agreement
import Cctools.Theory.Decimal
import Mathlib.Data.List.TakeWhile

namespace Cctools.Scrub

open Cctools.Read (Text ascii newline)

set_option autoImplicit false

/-! ## The measure -/

def charWeight (c : UInt8) : Nat :=
  if c = 34 ∨ c = 39 ∨ c = 35 then 24 else if c = newline then 5 else 2

def weight : Text → Nat
  | [] => 0
  | c :: rest => charWeight c + weight rest

/-- What a state may still give without reading. -/
def State.credit : State → Nat
  | .string => 7
  | .escape => 8
  | .fileName => 8
  | .lineNumber => 17
  | .symbolBlank => 1
  | _ => 0

def Context.credit (scrub : Context) : Nat :=
  if scrub.state = .output then scrub.outText.length + 1 + scrub.oldState.credit else scrub.state.credit

def measure (scrub : Context) (text : Text) : Nat := weight text + 2 * scrub.addNewlines + scrub.credit

/-- The states that what is put out, a string or an escape goes back to. -/
structure Sane (scrub : Context) : Prop where
  output : scrub.state = .output →
    scrub.oldState.flushes = true ∨ scrub.oldState = .lineNumber ∨ scrub.oldState = .fileName
  string : scrub.state = .string ∨ scrub.state = .escape →
    scrub.oldState.flushes = true ∨ scrub.oldState = .fileRest
  comment : scrub.state ≠ .comment

theorem two_le_charWeight (c : UInt8) : 2 ≤ charWeight c := by
  unfold charWeight
  split_ifs <;> omega

theorem weight_le_of_suffix {left text : Text} (suffix : left <:+ text) : weight left ≤ weight text := by
  induction text with
  | nil =>
    rw [List.suffix_nil.mp suffix]
  | cons c rest ih =>
    rcases List.suffix_cons_iff.mp suffix with rfl | suffix
    · exact Nat.le_refl _
    · exact Nat.le_add_left_of_le (ih suffix)

theorem weight_dropWhile (p : UInt8 → Bool) (text : Text) : weight (text.dropWhile p) ≤ weight text :=
  weight_le_of_suffix (List.dropWhile_suffix p)

theorem weight_tail (text : Text) : weight text.tail ≤ weight text :=
  weight_le_of_suffix (List.tail_suffix text)

theorem weight_toLineEnd (text : Text) : weight (toLineEnd text) ≤ weight text := weight_dropWhile _ text

/-- The newlines of a comment are owed, and weigh more than the debt. -/
theorem weight_skipComment (text : Text) : weight (skipComment text).2 + 2 * (skipComment text).1 ≤ weight text := by
  fun_induction skipComment text with
  | case1 rest =>
    simp only [weight]
    omega
  | case2 c rest _ ih =>
    simp only [weight]
    have low := two_le_charWeight c
    split <;> omega
  | case3 => exact Nat.le_refl _

theorem credit_of_flushes {state : State} (flushes : state.flushes = true) : state.credit ≤ 1 := by
  cases state <;> first | exact absurd flushes (by decide) | decide

theorem saves_nothing {state : State} (flushes : state.flushes = true) :
    ¬ state = .output ∧ ¬ (state = .string ∨ state = .escape) ∧ state ≠ .comment := by
  cases state <;> first | exact absurd flushes (by decide) | decide

theorem credit_eq {scrub : Context} (flushes : scrub.state.flushes = true) : scrub.credit = scrub.state.credit :=
  if_neg (saves_nothing flushes).1

theorem sane_of_flushes {scrub : Context} (flushes : scrub.state.flushes = true) : Sane scrub where
  output is := absurd is (saves_nothing flushes).1
  string is := absurd is (saves_nothing flushes).2.1
  comment := (saves_nothing flushes).2.2

/-! ## One round -/

section Rounds

variable (target : Target)

/-- A character has been given and the measure is smaller, or it was the end. -/
def Spends (before : Nat) (ch : Option UInt8) (scrub : Context) (rest : Text) : Prop :=
  Sane scrub ∧ (ch = none ∨ measure scrub rest < before)

/-- A round ends the call, or goes on with less. -/
def PassSpends (before : Nat) : Pass → Prop
  | .done ch scrub rest => Spends before ch scrub rest
  | .again scrub rest => scrub.state.flushes = true ∧ measure scrub rest < before

variable {scrub : Context}

theorem measure_flushes (flushes : scrub.state.flushes = true) (text : Text) :
    measure scrub text = weight text + 2 * scrub.addNewlines + scrub.state.credit := by
  rw [measure, credit_eq flushes]

variable {before : Nat}

/-- The result of a round that stays among the states of `flushchar`. -/
theorem spends_flushes {ch : Option UInt8} {rest : Text} (flushes : scrub.state.flushes = true)
    (less : weight rest + 2 * scrub.addNewlines + scrub.state.credit < before) : Spends before ch scrub rest :=
  ⟨sane_of_flushes flushes, .inr (by rwa [measure_flushes flushes])⟩

theorem blanks_spends (flushes : scrub.state.flushes = true) (text : Text)
    (paid : weight text + 2 * scrub.addNewlines + 2 ≤ before) :
    PassSpends before (blanks target (keepOfFile target) scrub text) := by
  have small := credit_of_flushes flushes
  rcases text with _ | ⟨c, rest⟩
  · exact ⟨sane_of_flushes flushes, .inl rfl⟩
  rw [blanks]
  split
  · exact ⟨flushes, by rw [measure_flushes flushes]; omega⟩
  rw [keepOfFile]
  split
  · exact spends_flushes rfl (by simp only [State.credit]; omega)
  split
  · split
    · refine spends_flushes flushes ?_
      show weight (c :: rest) + 2 * scrub.addNewlines + scrub.state.credit < before
      omega
    · exact spends_flushes rfl (by simp only [State.credit]; omega)
  split
  · exact spends_flushes flushes (by omega)
  split
  · exact ⟨rfl, by rw [measure_flushes rfl]; simp only [State.credit]; omega⟩
  · exact ⟨flushes, by rw [measure_flushes flushes]; omega⟩

theorem misc_spends (flushes : scrub.state.flushes = true) (c : UInt8) (rest : Text)
    (paid : charWeight c + weight rest + 2 * scrub.addNewlines ≤ before) :
    PassSpends before (misc target scrub c rest) := by
  have small := credit_of_flushes flushes
  have low := two_le_charWeight c
  rw [misc]
  split
  · rename_i isNumber
    obtain ⟨start, hash⟩ := Bool.and_eq_true_iff.mp isNumber
    have start : scrub.state = .lineStart := by simpa using start
    have hash : c = 35 := by simpa [Target.isLineComment, Target.lineCommentChars] using hash
    have heavy : charWeight c = 24 := by rw [hash]; rfl
    have shorter := weight_dropWhile isWhitespace rest
    split
    · exact spends_flushes flushes (by simp only [weight]; omega)
    · rename_i digit line is
      rw [is] at shorter
      split
      · refine ⟨⟨fun _ => .inr (.inl rfl), ?_, by simp⟩, .inr ?_⟩
        · rintro (string | escape)
          · cases string
          · cases escape
        · have length : (ascii "line ").length = 5 := rfl
          simp only [measure, Context.credit, Context.outText, State.credit, length, if_true]
          omega
      · refine spends_flushes rfl ?_
        have drop := Nat.le_trans (weight_tail (toLineEnd (digit :: line))) (weight_toLineEnd _)
        simp only [Context.newLine, State.credit]
        omega
  split
  · refine spends_flushes rfl ?_
    have drop := Nat.le_trans (weight_tail (toLineEnd rest)) (weight_toLineEnd _)
    simp only [Context.newLine, State.credit]
    omega
  split
  · exact spends_flushes rfl (by simp only [State.credit]; omega)
  · exact spends_flushes flushes (by omega)

/-- The step for symbol characters gives back what a blank before one has cost. -/
theorem dealMisc_spends (flushes : scrub.state.flushes = true) (c : UInt8) (rest : Text) :
    PassSpends (measure scrub (c :: rest)) (dealMisc target symbolsOfFile scrub c rest) := by
  have small := credit_of_flushes flushes
  have before := measure_flushes flushes (c :: rest)
  rw [weight] at before
  rw [dealMisc, symbolsOfFile]
  split_ifs with _ blank second line
  · exact spends_flushes rfl (by
      rw [before, blank]
      simp only [State.credit, weight]
      omega)
  · exact misc_spends target rfl c rest (by rw [before]; dsimp only; omega)
  · exact misc_spends target flushes c rest (by rw [before]; omega)
  · exact misc_spends target rfl c rest (by rw [before]; dsimp only; omega)
  · exact misc_spends target flushes c rest (by rw [before]; omega)

theorem slash_spends (flushes : scrub.state.flushes = true) (rest : Text) :
    PassSpends (measure scrub (47 :: rest)) (slash target symbolsOfFile scrub rest) := by
  have small := credit_of_flushes flushes
  have before := measure_flushes flushes (47 :: rest)
  have slashWeight : charWeight 47 = 2 := rfl
  rw [weight, slashWeight] at before
  rw [slash]
  split
  · rename_i star
    rcases rest with _ | ⟨c, rest⟩
    · cases star
    obtain rfl : c = 42 := by simpa using star
    have comment := weight_skipComment rest
    have starWeight : charWeight 42 = 2 := rfl
    have blankWeight : charWeight 32 = 2 := rfl
    refine ⟨flushes, ?_⟩
    rw [measure_flushes (by exact flushes), before]
    simp only [List.tail_cons, weight, starWeight, blankWeight]
    omega
  split
  · have drop := Nat.le_trans (weight_toLineEnd rest.tail) (weight_tail rest)
    exact ⟨flushes, by rw [measure_flushes flushes, before]; omega⟩
  split
  · exact dealMisc_spends target flushes 47 rest
  · exact spends_flushes flushes (by rw [before]; omega)

theorem number_eq (c : UInt8) : number c = 40 :: (Theory.Decimal.printed 10 c.toNat ++ [41]) := by
  have text : ("(" ++ toString c.toNat ++ ")").toList = '(' :: (Nat.toDigits 10 c.toNat ++ [')']) := by
    rw [String.toList_append, String.toList_append]
    simp
  rw [number, ascii, text, List.map_cons, List.map_append]
  rfl

theorem length_number (c : UInt8) : (number c).length ≤ 5 := by
  have small : c.toNat < 10 ^ 3 := lt_trans c.toNat_lt (by decide)
  have digits := (Theory.Decimal.length_printed_le (by decide) (by decide)).mpr small
  rw [number_eq, List.length_cons, List.length_append, List.length_singleton]
  omega

/-- **A round of `flushchar` makes the measure smaller, or gives the end.** -/
theorem flushPass_spends (flushes : scrub.state.flushes = true) (text : Text) :
    PassSpends (measure scrub text) (flushPass target (keepOfFile target) symbolsOfFile scrub text) := by
  have small := credit_of_flushes flushes
  rcases text with _ | ⟨c, rest⟩
  · exact ⟨sane_of_flushes flushes, .inl rfl⟩
  have before := measure_flushes flushes (c :: rest)
  have low := two_le_charWeight c
  rw [weight] at before
  rw [flushPass]
  split_ifs with blank isSlash quote tick colon second line owed separator
  · exact blanks_spends target flushes _ (by
      have shorter := weight_dropWhile isWhitespace rest
      rw [before]
      omega)
  · rw [isSlash]
    exact slash_spends target flushes rest
  · have heavy : charWeight c = 24 := by
      rcases quote with rfl | ⟨rfl, _⟩ <;> rfl
    refine ⟨⟨by simp, fun _ => .inl flushes, by simp⟩, .inr ?_⟩
    rw [before]
    simp only [measure, Context.credit, State.credit, reduceCtorEq, if_false]
    omega
  · have heavy : charWeight c = 24 := by
      rw [tick]
      rfl
    have length := length_number (rest.headD 0)
    have drop := weight_tail rest
    refine ⟨⟨fun _ => .inl flushes, ?_, by simp⟩, .inr ?_⟩
    · rintro (string | escape)
      · cases string
      · cases escape
    · rw [before]
      simp only [measure, Context.credit, Context.outText, if_true, List.length_drop]
      omega
  · exact spends_flushes flushes (by rw [before]; omega)
  · exact spends_flushes rfl (by simp only [Context.newLine, State.credit]; omega)
  · exact spends_flushes rfl (by simp only [Context.newLine, State.credit]; omega)
  · exact spends_flushes rfl (by simp only [Context.newLine, State.credit, weight]; omega)
  · exact spends_flushes rfl (by simp only [Context.newLine, State.credit]; omega)
  · exact dealMisc_spends target flushes c rest

/-- A call at `flushchar` returns: every round that goes on has read something. -/
theorem flush_spends : ∀ (rounds : Nat) (scrub : Context) (text : Text),
    scrub.state.flushes = true → text.length < rounds → measure scrub text ≤ before →
    ∃ ch after rest, flush target (keepOfFile target) symbolsOfFile rounds scrub text = some (ch, after, rest)
      ∧ Spends before ch after rest
  | 0, _, text, _, enough, _ => absurd enough (Nat.not_lt_zero text.length)
  | rounds + 1, scrub, text, flushes, enough, less => by
      have spends := flushPass_spends target flushes text
      cases pass : flushPass target (keepOfFile target) symbolsOfFile scrub text with
      | done ch after rest =>
        rw [pass] at spends
        refine ⟨ch, after, rest, flush_done pass rounds, spends.1, ?_⟩
        exact spends.2.imp id (fun smaller => Nat.lt_of_lt_of_le smaller less)
      | again after rest =>
        rw [pass] at spends
        have shorter := pass_again pass
        rw [flush_again pass]
        exact flush_spends rounds after rest spends.1 (by omega) (Nat.le_trans (Nat.le_of_lt spends.2) less)

end Rounds

/-! ## One call -/

/-- The loop of the state 8 with no newline left. -/
def Stuck (scrub : Context) (text : Text) : Prop := scrub.state = .fileRest ∧ newline ∉ text

section Calls

variable (target : Target)

theorem toLineEnd_eq_nil {text : Text} : toLineEnd text = [] ↔ newline ∉ text := by
  rw [toLineEnd, List.dropWhile_eq_nil_iff]
  constructor
  · intro all here
    simpa using all newline here
  · intro absent c here
    simpa using ne_of_mem_of_not_mem here absent

theorem outText_next (scrub : Context) (state : State) :
    ({ scrub with state := state, outString := scrub.outString.next } : Context).outText = scrub.outText.tail := by
  rw [Context.outText, Context.outText]
  cases scrub.outString with
  | literal rest => rfl
  | buffer offset => simp [OutString.next, List.tail_drop]

variable {scrub : Context}

/-- What is put out comes to its end and leaves the saved state. -/
theorem output_spends (sane : Sane scrub) (output : scrub.state = .output) (text : Text) :
    ∃ ch after, doScrubNextChar target scrub text = some (some ch, after, text)
      ∧ Spends (measure scrub text) (some ch) after text := by
  obtain ⟨state, substate, oldState, outString, outBuf, addNewlines⟩ := scrub
  obtain rfl : state = .output := output
  have next := outText_next ⟨.output, substate, oldState, outString, outBuf, addNewlines⟩ .output
  refine ⟨_, _, rfl, ?_⟩
  have before : measure ⟨.output, substate, oldState, outString, outBuf, addNewlines⟩ text
      = weight text + 2 * addNewlines
        + ((⟨.output, substate, oldState, outString, outBuf, addNewlines⟩ : Context).outText.length + 1
          + oldState.credit) := rfl
  rw [before]
  dsimp only
  rw [next]
  have saved := sane.output rfl
  split
  · have left : ¬ oldState = .output ∧ ¬ (oldState = .string ∨ oldState = .escape) ∧ oldState ≠ .comment := by
      rcases saved with flushes | rfl | rfl
      · exact saves_nothing flushes
      · decide
      · decide
    refine ⟨⟨fun is => absurd is left.1, fun is => absurd is left.2.1, left.2.2⟩, .inr ?_⟩
    rw [measure, Context.credit, if_neg left.1]
    dsimp only
    omega
  · rename_i more
    refine ⟨⟨fun _ => saved, by simp, by simp⟩, .inr ?_⟩
    have shorter := List.length_pos_iff.mpr more
    rw [measure, Context.credit, if_pos rfl, next]
    rw [List.length_tail] at shorter ⊢
    dsimp only at shorter ⊢
    omega

/-- **A call returns, with less left to do, unless the rest of a line has no end.** -/
theorem doScrubNextChar_spends (sane : Sane scrub) (text : Text) (free : ¬ Stuck scrub text) :
    ∃ ch after rest, doScrubNextChar target scrub text = some (ch, after, rest)
      ∧ Spends (measure scrub text) ch after rest := by
  by_cases flushes : scrub.state.flushes = true
  · rw [doScrubNextChar, scrubNextChar_flushes flushes]
    exact flush_spends target (text.length + 1) scrub text flushes (Nat.lt_succ_self _) (Nat.le_refl _)
  by_cases output : scrub.state = .output
  · obtain ⟨ch, after, call, spends⟩ := output_spends target sane output text
    exact ⟨some ch, after, text, call, spends⟩
  have credit : scrub.credit = scrub.state.credit := if_neg output
  have before : measure scrub text = weight text + 2 * scrub.addNewlines + scrub.state.credit := by
    rw [measure, credit]
  rw [doScrubNextChar, scrubNextChar.eq_def, before]
  cases state : scrub.state with
  | lineStart | lineBlank | first | second | symbol | symbolBlank =>
    rw [state] at flushes
    exact absurd rfl flushes
  | output => exact absurd state output
  | comment => exact absurd state sane.comment
  | lineNumber =>
    rcases text with _ | ⟨c, rest⟩
    · exact ⟨none, scrub, [], rfl, sane, .inl rfl⟩
    have low := two_le_charWeight c
    dsimp only
    split
    · refine ⟨_, _, _, rfl, sane, .inr ?_⟩
      rw [measure, credit, state, weight]
      omega
    have shorter := weight_dropWhile isWhitespace (c :: rest)
    rw [afterLineNumber]
    split
    · refine ⟨_, _, _, rfl, ⟨fun _ => .inr (.inr rfl), by simp, by simp⟩, .inr ?_⟩
      have length : (ascii (if target.separator = 64 then "@ .file " else "; .file ")).length = 8 := by
        split <;> rfl
      rw [measure, Context.credit, if_pos rfl]
      simp only [Context.outText, List.length_tail, length, State.credit]
      omega
    · refine ⟨_, _, _, rfl, sane_of_flushes rfl, .inr ?_⟩
      have drop := Nat.le_trans (weight_tail _)
        (Nat.le_trans (weight_toLineEnd ((c :: rest).dropWhile isWhitespace)) shorter)
      rw [measure_flushes rfl]
      simp only [State.credit]
      omega
  | string =>
    have saved := sane.string (.inl state)
    have small : scrub.oldState.credit ≤ 1 ∧ ¬ scrub.oldState = .output
        ∧ ¬ (scrub.oldState = .string ∨ scrub.oldState = .escape) ∧ scrub.oldState ≠ .comment := by
      rcases saved with flushes | rest
      · exact ⟨credit_of_flushes flushes, saves_nothing flushes⟩
      · rw [rest]
        decide
    have back : ∀ left : Text, Sane { scrub with state := scrub.oldState }
        ∧ measure { scrub with state := scrub.oldState } left ≤ weight left + 2 * scrub.addNewlines + 1 := by
      intro left
      refine ⟨⟨fun is => absurd is small.2.1, fun is => absurd is small.2.2.1, small.2.2.2⟩, ?_⟩
      rw [measure, Context.credit, if_neg small.2.1]
      exact Nat.add_le_add_left small.1 _
    rcases text with _ | ⟨c, rest⟩
    · refine ⟨_, _, _, rfl, (back [newline]).1, .inr ?_⟩
      have newlineWeight : weight [newline] = 5 := rfl
      have less := (back [newline]).2
      simp only [State.credit]
      omega
    have low := two_le_charWeight c
    dsimp only
    rw [inString]
    split
    · refine ⟨_, _, _, rfl, (back rest).1, .inr ?_⟩
      have less := (back rest).2
      simp only [weight, State.credit]
      omega
    split
    · refine ⟨_, _, _, rfl, ⟨by simp, fun _ => saved, by simp⟩, .inr ?_⟩
      simp only [measure, Context.credit, weight, State.credit, reduceCtorEq, if_false]
      omega
    · refine ⟨_, _, _, rfl, sane, .inr ?_⟩
      rw [measure, credit, state, weight]
      omega
  | escape =>
    have saved := sane.string (.inr state)
    have string : Sane { scrub with state := .string } := ⟨by simp, fun _ => saved, by simp⟩
    rcases text with _ | ⟨c, rest⟩
    · refine ⟨_, _, _, rfl, string, .inr ?_⟩
      simp only [measure, Context.credit, State.credit, reduceCtorEq, if_false]
      omega
    have low := two_le_charWeight c
    dsimp only
    rw [inEscape]
    split
    · rename_i isNewline
      refine ⟨_, _, _, rfl, ⟨by simp, fun _ => saved, by simp⟩, .inr ?_⟩
      have newlineWeight : charWeight newline = 5 := rfl
      have plainWeight : charWeight 110 = 2 := rfl
      simp only [measure, Context.credit, weight, State.credit, reduceCtorEq, if_false, isNewline,
        newlineWeight, plainWeight]
      omega
    · refine ⟨_, _, _, rfl, string, .inr ?_⟩
      simp only [measure, Context.credit, weight, State.credit, reduceCtorEq, if_false]
      omega
  | fileName =>
    refine ⟨_, _, _, rfl, ⟨by simp, fun _ => .inr rfl, by simp⟩, .inr ?_⟩
    have drop := weight_tail text
    simp only [measure, Context.credit, State.credit, reduceCtorEq, if_false]
    omega
  | fileRest =>
    have some_ : toLineEnd text ≠ [] := fun none => free ⟨state, toLineEnd_eq_nil.mp none⟩
    dsimp only
    rw [if_neg some_]
    refine ⟨_, _, _, rfl, sane_of_flushes rfl, .inr ?_⟩
    rw [measure_flushes rfl]
    have drop := weight_toLineEnd text
    have less : weight (toLineEnd text).tail < weight (toLineEnd text) := by
      rcases is : toLineEnd text with _ | ⟨c, line⟩
      · exact absurd is some_
      · have low := two_le_charWeight c
        rw [weight, List.tail_cons]
        omega
    simp only [Context.newLine, State.credit]
    omega

theorem doScrubNextChar_stuck {text : Text} (stuck : Stuck scrub text) :
    doScrubNextChar target scrub text = none := by
  rw [doScrubNextChar, scrubNextChar.eq_def, stuck.1]
  exact if_pos (toLineEnd_eq_nil.mpr stuck.2)

/-! ## All calls -/

/-- The states the scrubber can be in, after any calls on any input. -/
inductive Reachable : Context → Prop
  | start : Reachable .start
  | call {scrub after : Context} {text rest : Text} {ch : Option UInt8} : Reachable scrub →
      doScrubNextChar target scrub text = some (ch, after, rest) → Reachable after

/-- Where so many calls have come to that all gave a character. -/
def afterCalls : Nat → Context → Text → Option (Context × Text)
  | 0, scrub, text => some (scrub, text)
  | calls + 1, scrub, text =>
    match doScrubNextChar target scrub text with
    | some (some _, after, rest) => afterCalls calls after rest
    | _ => none

def ReachesEof (scrub : Context) (text : Text) : Prop :=
  ∃ calls, none ∈ outputs (doScrubNextChar target) calls scrub text

/-- No call of the run is made in the loop that does not end. -/
def NeverStuck (scrub : Context) (text : Text) : Prop :=
  ∀ calls after rest, afterCalls target calls scrub text = some (after, rest) → ¬ Stuck after rest

theorem start_sane : Sane .start := sane_of_flushes rfl

theorem Reachable.sane (reachable : Reachable target scrub) : Sane scrub := by
  induction reachable with
  | start => exact start_sane
  | @call scrub after text rest ch _ call sane =>
    by_cases stuck : Stuck scrub text
    · rw [doScrubNextChar_stuck target stuck] at call
      cases call
    · obtain ⟨ch', after', rest', is, spends⟩ := doScrubNextChar_spends target sane text stuck
      rw [call] at is
      cases is
      exact spends.1

theorem NeverStuck.next {scrub after : Context} {text rest : Text} {c : UInt8}
    (never : NeverStuck target scrub text)
    (call : doScrubNextChar target scrub text = some (some c, after, rest)) : NeverStuck target after rest := by
  intro calls after' rest' reached
  apply never (calls + 1)
  rw [afterCalls, call]
  exact reached

theorem reachesEof_of_neverStuck : ∀ (bound : Nat) (scrub : Context) (text : Text), measure scrub text < bound →
    Sane scrub → NeverStuck target scrub text → ReachesEof target scrub text
  | 0, _, _, less, _, _ => absurd less (Nat.not_lt_zero _)
  | bound + 1, scrub, text, less, sane, never => by
      obtain ⟨ch, after, rest, call, sane', spent⟩ := doScrubNextChar_spends target sane text (never 0 _ _ rfl)
      cases ch with
      | none =>
        refine ⟨1, ?_⟩
        rw [outputs, call]
        exact List.mem_singleton_self _
      | some c =>
        have less' : measure after rest < measure scrub text := spent.resolve_left (by simp)
        obtain ⟨calls, ended⟩ := reachesEof_of_neverStuck bound after rest (by omega) sane' (never.next target call)
        refine ⟨calls + 1, ?_⟩
        rw [outputs, call]
        exact List.mem_cons_of_mem _ ended

theorem not_reachesEof_of_stuck : ∀ (calls : Nat) {scrub after : Context} {text rest : Text},
    afterCalls target calls scrub text = some (after, rest) → Stuck after rest → ¬ ReachesEof target scrub text
  | 0, scrub, after, text, rest, reached, stuck => by
      cases reached
      rintro ⟨_ | more, ended⟩
      · cases ended
      · rw [outputs, doScrubNextChar_stuck target stuck] at ended
        cases ended
  | calls + 1, scrub, after, text, rest, reached, stuck => by
      rw [afterCalls] at reached
      split at reached
      · rename_i c next left call
        rintro ⟨_ | more, ended⟩
        · cases ended
        · rw [outputs, call] at ended
          rcases List.mem_cons.mp ended with first | later
          · cases first
          · exact not_reachesEof_of_stuck calls reached stuck ⟨more, later⟩
      · cases reached

end Calls

/-- **Calls return and come to `EOF` if none of them drops the rest of a line that has no end.** -/
theorem doScrubNextChar_progress (target : Target) (scrub : Context) (text : Text)
    (reachable : Reachable target scrub) :
    ((∃ result, doScrubNextChar target scrub text = some result) ↔ ¬ Stuck scrub text)
      ∧ (ReachesEof target scrub text ↔ NeverStuck target scrub text) := by
  have sane := reachable.sane
  constructor
  · constructor
    · rintro ⟨result, call⟩ stuck
      rw [doScrubNextChar_stuck target stuck] at call
      cases call
    · intro free
      obtain ⟨ch, after, rest, call, _⟩ := doScrubNextChar_spends target sane text free
      exact ⟨_, call⟩
  · constructor
    · intro ended calls after rest reached stuck
      exact not_reachesEof_of_stuck target calls reached stuck ended
    · exact reachesEof_of_neverStuck target _ scrub text (Nat.lt_succ_self _) sane

theorem doScrubNextChar_progress_start :
    ((∃ result, doScrubNextChar .arm .start (ascii "a\n") = some result) ↔ ¬ Stuck .start (ascii "a\n"))
      ∧ (ReachesEof .arm .start (ascii "a\n") ↔ NeverStuck .arm .start (ascii "a\n")) :=
  doScrubNextChar_progress .arm .start (ascii "a\n") .start

/-- **A line number and a file's name at the end of the input.** -/
theorem lineNumber_never_ends : ¬ ReachesEof .arm .start (ascii "# 1 \"a\"") := by
  have stuck : ∃ found, afterCalls .arm 18 .start (ascii "# 1 \"a\"") = some found ∧ Stuck found.1 found.2 :=
    ⟨⟨⟨.fileRest, false, .fileRest, .literal [], [], 0⟩, []⟩, by decide, rfl, by simp⟩
  obtain ⟨⟨after, rest⟩, reached, stuck⟩ := stuck
  exact not_reachesEof_of_stuck .arm 18 reached stuck

end Cctools.Scrub
