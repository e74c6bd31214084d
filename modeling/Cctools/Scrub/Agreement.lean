/-
# Cctools.Scrub.Agreement -- a file and a string with one text

`outputs_agree_iff`: the two scrubbers put out the same characters if and only if no call
for the file takes one of the branches that only one of them has (`forks`):
`doScrubNextChar` keeps a blank between two symbol characters, on the i386 one more blank
of a line, and after a colon it is at the start of a line where
`doScrubNextCharFromString` is not.  What the other scrubber's state is follows from the
file's and from whether such a colon came since the last line end (`State.ofString`).
-/
import Cctools.Scrub.NextChar
import Mathlib.Tactic.Common

namespace Cctools.Scrub

open Cctools.Read (Text ascii newline)

set_option autoImplicit false

/-! ## Where they part -/

section Forks

variable (target : Target)

/-- The blank before `next` is put out. -/
def emits (state : State) (next : UInt8) : Bool :=
  !(target.isComment next || (state = .lineStart && target.isLineComment next) || next = 47 ||
      target.isLineSeparator next) &&
    (state = .lineStart || state = .first || (target.quotes && state = .second))

/-- Blanks of which only one of the two puts one out, and the other not in this call either. -/
def blankForks (file region : State) : Text → Bool
  | [] => false
  | next :: _ =>
    emits target file next != emits target region next &&
      !(emits target region next && (file = .symbol || file = .symbolBlank) && isSymbolComponent next)

/-- A symbol character before which there is still a blank to come, or the start of a line
comment for one of the two, unless it is a comment for the other. -/
def miscForks (file region : State) (c : UInt8) (rest : Text) : Bool :=
  (isSymbolComponent c && file = .symbolBlank) ||
    (file = .lineStart && region ≠ .lineStart && target.isLineComment c &&
      !(target.isComment c && !(rest.dropWhile isWhitespace).head?.any isDigit))

def passForks (file region : State) : Text → Bool
  | [] => false
  | c :: rest =>
    if c = 32 ∨ c = 9 then blankForks target file region (rest.dropWhile isWhitespace)
    else if c = 47 ∨ c = 34 ∨ c = 39 ∨ c = 58 ∨ c = newline ∨ c = target.separator then false
    else miscForks target file region c rest

/-- The state in which a string's scrubber is where a file's is in this one.  It has no states 9 and 10 and no
substate; if it is `late`, it took no notice of the end of a label. -/
def State.ofString (late substate : Bool) : State → State
  | .symbol | .symbolBlank => .second
  | .first => if late || substate then .second else .first
  | .lineStart => if late then .second else .lineStart
  | .lineBlank => if late then .second else .lineBlank
  | state => state

/-- In this state the blanks that come first are put out. -/
def putsBlank (region : State) : Text → Bool
  | [] => false
  | c :: rest => (c = 32 || c = 9) && (rest.dropWhile isWhitespace).head?.any (emits target region)

def flushForks : Nat → Bool → Context → Text → Bool
  | 0, _, _, _ => false
  | rounds + 1, late, scrub, text =>
    passForks target scrub.state (scrub.state.ofString late scrub.substate) text ||
      !putsBlank target (scrub.state.ofString late scrub.substate) text &&
        match flushPass target (keepOfFile target) symbolsOfFile scrub text with
        | .again scrub rest => flushForks rounds late scrub rest
        | .done _ _ _ => false

/-- The states in which a call starts at `flushchar`. -/
def State.flushes : State → Bool
  | .lineStart | .lineBlank | .first | .second | .symbol | .symbolBlank => true
  | _ => false

/-- The states to which a string, an escape or what is put out returns. -/
def State.rests : State → Bool
  | .lineStart | .lineBlank | .first | .second | .lineNumber | .fileName | .fileRest => true
  | _ => false

def State.saves : State → Bool
  | .string | .escape | .output | .comment => true
  | _ => false

/-- A colon in state 3 is no end of a label; the next line ends what is late. -/
def lateOf (late : Bool) (region : State) (ch : UInt8) : Bool :=
  if ch = newline ∨ ch = target.separator then false
  else if ch = 58 then region = .second
  else late

def lateAfter (late : Bool) (scrub : Context) (ch : UInt8) : Bool :=
  if scrub.state.flushes then lateOf target late (scrub.state.ofString late scrub.substate) ch
  else late && scrub.state.saves

/-- The next call for a file takes a branch that the function for a string does not have. -/
def forks (late : Bool) (scrub : Context) (text : Text) : Bool :=
  scrub.state.flushes && flushForks target (text.length + 1) late scrub text

/-- No one of so many calls for a file takes such a branch. -/
def Smooth : Nat → Bool → Context → Text → Prop
  | 0, _, _, _ => True
  | calls + 1, late, scrub, text =>
    forks target late scrub text = false ∧
      match doScrubNextChar target scrub text with
      | some (some ch, after, rest) => Smooth calls (lateAfter target late scrub ch) after rest
      | _ => True

end Forks

/-! ## Scrubbers that are alike -/

/-- The states before the second word of a line. -/
def State.begins : State → Bool
  | .lineStart | .lineBlank | .first => true
  | _ => false

/-- Two states, with the substate of the first. -/
inductive Twin (late : Bool) : Bool → State → State → Prop
  | same {state : State} : state.rests = true → (late && state.begins) = false → Twin late false state state
  | symbol : Twin late false .symbol .second
  | symbolBlank : Twin late false .symbolBlank .second
  | lineStart : late = true → Twin late false .lineStart .second
  | lineBlank : late = true → Twin late false .lineBlank .second
  | first (substate : Bool) : (late || substate) = true → Twin late substate .first .second

/-- The state after a string or what is put out. -/
def Context.resume (scrub : Context) : State :=
  match scrub.state with
  | .string | .escape | .output | .comment => scrub.oldState
  | state => state

structure Alike (late : Bool) (file region : Context) : Prop where
  outString : file.outString = region.outString
  outBuf : file.outBuf = region.outBuf
  addNewlines : file.addNewlines = region.addNewlines
  substate : region.substate = false
  twin : Twin late file.substate file.resume region.resume
  saved : file.state.saves = true ∨ region.state.saves = true → file.state = region.state

theorem start_alike : Alike false .start .start :=
  ⟨rfl, rfl, rfl, rfl, .same rfl rfl, fun _ => rfl⟩

/-- Between two rounds. -/
structure Mates (late : Bool) (file region : Context) : Prop where
  outString : file.outString = region.outString
  outBuf : file.outBuf = region.outBuf
  addNewlines : file.addNewlines = region.addNewlines
  substate : region.substate = false
  twin : Twin late file.substate file.state region.state
  flushes : file.state.flushes = true

variable {late : Bool}

theorem Twin.onTime {state : State} (rests : state.rests = true) (notLate : late = false) : Twin late false state state :=
  .same rests (by rw [notLate]; rfl)

theorem Twin.second : Twin late false .second .second := .same rfl (Bool.and_false late)

theorem Twin.eq {substate : Bool} {file region : State} (twin : Twin late substate file region) :
    region = file.ofString late substate := by
  cases twin with
  | same rests early => cases file <;> simp_all [State.ofString, State.begins, State.rests]
  | _ => simp_all [State.ofString]

theorem Twin.not_saves {substate : Bool} {file region : State} (twin : Twin late substate file region) :
    file.saves = false ∧ region.saves = false := by
  cases twin with
  | same rests => cases file <;> first | exact ⟨rfl, rfl⟩ | cases rests
  | symbol => exact ⟨rfl, rfl⟩
  | symbolBlank => exact ⟨rfl, rfl⟩
  | lineStart => exact ⟨rfl, rfl⟩
  | lineBlank => exact ⟨rfl, rfl⟩
  | first => exact ⟨rfl, rfl⟩

theorem resume_of_not_saves {scrub : Context} (not_ : scrub.state.saves = false) : scrub.resume = scrub.state := by
  rw [Context.resume]
  split <;> first | rfl | (rename_i is; rw [is] at not_; cases not_)

variable {file region : Context}

theorem alike_of_twin (outString : file.outString = region.outString)
    (outBuf : file.outBuf = region.outBuf) (addNewlines : file.addNewlines = region.addNewlines)
    (substate : region.substate = false) (twin : Twin late file.substate file.state region.state) : Alike late file region := by
  obtain ⟨one, two⟩ := twin.not_saves
  refine ⟨outString, outBuf, addNewlines, substate, ?_, ?_⟩
  · rwa [resume_of_not_saves one, resume_of_not_saves two]
  · rintro (saves | saves)
    · rw [one] at saves
      cases saves
    · rw [two] at saves
      cases saves

theorem Mates.alike (mates : Mates late file region) : Alike late file region :=
  alike_of_twin mates.outString mates.outBuf mates.addNewlines mates.substate mates.twin

theorem newLine_alike (mates : Mates late file region) : Alike false file.newLine region.newLine :=
  alike_of_twin mates.outString mates.outBuf mates.addNewlines rfl (.same rfl rfl)

theorem saved_alike (twin : Twin late file.substate file.oldState region.oldState)
    (outString : file.outString = region.outString) (outBuf : file.outBuf = region.outBuf)
    (addNewlines : file.addNewlines = region.addNewlines) (substate : region.substate = false)
    (same : file.state = region.state) (saves : region.state.saves = true) : Alike late file region := by
  have resumes {scrub : Context} (saves : scrub.state.saves = true) : scrub.resume = scrub.oldState := by
    rw [Context.resume]
    cases is : scrub.state <;> rw [is] at saves <;> first | rfl | cases saves
  refine ⟨outString, outBuf, addNewlines, substate, ?_, fun _ => same⟩
  rwa [resumes (same ▸ saves), resumes saves]

/-! ## One round -/

/-- The two rounds end alike, with what is late after each character; or they go on, and the
string's scrubber is still in its state. -/
inductive Joined (late : Bool) (after : UInt8 → Bool) (state : State) : Pass → Pass → Prop
  | last {file region : Context} {rest : Text} :
      Joined late after state (.done none file rest) (.done none region rest)
  | done {ch : UInt8} {file region : Context} {rest : Text} :
      Alike (after ch) file region → Joined late after state (.done (some ch) file rest) (.done (some ch) region rest)
  | again {file region : Context} {rest : Text} :
      Mates late file region → region.state = state →
        Joined late after state (.again file rest) (.again region rest)

section Rounds

variable {target : Target} {file region : Context}

theorem toLineEnd_dropWhile (rest : Text) : toLineEnd (rest.dropWhile isWhitespace) = toLineEnd rest := by
  induction rest with
  | nil => rfl
  | cons c rest ih =>
    rw [List.dropWhile_cons]
    split
    · rename_i blank
      have inLine : decide (c ≠ newline) = true := by
        apply decide_eq_true
        rintro rfl
        cases blank
      rw [ih, toLineEnd, toLineEnd, List.dropWhile_cons, if_pos inLine]
    · rfl

theorem no_slash_comment (target : Target) : target.isComment 47 = false ∧ target.isLineComment 47 = false := by
  cases target <;> exact ⟨rfl, rfl⟩

variable {next : UInt8}

theorem blanks_dropped
    (dropped : (target.isComment next || decide (next = 47) || target.isLineSeparator next) = true)
    (keep : Context → Text → Pass) (scrub : Context) (rest : Text) :
    blanks target keep scrub (next :: rest) = .again scrub (next :: rest) := by
  apply if_pos
  simp only [Bool.or_eq_true] at dropped ⊢
  rcases dropped with (is | is) | is <;> simp [is]

variable {state : State}

theorem emits_dropped
    (dropped : (target.isComment next || decide (next = 47) || target.isLineSeparator next) = true) :
    emits target state next = false := by
  simp only [Bool.or_eq_true] at dropped
  rw [emits]
  rcases dropped with (is | is) | is <;> simp [is]

theorem blanks_kept
    (kept : ¬ (target.isComment next || decide (next = 47) || target.isLineSeparator next) = true)
    (keep : Context → Text → Pass) (scrub : Context) (rest : Text) :
    blanks target keep scrub (next :: rest) =
        (if (scrub.state = .lineStart && target.isLineComment next) = true then .again scrub (next :: rest)
          else keep scrub (next :: rest)) ∧
      emits target scrub.state next = (!(scrub.state = .lineStart && target.isLineComment next) &&
        (scrub.state = .lineStart || scrub.state = .first || (target.quotes && scrub.state = .second))) := by
  simp only [Bool.or_eq_true, not_or, Bool.not_eq_true] at kept
  obtain ⟨⟨comment, slash⟩, separator⟩ := kept
  rw [blanks, emits, comment, slash, separator]
  simp

section Deal

variable {after : UInt8 → Bool}

/-- Blanks: the file may put the blank out when it comes to the symbol character that follows. -/
theorem blanks_joined (mates : Mates late file region) (blank : after 32 = late) {text : Text}
    (fine : blankForks target file.state region.state text = false) :
    Joined late after region.state (blanks target (keepOfFile target) file text) (blanks target (keepOfString target) region text) ∨
      ∃ next rest, text = next :: rest ∧ isSymbolComponent next = true ∧ region.state = .second ∧
        (file.state = .symbol ∨ file.state = .symbolBlank) ∧
        blanks target (keepOfFile target) file text = .again { file with state := .symbolBlank } text ∧
          blanks target (keepOfString target) region text = .done (some 32) region text := by
  rcases text with _ | ⟨next, rest⟩
  · exact .inl .last
  by_cases dropped : (target.isComment next || decide (next = 47) || target.isLineSeparator next) = true
  · rw [blanks_dropped dropped, blanks_dropped dropped]
    exact .inl (.again mates rfl)
  rw [blankForks, (blanks_kept dropped (keepOfFile target) file rest).2,
    (blanks_kept dropped (keepOfString target) region rest).2] at fine
  rw [(blanks_kept dropped (keepOfFile target) file rest).1, (blanks_kept dropped (keepOfString target) region rest).1]
  obtain ⟨state, substate, oldState, outString, outBuf, addNewlines⟩ := file
  obtain ⟨state', substate', oldState', outString', outBuf', addNewlines'⟩ := region
  obtain ⟨rfl, rfl, rfl, rfl, twin, flushes⟩ := mates
  dsimp only at twin flushes fine ⊢
  have twins {sub : Bool} {one two : State} (twin : Twin late sub one two) {old old' : State} :
      Joined late after state' (.done (some 32) ⟨one, sub, old, outString, outBuf, addNewlines⟩ (next :: rest))
        (.done (some 32) ⟨two, false, old', outString, outBuf, addNewlines⟩ (next :: rest)) :=
    .done (alike_of_twin rfl rfl rfl rfl (by rw [blank]; exact twin))
  have goOn {sub : Bool} {one : State} (twin : Twin late sub one state') (flushes : one.flushes = true)
      {old old' : State} :
      Joined late after state' (.again ⟨one, sub, old, outString, outBuf, addNewlines⟩ (next :: rest))
        (.again ⟨state', false, old', outString, outBuf, addNewlines⟩ (next :: rest)) :=
    .again ⟨rfl, rfl, rfl, rfl, twin, flushes⟩ rfl
  cases twin with
  | same rests early =>
    left
    cases state with
    | lineStart =>
      have notLate : late = false := (Bool.and_true late).symm.trans early
      by_cases lineComment : target.isLineComment next = true
      · simpa [lineComment] using goOn (.onTime rfl notLate) rfl
      · simpa [lineComment, keepOfFile, keepOfString] using twins (.onTime rfl notLate)
    | lineBlank => simpa [keepOfFile, keepOfString] using goOn (.same rfl early) rfl
    | first =>
      by_cases i386 : target.isI386 = true
      · simpa [i386, keepOfFile, keepOfString] using twins (.first true (Bool.or_true late))
      · simpa [i386, keepOfFile, keepOfString] using twins .second
    | second =>
      by_cases quotes : target.quotes = true
      · simpa [quotes, keepOfFile, keepOfString] using twins .second
      · simpa [quotes, keepOfFile, keepOfString] using goOn .second rfl
    | lineNumber | fileName | fileRest => cases flushes
    | _ => cases rests
  | symbol =>
    by_cases quotes : target.quotes = true
    · have symbol : isSymbolComponent next = true := by simpa [quotes] using fine
      exact .inr ⟨next, rest, rfl, symbol, rfl, .inl rfl, by simp [keepOfFile], by simp [keepOfString, quotes]⟩
    · left
      simpa [quotes, keepOfFile, keepOfString] using goOn .symbolBlank rfl
  | symbolBlank =>
    by_cases quotes : target.quotes = true
    · have symbol : isSymbolComponent next = true := by simpa [quotes] using fine
      exact .inr ⟨next, rest, rfl, symbol, rfl, .inr rfl, by simp [keepOfFile], by simp [keepOfString, quotes]⟩
    · left
      simpa [quotes, keepOfFile, keepOfString] using goOn .symbolBlank rfl
  | lineStart isLate =>
    left
    by_cases quotes : target.quotes = true
    · have text : target.isLineComment next = false := by simpa [quotes] using fine
      simpa [quotes, text, keepOfFile, keepOfString] using twins (.lineBlank isLate)
    · have comment : target.isLineComment next = true := by simpa [quotes] using fine
      simpa [quotes, comment, keepOfFile, keepOfString] using goOn (.lineStart isLate) rfl
  | lineBlank isLate =>
    left
    have quotes : target.quotes = false := by simpa using fine
    simpa [quotes, keepOfFile, keepOfString] using goOn (.lineBlank isLate) rfl
  | first =>
    left
    have quotes : target.quotes = true := by simpa using fine
    have i386 : target.isI386 = false := by cases target <;> first | rfl | cases quotes
    simpa [quotes, i386, keepOfFile, keepOfString] using twins .second

theorem dealMisc_joined (mates : Mates late file region) {c : UInt8} {rest : Text} (ends : after newline = false)
    (keeps : after c = late) (fine : miscForks target file.state region.state c rest = false) :
    Joined late after region.state (dealMisc target symbolsOfFile file c rest) (dealMisc target symbolsOfString region c rest) := by
  obtain ⟨state, substate, oldState, outString, outBuf, addNewlines⟩ := file
  obtain ⟨state', substate', oldState', outString', outBuf', addNewlines'⟩ := region
  obtain ⟨rfl, rfl, rfl, rfl, twin, flushes⟩ := mates
  have twins {sub : Bool} {one two : State} (twin : Twin late sub one two) {old old' : State} {rest : Text} :
      Joined late after state' (.done (some c) ⟨one, sub, old, outString, outBuf, addNewlines⟩ rest)
        (.done (some c) ⟨two, false, old', outString, outBuf, addNewlines⟩ rest) :=
    .done (alike_of_twin rfl rfl rfl rfl (by rw [keeps]; exact twin))
  have lines {old old' : State} {rest : Text} :
      Joined late after state' (.done (some newline) ⟨.lineStart, false, old, outString, outBuf, addNewlines⟩ rest)
        (.done (some newline) ⟨.lineStart, false, old', outString, outBuf, addNewlines⟩ rest) :=
    .done (alike_of_twin rfl rfl rfl rfl (.same rfl (by rw [ends]; rfl)))
  -- in the middle of a line for both
  have inLine {sub : Bool} {one two : State} (twin : Twin late sub one two) (notOne : one ≠ .lineStart ∧ one ≠ .lineBlank)
      (notTwo : two ≠ .lineStart ∧ two ≠ .lineBlank) {old old' : State} :
      Joined late after state' (misc target ⟨one, sub, old, outString, outBuf, addNewlines⟩ c rest)
        (misc target ⟨two, false, old', outString, outBuf, addNewlines⟩ c rest) := by
    by_cases comment : target.isComment c = true
    · simpa [misc, comment, notOne, notTwo, Context.newLine] using lines
    · simpa [misc, comment, notOne, notTwo] using twins twin
  cases twin with
  | same rests early =>
    cases state with
    | lineStart =>
      have notLate : late = false := (Bool.and_true late).symm.trans early
      have deal : symbolsOfFile ⟨.lineStart, false, oldState, outString, outBuf, addNewlines⟩ c =
          some ⟨.lineStart, false, oldState, outString, outBuf, addNewlines⟩ := by
        simp [symbolsOfFile]
      rw [dealMisc, dealMisc, deal, symbolsOfString]
      dsimp only
      rw [misc, misc]
      by_cases lineComment : target.isLineComment c = true
      · rw [lineComment]
        rcases rest.dropWhile isWhitespace with _ | ⟨digit, line⟩
        · exact lines
        by_cases isDigit_ : isDigit digit = true
        · simpa [isDigit_] using
            .done (saved_alike (.same rfl (Bool.and_false _)) rfl rfl rfl rfl rfl rfl)
        · simpa [isDigit_, Context.newLine] using lines
      · by_cases comment : target.isComment c = true
        · simpa [lineComment, comment, Context.newLine] using lines
        · simpa [lineComment, comment] using twins (.onTime rfl notLate)
    | lineBlank =>
      have notLate : late = false := (Bool.and_true late).symm.trans early
      by_cases comment : target.isComment c = true
      · simpa [dealMisc, symbolsOfFile, symbolsOfString, misc, comment, Context.newLine] using lines
      · simpa [dealMisc, symbolsOfFile, symbolsOfString, misc, comment] using twins (.onTime rfl notLate)
    | first =>
      have notLate : late = false := (Bool.and_true late).symm.trans early
      simpa [dealMisc, symbolsOfFile, symbolsOfString] using inLine (.onTime rfl notLate) (by decide) (by decide)
    | second =>
      by_cases symbol : isSymbolComponent c = true
      · simpa [dealMisc, symbolsOfFile, symbolsOfString, symbol] using inLine .symbol (by decide) (by decide)
      · simpa [dealMisc, symbolsOfFile, symbolsOfString, symbol] using inLine .second (by decide) (by decide)
    | lineNumber | fileName | fileRest => cases flushes
    | _ => cases rests
  | symbol =>
    by_cases symbol : isSymbolComponent c = true
    · simpa [dealMisc, symbolsOfFile, symbolsOfString, symbol] using inLine .symbol (by decide) (by decide)
    · simpa [dealMisc, symbolsOfFile, symbolsOfString, symbol] using
        inLine .second (by decide) (by decide)
  | symbolBlank =>
    have other : isSymbolComponent c = false := by
      simp only [miscForks, Bool.or_eq_false_iff] at fine
      simpa using fine.1
    simpa [dealMisc, symbolsOfFile, symbolsOfString, other] using
      inLine .second (by decide) (by decide)
  | lineStart isLate =>
    have deal : symbolsOfFile ⟨.lineStart, false, oldState, outString, outBuf, addNewlines⟩ c =
        some ⟨.lineStart, false, oldState, outString, outBuf, addNewlines⟩ := by
      simp [symbolsOfFile]
    rw [dealMisc, dealMisc, deal, symbolsOfString]
    dsimp only
    rw [misc, misc]
    by_cases comment : target.isComment c = true
    · by_cases lineComment : target.isLineComment c = true
      · have noDigit : (rest.dropWhile isWhitespace).head?.any isDigit = false := by
          simpa [miscForks, comment, lineComment] using fine
        rw [← toLineEnd_dropWhile rest]
        rcases line : rest.dropWhile isWhitespace with _ | ⟨digit, line⟩
        · simpa [lineComment, comment, Context.newLine, toLineEnd] using lines
        · rw [line] at noDigit
          have notDigit : isDigit digit = false := noDigit
          simpa [lineComment, comment, notDigit, Context.newLine] using lines
      · simpa [lineComment, comment, Context.newLine] using lines
    · have text : target.isLineComment c = false := by
        simpa [miscForks, comment] using fine
      simpa [text, comment] using twins (.first false (by rw [isLate]; rfl))
  | lineBlank isLate =>
    by_cases comment : target.isComment c = true
    · simpa [dealMisc, symbolsOfFile, symbolsOfString, misc, comment, Context.newLine] using lines
    · simpa [dealMisc, symbolsOfFile, symbolsOfString, misc, comment] using twins (.first false (by rw [isLate]; rfl))
  | first sub isLate =>
    simpa [dealMisc, symbolsOfFile, symbolsOfString] using inLine (.first substate isLate) (by decide) (by decide)

theorem slash_joined (mates : Mates late file region) (keeps : after 47 = late) (rest : Text) :
    Joined late after region.state (slash target symbolsOfFile file rest) (slash target symbolsOfString region rest) := by
  obtain ⟨noComment, noLineComment⟩ := no_slash_comment target
  rw [slash, slash, noComment, noLineComment]
  split
  · exact .again ⟨mates.outString, mates.outBuf, by rw [mates.addNewlines], mates.substate, mates.twin, mates.flushes⟩ rfl
  split
  · exact .again mates rfl
  · simpa using .done (keeps.symm ▸ mates.alike)

end Deal

variable (target) in
theorem blanks_region (scrub : Context) (next : UInt8) (rest : Text) :
    if emits target scrub.state next = true then
      ∃ after, blanks target (keepOfString target) scrub (next :: rest) = .done (some 32) after (next :: rest)
    else blanks target (keepOfString target) scrub (next :: rest) = .again scrub (next :: rest) := by
  by_cases dropped : (target.isComment next || decide (next = 47) || target.isLineSeparator next) = true
  · rw [emits_dropped dropped, blanks_dropped dropped]
    rfl
  · obtain ⟨is, emitsIs⟩ := blanks_kept dropped (keepOfString target) scrub rest
    rw [is, emitsIs, keepOfString]
    split_ifs <;> simp_all

/-! ## What is late -/

theorem no_separator {c : UInt8} (noAt : c ≠ 64) (noSemicolon : c ≠ 59) : c ≠ target.separator := by
  cases target <;> assumption

theorem lateOf_newline : lateOf target late state newline = false := if_pos (.inl rfl)

theorem lateOf_other {c : UInt8} (noNewline : c ≠ newline) (noSeparator : c ≠ target.separator)
    (noColon : c ≠ 58) : lateOf target late state c = late := by
  rw [lateOf, if_neg (not_or.mpr ⟨noNewline, noSeparator⟩), if_neg noColon]

theorem lateOf_colon : lateOf target late state 58 = decide (state = .second) := by
  rw [lateOf, if_neg (not_or.mpr ⟨by decide, no_separator (by decide) (by decide)⟩), if_pos rfl]

variable {substate : Bool}

theorem Twin.of_second (twin : Twin late substate .second state) : state = .second := by
  cases twin
  rfl

theorem Twin.substate_of_second (twin : Twin late substate .second state) :
    substate = false := by
  cases twin
  rfl

theorem Twin.of_symbol {file region : State} (twin : Twin late substate file region)
    (symbol : file = .symbol) : substate = false := by
  cases twin <;> first | rfl | cases symbol

theorem Twin.of_symbolBlank {file region : State} (twin : Twin late substate file region)
    (symbolBlank : file = .symbolBlank) : substate = false := by
  cases twin <;> first | rfl | cases symbolBlank

theorem Twin.substate_of_line {file region : State} (twin : Twin late substate file region)
    (line : file.flushes = false) : substate = false := by
  cases twin <;> first | rfl | cases line

theorem colon_alike (mates : Mates late file region) :
    Alike (decide (region.state = .second)) (if file.state = .second then file else file.newLine)
      (if region.state = .second then region else region.newLine) := by
  by_cases fileSecond : file.state = .second
  · have regionSecond : region.state = .second := (fileSecond ▸ mates.twin).of_second
    rw [if_pos fileSecond, if_pos regionSecond]
    refine alike_of_twin mates.outString mates.outBuf mates.addNewlines mates.substate ?_
    have twin := mates.twin
    rw [fileSecond] at twin
    rw [fileSecond, regionSecond, twin.substate_of_second]
    exact .second
  · rw [if_neg fileSecond]
    by_cases regionSecond : region.state = .second
    · rw [if_pos regionSecond]
      refine alike_of_twin mates.outString mates.outBuf mates.addNewlines mates.substate ?_
      rw [regionSecond]
      exact .lineStart rfl
    · rw [if_neg regionSecond, decide_eq_false regionSecond]
      exact newLine_alike mates

theorem pass_joined (mates : Mates late file region) {text : Text}
    (fine : passForks target file.state region.state text = false) :
    Joined late (lateOf target late region.state) region.state (flushPass target (keepOfFile target) symbolsOfFile file text)
        (flushPass target (keepOfString target) symbolsOfString region text) ∨
      ∃ next rest, putsBlank target region.state text = true ∧ isSymbolComponent next = true ∧ region.state = .second ∧
        (file.state = .symbol ∨ file.state = .symbolBlank) ∧
        flushPass target (keepOfFile target) symbolsOfFile file text =
            .again { file with state := .symbolBlank } (next :: rest) ∧
          flushPass target (keepOfString target) symbolsOfString region text = .done (some 32) region (next :: rest) := by
  rcases text with _ | ⟨c, rest⟩
  · exact .inl .last
  have plain {ch : UInt8} (mark : ch = 32 ∨ ch = 47 ∨ ch = 34 ∨ ch = 39 ∨ ch = 40) :
      lateOf target late region.state ch = late := by
    rcases mark with rfl | rfl | rfl | rfl | rfl <;>
      exact lateOf_other (by decide) (no_separator (by decide) (by decide)) (by decide)
  rw [passForks] at fine
  rw [flushPass, flushPass]
  split at fine
  · rename_i blank
    rw [if_pos blank, if_pos blank]
    rcases blanks_joined mates (plain (.inl rfl)) fine with joined | ⟨next, rest, is, symbol, second, state, again, done⟩
    · exact .inl joined
    · refine .inr ⟨next, rest, ?_, symbol, second, state, is ▸ again, is ▸ done⟩
      have puts := blanks_region target region next rest
      rw [is] at done
      rw [putsBlank, is]
      by_contra silent
      rw [if_neg (by simpa [blank] using silent), done] at puts
      cases puts
  rename_i noBlank
  rw [if_neg noBlank, if_neg noBlank]
  left
  split at fine
  · by_cases slash : c = 47
    · rw [if_pos slash, if_pos slash]
      exact slash_joined mates (plain (.inr (.inl rfl))) rest
    rw [if_neg slash, if_neg slash]
    split
    · rename_i quotes
      refine .done (saved_alike ?_ mates.outString mates.outBuf mates.addNewlines mates.substate rfl rfl)
      rw [plain (by rcases quotes with is | is <;> simp [is])]
      exact mates.twin
    split
    · refine .done (saved_alike ?_ rfl rfl mates.addNewlines mates.substate rfl rfl)
      rw [plain (by simp)]
      exact mates.twin
    split
    · rename_i colon
      refine .done ?_
      rw [colon, lateOf_colon]
      exact colon_alike mates
    split
    · rename_i newLine
      rw [mates.addNewlines]
      split
      · refine .done ?_
        rw [newLine, lateOf_newline]
        exact newLine_alike mates
      · refine .done (alike_of_twin mates.outString mates.outBuf rfl rfl ?_)
        rw [newLine, lateOf_newline]
        exact .same rfl rfl
    split
    · rename_i separator
      refine .done ?_
      rw [lateOf, if_pos (.inr separator)]
      exact newLine_alike mates
    · rename_i marks noQuotes noQuote noColon noNewline noSeparator
      exfalso
      simp_all
  · rename_i noMark
    simp only [not_or] at noMark
    obtain ⟨noSlash, noQuotes, noQuote, noColon, noNewline, noSeparator⟩ := noMark
    simpa [noSlash, noQuotes, noQuote, noColon, noNewline, noSeparator] using
      dealMisc_joined mates lateOf_newline (lateOf_other noNewline noSeparator noColon) fine

/-! ## A round of a fork -/

theorem misc_visible (scrub : Context) {c : UInt8} (rest : Text) (noBlank : c ≠ 32) :
    ∃ ch after left, misc target scrub c rest = .done (some ch) after left ∧ ch ≠ 32 := by
  rw [misc]
  split
  · split
    · exact ⟨_, _, _, rfl, by decide⟩
    · split
      · exact ⟨_, _, _, rfl, by decide⟩
      · exact ⟨_, _, _, rfl, by decide⟩
  split
  · exact ⟨_, _, _, rfl, by decide⟩
  split
  · exact ⟨_, _, _, rfl, noBlank⟩
  · exact ⟨_, _, _, rfl, noBlank⟩

variable {symbols : Context → UInt8 → Option Context} {scrub after : Context} {keep : Context → Text → Pass}

theorem pass_visible (rest : Text) (visible : isWhitespace next = false) (noSlash : next ≠ 47)
    (goesOn : symbols scrub next = some after) :
    ∃ ch after left, flushPass target keep symbols scrub (next :: rest) = .done (some ch) after left ∧ ch ≠ 32 := by
  simp only [isWhitespace, Bool.or_eq_false_iff, decide_eq_false_iff_not] at visible
  obtain ⟨⟨noBlank, noTab⟩, -⟩ := visible
  rw [flushPass, if_neg (not_or.mpr ⟨noBlank, noTab⟩), if_neg noSlash]
  split
  · exact ⟨_, _, _, rfl, noBlank⟩
  split
  · exact ⟨_, _, _, rfl, by decide⟩
  split
  · exact ⟨_, _, _, rfl, noBlank⟩
  split
  · split
    · exact ⟨_, _, _, rfl, noBlank⟩
    · exact ⟨_, _, _, rfl, noBlank⟩
  split
  · exact ⟨_, _, _, rfl, noBlank⟩
  · rw [dealMisc, goesOn]
    exact misc_visible after rest noBlank

variable (target) in
theorem blanks_file (scrub : Context) (next : UInt8) (rest : Text) :
    if emits target scrub.state next = true then
      ∃ after, blanks target (keepOfFile target) scrub (next :: rest) = .done (some 32) after (next :: rest)
    else ∃ after, blanks target (keepOfFile target) scrub (next :: rest) = .again after (next :: rest) ∧
      (after.state = .symbolBlank → scrub.state = .symbol ∨ scrub.state = .symbolBlank) := by
  by_cases dropped : (target.isComment next || decide (next = 47) || target.isLineSeparator next) = true
  · rw [emits_dropped dropped, blanks_dropped dropped]
    exact ⟨scrub, rfl, .inr⟩
  · obtain ⟨is, emitsIs⟩ := blanks_kept dropped (keepOfFile target) scrub rest
    rw [is, emitsIs, keepOfFile]
    split_ifs <;> simp_all

/-- The two put out different characters. -/
def Parted (file region : Option (Option UInt8 × Context × Text)) : Prop :=
  ∃ first second, file.map Prod.fst = some (some first) ∧ region.map Prod.fst = some (some second) ∧ first ≠ second

variable {text left : Text}

theorem flush_done {ch : Option UInt8} (done : flushPass target keep symbols scrub text = .done ch after left)
    (rounds : Nat) : flush target keep symbols (rounds + 1) scrub text = some (ch, after, left) := by
  rw [flush, done]

theorem flush_again (again : flushPass target keep symbols scrub text = .again after left) (rounds : Nat) :
    flush target keep symbols (rounds + 1) scrub text = flush target keep symbols rounds after left := by
  rw [flush, again]

variable {scrub : Context}

theorem blank_pass {c : UInt8} (blank : c = 32 ∨ c = 9) (rest : Text) :
    flushPass target keep symbols scrub (c :: rest) = blanks target keep scrub (rest.dropWhile isWhitespace) := by
  rw [flushPass, if_pos blank]

theorem not_slash_of_emits (is : emits target state next = true) : next ≠ 47 := by
  rintro rfl
  simp [emits] at is

theorem blanks_parted {c : UInt8} {rest : Text} (blank : c = 32 ∨ c = 9)
    (forks : blankForks target file.state region.state (rest.dropWhile isWhitespace) = true) (rounds : Nat) :
    Parted (flush target (keepOfFile target) symbolsOfFile (rounds + 2) file (c :: rest))
      (flush target (keepOfString target) symbolsOfString (rounds + 2) region (c :: rest)) := by
  rcases dropped : rest.dropWhile isWhitespace with _ | ⟨next, left⟩
  · rw [dropped] at forks
    cases forks
  have visible : isWhitespace next = false := by
    have := List.head?_dropWhile_not isWhitespace rest
    rw [dropped] at this
    simpa using this
  rw [dropped, blankForks] at forks
  simp only [Bool.and_eq_true, bne_iff_ne, ne_eq, Bool.not_eq_true', Bool.and_eq_false_iff] at forks
  obtain ⟨one, noSymbol⟩ := forks
  have filePass := blanks_file target file next left
  have regionPass := blanks_region target region next left
  rw [← dropped, ← blank_pass blank] at filePass regionPass
  by_cases fileEmits : emits target file.state next = true
  · have regionSilent : ¬ emits target region.state next = true := fun is => one (fileEmits.trans is.symm)
    rw [if_pos fileEmits] at filePass
    rw [if_neg regionSilent] at regionPass
    obtain ⟨after, done⟩ := filePass
    obtain ⟨ch, after', left', seen, other⟩ :=
      pass_visible left visible (not_slash_of_emits fileEmits) (symbolsOfString.eq_1 region next)
    rw [flush_done done, flush_again regionPass, dropped, flush_done seen]
    exact ⟨_, _, rfl, rfl, other.symm⟩
  · have regionEmits : emits target region.state next = true := by
      rw [Bool.not_eq_true] at fileEmits
      rw [fileEmits] at one
      simpa using one
    rw [if_neg fileEmits] at filePass
    rw [if_pos regionEmits] at regionPass
    obtain ⟨after, done⟩ := regionPass
    obtain ⟨mid, again, symbolBlank⟩ := filePass
    have goesOn : ∃ last, symbolsOfFile mid next = some last := by
      rw [symbolsOfFile]
      split
      · rename_i symbol
        have notBlank : mid.state ≠ .symbolBlank := fun is => by
          rcases symbolBlank is with is | is <;> simp [regionEmits, symbol, is] at noSymbol
        rw [if_neg notBlank]
        exact ⟨_, rfl⟩
      · exact ⟨_, rfl⟩
    obtain ⟨last, goesOn⟩ := goesOn
    obtain ⟨ch, after', left', seen, other⟩ :=
      pass_visible left visible (not_slash_of_emits regionEmits) goesOn
    rw [flush_done done, flush_again again, dropped, flush_done seen]
    exact ⟨_, _, rfl, rfl, other⟩

theorem lineComment_digit {c : UInt8} {rest : Text} (start : scrub.state = .lineStart)
    (lineComment : target.isLineComment c = true) (digit : (rest.dropWhile isWhitespace).head?.any isDigit = true) :
    ∃ after left, misc target scrub c rest = .done (some 46) after left := by
  rw [misc, start, lineComment]
  rcases line : rest.dropWhile isWhitespace with _ | ⟨next, left⟩
  · rw [line] at digit
    cases digit
  · rw [line] at digit
    have isDigit_ : isDigit next = true := digit
    simp [isDigit_]

theorem lineComment_visible {c : UInt8} (start : scrub.state = .lineStart)
    (lineComment : target.isLineComment c = true) (rest : Text) :
    ∃ ch after left, misc target scrub c rest = .done (some ch) after left ∧ ch ≠ 35 := by
  rw [misc, start, lineComment, decide_eq_true rfl, Bool.and_self, if_pos rfl]
  split
  · exact ⟨_, _, _, rfl, by decide⟩
  · split
    · exact ⟨_, _, _, rfl, by decide⟩
    · exact ⟨_, _, _, rfl, by decide⟩

/-- A blank before a symbol character, or a line comment, for the file only. -/
theorem misc_parted {c : UInt8} {rest : Text} (noBlank : c ≠ 32) (forks : miscForks target file.state region.state c rest = true) :
    ∃ first fileAfter fileLeft second regionAfter regionLeft,
      dealMisc target symbolsOfFile file c rest = .done (some first) fileAfter fileLeft ∧
        dealMisc target symbolsOfString region c rest = .done (some second) regionAfter regionLeft ∧ first ≠ second := by
  rw [miscForks, Bool.or_eq_true] at forks
  rcases forks with symbol | line
  · simp only [Bool.and_eq_true, decide_eq_true_eq] at symbol
    obtain ⟨ch, after, left, is, other⟩ := @misc_visible target region c rest noBlank
    refine ⟨32, { file with state := .second }, c :: rest, ch, after, left, ?_, is, other.symm⟩
    simp only [dealMisc, symbolsOfFile, symbol.1, symbol.2, if_true]
  · simp only [Bool.and_eq_true, decide_eq_true_eq, Bool.not_eq_true', Bool.and_eq_false_iff, ne_eq] at line
    obtain ⟨⟨⟨start, other⟩, lineComment⟩, digit⟩ := line
    have hash : c = 35 := by simpa [Target.isLineComment, Target.lineCommentChars] using lineComment
    have goesOn : symbolsOfFile file c = some file := by
      simp [symbolsOfFile, start]
    have fileIs : dealMisc target symbolsOfFile file c rest = misc target file c rest := by
      rw [dealMisc, goesOn]
    have regionIs : dealMisc target symbolsOfString region c rest =
        if target.isComment c then .done (some newline) region.newLine (toLineEnd rest).tail
        else if region.state = .lineStart ∨ region.state = .lineBlank then
          .done (some c) { region with state := .first } rest
        else .done (some c) region rest := by
      simp [dealMisc, symbolsOfString, misc, other]
    rw [fileIs, regionIs]
    by_cases comment : target.isComment c = true
    · have digit : (rest.dropWhile isWhitespace).head?.any isDigit = true := by
        simpa [comment] using digit
      obtain ⟨after, left, seen⟩ := lineComment_digit start lineComment digit
      rw [seen, if_pos comment]
      exact ⟨_, _, _, _, _, _, rfl, rfl, by decide⟩
    · obtain ⟨ch, after, left, seen, notHash⟩ := lineComment_visible start lineComment rest
      rw [seen, if_neg comment]
      split
      · exact ⟨_, _, _, _, _, _, rfl, rfl, hash ▸ notHash⟩
      · exact ⟨_, _, _, _, _, _, rfl, rfl, hash ▸ notHash⟩

theorem pass_parted {text : Text} (forks : passForks target file.state region.state text = true) (rounds : Nat) :
    Parted (flush target (keepOfFile target) symbolsOfFile (rounds + 2) file text)
      (flush target (keepOfString target) symbolsOfString (rounds + 2) region text) := by
  rcases text with _ | ⟨c, rest⟩
  · cases forks
  rw [passForks] at forks
  split at forks
  · rename_i blank
    exact blanks_parted blank forks rounds
  rename_i noBlank
  split at forks
  · cases forks
  rename_i noMark
  have noBlank' := noBlank
  simp only [not_or] at noMark noBlank'
  obtain ⟨noSlash, noQuotes, noQuote, noColon, noNewline, noSeparator⟩ := noMark
  obtain ⟨first, fileAfter, fileLeft, second, regionAfter, regionLeft, fileIs, regionIs, other⟩ :=
    misc_parted noBlank'.1 forks
  have pass (keep : Context → Text → Pass) (symbols : Context → UInt8 → Option Context) (scrub : Context) :
      flushPass target keep symbols scrub (c :: rest) = dealMisc target symbols scrub c rest := by
    simp [flushPass, noBlank', noSlash, noQuotes, noQuote, noColon, noNewline, noSeparator]
  rw [flush_done ((pass _ _ _).trans fileIs), flush_done ((pass _ _ _).trans regionIs)]
  exact ⟨first, second, rfl, rfl, other⟩

/-! ## One call -/

theorem length_skipComment (text : Text) : (skipComment text).2.length ≤ text.length := by
  fun_induction skipComment text with
  | case1 rest => exact Nat.le_add_right _ 2
  | case2 c rest _ ih => exact Nat.le_succ_of_le ih
  | case3 => exact Nat.le_refl _

theorem length_dropWhile (p : UInt8 → Bool) (text : Text) : (text.dropWhile p).length ≤ text.length :=
  (List.dropWhile_suffix p).length_le

theorem blanks_again
    (again : blanks target (keepOfFile target) scrub text = .again after left) : left = text := by
  rcases text with _ | ⟨next, rest⟩
  · cases again
  have pass := blanks_file target scrub next rest
  split at pass
  · obtain ⟨_, done⟩ := pass
    rw [done] at again
    cases again
  · obtain ⟨_, is, -⟩ := pass
    rw [is] at again
    cases again
    rfl

theorem misc_not_again {c : UInt8} {rest left : Text} :
    misc target scrub c rest ≠ .again after left := by
  rw [misc]
  split
  · split
    · nofun
    · split <;> nofun
  split
  · nofun
  split <;> nofun

theorem dealMisc_not_again {c : UInt8}
    {rest left : Text} : dealMisc target symbols scrub c rest ≠ .again after left := by
  rw [dealMisc]
  split
  · nofun
  · exact misc_not_again

theorem pass_again (again : flushPass target (keepOfFile target) symbolsOfFile scrub text = .again after left) :
    left.length < text.length := by
  rcases text with _ | ⟨c, rest⟩
  · cases again
  rw [flushPass] at again
  split at again
  · rw [blanks_again again]
    exact Nat.lt_succ_of_le (length_dropWhile _ rest)
  split at again
  · rw [slash] at again
    split at again
    · rename_i star
      rcases rest with _ | ⟨star, rest⟩
      · cases star
      cases again
      have := length_skipComment rest
      simp only [List.tail_cons, List.length_cons]
      omega
    split at again
    · cases again
      have := length_dropWhile (· ≠ newline) rest.tail
      rw [toLineEnd, List.length_cons]
      simp only [List.length_tail] at this
      omega
    split at again
    · exact absurd again dealMisc_not_again
    · cases again
  split at again
  · cases again
  split at again
  · cases again
  split at again
  · cases again
  split at again
  · split at again <;> cases again
  split at again
  · cases again
  · exact absurd again dealMisc_not_again

theorem no_blank {after : Context}
    (again : flushPass target (keepOfString target) symbolsOfString region text = .again after left) :
    putsBlank target region.state text = false := by
  rcases text with _ | ⟨c, rest⟩
  · rfl
  by_contra puts
  simp only [putsBlank, Bool.not_eq_false, Bool.and_eq_true, Bool.or_eq_true, decide_eq_true_eq] at puts
  obtain ⟨blank, is⟩ := puts
  rw [blank_pass blank] at again
  rcases dropped : rest.dropWhile isWhitespace with _ | ⟨next, line⟩
  · rw [dropped] at is
    cases is
  · rw [dropped] at again is
    have is : emits target region.state next = true := is
    have puts := blanks_region target region next line
    rw [if_pos is, again] at puts
    obtain ⟨_, puts⟩ := puts
    cases puts

/-- After a blank the file puts it out before the symbol character. -/
theorem symbol_pass (rest : Text) (symbol : isSymbolComponent next = true) (blank : file.state = .symbolBlank) :
    flushPass target (keepOfFile target) symbolsOfFile file (next :: rest) =
      .done (some 32) { file with state := .second } (next :: rest) := by
  have other (c : UInt8) (not_ : isSymbolComponent c = false) : next ≠ c := by
    rintro rfl
    rw [not_] at symbol
    cases symbol
  have noSeparator : next ≠ target.separator := by
    cases target <;> exact other _ rfl
  simp [flushPass, other 32 rfl, other 9 rfl, other 47 rfl, other 34 rfl, other 39 rfl, other 58 rfl,
    other newline rfl, noSeparator, dealMisc, symbolsOfFile, symbol, blank]

/-- **A call that starts at `flushchar` gives the two the same character, or it forks.** -/
theorem flush_step (rounds : Nat) {file region : Context} (mates : Mates late file region) {text : Text}
    (enough : text.length < rounds) :
    if flushForks target rounds late file text = true then
      Parted (flush target (keepOfFile target) symbolsOfFile rounds file text)
        (flush target (keepOfString target) symbolsOfString rounds region text)
    else ∃ ch fileAfter regionAfter left,
      flush target (keepOfFile target) symbolsOfFile rounds file text = some (ch, fileAfter, left) ∧
        flush target (keepOfString target) symbolsOfString rounds region text = some (ch, regionAfter, left) ∧
          ∀ c, ch = some c → Alike (lateOf target late region.state c) fileAfter regionAfter := by
  induction rounds generalizing file region text with
  | zero => omega
  | succ rounds ih =>
    rw [flushForks, ← mates.twin.eq]
    by_cases fork : passForks target file.state region.state text = true
    · rw [fork, Bool.true_or, if_pos rfl]
      rcases text with _ | ⟨c, rest⟩
      · cases fork
      rw [List.length_cons] at enough
      rcases rounds with _ | more
      · omega
      · exact pass_parted fork more
    rw [Bool.not_eq_true] at fork
    rw [fork, Bool.false_or]
    rcases pass_joined mates fork with joined | ⟨next, rest, puts, symbol, second, state, again, done⟩
    · revert joined
      cases fileIs : flushPass target (keepOfFile target) symbolsOfFile file text with
      | done ch fileAfter left =>
        intro joined
        cases regionIs : flushPass target (keepOfString target) symbolsOfString region text with
        | done ch' regionAfter left' =>
          rw [regionIs] at joined
          rw [if_neg (by simp)]
          cases joined with
          | last => exact ⟨_, _, _, _, flush_done fileIs rounds, flush_done regionIs rounds, nofun⟩
          | done alike =>
            refine ⟨_, _, _, _, flush_done fileIs rounds, flush_done regionIs rounds, ?_⟩
            rintro _ ⟨⟩
            exact alike
        | again regionAfter left' =>
          rw [regionIs] at joined
          cases joined
      | again fileAfter left =>
        intro joined
        cases regionIs : flushPass target (keepOfString target) symbolsOfString region text with
        | done ch' regionAfter left' =>
          rw [regionIs] at joined
          cases joined
        | again regionAfter left' =>
          rw [regionIs] at joined
          cases joined with
          | again matesAfter same =>
            have shorter := pass_again fileIs
            rw [no_blank regionIs, flush_again fileIs, flush_again regionIs, ← same]
            exact ih matesAfter (by omega)
    · rw [puts, Bool.not_true, Bool.false_and, if_neg (by nofun)]
      have shorter := pass_again again
      rcases rounds with _ | more
      · rw [List.length_cons] at shorter
        omega
      rw [flush_again again, flush_done (symbol_pass rest symbol rfl), flush_done done]
      refine ⟨_, _, _, _, rfl, rfl, ?_⟩
      rintro _ ⟨⟩
      refine alike_of_twin mates.outString mates.outBuf mates.addNewlines mates.substate ?_
      rw [second, (state.elim (mates.twin.of_symbol ·) (mates.twin.of_symbolBlank ·) : file.substate = false)]
      exact .second

/-! ## All calls -/

theorem scrubNextChar_flushes (flushes : scrub.state.flushes = true)
    (keep : Context → Text → Pass) (symbols : Context → UInt8 → Option Context) (text : Text) :
    scrubNextChar target keep symbols scrub text = flush target keep symbols (text.length + 1) scrub text := by
  rw [scrubNextChar.eq_def]
  cases is : scrub.state <;> rw [is] at flushes <;> first | rfl | cases flushes

theorem Twin.flushes {file region : State} (twin : Twin late substate file region)
    (flushes : file.flushes = true) : region.flushes = true := by
  cases twin <;> first | rfl | exact flushes

theorem State.not_saves_of_flushes (flushes : state.flushes = true) : state.saves = false := by
  cases state <;> first | rfl | cases flushes

theorem Alike.mates (alike : Alike late file region) (flushes : file.state.flushes = true) : Mates late file region := by
  have fileFlushes := State.not_saves_of_flushes flushes
  have regionFlushes : region.state.saves = false := by
    by_contra saves
    rw [← alike.saved (.inr ((Bool.not_eq_false _).mp saves)), fileFlushes] at saves
    exact saves rfl
  have twin := alike.twin
  rw [resume_of_not_saves fileFlushes, resume_of_not_saves regionFlushes] at twin
  exact ⟨alike.outString, alike.outBuf, alike.addNewlines, alike.substate, twin, flushes⟩

theorem Alike.same_state (alike : Alike late file region) (other : file.state.flushes = false) : region.state = file.state := by
  by_cases saves : file.state.saves = true ∨ region.state.saves = true
  · exact (alike.saved saves).symm
  · simp only [not_or, Bool.not_eq_true] at saves
    have twin := alike.twin
    rw [resume_of_not_saves saves.1, resume_of_not_saves saves.2] at twin
    generalize file.substate = substate at twin
    generalize file.state = one at twin other ⊢
    generalize region.state = two at twin ⊢
    cases twin <;> first | rfl | cases other

section Off

variable {state oldFile oldRegion : State} {substate : Bool} {outString : OutString} {outBuf : Text} {addNewlines : Nat}

/-- The three states that are no string and no output have no substate. -/
theorem twin_of_line (alike : Alike late ⟨state, substate, oldFile, outString, outBuf, addNewlines⟩
      ⟨state, false, oldRegion, outString, outBuf, addNewlines⟩)
    (line : state = .lineNumber ∨ state = .fileName ∨ state = .fileRest) : substate = false := by
  rcases line with rfl | rfl | rfl
  · exact (show Twin late substate .lineNumber .lineNumber from alike.twin).substate_of_line rfl
  · exact (show Twin late substate .fileName .fileName from alike.twin).substate_of_line rfl
  · exact (show Twin late substate .fileRest .fileRest from alike.twin).substate_of_line rfl

theorem twin_of_saves (alike : Alike late ⟨state, substate, oldFile, outString, outBuf, addNewlines⟩
      ⟨state, false, oldRegion, outString, outBuf, addNewlines⟩) (saves : state.saves = true) :
    Twin late substate oldFile oldRegion := by
  have twin := alike.twin
  cases state <;> first | exact twin | cases saves

theorem off_step {after : Bool} {keep keep' : Context → Text → Pass} {symbols symbols' : Context → UInt8 → Option Context}
    (alike : Alike late ⟨state, substate, oldFile, outString, outBuf, addNewlines⟩
      ⟨state, false, oldRegion, outString, outBuf, addNewlines⟩) (other : state.flushes = false)
    (afterIs : after = (late && state.saves)) (text : Text) :
    (scrubNextChar target keep symbols ⟨state, substate, oldFile, outString, outBuf, addNewlines⟩ text = none ∧
        scrubNextChar target keep' symbols' ⟨state, false, oldRegion, outString, outBuf, addNewlines⟩ text = none) ∨
      ∃ ch fileAfter regionAfter left,
        scrubNextChar target keep symbols ⟨state, substate, oldFile, outString, outBuf, addNewlines⟩ text =
            some (ch, fileAfter, left) ∧
          scrubNextChar target keep' symbols' ⟨state, false, oldRegion, outString, outBuf, addNewlines⟩ text =
            some (ch, regionAfter, left) ∧ Alike after fileAfter regionAfter := by
  cases state with
  | lineStart | lineBlank | first | second | symbol | symbolBlank => cases other
  | lineNumber =>
    right
    obtain rfl : after = false := afterIs.trans (Bool.and_false late)
    obtain rfl := twin_of_line alike (.inl rfl)
    rcases text with _ | ⟨c, rest⟩
    · exact ⟨_, _, _, _, rfl, rfl, alike_of_twin rfl rfl rfl rfl (.same rfl rfl)⟩
    rw [scrubNextChar, scrubNextChar]
    dsimp only
    split
    · exact ⟨_, _, _, _, rfl, rfl, alike_of_twin rfl rfl rfl rfl (.same rfl rfl)⟩
    rw [afterLineNumber, afterLineNumber]
    split
    · exact ⟨_, _, _, _, rfl, rfl, saved_alike (.same rfl rfl) rfl rfl rfl rfl rfl rfl⟩
    · exact ⟨_, _, _, _, rfl, rfl, alike_of_twin rfl rfl rfl rfl (.same rfl rfl)⟩
  | string =>
    right
    obtain rfl : after = late := afterIs.trans (Bool.and_true late)
    have twin := twin_of_saves alike rfl
    rcases text with _ | ⟨c, rest⟩
    · exact ⟨_, _, _, _, rfl, rfl, alike_of_twin rfl rfl rfl rfl twin⟩
    rw [scrubNextChar, scrubNextChar]
    dsimp only
    rw [inString, inString]
    split
    · exact ⟨_, _, _, _, rfl, rfl, alike_of_twin rfl rfl rfl rfl twin⟩
    split
    · exact ⟨_, _, _, _, rfl, rfl, saved_alike twin rfl rfl rfl rfl rfl rfl⟩
    · exact ⟨_, _, _, _, rfl, rfl, alike⟩
  | escape =>
    right
    obtain rfl : after = late := afterIs.trans (Bool.and_true late)
    have twin := twin_of_saves alike rfl
    rcases text with _ | ⟨c, rest⟩
    · exact ⟨_, _, _, _, rfl, rfl, saved_alike twin rfl rfl rfl rfl rfl rfl⟩
    rw [scrubNextChar, scrubNextChar]
    dsimp only
    rw [inEscape, inEscape]
    split
    · exact ⟨_, _, _, _, rfl, rfl, saved_alike twin rfl rfl rfl rfl rfl rfl⟩
    · exact ⟨_, _, _, _, rfl, rfl, saved_alike twin rfl rfl rfl rfl rfl rfl⟩
  | fileName =>
    right
    obtain rfl : after = false := afterIs.trans (Bool.and_false late)
    obtain rfl := twin_of_line alike (.inr (.inl rfl))
    exact ⟨_, _, _, _, rfl, rfl, saved_alike (.same rfl rfl) rfl rfl rfl rfl rfl rfl⟩
  | fileRest =>
    obtain rfl : after = false := afterIs.trans (Bool.and_false late)
    rw [scrubNextChar.eq_def, scrubNextChar.eq_def]
    dsimp only
    split
    · exact .inl ⟨rfl, rfl⟩
    · exact .inr ⟨_, _, _, _, rfl, rfl, alike_of_twin rfl rfl rfl rfl (.same rfl rfl)⟩
  | output =>
    right
    obtain rfl : after = late := afterIs.trans (Bool.and_true late)
    have twin := twin_of_saves alike rfl
    rw [scrubNextChar.eq_def, scrubNextChar.eq_def]
    dsimp only
    by_cases last : Context.outText ⟨.output, substate, oldFile, outString.next, outBuf, addNewlines⟩ = []
    · have last' : Context.outText ⟨.output, false, oldRegion, outString.next, outBuf, addNewlines⟩ = [] := last
      rw [if_pos last, if_pos last']
      exact ⟨_, _, _, _, rfl, rfl, alike_of_twin rfl rfl rfl rfl twin⟩
    · have more : ¬ Context.outText ⟨.output, false, oldRegion, outString.next, outBuf, addNewlines⟩ = [] := last
      rw [if_neg last, if_neg more]
      exact ⟨_, _, _, _, rfl, rfl, saved_alike twin rfl rfl rfl rfl rfl rfl⟩
  | comment =>
    right
    obtain rfl : after = late := afterIs.trans (Bool.and_true late)
    have twin := twin_of_saves alike rfl
    rw [scrubNextChar.eq_def, scrubNextChar.eq_def]
    dsimp only
    split
    · exact ⟨_, _, _, _, rfl, rfl, alike_of_twin rfl rfl rfl rfl twin⟩
    · exact ⟨_, _, _, _, rfl, rfl, alike⟩

end Off

variable (target) in
/-- **A call gives the two the same character, or it forks.** -/
theorem call_step {file region : Context} (alike : Alike late file region) (text : Text) :
    if forks target late file text = true then
      Parted (doScrubNextChar target file text) (doScrubNextCharFromString target region text)
    else (doScrubNextChar target file text = none ∧ doScrubNextCharFromString target region text = none) ∨
      ∃ ch fileAfter regionAfter left, doScrubNextChar target file text = some (ch, fileAfter, left) ∧
        doScrubNextCharFromString target region text = some (ch, regionAfter, left) ∧
        ∀ c, ch = some c → Alike (lateAfter target late file c) fileAfter regionAfter := by
  rw [forks, doScrubNextChar, doScrubNextCharFromString]
  by_cases flushes : file.state.flushes = true
  · have mates := alike.mates flushes
    have step := @flush_step late target (text.length + 1) file region mates text (Nat.lt_succ_self _)
    have after (c : UInt8) : lateAfter target late file c = lateOf target late region.state c := by
      rw [lateAfter, if_pos flushes, mates.twin.eq]
    simp only [after]
    rw [flushes, Bool.true_and, scrubNextChar_flushes flushes, scrubNextChar_flushes (mates.twin.flushes flushes)]
    split at step
    · rename_i fork
      rwa [if_pos fork]
    · rename_i smooth
      rw [if_neg smooth]
      exact .inr step
  · rw [Bool.not_eq_true] at flushes
    have after (c : UInt8) : lateAfter target late file c = (late && file.state.saves) := by
      rw [lateAfter, flushes, if_neg (by nofun)]
    simp only [after]
    rw [flushes, Bool.false_and, if_neg (by nofun)]
    have same := alike.same_state flushes
    obtain ⟨state, substate, oldFile, outString, outBuf, addNewlines⟩ := file
    obtain ⟨state', substate', oldRegion, outString', outBuf', addNewlines'⟩ := region
    obtain rfl : state' = state := same
    obtain rfl : outString = outString' := alike.outString
    obtain rfl : outBuf = outBuf' := alike.outBuf
    obtain rfl : addNewlines = addNewlines' := alike.addNewlines
    obtain rfl : substate' = false := alike.substate
    refine (off_step alike flushes rfl text).imp_right ?_
    rintro ⟨ch, fileAfter, regionAfter, left, fileIs, regionIs, alikeAfter⟩
    exact ⟨ch, fileAfter, regionAfter, left, fileIs, regionIs, fun _ _ => alikeAfter⟩

/-- **The characters of a file and of a string with its text are the same if and only if no call forks.** -/
theorem outputs_smooth {file region : Context} (alike : Alike late file region) (calls : Nat) (text : Text) :
    outputs (doScrubNextChar target) calls file text = outputs (doScrubNextCharFromString target) calls region text ↔
      Smooth target calls late file text := by
  induction calls generalizing late file region text with
  | zero => exact ⟨fun _ => trivial, fun _ => rfl⟩
  | succ calls ih =>
    have step := call_step target alike text
    rw [outputs, outputs, Smooth]
    by_cases fork : forks target late file text = true
    · rw [if_pos fork] at step
      obtain ⟨one, two, fileIs, regionIs, different⟩ := step
      obtain ⟨⟨_, fileAfter, fileLeft⟩, fileIs, rfl⟩ := Option.map_eq_some_iff.mp fileIs
      obtain ⟨⟨_, regionAfter, regionLeft⟩, regionIs, rfl⟩ := Option.map_eq_some_iff.mp regionIs
      rw [fileIs, regionIs]
      constructor
      · intro same
        exact absurd (Option.some.inj (List.head_eq_of_cons_eq same)) different
      · rintro ⟨smooth, -⟩
        rw [fork] at smooth
        cases smooth
    · rw [if_neg fork] at step
      rw [Bool.not_eq_true] at fork
      rcases step with ⟨fileIs, regionIs⟩ | ⟨ch, fileAfter, regionAfter, left, fileIs, regionIs, after⟩
      · rw [fileIs, regionIs]
        exact ⟨fun _ => ⟨fork, trivial⟩, fun _ => rfl⟩
      · rw [fileIs, regionIs]
        cases ch with
        | none => exact ⟨fun _ => ⟨fork, trivial⟩, fun _ => rfl⟩
        | some c =>
          dsimp only
          rw [List.cons_inj_right, ih (after c rfl)]
          exact ⟨fun smooth => ⟨fork, smooth⟩, And.right⟩

end Rounds

/-- **The scrubbers agree on a text if and only if no call of the file's forks.** -/
theorem outputs_agree_iff (target : Target) (text : Text) :
    (∀ calls, outputs (doScrubNextChar target) calls .start text =
        outputs (doScrubNextCharFromString target) calls .start text) ↔
      ∀ calls, Smooth target calls false .start text := by
  apply forall_congr'
  intro calls
  exact outputs_smooth start_alike calls text

theorem outputs_agree_iff_line : outputs (doScrubNextChar .arm) 6 .start (ascii "a b\n") =
    outputs (doScrubNextCharFromString .arm) 6 .start (ascii "a b\n") := by
  refine (outputs_agree_iff .arm (ascii "a b\n")).mpr ?_ 6
  intro calls
  rcases calls with _ | _ | _ | _ | _ | calls
  · trivial
  · exact ⟨rfl, trivial⟩
  · exact ⟨rfl, rfl, trivial⟩
  · exact ⟨rfl, rfl, rfl, trivial⟩
  · exact ⟨rfl, rfl, rfl, rfl, trivial⟩
  · exact ⟨rfl, rfl, rfl, rfl, rfl, trivial⟩

/-- From a string the second blank of `.loc 1 20` is lost. -/
theorem loc_loses_blank : ¬ ∀ calls, outputs (doScrubNextChar .arm) calls .start (ascii ".loc 1 20\n") =
    outputs (doScrubNextCharFromString .arm) calls .start (ascii ".loc 1 20\n") := by
  intro agree
  have := agree 8
  revert this
  decide

end Cctools.Scrub
