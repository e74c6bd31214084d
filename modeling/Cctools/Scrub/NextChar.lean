/-
# Cctools.Scrub.NextChar -- the characters of a source without its comments and blanks

`do_scrub_next_char` and `do_scrub_next_char_from_string` of the assembler's app.c, and
`do_scrub_begin`'s classes of characters.  The two functions are one but for what they
keep of the blanks (`keepOfFile`, `keepOfString`) and for the states 9 and 10 of symbol
characters (`symbolsOfFile`, `symbolsOfString`).

What is to be read is a list of bytes, to which `ungetc` and `scrub_to_string` put one
back; its end is `EOF`.  A plain `char` is unsigned here: where it is signed, the byte
255 of a string is taken for `EOF`, and `lex` has no entry for a byte from 128 on.
Warnings are left out.
-/
import Cctools.Read.Statements

namespace Cctools.Scrub

open Cctools.Read (Text ascii newline)

set_option autoImplicit false

/-! ## Targets -/

/-- What the assembler is compiled for; `p` is its flag `-p`. -/
inductive Target
  | arm
  | hppa
  | i386
  | i860
  | m68k
  | m88k
  | ppc (p : Bool)
  | sparc
  deriving DecidableEq, Repr

namespace Target

def isI386 : Target → Bool
  | .i386 => true
  | _ => false

/-- `flagseen['p']`, for PPC. -/
def quotes : Target → Bool
  | .ppc p => p
  | _ => false

/-- The `case` that comes with a newline. -/
def separator : Target → UInt8
  | .hppa | .m88k | .ppc _ => 64
  | _ => 59

/-- Two slashes start a comment. -/
def slashes : Target → Bool
  | .arm | .m68k => false
  | _ => true

/-- `md_comment_chars` -/
def commentChars : Target → Text
  | .arm => [64]
  | .i386 => [35]
  | .i860 => [124, 33]
  | .m68k => [124]
  | .hppa | .m88k | .ppc _ => [59]
  | .sparc => [59, 33]

/-- `md_line_comment_chars` -/
def lineCommentChars (_ : Target) : Text := [35]

def isComment (target : Target) (c : UInt8) : Bool := c ∈ target.commentChars

def isLineComment (target : Target) (c : UInt8) : Bool := c ∈ target.lineCommentChars

def isLineSeparator (target : Target) (c : UInt8) : Bool :=
  c = newline || c = 58 || (target.quotes && c = 13) || (!target.quotes && c = target.separator)

end Target

/-- `symbol_chars` -/
def isSymbolComponent (c : UInt8) : Bool :=
  c = 36 || c = 46 || c = 95 || (65 ≤ c && c ≤ 90) || (97 ≤ c && c ≤ 122) || (48 ≤ c && c ≤ 57)

def isWhitespace (c : UInt8) : Bool := c = 32 || c = 9 || c = 13

def isDigit (c : UInt8) : Bool := 48 ≤ c && c ≤ 57

/-! ## The states -/

/-- The states 0 to 10, -1 and -2. -/
inductive State
  | lineStart
  | lineBlank
  | first
  | second
  | lineNumber
  | string
  | escape
  | fileName
  | fileRest
  | symbol
  | symbolBlank
  | output
  | comment
  deriving DecidableEq, Repr

/-- Where `out_string` points: into a literal, or into `out_buf`. -/
inductive OutString
  | literal (rest : Text)
  | buffer (offset : Nat)
  deriving DecidableEq, Repr

structure Context where
  state : State
  /-- Only for `I386`. -/
  substate : Bool
  oldState : State
  outString : OutString
  outBuf : Text
  addNewlines : Nat
  deriving DecidableEq, Repr

def Context.start : Context := ⟨.lineStart, false, .lineStart, .literal [], [], 0⟩

/-- What is still to be put out. -/
def Context.outText (scrub : Context) : Text :=
  match scrub.outString with
  | .literal rest => rest
  | .buffer offset => scrub.outBuf.drop offset

/-- `out_string++` -/
def OutString.next : OutString → OutString
  | .literal rest => .literal rest.tail
  | .buffer offset => .buffer (offset + 1)

def Context.newLine (scrub : Context) : Context := { scrub with state := .lineStart, substate := false }

/-! ## One character -/

/-- After a round of the label `flushchar`. -/
inductive Pass
  | done (ch : Option UInt8) (scrub : Context) (rest : Text)
  | again (scrub : Context) (rest : Text)

/-- The rest of a comment, and the newlines in it. -/
def skipComment : Text → Nat × Text
  | 42 :: 47 :: rest => (0, rest)
  | c :: rest => ((skipComment rest).1 + (if c = newline then 1 else 0), (skipComment rest).2)
  | [] => (0, [])

/-- The rest of a comment in the state -2: the character, whether the state is left, and what follows. -/
def flushComment : Text → Option UInt8 × Bool × Text
  | [] => (none, false, [])
  | [42] => (some 32, true, [])
  | 42 :: 47 :: rest => (some 32, true, rest)
  | c :: rest => if c = newline then (some newline, false, rest) else flushComment rest

def toLineEnd (text : Text) : Text := text.dropWhile (· ≠ newline)

section NextChar

variable (target : Target)

/-- One blank is left, and is followed by a character that stays. -/
def keepOfFile (scrub : Context) (rest : Text) : Pass :=
  if scrub.state = .lineStart then .done (some 32) { scrub with state := .lineBlank } rest
  else if scrub.state = .first then
    -- white space is left after the first two tokens
    if target.isI386 && !scrub.substate then .done (some 32) { scrub with substate := true } rest
    else .done (some 32) { scrub with state := .second, substate := false } rest
  else if target.quotes && scrub.state = .second then .done (some 32) scrub rest
  else .again (if scrub.state = .symbol then { scrub with state := .symbolBlank } else scrub) rest

def keepOfString (scrub : Context) (rest : Text) : Pass :=
  if scrub.state = .lineStart then .done (some 32) { scrub with state := .lineBlank } rest
  else if scrub.state = .first then .done (some 32) { scrub with state := .second } rest
  else if target.quotes && scrub.state = .second then .done (some 32) scrub rest
  else .again scrub rest

/-- `none` if a blank is to come first. -/
def symbolsOfFile (scrub : Context) (c : UInt8) : Option Context :=
  if isSymbolComponent c then
    if scrub.state = .symbolBlank then none
    else some (if scrub.state = .second then { scrub with state := .symbol } else scrub)
  else some (if scrub.state = .symbol ∨ scrub.state = .symbolBlank then { scrub with state := .second } else scrub)

def symbolsOfString (scrub : Context) (_ : UInt8) : Option Context := some scrub

def blanks (keep : Context → Text → Pass) (scrub : Context) : Text → Pass
  | [] => .done none scrub []
  | c :: rest =>
    if target.isComment c || (scrub.state = .lineStart && target.isLineComment c) || c = 47 ||
        target.isLineSeparator c then .again scrub (c :: rest)
    else keep scrub (c :: rest)

/-- What follows the step for symbol characters at `deal_misc`. -/
def misc (scrub : Context) (c : UInt8) (rest : Text) : Pass :=
  if scrub.state = .lineStart && target.isLineComment c then
    match rest.dropWhile isWhitespace with
    | [] => .done (some newline) scrub []
    | digit :: line =>
      if isDigit digit then
        .done (some 46)
          { scrub with oldState := .lineNumber, state := .output, outString := .literal (ascii "line ") }
          (digit :: line)
      else .done (some newline) scrub.newLine (toLineEnd (digit :: line)).tail
  else if target.isComment c then .done (some newline) scrub.newLine (toLineEnd rest).tail
  else if scrub.state = .lineStart ∨ scrub.state = .lineBlank then .done (some c) { scrub with state := .first } rest
  else .done (some c) scrub rest

def dealMisc (symbols : Context → UInt8 → Option Context) (scrub : Context) (c : UInt8) (rest : Text) : Pass :=
  match symbols scrub c with
  | none => .done (some 32) { scrub with state := .second } (c :: rest)
  | some scrub => misc target scrub c rest

def slash (symbols : Context → UInt8 → Option Context) (scrub : Context) (rest : Text) : Pass :=
  if rest.head? = some 42 then
    .again { scrub with addNewlines := scrub.addNewlines + (skipComment rest.tail).1 } (32 :: (skipComment rest.tail).2)
  else if target.slashes && rest.head? = some 47 then .again scrub (toLineEnd rest.tail)
  else if target.isComment 47 || (scrub.state = .lineStart && target.isLineComment 47) then
    dealMisc target symbols scrub 47 rest
  else .done (some 47) scrub rest

/-- `sprintf(out_buf, "(%d)", ch & 0xff)` -/
def number (c : UInt8) : Text := ascii ("(" ++ toString c.toNat ++ ")")

/-- `flushchar:` -/
def flushPass (keep : Context → Text → Pass) (symbols : Context → UInt8 → Option Context) (scrub : Context) : Text → Pass
  | [] => .done none scrub []
  | c :: rest =>
    if c = 32 ∨ c = 9 then blanks target keep scrub (rest.dropWhile isWhitespace)
    else if c = 47 then slash target symbols scrub rest
    else if c = 34 ∨ (c = 39 ∧ target.quotes = true) then
      .done (some c) { scrub with oldState := scrub.state, state := .string } rest
    else if c = 39 then
      .done (some 40)
        { scrub with
          oldState := scrub.state, state := .output, outBuf := number (rest.headD 0), outString := .buffer 1 }
        rest.tail
    else if c = 58 then .done (some c) (if scrub.state = .second then scrub else scrub.newLine) rest
    else if c = newline then
      if scrub.addNewlines = 0 then .done (some c) scrub.newLine rest
      else .done (some c) { scrub.newLine with addNewlines := scrub.addNewlines - 1 } (c :: rest)
    else if c = target.separator then .done (some c) scrub.newLine rest
    else dealMisc target symbols scrub c rest

def flush (keep : Context → Text → Pass) (symbols : Context → UInt8 → Option Context) :
    Nat → Context → Text → Option (Option UInt8 × Context × Text)
  | 0, _, _ => none
  | rounds + 1, scrub, text =>
    match flushPass target keep symbols scrub text with
    | .done ch scrub rest => some (ch, scrub, rest)
    | .again scrub rest => flush keep symbols rounds scrub rest

/-- After a line number: a file's name, or the rest of the line is dropped. -/
def afterLineNumber (scrub : Context) (text : Text) : Option UInt8 × Context × Text :=
  if (text.dropWhile isWhitespace).head? = some 34 then
    let directive := ascii (if target.separator = 64 then "@ .file " else "; .file ")
    (some target.separator, { scrub with outString := .literal directive.tail, oldState := .fileName, state := .output },
      text.dropWhile isWhitespace)
  else
    let line := toLineEnd (text.dropWhile isWhitespace)
    (line.head?, { scrub with state := .lineStart }, line.tail)

/-- A string and its closing quote. -/
def inString (scrub : Context) : Text → Option UInt8 × Context × Text
  | [] => (some (if target.quotes then 39 else 34), { scrub with state := scrub.oldState }, [newline])
  | c :: rest =>
    if c = 34 ∨ (c = 39 ∧ target.quotes = true) then (some c, { scrub with state := scrub.oldState }, rest)
    else if c = 92 then (some c, { scrub with state := .escape }, rest)
    else (some c, scrub, rest)

def inEscape (scrub : Context) : Text → Option UInt8 × Context × Text
  | [] => (some 34, { scrub with state := .string }, [])
  | c :: rest =>
    if c = newline then
      (some 92, { scrub with state := .string, addNewlines := scrub.addNewlines + 1 }, 110 :: rest)
    else (some c, { scrub with state := .string }, rest)

/-- `none` if the function does not return, a character that is `none` is `EOF`. -/
def scrubNextChar (keep : Context → Text → Pass) (symbols : Context → UInt8 → Option Context) (scrub : Context) (text : Text) :
    Option (Option UInt8 × Context × Text) :=
  match scrub.state with
  | .output =>
    let after := { scrub with outString := scrub.outString.next }
    some (some (scrub.outText.headD 0),
      if after.outText = [] then { after with state := scrub.oldState, oldState := .second } else after, text)
  | .comment =>
    let (ch, left, rest) := flushComment text
    some (ch, if left then { scrub with state := scrub.oldState } else scrub, rest)
  | .lineNumber =>
    match text with
    | [] => some (none, scrub, [])
    | c :: rest => some (if isDigit c then (some c, scrub, rest) else afterLineNumber target scrub text)
  | .string => some (inString target scrub text)
  | .escape => some (inEscape scrub text)
  | .fileName => some (text.head?, { scrub with state := .string, oldState := .fileRest }, text.tail)
  | .fileRest =>
    -- at `EOF` the loop does not end
    if toLineEnd text = [] then none else some (some newline, scrub.newLine, (toLineEnd text).tail)
  | _ => flush target keep symbols (text.length + 1) scrub text

def doScrubNextChar : Context → Text → Option (Option UInt8 × Context × Text) :=
  scrubNextChar target (keepOfFile target) symbolsOfFile

def doScrubNextCharFromString : Context → Text → Option (Option UInt8 × Context × Text) :=
  scrubNextChar target (keepOfString target) symbolsOfString

end NextChar

/-- The characters of so many calls, up to the first `EOF`. -/
def outputs (next : Context → Text → Option (Option UInt8 × Context × Text)) : Nat → Context → Text → List (Option UInt8)
  | 0, _, _ => []
  | calls + 1, scrub, text =>
    match next scrub text with
    | none => []
    | some (none, _, _) => [none]
    | some (some c, scrub, text) => some c :: outputs next calls scrub text

end Cctools.Scrub
