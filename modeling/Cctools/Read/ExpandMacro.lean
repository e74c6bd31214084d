/-
# Cctools.Read.ExpandMacro -- the buffer of a macro call

`expand_macro`: the arguments of a call, and the contents of the macro with them in.  The
count of the nested macros, and the parse of the buffer, are left out.

`expandMacro_substitutes`: the buffer is the contents with `$0` to `$9`, `$n` and `$$`
replaced, and the arguments are the pieces of the line between its commas, without their
blanks and without an empty piece at the end.  A comma in parentheses does not separate;
a parenthesis that is opened in another is not counted, and `$n` has one character.
-/
import Cctools.Read.Statements
import Cctools.Theory.Decimal
import Mathlib.Data.List.Chain
import Mathlib.Data.List.TakeWhile

namespace Cctools.Read

open Cctools.Theory.Decimal (printed)

set_option autoImplicit false

/-! ## Lines -/

/-- `is_end_of_line_tab`, which `-p` changes on the PPC. -/
inductive LineTable
  | standard (atSign : Bool)
  | ppcasm
  deriving DecidableEq, Repr

def LineTable.ends : LineTable → UInt8 → Bool
  | .standard atSign, c => isEndOfLine atSign c
  | .ppcasm, c => c = 13 || isEndOfLine false c

theorem LineTable.ends_zero (table : LineTable) : table.ends 0 = true := by
  cases table <;> rfl

/-- The characters that `expand_macro` looks for end no line. -/
theorem LineTable.not_ends (table : LineTable) {c : UInt8} (ends : table.ends c = true) :
    c ≠ 32 ∧ c ≠ 40 ∧ c ≠ 41 ∧ c ≠ 44 := by
  refine ⟨?_, ?_, ?_, ?_⟩ <;> rintro rfl <;> rcases table with (_ | _) | _ <;> cases ends

/-! ## Arguments -/

section Scanning

variable (table : LineTable)

def mismatchedParenthesis : Text := ascii "mismatched parenthesis"

/-- An argument, the character behind it, what follows that, and what `as_bad` says. -/
structure Argument where
  text : Text
  after : UInt8
  rest : Text
  messages : List Text
  deriving DecidableEq, Repr

/-- The `break` of the loop. -/
def stops (parenthesisDepth : Nat) (c : UInt8) : Bool :=
  parenthesisDepth = 0 && c ≠ 40 && (table.ends c || c = 32 || c = 44)

/-- In parentheses only the closing one counts. -/
def nextDepth (parenthesisDepth : Nat) (c : UInt8) : Nat :=
  if parenthesisDepth ≠ 0 then (if c = 41 then parenthesisDepth - 1 else parenthesisDepth)
  else if c = 40 then parenthesisDepth + 1 else parenthesisDepth

/-- `obstack_1grow(&macros, c)` -/
def Argument.push (c : UInt8) (argument : Argument) : Argument :=
  { argument with
    text := c :: argument.text
    messages := if table.ends c then mismatchedParenthesis :: argument.messages else argument.messages }

/-- The loop over the characters of an argument; `none` behind the end of the buffer. -/
def scanArgument : Nat → Text → Option Argument
  | _, [] => none
  | depth, c :: rest =>
    if c = 32 then
      match rest with
      | [] => none
      | c :: rest =>
        if stops table depth c then some ⟨[], c, rest, []⟩
        else (scanArgument (nextDepth depth c) rest).map (Argument.push table c)
    else if stops table depth c then some ⟨[], c, rest, []⟩
    else (scanArgument (nextDepth depth c) rest).map (Argument.push table c)

def skipBlank : Text → Text
  | 32 :: rest => rest
  | text => text

structure Arguments where
  arguments : List (Option Text)
  nargs : Nat
  /-- The last character that was read. -/
  c : UInt8
  rest : Text
  messages : List Text
  deriving DecidableEq, Repr

/-- Where the next argument starts. -/
def Argument.next (argument : Argument) : Text :=
  if table.ends argument.after then argument.after :: argument.rest
  else if argument.after = 32 then
    match argument.rest with
    | 44 :: rest => rest
    | rest => rest
  else argument.rest

/-- The loop over so many arguments. -/
def scanArguments : Nat → Arguments → Option Arguments
  | 0, scan => some scan
  | left + 1, scan =>
    match skipBlank scan.rest with
    | [] => none
    | c :: rest =>
      if table.ends c then
        scanArguments left { scan with arguments := scan.arguments ++ [none], c := c, rest := c :: rest }
      else
        match scanArgument table 0 (c :: rest) with
        | none => none
        | some argument =>
          scanArguments left
            { arguments := scan.arguments ++ [some argument.text]
              nargs := scan.nargs + 1
              c := argument.after
              rest := argument.next table
              messages := scan.messages ++ argument.messages }

/-! ## Contents -/

/-- The contents with the arguments in. -/
def substitute (arguments : List (Option Text)) (nargs : Nat) : Text → Text
  | 36 :: 36 :: contents => 36 :: substitute arguments nargs contents
  | 36 :: d :: contents =>
    if 48 ≤ d && d ≤ 57 then
      (match arguments.getD (d.toNat - 48) none with
        | none => []
        | some argument => argument.takeWhile (· ≠ 0)) ++ substitute arguments nargs contents
    else if d = 110 then UInt8.ofNat (nargs + 48) :: substitute arguments nargs contents
    else 36 :: substitute arguments nargs (d :: contents)
  | c :: contents => c :: substitute arguments nargs contents
  | [] => []

def moreThanTen : Text := ascii "More than 10 arguments not allowed for macros"

/-- `ignore_rest_of_line`, without its message. -/
def ignoreRest (text : Text) : Text := (text.dropWhile fun c => !table.ends c).tail

/-- The buffer, what the line goes on with, and what is said. -/
structure Expansion where
  buffer : Text
  rest : Text
  messages : List Text
  deriving DecidableEq, Repr

def expandMacro (contents text : Text) : Option Expansion :=
  match scanArguments table 10 ⟨[], 0, 0, text, []⟩ with
  | none => none
  | some scan =>
    let buffer := newline :: (substitute scan.arguments scan.nargs contents ++ [newline])
    if table.ends scan.c then some ⟨buffer, scan.rest, scan.messages⟩
    else some ⟨buffer, ignoreRest table scan.rest, scan.messages ++ [moreThanTen]⟩

end Scanning

/-! ## What is meant -/

/-- A piece of the contents of a macro. -/
inductive Token
  | plain (c : UInt8)
  | argument (index : Nat)
  | count
  deriving DecidableEq, Repr

def tokens : Text → List Token
  | 36 :: 36 :: contents => .plain 36 :: tokens contents
  | 36 :: d :: contents =>
    if 48 ≤ d && d ≤ 57 then .argument (d.toNat - 48) :: tokens contents
    else if d = 110 then .count :: tokens contents
    else .plain 36 :: tokens (d :: contents)
  | c :: contents => .plain c :: tokens contents
  | [] => []

def Token.text (arguments : List Text) : Token → Text
  | .plain c => [c]
  | .argument index => arguments.getD index []
  | .count => printed 10 arguments.length

/-- The parentheses that are open behind a character. -/
def parenDepth (depth : Nat) (c : UInt8) : Nat :=
  if c = 40 then depth + 1 else if c = 41 then depth - 1 else depth

/-- The text between the commas outside parentheses. -/
def pieces (depth : Nat) : Text → List Text
  | [] => [[]]
  | c :: rest =>
    if c = 44 ∧ depth = 0 then [] :: pieces 0 rest
    else (pieces (parenDepth depth c) rest).modifyHead (c :: ·)

/-- The pieces without their blanks, and without an empty one at the end. -/
def argumentsOf (line : Text) : List Text :=
  let all := pieces 0 (line.filter (· ≠ 32))
  if all.getLast? = some [] then all.dropLast else all

/-- The buffer of a call. -/
def meant (contents : Text) (arguments : List Text) : Text :=
  newline :: ((tokens contents).flatMap (Token.text arguments) ++ [newline])

/-- Every parenthesis is closed, and before another is opened. -/
def flat : Bool → Text → Bool
  | opened, [] => !opened
  | true, c :: rest => if c = 41 then flat false rest else c ≠ 40 && flat true rest
  | false, c :: rest => flat (c = 40) rest

/-- No two blanks in a row. -/
def SingleBlanks (line : Text) : Prop := line.IsChain fun a b => ¬ (a = 32 ∧ b = 32)

/-! ## One argument -/

section Agreement

variable (table : LineTable)

/-- A line, or what is left of it, in parentheses or not. -/
structure Regular (opened : Bool) (line : Text) : Prop where
  plain : ∀ c ∈ line, table.ends c = false
  single : SingleBlanks line
  flat : flat opened line = true

theorem Regular.tail_blank {opened : Bool} {rest : Text} (regular : Regular table opened (32 :: rest)) :
    Regular table opened rest where
  plain c inside := regular.plain c (List.mem_cons_of_mem _ inside)
  single := regular.single.tail
  flat := by
    have all := regular.flat
    cases opened <;> exact all

variable {c : UInt8}

/-- Where no parenthesis is opened in another both count alike. -/
theorem Regular.depth {opened : Bool} {rest : Text} (regular : Regular table opened (c :: rest)) :
    ∃ opened' : Bool, Regular table opened' rest ∧ nextDepth opened.toNat c = opened'.toNat
      ∧ parenDepth opened.toNat c = opened'.toNat := by
  have plain : ∀ c ∈ rest, table.ends c = false := fun c inside => regular.plain c (List.mem_cons_of_mem _ inside)
  have single : SingleBlanks rest := regular.single.tail
  have all := regular.flat
  cases opened with
  | false =>
    refine ⟨c = 40, ⟨plain, single, all⟩, ?_, ?_⟩
    · by_cases is : c = 40 <;> simp [nextDepth, is]
    · by_cases is : c = 40 <;> simp [parenDepth, is]
  | true =>
    rw [Cctools.Read.flat] at all
    split at all
    · rename_i is
      subst is
      exact ⟨false, ⟨plain, single, all⟩, rfl, rfl⟩
    · rename_i other
      rw [Bool.and_eq_true] at all
      have notOpen : c ≠ 40 := by simpa using all.1
      exact ⟨true, ⟨plain, single, all.2⟩, by simp [nextDepth, other], by simp [parenDepth, other, notOpen]⟩

theorem scanArgument_cons (depth : Nat) (other : c ≠ 32) (rest : Text) :
    scanArgument table depth (c :: rest)
      = if stops table depth c then some ⟨[], c, rest, []⟩
        else (scanArgument table (nextDepth depth c) rest).map (Argument.push table c) := by
  rw [scanArgument.eq_def]
  dsimp only
  rw [if_neg other]

theorem scanArgument_blank (depth : Nat) (other : c ≠ 32) (rest : Text) :
    scanArgument table depth (32 :: c :: rest) = scanArgument table depth (c :: rest) := by
  rw [scanArgument_cons table depth other, scanArgument.eq_def]
  dsimp only
  rw [if_pos rfl]

variable {eol : UInt8}

theorem not_blank_behind {rest : Text} (single : SingleBlanks (32 :: rest)) (ends : table.ends eol = true)
    (more : Text) : ∃ c tail, rest ++ eol :: more = c :: tail ∧ c ≠ 32 := by
  cases rest with
  | nil => exact ⟨eol, more, rfl, (table.not_ends ends).1⟩
  | cons c tail =>
    refine ⟨c, tail ++ eol :: more, rfl, ?_⟩
    intro is
    exact (List.isChain_cons_cons.mp single).1 ⟨rfl, is⟩

theorem pieces_cons_other {depth : Nat} (other : ¬ (c = 44 ∧ depth = 0)) {rest piece : Text} {others : List Text}
    (is : pieces (parenDepth depth c) rest = piece :: others) : pieces depth (c :: rest) = (c :: piece) :: others := by
  rw [pieces, if_neg other, is, List.modifyHead_cons]

/-- **An argument is the first piece of what is left of a line**: the line goes on behind a comma, or it ends. -/
theorem scanArgument_line (ends : table.ends eol = true) (more : Text) : ∀ (line : Text) (opened : Bool),
    Regular table opened line → ∃ piece,
      (∃ left, pieces opened.toNat (line.filter (· ≠ 32)) = piece :: pieces 0 (left.filter (· ≠ 32))
        ∧ Regular table false left ∧ left.length < line.length
        ∧ scanArgument table opened.toNat (line ++ eol :: more) = some ⟨piece, 44, left ++ eol :: more, []⟩)
      ∨ (pieces opened.toNat (line.filter (· ≠ 32)) = [piece]
        ∧ scanArgument table opened.toNat (line ++ eol :: more) = some ⟨piece, eol, more, []⟩)
  | [], opened, regular => by
      have closed : opened = false := by simpa [flat] using regular.flat
      subst closed
      obtain ⟨notBlank, notOpen, _, _⟩ := table.not_ends ends
      refine ⟨[], .inr ⟨rfl, ?_⟩⟩
      rw [List.nil_append, scanArgument_cons table _ notBlank, if_pos (by simp [stops, notOpen, ends])]
  | c :: rest, opened, regular => by
      by_cases blank : c = 32
      · subst blank
        have dropped : (32 :: rest : Text).filter (· ≠ 32) = rest.filter (· ≠ 32) := List.filter_cons_of_neg (by decide)
        obtain ⟨d, tail, is, other⟩ := not_blank_behind table regular.single ends more
        have skip : scanArgument table opened.toNat ((32 :: rest) ++ eol :: more)
            = scanArgument table opened.toNat (rest ++ eol :: more) := by
          rw [List.cons_append, is, scanArgument_blank table _ other]
        obtain ⟨piece, found⟩ := scanArgument_line ends more rest opened (regular.tail_blank table)
        refine ⟨piece, ?_⟩
        rw [dropped, skip]
        rcases found with ⟨left, split, leftRegular, shorter, scan⟩ | found
        · exact .inl ⟨left, split, leftRegular, Nat.lt_succ_of_lt shorter, scan⟩
        · exact .inr found
      · have kept : (c :: rest).filter (· ≠ 32) = c :: rest.filter (· ≠ 32) := List.filter_cons_of_pos (by simpa using blank)
        have inLine : table.ends c = false := regular.plain c List.mem_cons_self
        rw [kept, List.cons_append, scanArgument_cons table _ blank]
        by_cases comma : c = 44 ∧ opened = false
        · obtain ⟨rfl, rfl⟩ := comma
          obtain ⟨opened', restRegular, next, _⟩ := regular.depth table
          have closed : opened' = false := by
            cases opened'
            · rfl
            · cases next
          subst closed
          refine ⟨[], .inl ⟨rest, ?_, restRegular, Nat.lt_succ_self _, ?_⟩⟩
          · rw [pieces, if_pos ⟨rfl, rfl⟩]
          · rw [if_pos (by simp [stops])]
        · have goes : stops table opened.toNat c = false := by
            cases opened with
            | false => simp_all [stops]
            | true => rfl
          have notComma : ¬ (c = 44 ∧ opened.toNat = 0) := by
            rintro ⟨is, closed⟩
            exact comma ⟨is, by cases opened; rfl; cases closed⟩
          obtain ⟨opened', restRegular, next, paren⟩ := regular.depth table
          obtain ⟨piece, found⟩ := scanArgument_line ends more rest opened' restRegular
          rw [goes, if_neg (by decide), next]
          refine ⟨c :: piece, ?_⟩
          rcases found with ⟨left, split, leftRegular, shorter, scan⟩ | ⟨last, scan⟩
          · refine .inl ⟨left, ?_, leftRegular, Nat.lt_succ_of_lt shorter, ?_⟩
            · exact pieces_cons_other notComma (by rw [paren, split])
            · rw [scan, Option.map_some, Argument.push, inLine]
              rfl
          · refine .inr ⟨?_, ?_⟩
            · exact pieces_cons_other notComma (by rw [paren, last])
            · rw [scan, Option.map_some, Argument.push, inLine]
              rfl

/-! ## All arguments -/

theorem pieces_ne_nil (depth : Nat) (text : Text) : pieces depth text ≠ [] := by
  induction text generalizing depth with
  | nil => exact List.cons_ne_nil _ _
  | cons c rest ih =>
    rw [pieces]
    split
    · exact List.cons_ne_nil _ _
    · simpa using ih (parenDepth depth c)

theorem pieces_one {depth : Nat} {text piece : Text} (is : pieces depth text = [piece]) : piece = text := by
  induction text generalizing depth piece with
  | nil => exact (List.cons.inj is).1.symm
  | cons c rest ih =>
    rw [pieces] at is
    split at is
    · exact absurd (List.cons.inj is).2 (pieces_ne_nil 0 rest)
    · rcases some_ : pieces (parenDepth depth c) rest with _ | ⟨first, others⟩
      · exact absurd some_ (pieces_ne_nil _ rest)
      · rw [some_, List.modifyHead_cons] at is
        obtain ⟨rfl, rfl⟩ := List.cons.inj is
        rw [ih some_]

theorem argumentsOf_nil {line : Text} (none : line.filter (· ≠ 32) = []) : argumentsOf line = [] := by
  rw [argumentsOf, none]
  rfl

theorem argumentsOf_last {line piece : Text} (some_ : line.filter (· ≠ 32) ≠ [])
    (is : pieces 0 (line.filter (· ≠ 32)) = [piece]) : argumentsOf line = [piece] := by
  have notEmpty : piece ≠ [] := by
    rw [pieces_one is]
    exact some_
  rw [argumentsOf, is, List.getLast?_singleton]
  exact if_neg (fun empty => notEmpty (Option.some.inj empty))

theorem argumentsOf_comma {line left piece : Text}
    (is : pieces 0 (line.filter (· ≠ 32)) = piece :: pieces 0 (left.filter (· ≠ 32))) :
    argumentsOf line = piece :: argumentsOf left := by
  have some_ := pieces_ne_nil 0 (left.filter (· ≠ 32))
  rw [argumentsOf, argumentsOf, is]
  rcases others : pieces 0 (left.filter (· ≠ 32)) with _ | ⟨second, rest⟩
  · exact absurd others some_
  · rw [List.getLast?_cons_cons, List.dropLast_cons_cons]
    split <;> rfl

theorem skipBlank_line {line : Text} (regular : Regular table false line) (ends : table.ends eol = true)
    (more : Text) : ∃ line', Regular table false line' ∧ argumentsOf line = argumentsOf line'
      ∧ skipBlank (line ++ eol :: more) = line' ++ eol :: more ∧ line'.head? ≠ some 32 := by
  have notBlank := (table.not_ends ends).1
  rcases line with _ | ⟨c, rest⟩
  · refine ⟨[], regular, rfl, ?_, nofun⟩
    rw [List.nil_append, skipBlank]
    exact fun tail is => notBlank (List.cons.inj is).1
  by_cases blank : c = 32
  · subst blank
    refine ⟨rest, regular.tail_blank table, ?_, rfl, ?_⟩
    · rw [argumentsOf, argumentsOf, List.filter_cons_of_neg (by decide)]
    · rcases rest with _ | ⟨d, tail⟩
      · nofun
      · intro is
        exact (List.isChain_cons_cons.mp regular.single).1 ⟨rfl, Option.some.inj is⟩
  · refine ⟨c :: rest, regular, rfl, ?_, fun is => blank (Option.some.inj is)⟩
    rw [List.cons_append, skipBlank]
    exact fun tail is => blank (List.cons.inj is).1

/-- What so many rounds of the loop find. -/
def filled (left : Nat) (arguments : List Text) : List (Option Text) :=
  (arguments.take left).map some ++ List.replicate (left - arguments.length) none

theorem scanArguments_line (ends : table.ends eol = true) (more : Text) : ∀ (left : Nat) (line : Text)
    (scan : Arguments), Regular table false line → scan.rest = line ++ eol :: more →
    ∃ c rest, scanArguments table left scan
      = some ⟨scan.arguments ++ filled left (argumentsOf line), scan.nargs + min left (argumentsOf line).length, c, rest,
          scan.messages⟩
  | 0, line, scan, _, _ => ⟨scan.c, scan.rest, by simp [scanArguments, filled]⟩
  | left + 1, line, scan, regular, rest => by
      obtain ⟨line', regular', same, skip, head⟩ := skipBlank_line table regular ends more
      rw [same, scanArguments, rest, skip]
      rcases line' with _ | ⟨c, tail⟩
      · rw [List.nil_append]
        dsimp only
        rw [if_pos ends]
        obtain ⟨c', rest', is⟩ := scanArguments_line ends more left []
          { scan with arguments := scan.arguments ++ [none], c := eol, rest := eol :: more } regular' rfl
        refine ⟨c', rest', is.trans ?_⟩
        rw [argumentsOf_nil rfl]
        simp [filled, List.replicate_succ]
      · have other : c ≠ 32 := fun is => head (by rw [is]; rfl)
        have inLine : table.ends c = false := regular'.plain c List.mem_cons_self
        have kept : (c :: tail).filter (· ≠ 32) ≠ [] := by
          rw [List.filter_cons_of_pos (by simpa using other)]
          exact List.cons_ne_nil _ _
        rw [List.cons_append]
        dsimp only
        rw [inLine, if_neg (by decide)]
        obtain ⟨piece, found⟩ := scanArgument_line table ends more (c :: tail) false regular'
        rcases found with ⟨behind, split, behindRegular, _, scanned⟩ | ⟨last, scanned⟩
        · have comma : table.ends 44 = false := by
            by_contra is
            exact (table.not_ends ((Bool.not_eq_false _).mp is)).2.2.2 rfl
          have next : (⟨piece, 44, behind ++ eol :: more, []⟩ : Argument).next table = behind ++ eol :: more := by
            rw [Argument.next, comma]
            rfl
          rw [show scanArgument table 0 (c :: (tail ++ eol :: more)) = _ from scanned]
          dsimp only
          rw [next, List.append_nil]
          obtain ⟨c', rest', is⟩ := scanArguments_line ends more left behind
            ⟨scan.arguments ++ [some piece], scan.nargs + 1, 44, behind ++ eol :: more, scan.messages⟩ behindRegular rfl
          refine ⟨c', rest', is.trans ?_⟩
          rw [argumentsOf_comma split, List.length_cons]
          congr 2
          · simp [filled]
          · show scan.nargs + 1 + min left _ = _
            omega
        · have next : (⟨piece, eol, more, []⟩ : Argument).next table = eol :: more := by
            rw [Argument.next, ends]
            rfl
          rw [show scanArgument table 0 (c :: (tail ++ eol :: more)) = _ from scanned]
          dsimp only
          rw [next, List.append_nil]
          obtain ⟨c', rest', is⟩ := scanArguments_line ends more left []
            ⟨scan.arguments ++ [some piece], scan.nargs + 1, eol, eol :: more, scan.messages⟩
            ⟨nofun, List.isChain_nil, rfl⟩ rfl
          refine ⟨c', rest', is.trans ?_⟩
          rw [argumentsOf_nil rfl, argumentsOf_last kept last]
          simp [filled]

/-! ## The contents -/

theorem getD_filled (left : Nat) (arguments : List Text) (index : Nat) (within : index < left) :
    (filled left arguments).getD index none = arguments[index]? := by
  rw [filled, List.getD_eq_getElem?_getD]
  by_cases there : index < arguments.length
  · have inFront : index < ((arguments.take left).map some).length := by
      rw [List.length_map, List.length_take]
      omega
    rw [List.getElem?_append_left inFront, List.getElem?_map, List.getElem?_take_of_lt within,
      List.getElem?_eq_getElem there]
    rfl
  · have behind : ((arguments.take left).map some).length ≤ index := by
      rw [List.length_map, List.length_take]
      omega
    rw [List.getElem?_append_right behind, List.getElem?_replicate, List.getElem?_eq_none (by omega)]
    split <;> rfl

theorem mem_of_mem_pieces {depth : Nat} {text piece : Text} (inPieces : piece ∈ pieces depth text)
    (inPiece : c ∈ piece) : c ∈ text := by
  induction text generalizing depth piece with
  | nil =>
    rw [List.mem_singleton.mp inPieces] at inPiece
    cases inPiece
  | cons d rest ih =>
    rw [pieces] at inPieces
    split at inPieces
    · rcases List.mem_cons.mp inPieces with rfl | later
      · cases inPiece
      · exact List.mem_cons_of_mem _ (ih later inPiece)
    · rcases some_ : pieces (parenDepth depth d) rest with _ | ⟨first, others⟩
      · exact absurd some_ (pieces_ne_nil _ rest)
      · rw [some_, List.modifyHead_cons] at inPieces
        rcases List.mem_cons.mp inPieces with rfl | later
        · rcases List.mem_cons.mp inPiece with rfl | inFirst
          · exact List.mem_cons_self
          · exact List.mem_cons_of_mem _ (ih (by rw [some_]; exact List.mem_cons_self) inFirst)
        · exact List.mem_cons_of_mem _ (ih (by rw [some_]; exact List.mem_cons_of_mem _ later) inPiece)

theorem mem_of_mem_argumentsOf {line argument : Text} (inArguments : argument ∈ argumentsOf line)
    (inArgument : c ∈ argument) : c ∈ line := by
  have inPieces : argument ∈ pieces 0 (line.filter (· ≠ 32)) := by
    rw [argumentsOf] at inArguments
    split at inArguments
    · exact List.dropLast_subset _ inArguments
    · exact inArguments
  exact (List.mem_filter.mp (mem_of_mem_pieces inPieces inArgument)).1

theorem printed_digit : ∀ n < 10, [UInt8.ofNat (n + 48)] = printed 10 n := by decide

/-- **The contents with the arguments in are the texts of its tokens.** -/
theorem substitute_tokens {arguments : List Text} (strings : ∀ argument ∈ arguments, (0 : UInt8) ∉ argument)
    (contents : Text) (oneDigit : .count ∈ tokens contents → arguments.length < 10) :
    substitute (filled 10 arguments) (min 10 arguments.length) contents
      = (tokens contents).flatMap (Token.text arguments) := by
  fun_induction tokens contents with
  | case1 contents ih =>
    rw [substitute, List.flatMap_cons, ih (fun inside => oneDigit (List.mem_cons_of_mem _ inside))]
    rfl
  | case2 d contents notDollar digit ih =>
    rw [substitute, if_pos digit, List.flatMap_cons, ih (fun inside => oneDigit (List.mem_cons_of_mem _ inside))]
    · have within : d.toNat - 48 < 10 := by
        rw [Bool.and_eq_true] at digit
        have last := UInt8.le_iff_toNat_le.mp (of_decide_eq_true digit.2)
        have nine : (57 : UInt8).toNat = 57 := rfl
        omega
      congr 1
      rw [getD_filled 10 arguments _ within, Token.text, List.getD_eq_getElem?_getD]
      rcases is : arguments[d.toNat - 48]? with _ | argument
      · rfl
      · have whole : argument.takeWhile (fun c => decide (c ≠ 0)) = argument := by
          rw [List.takeWhile_eq_self_iff]
          intro c inside
          exact decide_eq_true (ne_of_mem_of_not_mem inside (strings _ (List.mem_of_getElem? is)))
        exact whole
    · exact notDollar
  | case3 contents notDollar notDigit ih =>
    have few := oneDigit List.mem_cons_self
    have all : min 10 arguments.length = arguments.length := by omega
    rw [substitute, if_neg notDigit, if_pos rfl, List.flatMap_cons,
      ih (fun inside => oneDigit (List.mem_cons_of_mem _ inside)), all]
    · rw [Token.text, ← printed_digit arguments.length few, List.singleton_append]
    · exact notDollar
  | case4 d contents notDollar notDigit notCount ih =>
    rw [substitute, if_neg notDigit, if_neg notCount, List.flatMap_cons,
      ih (fun inside => oneDigit (List.mem_cons_of_mem _ inside))]
    · rfl
    · exact notDollar
  | case5 c contents notTwo notOne ih =>
    rw [substitute, List.flatMap_cons, ih (fun inside => oneDigit (List.mem_cons_of_mem _ inside))]
    · rfl
    · exact notTwo
    · exact notOne
  | case6 => rfl

end Agreement

/-! ## The buffer -/

/-- **The buffer of a call is the contents of the macro with the arguments in**, which are the pieces of the
line between its commas outside parentheses, without blanks and without an empty last one. -/
theorem expandMacro_substitutes (table : LineTable) (contents line : Text) (eol : UInt8) (more : Text)
    (plain : ∀ c ∈ line, table.ends c = false) (ends : table.ends eol = true) (single : SingleBlanks line)
    (closed : flat false line = true)
    (oneDigit : .count ∈ tokens contents → (argumentsOf line).length < 10) :
    ∃ rest messages, expandMacro table contents (line ++ eol :: more)
      = some ⟨meant contents (argumentsOf line), rest, messages⟩ := by
  obtain ⟨c, rest, scanned⟩ := scanArguments_line table ends more 10 line ⟨[], 0, 0, line ++ eol :: more, []⟩
    ⟨plain, single, closed⟩ rfl
  have strings : ∀ argument ∈ argumentsOf line, (0 : UInt8) ∉ argument := by
    intro argument inside nul
    have inLine := plain 0 (mem_of_mem_argumentsOf inside nul)
    rw [table.ends_zero] at inLine
    cases inLine
  have buffer := substitute_tokens strings contents oneDigit
  rw [expandMacro, scanned]
  dsimp only
  rw [List.nil_append, Nat.zero_add, buffer]
  split
  · exact ⟨_, _, rfl⟩
  · exact ⟨_, _, rfl⟩

theorem expandMacro_call :
    ∃ rest messages, expandMacro (.standard false) (ascii "$1 $n") (ascii "a, (b,c)" ++ newline :: [])
      = some ⟨meant (ascii "$1 $n") (argumentsOf (ascii "a, (b,c)")), rest, messages⟩ :=
  expandMacro_substitutes (.standard false) (ascii "$1 $n") (ascii "a, (b,c)") newline []
    (by decide +kernel) rfl (by unfold SingleBlanks; decide +kernel) (by decide +kernel) (by decide +kernel)

/-- The arguments are the pieces as they stand. -/
def Verbatim (contents line : Text) : Prop :=
  ∃ rest messages, expandMacro (.standard false) contents (line ++ newline :: [])
    = some ⟨meant contents (pieces 0 line), rest, messages⟩

theorem not_verbatim {contents line : Text} (buffer : Text) (different : buffer ≠ meant contents (pieces 0 line))
    (is : (expandMacro (.standard false) contents (line ++ newline :: [])).map Expansion.buffer = some buffer) :
    ¬ Verbatim contents line := by
  rintro ⟨rest, messages, found⟩
  rw [found, Option.map_some] at is
  exact different (Option.some.inj is).symm

/-- **The arguments are not the pieces as they stand**: a blank is dropped, two end an argument, and an
empty piece at the end is none. -/
theorem expandMacro_not_verbatim :
    ¬ Verbatim (ascii "$0") (ascii "(a b)") ∧ ¬ Verbatim (ascii "$0") (ascii "a  b") ∧ ¬ Verbatim (ascii "$n") (ascii "a,") :=
  ⟨not_verbatim (ascii "\n(ab)\n") (by decide) (by decide),
    not_verbatim (ascii "\na\n") (by decide) (by decide),
    not_verbatim (ascii "\n1\n") (by decide) (by decide)⟩

/-- A parenthesis in parentheses is not counted. -/
example : (expandMacro (.standard false) (ascii "$0") (ascii "((a),b)\n")).map Expansion.buffer = some (ascii "\n((a)\n") := by
  decide +kernel

/-- Ten is one character. -/
example : (expandMacro (.standard false) (ascii "$n") (ascii "0,1,2,3,4,5,6,7,8,9\n")).map Expansion.buffer
    = some (ascii "\n:\n") := by
  decide +kernel

end Cctools.Read
