/-
# Cctools.Read.CopyString -- copies of string operands

`next_char_of_string`, `demand_copy_string` and `demand_copy_C_string` of the assembler's read.c.
A string ends at the quote that is not escaped; the copy has a zero behind its bytes.

`demand_copy_C_string` is to turn down a string with a zero in it.  Its loop counts the bytes down
but stays at the first one, so that is the only zero it finds (`demandCopyCString_iff`).  Any bytes
at all are those of some string (`copyString_literal`).
-/
import Cctools.Read.Statements
import Mathlib.Tactic.Common

namespace Cctools.Read.CopyString

set_option autoImplicit false

/-! ## Characters of a string -/

inductive Complaint where
  | badEscape
  | missingString
  | nulInString
  deriving DecidableEq, Repr

def Complaint.text : Complaint → String
  | badEscape => "Bad escaped character in string, '?' assumed"
  | missingString => "Missing string"
  | nulInString => "This string may not contain '\\0'"

/-- The text from `input_line_pointer` on, and what `as_bad` was called for. -/
structure Scan where
  text : Text
  complaints : List Complaint
  deriving DecidableEq, Repr

/-- The PowerPC assembler has its strings in single quotes under `-ppcasm`. -/
def quote (ppcasm : Bool) : UInt8 := if ppcasm then 39 else 34

def isOctal (c : UInt8) : Bool := 48 ≤ c && c < 56

/-- The number of at most so many octal digits, and the text from the first character behind them on,
which is read too; `none` outside the text. -/
def octal : Nat → Nat → Text → Option (Nat × Text)
  | _, _, [] => none
  | 0, number, c :: rest => some (number, c :: rest)
  | times + 1, number, c :: rest =>
    if isOctal c then octal times (number * 8 + (c.toNat - 48)) rest else some (number, c :: rest)

/-- What stands behind a backslash. -/
def escaped (complaints : List Complaint) : Text → Option (Nat × Scan)
  | [] => none
  | 98 :: rest => some (8, ⟨rest, complaints⟩)
  | 102 :: rest => some (12, ⟨rest, complaints⟩)
  | 110 :: rest => some (10, ⟨rest, complaints⟩)
  | 114 :: rest => some (13, ⟨rest, complaints⟩)
  | 116 :: rest => some (9, ⟨rest, complaints⟩)
  | 92 :: rest => some (92, ⟨rest, complaints⟩)
  | 34 :: rest => some (34, ⟨rest, complaints⟩)
  | 39 :: rest => some (39, ⟨rest, complaints⟩)
  | 10 :: rest => some (10, ⟨rest, complaints⟩)
  | c :: rest =>
    if 48 ≤ c ∧ c ≤ 57 then (octal 3 0 (c :: rest)).map fun found => (found.1, ⟨found.2, complaints⟩)
    else some (63, ⟨rest, complaints ++ [.badEscape]⟩)

/-- The character is `none` for the -1 of the quote at the end. -/
def nextCharOfString (ppcasm : Bool) (scan : Scan) : Option (Option Nat × Scan) :=
  match scan.text with
  | [] => none
  | c :: rest =>
    if c = quote ppcasm then some (none, { scan with text := rest })
    else if c = 92 then (escaped scan.complaints rest).map fun found => (some found.1, found.2)
    else some (some c.toNat, { scan with text := rest })

theorem length_octal {times number value : Nat} {text rest : Text}
    (read : octal times number text = some (value, rest)) : rest.length ≤ text.length := by
  induction text generalizing times number with
  | nil => simp [octal] at read
  | cons c text ih =>
    cases times with
    | zero =>
      obtain ⟨-, rfl⟩ := Prod.mk.inj (Option.some.inj read)
      exact Nat.le_refl _
    | succ times =>
      rw [octal] at read
      split at read
      · exact Nat.le_succ_of_le (ih read)
      · obtain ⟨-, rfl⟩ := Prod.mk.inj (Option.some.inj read)
        exact Nat.le_refl _

theorem length_escaped {complaints : List Complaint} {value : Nat} {text : Text} {after : Scan}
    (read : escaped complaints text = some (value, after)) : after.text.length ≤ text.length := by
  unfold escaped at read
  split at read
  case h_11 c rest =>
    split at read
    · obtain ⟨⟨number, behind⟩, found, same⟩ := Option.map_eq_some_iff.mp read
      obtain ⟨-, rfl⟩ := Prod.mk.inj same
      exact length_octal found
    · obtain ⟨-, rfl⟩ := Prod.mk.inj (Option.some.inj read)
      exact Nat.le_succ _
  case h_1 => cases read
  all_goals
    obtain ⟨-, rfl⟩ := Prod.mk.inj (Option.some.inj read)
    exact Nat.le_succ _

variable {scan after : Scan}

theorem length_nextCharOfString {ppcasm : Bool} {char : Option Nat}
    (read : nextCharOfString ppcasm scan = some (char, after)) : after.text.length < scan.text.length := by
  obtain ⟨text, complaints⟩ := scan
  cases text with
  | nil => cases read
  | cons c rest =>
    rw [nextCharOfString] at read
    dsimp only at read
    split at read
    · obtain ⟨-, rfl⟩ := Prod.mk.inj (Option.some.inj read)
      exact Nat.lt_succ_self _
    · split at read
      · obtain ⟨⟨value, behind⟩, found, same⟩ := Option.map_eq_some_iff.mp read
        obtain ⟨-, rfl⟩ := Prod.mk.inj same
        exact Nat.lt_succ_of_le (length_escaped found)
      · obtain ⟨-, rfl⟩ := Prod.mk.inj (Option.some.inj read)
        exact Nat.lt_succ_self _

/-! ## Copies -/

/-- The bytes up to the end of the string; `none` when the text ends before it. -/
def copyString (ppcasm : Bool) (scan : Scan) : Option (List UInt8 × Scan) :=
  match _read : nextCharOfString ppcasm scan with
  | none => none
  | some (none, after) => some ([], after)
  | some (some c, after) => (copyString ppcasm after).map fun copied => (UInt8.ofNat c :: copied.1, copied.2)
  termination_by scan.text.length
  decreasing_by exact length_nextCharOfString _read

/-- A `char *` with what it points to, or `NULL`, and the length; the length is an `int`, and a buffer is
shorter than 2^31. -/
structure Copied where
  retval : Option (List UInt8)
  len : Nat
  after : Scan
  deriving DecidableEq, Repr

section Demand

variable (ppcasm : Bool) (source : Source)

def demandCopyString (scan : Scan) : Option Copied :=
  let text := skipWhitespace scan.text
  match text with
  | [] => none
  | c :: rest =>
    if c = quote ppcasm then
      (copyString ppcasm { scan with text := rest }).map fun copied => ⟨some (copied.1 ++ [0]), copied.1.length, copied.2⟩
    else some ⟨none, 0, ⟨ignoreRestOfLine source text, scan.complaints ++ [.missingString]⟩⟩

/-- `for(len = *len_pointer; len > 0; len--)`: `s` is a place in the copy, or `none` for `NULL`.  Finding a zero
sets `len` to 1, which ends the loop. -/
def lookForNul (copy : List UInt8) (s : Option Nat) (len : Nat) (complaints : List Complaint) :
    Nat → Option (Option Nat × Nat × List Complaint)
  | 0 => some (s, len, complaints)
  | left + 1 =>
    match s.bind (copy[·]?) with
    | none => none
    | some c =>
      if c = 0 then some (none, 0, complaints ++ [.nulInString])
      else lookForNul copy s len complaints left

def demandCopyCString (scan : Scan) : Option Copied :=
  (demandCopyString ppcasm source scan).bind fun copied =>
    match copied.retval with
    | none => some copied
    | some copy =>
      (lookForNul copy (some 0) copied.len copied.after.complaints copied.len).map fun looked =>
        ⟨looked.1.map copy.drop, looked.2.1, { copied.after with complaints := looked.2.2 }⟩

end Demand

/-! ## Which strings are turned down -/

variable {ppcasm : Bool} {source : Source}

theorem copyString_ended (ended : nextCharOfString ppcasm scan = some (none, after)) :
    copyString ppcasm scan = some ([], after) := by
  rw [copyString]
  split
  · rename_i outside
    rw [ended] at outside
    cases outside
  · rename_i read
    rw [ended] at read
    obtain ⟨-, rfl⟩ := Prod.mk.inj (Option.some.inj read)
    rfl
  · rename_i read
    rw [ended] at read
    cases read

theorem copyString_char {c : Nat} (char : nextCharOfString ppcasm scan = some (some c, after)) :
    copyString ppcasm scan =
      (copyString ppcasm after).map fun copied => (UInt8.ofNat c :: copied.1, copied.2) := by
  rw [copyString]
  split
  · rename_i outside
    rw [char] at outside
    cases outside
  · rename_i read
    rw [char] at read
    cases read
  · rename_i read
    rw [char] at read
    obtain ⟨same, rfl⟩ := Prod.mk.inj (Option.some.inj read)
    obtain rfl := Option.some.inj same
    rfl

theorem lookForNul_first (first : UInt8) (more : List UInt8) (len : Nat) (complaints : List Complaint) (left : Nat) :
    lookForNul (first :: more) (some 0) len complaints left =
      some (if 0 < left ∧ first = 0 then (none, 0, complaints ++ [.nulInString]) else (some 0, len, complaints)) := by
  induction left with
  | zero => rfl
  | succ left ih =>
    have here : (some 0 : Option Nat).bind ((first :: more)[·]?) = some first := rfl
    rw [lookForNul, here]
    dsimp only
    by_cases zero : first = 0
    · rw [if_pos zero, if_pos ⟨Nat.succ_pos left, zero⟩]
    · rw [if_neg zero, ih, if_neg fun both => zero both.2, if_neg fun both => zero both.2]

/-- What `demand_copy_C_string` is to give for a string of these bytes: `NULL` and no length if there is a zero
among them, and a copy otherwise. -/
def CStringOf (bytes : List UInt8) (copied : Copied) : Prop :=
  (copied.retval = none ∧ copied.len = 0 ↔ 0 ∈ bytes) ∧
    (0 ∉ bytes → copied.retval = some (bytes ++ [0]) ∧ copied.len = bytes.length)

theorem demandCopyString_spec {scan : Scan} {copied : Copied} {copy : List UInt8}
    (demanded : demandCopyString ppcasm source scan = some copied) (isCopy : copied.retval = some copy) :
    ∃ bytes, copy = bytes ++ [0] ∧ copied.len = bytes.length := by
  rw [demandCopyString] at demanded
  split at demanded
  · cases demanded
  · split at demanded
    · obtain ⟨⟨bytes, after⟩, -, rfl⟩ := Option.map_eq_some_iff.mp demanded
      obtain rfl := Option.some.inj isCopy
      exact ⟨bytes, rfl, rfl⟩
    · obtain rfl := Option.some.inj demanded
      cases isCopy

/-- **A string with a zero is turned down** exactly if the zero is the first byte.  Reading stays inside the
copy in either case. -/
theorem demandCopyCString_iff (ppcasm : Bool) (source : Source) (scan : Scan) :
    match demandCopyString ppcasm source scan with
    | none => demandCopyCString ppcasm source scan = none
    | some ⟨none, len, after⟩ => demandCopyCString ppcasm source scan = some ⟨none, len, after⟩
    | some ⟨some copy, len, after⟩ => ∃ bytes, copy = bytes ++ [0] ∧ len = bytes.length ∧
        ∃ copied, demandCopyCString ppcasm source scan = some copied ∧ copied.after.text = after.text ∧
          (CStringOf bytes copied ↔ (0 ∈ bytes → bytes.head? = some 0)) := by
  cases demanded : demandCopyString ppcasm source scan with
  | none =>
    rw [demandCopyCString, demanded]
    rfl
  | some copied =>
    obtain ⟨retval, len, after⟩ := copied
    cases retval with
    | none =>
      rw [demandCopyCString, demanded]
      rfl
    | some copy =>
      obtain ⟨bytes, rfl, rfl⟩ := demandCopyString_spec demanded rfl
      refine ⟨bytes, rfl, rfl, ?_⟩
      rw [demandCopyCString, demanded]
      dsimp only [Option.bind_some]
      cases bytes with
      | nil => exact ⟨_, rfl, rfl, by simp [CStringOf]⟩
      | cons first more =>
        rw [List.cons_append, lookForNul_first]
        refine ⟨_, rfl, rfl, ?_⟩
        by_cases zero : first = 0
        · simp [CStringOf, zero]
        · simp [CStringOf, zero]

/-! ## Strings for all bytes -/

/-- A byte as a backslash and three octal digits. -/
def octalEscape (byte : UInt8) : Text :=
  [92, UInt8.ofNat (48 + byte.toNat / 64), UInt8.ofNat (48 + byte.toNat / 8 % 8), UInt8.ofNat (48 + byte.toNat % 8)]

theorem octal_digit {digit : Nat} (small : digit < 8) (times number : Nat) (rest : Text) :
    octal (times + 1) number (UInt8.ofNat (48 + digit) :: rest) = octal times (number * 8 + digit) rest := by
  have read : ∀ digit < 8, isOctal (UInt8.ofNat (48 + digit)) = true ∧ (UInt8.ofNat (48 + digit)).toNat - 48 = digit := by
    decide
  obtain ⟨isDigit, value⟩ := read digit small
  rw [octal, if_pos isDigit, value]

theorem octal_end (number : Nat) {rest : Text} (more : rest ≠ []) : octal 0 number rest = some (number, rest) := by
  cases rest with
  | nil => exact absurd rfl more
  | cons c rest => rfl

theorem escaped_octal (complaints : List Complaint) (byte : UInt8) {rest : Text} (more : rest ≠ []) :
    escaped complaints ((octalEscape byte).tail ++ rest) = some (byte.toNat, ⟨rest, complaints⟩) := by
  have small : byte.toNat < 256 := byte.toNat_lt
  have value : ((0 * 8 + byte.toNat / 64) * 8 + byte.toNat / 8 % 8) * 8 + byte.toNat % 8 = byte.toNat := by omega
  have digits : octal 3 0 ((octalEscape byte).tail ++ rest) = some (byte.toNat, rest) := by
    rw [octalEscape, List.tail_cons, List.cons_append, List.cons_append, List.cons_append, List.nil_append,
      octal_digit (by omega), octal_digit (by omega), octal_digit (by omega), octal_end _ more, value]
  have first : byte.toNat / 64 = 0 ∨ byte.toNat / 64 = 1 ∨ byte.toNat / 64 = 2 ∨ byte.toNat / 64 = 3 := by omega
  rcases first with first | first | first | first <;>
    · rw [octalEscape, List.tail_cons, first] at digits ⊢
      exact congrArg (Option.map _) digits

/-- **Any bytes** are those of a string. -/
theorem copyString_literal (ppcasm : Bool) (bytes : List UInt8) (rest : Text) (complaints : List Complaint) :
    copyString ppcasm ⟨bytes.flatMap octalEscape ++ quote ppcasm :: rest, complaints⟩ =
      some (bytes, ⟨rest, complaints⟩) := by
  induction bytes with
  | nil =>
    apply copyString_ended
    rw [List.flatMap_nil, List.nil_append, nextCharOfString]
    exact if_pos rfl
  | cons byte bytes ih =>
    have backslash : (92 : UInt8) ≠ quote ppcasm := by cases ppcasm <;> decide
    have more : bytes.flatMap octalEscape ++ quote ppcasm :: rest ≠ [] := by simp
    have char : nextCharOfString ppcasm
        ⟨(byte :: bytes).flatMap octalEscape ++ quote ppcasm :: rest, complaints⟩ =
          some (some byte.toNat, ⟨bytes.flatMap octalEscape ++ quote ppcasm :: rest, complaints⟩) := by
      have read := escaped_octal complaints byte more
      rw [List.flatMap_cons, List.append_assoc, octalEscape, List.cons_append, nextCharOfString]
      dsimp only
      rw [if_neg backslash, if_pos rfl]
      exact congrArg (Option.map _) read
    rw [copyString_char char, ih]
    simp

theorem demandCopyString_literal (bytes : List UInt8) (rest : Text) (complaints : List Complaint) :
    demandCopyString ppcasm source ⟨quote ppcasm :: (bytes.flatMap octalEscape ++ quote ppcasm :: rest), complaints⟩ =
      some ⟨some (bytes ++ [0]), bytes.length, ⟨rest, complaints⟩⟩ := by
  have quoted : skipWhitespace (quote ppcasm :: (bytes.flatMap octalEscape ++ quote ppcasm :: rest)) =
      quote ppcasm :: (bytes.flatMap octalEscape ++ quote ppcasm :: rest) := by
    cases ppcasm <;> rfl
  rw [demandCopyString, quoted]
  dsimp only
  rw [if_pos rfl, copyString_literal]
  rfl

/-- The string `a\0b`. -/
def nulInside : Scan := ⟨quote false :: ([97, 0, 98].flatMap octalEscape ++ [quote false]), []⟩

/-- Nothing behind the string is looked at. -/
def noSource : Source where
  atSign := false
  getAbsoluteExpression := fun text => (0, text)
  statement := fun state text => (state, text)
  macroLine := fun state text => (state, text)

theorem nulInside_accepted :
    demandCopyString false noSource nulInside = some ⟨some [97, 0, 98, 0], 3, ⟨[], []⟩⟩ ∧
      demandCopyCString false noSource nulInside = some ⟨some [97, 0, 98, 0], 3, ⟨[], []⟩⟩ := by
  have copy : demandCopyString false noSource nulInside = some ⟨some [97, 0, 98, 0], 3, ⟨[], []⟩⟩ :=
    demandCopyString_literal [97, 0, 98] [] []
  refine ⟨copy, ?_⟩
  rw [demandCopyCString, copy]
  rfl

end Cctools.Read.CopyString
