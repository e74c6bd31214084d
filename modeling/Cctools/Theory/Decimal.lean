/-
# Cctools.Theory.Decimal -- numbers read from text as the C library reads them

Blanks, one sign, the digits, and what stands behind the digits is not looked at.
`strtoul` and `strtol` are the 64-bit ones; both stop at their own bounds.  `printed`
writes the digits; what reads them back finds the number (`strtoul_printed`).
-/
import Mathlib.Data.List.Basic
import Mathlib.Algebra.GroupWithZero.Nat
import Mathlib.Algebra.Ring.Int.Defs

namespace Cctools.Theory.Decimal

set_option autoImplicit false

def isSpace (c : UInt8) : Bool := c == 32 || (9 ≤ c && c ≤ 13)

def isDigit (c : UInt8) : Bool := 48 ≤ c && c ≤ 57

def digits (text : List UInt8) : List UInt8 := text.takeWhile isDigit

def value (digits : List UInt8) : Nat := digits.foldl (fun sum c => 10 * sum + (c.toNat - 48)) 0

/-- The sign, and the text from the first digit on. -/
def signed (text : List UInt8) : Bool × List UInt8 :=
  match text.dropWhile isSpace with
  | 43 :: rest => (false, rest)
  | 45 :: rest => (true, rest)
  | rest => (false, rest)

def magnitude (text : List UInt8) : Nat := value (digits (signed text).2)

def strtoul (text : List UInt8) : Nat :=
  if 2 ^ 64 ≤ magnitude text then 2 ^ 64 - 1
  else if (signed text).1 then (2 ^ 64 - magnitude text) % 2 ^ 64
  else magnitude text

def strtol (text : List UInt8) : Int :=
  if (signed text).1 then max (-2 ^ 63) (-magnitude text) else min (2 ^ 63 - 1) (magnitude text)

/-! ## Printed numbers -/

/-- The digits of a number, as `%lu` prints them in base ten and `%o` in base eight. -/
def printed (base n : Nat) : List UInt8 := (Nat.toDigits base n).map fun c => UInt8.ofNat c.toNat

/-- `%-*s` and its like: blanks up to the width, nothing cut off. -/
def leftJustify (width : Nat) (text : List UInt8) : List UInt8 :=
  text ++ List.replicate (width - text.length) 32

theorem length_leftJustify {width : Nat} {text : List UInt8} (fits : text.length ≤ width) :
    (leftJustify width text).length = width := by
  rw [leftJustify, List.length_append, List.length_replicate]
  omega

theorem length_printed_le {base n width : Nat} (digit : 1 < base) (some_ : 0 < width) :
    (printed base n).length ≤ width ↔ n < base ^ width := by
  rw [printed, List.length_map]
  exact Nat.length_toDigits_le_iff digit some_

theorem printed_ne_nil (base n : Nat) : printed base n ≠ [] := by
  simp [printed]

theorem isDigit_of_char {c : Char} (digit : c.isDigit = true) :
    isDigit (UInt8.ofNat c.toNat) = true ∧ (UInt8.ofNat c.toNat).toNat = c.toNat := by
  simp only [Char.isDigit, Bool.and_eq_true, decide_eq_true_eq, ge_iff_le, UInt32.le_iff_toNat_le] at digit
  have low : 48 ≤ c.toNat := digit.1
  have high : c.toNat ≤ 57 := digit.2
  have number : (UInt8.ofNat c.toNat).toNat = c.toNat := by
    rw [UInt8.toNat_ofNat']
    exact Nat.mod_eq_of_lt (by omega)
  refine ⟨?_, number⟩
  simp only [isDigit, Bool.and_eq_true, decide_eq_true_eq, UInt8.le_iff_toNat_le, number]
  exact ⟨low, high⟩

theorem isDigit_of_mem_printed {n : Nat} {c : UInt8} (inside : c ∈ printed 10 n) : isDigit c = true := by
  obtain ⟨char, digit, rfl⟩ := List.mem_map.mp inside
  exact (isDigit_of_char (Nat.isDigit_of_mem_toDigits (by decide) (by decide) digit)).1

theorem value_printed (n : Nat) : value (printed 10 n) = n := by
  have folds : ∀ (chars : List Char) (sum : Nat), (∀ c ∈ chars, c.isDigit = true) →
      (chars.map fun c => UInt8.ofNat c.toNat).foldl (fun sum c => 10 * sum + (c.toNat - 48)) sum =
        Nat.ofDigitChars 10 chars sum := by
    intro chars
    induction chars with
    | nil =>
      intro sum _
      simp
    | cons char rest ih =>
      intro sum digits
      rw [List.map_cons, List.foldl_cons, ih _ fun c inside => digits c (List.mem_cons_of_mem _ inside),
        Nat.ofDigitChars_cons, (isDigit_of_char (digits char List.mem_cons_self)).2]
      rfl
  rw [value, printed, folds _ _ fun c inside => Nat.isDigit_of_mem_toDigits (by decide) (by decide) inside]
  exact Nat.ofDigitChars_ten_toDigits

section ReadBack

variable {n : Nat} {rest : List UInt8}

theorem digits_printed (ends : rest.head?.all (fun c => !isDigit c) = true) :
    digits (printed 10 n ++ rest) = printed 10 n ∧ (printed 10 n ++ rest).dropWhile isDigit = rest := by
  have stops : rest.takeWhile isDigit = [] ∧ rest.dropWhile isDigit = rest := by
    cases rest with
    | nil => simp
    | cons c more =>
      have other : isDigit c = false := by simpa using ends
      simp [other]
  rw [digits, List.takeWhile_append_of_pos fun c => isDigit_of_mem_printed,
    List.dropWhile_append_of_pos fun c => isDigit_of_mem_printed, stops.1, stops.2]
  simp

theorem signed_printed (n : Nat) (rest : List UInt8) :
    signed (printed 10 n ++ rest) = (false, printed 10 n ++ rest) := by
  obtain ⟨c, more, split⟩ : ∃ c more, printed 10 n = c :: more := List.exists_cons_of_ne_nil (printed_ne_nil 10 n)
  have digit : isDigit c = true := isDigit_of_mem_printed (n := n) (by rw [split]; exact List.mem_cons_self)
  simp only [isDigit, Bool.and_eq_true, decide_eq_true_eq, UInt8.le_iff_toNat_le] at digit
  have low : 48 ≤ c.toNat := digit.1
  have notSpace : isSpace c = false := by
    simp only [isSpace, Bool.or_eq_false_iff, beq_eq_false_iff_ne, ne_eq, Bool.and_eq_false_iff,
      decide_eq_false_iff_not, UInt8.le_iff_toNat_le]
    refine ⟨?_, .inr (by simp; omega)⟩
    rintro rfl
    simp at low
  rw [split, signed, List.cons_append, List.dropWhile_cons_of_neg (by simp [notSpace])]
  split
  · rename_i same
    cases same
    simp at low
  · rename_i same
    cases same
    simp at low
  · rfl

theorem strtoul_printed (small : n < 2 ^ 64) (ends : rest.head?.all (fun c => !isDigit c) = true) :
    strtoul (printed 10 n ++ rest) = n := by
  have number : magnitude (printed 10 n ++ rest) = n := by
    rw [magnitude, signed_printed, (digits_printed ends).1, value_printed]
  rw [strtoul, number, signed_printed, if_neg (by omega)]
  rfl

theorem strtol_printed (small : n < 2 ^ 63) (ends : rest.head?.all (fun c => !isDigit c) = true) :
    strtol (printed 10 n ++ rest) = n := by
  have number : magnitude (printed 10 n ++ rest) = n := by
    rw [magnitude, signed_printed, (digits_printed ends).1, value_printed]
  rw [strtol, number, signed_printed]
  simp only [Bool.false_eq_true, ↓reduceIte]
  omega

end ReadBack

/-- What follows a number in its field, or the next field when there is no room. -/
theorem leftJustify_ends {width : Nat} {text rest : List UInt8}
    (ends : text.length < width ∨ rest.head?.all (fun c => !isDigit c) = true) :
    (List.replicate (width - text.length) 32 ++ rest).head?.all (fun c => !isDigit c) = true := by
  cases gap : width - text.length with
  | zero =>
    rcases ends with short | ends
    · omega
    · simpa using ends
  | succ k => simp [List.replicate_succ, isDigit]

end Cctools.Theory.Decimal
