/-
# Cctools.Expr.Literals -- integer constants

The literals of absolute expressions and what `integer` reads where one stands.  A literal
is read as its value if it has few enough digits, or else if its value has a second
littlenum and no sign bit (`Literal.Plain`, `number_literal`).  Of the others, those with
the sign bit of an `int` come out negative, those from 2^32 on as a bignum, and those with
one littlenum get a second one that an earlier number left.
-/
import Cctools.Expr.Operand
import Mathlib.Data.List.Induction
import Mathlib.Data.Nat.Digits.Defs
import Mathlib.Tactic.Ring

namespace Cctools.Expr

open Cctools.Read (Text ascii newline)
open Cctools.Scrub (Target)
open Cctools.PseudoSet

set_option autoImplicit false

/-! ## Literals -/

inductive Base
  | decimal
  | octal
  | hex (upper : Bool)
  deriving DecidableEq, Repr

namespace Base

def radix : Base → Radix
  | decimal => .decimal
  | octal => .octal
  | hex _ => .hex

def text : Base → Text
  | decimal => []
  | octal => ascii "0"
  | hex false => ascii "0x"
  | hex true => ascii "0X"

/-- A decimal literal does not begin with a zero; that is an octal one, the zero itself included. -/
def Admits : Base → Text → Prop
  | decimal, digits => digits ≠ [] ∧ digits.head? ≠ some 48
  | octal, _ => True
  | hex _, digits => digits ≠ []

end Base

inductive Suffix
  | none
  | ll
  | ull
  deriving DecidableEq, Repr

def Suffix.text : Suffix → Text
  | none => []
  | ll => ascii "LL"
  | ull => ascii "ULL"

def Radix.value (radix : Radix) (digits : Text) : Nat :=
  digits.foldl (fun number c => number * radix.radix + hexValue c) 0

/-- An integer literal that fits in 64 bits. -/
structure Literal where
  base : Base
  digits : Text
  suffix : Suffix
  admits : base.Admits digits
  digits_lt : ∀ c ∈ digits, hexValue c < base.radix.maxdig
  fits : base.radix.value digits < 2 ^ 64

namespace Literal

def text (literal : Literal) : Text := literal.base.text ++ (literal.digits ++ literal.suffix.text)

def value (literal : Literal) : Nat := literal.base.radix.value literal.digits

/-- What the code reads without a defect: few digits, or two littlenums and no sign bit. -/
def Plain (literal : Literal) : Prop :=
  literal.digits.length < literal.base.radix.tooManyDigits * 2 ∨ (2 ^ 16 ≤ literal.value ∧ literal.value < 2 ^ 31)

instance (literal : Literal) : Decidable literal.Plain := inferInstanceAs (Decidable (_ ∨ _))

end Literal

/-! ## Values -/

theorem Radix.value_snoc (radix : Radix) (digits : Text) (c : UInt8) :
    radix.value (digits ++ [c]) = radix.value digits * radix.radix + hexValue c := by
  simp [Radix.value]

variable {radix : Radix}

theorem Radix.value_le_append (positive : 0 < radix.radix) (digits more : Text) :
    radix.value digits ≤ radix.value (digits ++ more) := by
  induction more using List.reverseRecOn with
  | nil => simp
  | append_singleton more c ih =>
    rw [← List.append_assoc, Radix.value_snoc]
    have grows := Nat.le_mul_of_pos_right (radix.value (digits ++ more)) positive
    omega

theorem Radix.scan_eq (radix : Radix) (digits : Text) : radix.scan digits = BitVec.ofNat 64 (radix.value digits) := by
  induction digits using List.reverseRecOn with
  | nil => rfl
  | append_singleton digits c ih =>
    rw [Radix.value_snoc, Radix.scan, List.foldl_append, ← Radix.scan, ih]
    simp [BitVec.ofNat_add, BitVec.ofNat_mul]

/-! ## Bignums -/

/-- The value of littlenums. -/
def worth (littlenums : List Nat) : Nat := Nat.ofDigits (2 ^ 16) littlenums

theorem worth_append (low high : List Nat) : worth (low ++ high) = worth low + 2 ^ (16 * low.length) * worth high := by
  rw [worth, Nat.ofDigits_append, ← pow_mul]
  rfl

theorem worth_lt {littlenums : List Nat} (small : ∀ littlenum ∈ littlenums, littlenum < 2 ^ 16) :
    worth littlenums < 2 ^ (16 * littlenums.length) := by
  have bound := Nat.ofDigits_lt_base_pow_length (b := 2 ^ 16) (by norm_num) small
  rwa [← pow_mul] at bound

theorem timesPlus_length (radix : Nat) (used : List Nat) (carry : Nat) :
    (timesPlus radix used carry).1.length = used.length := by
  induction used generalizing carry with
  | nil => rfl
  | cons littlenum used ih => simp [timesPlus, ih]

/-- Nothing is lost when a carry goes through the littlenums. -/
theorem timesPlus_worth (radix : Nat) (used : List Nat) (carry : Nat) :
    worth (timesPlus radix used carry).1 + 2 ^ (16 * used.length) * (timesPlus radix used carry).2 =
      carry + radix * worth used := by
  induction used generalizing carry with
  | nil => simp [timesPlus, worth]
  | cons littlenum used ih =>
    have rest := ih ((carry + radix * littlenum) / 2 ^ 16)
    have split := Nat.mod_add_div (carry + radix * littlenum) (2 ^ 16)
    simp only [timesPlus, worth, Nat.ofDigits_cons, List.length_cons] at rest ⊢
    rw [Nat.mul_add 16, pow_add]
    calc _ = (carry + radix * littlenum) % 2 ^ 16 + 2 ^ 16 *
            (Nat.ofDigits (2 ^ 16) (timesPlus radix used ((carry + radix * littlenum) / 2 ^ 16)).1 +
              2 ^ (16 * used.length) * (timesPlus radix used ((carry + radix * littlenum) / 2 ^ 16)).2) := by
          push_cast
          ring
      _ = ((carry + radix * littlenum) % 2 ^ 16 + 2 ^ 16 * ((carry + radix * littlenum) / 2 ^ 16)) +
            2 ^ 16 * (radix * Nat.ofDigits (2 ^ 16) used) := by
          rw [rest]
          ring
      _ = _ := by
          rw [split]
          push_cast
          ring

theorem timesPlus_small {radix : Nat} (radixSmall : radix ≤ 16) {used : List Nat}
    (small : ∀ littlenum ∈ used, littlenum < 2 ^ 16) {carry : Nat} (carrySmall : carry < 16) :
    (∀ littlenum ∈ (timesPlus radix used carry).1, littlenum < 2 ^ 16) ∧ (timesPlus radix used carry).2 < 16 := by
  induction used generalizing carry with
  | nil => exact ⟨by simp [timesPlus], carrySmall⟩
  | cons littlenum used ih =>
    have first : littlenum < 2 ^ 16 := small littlenum (by simp)
    have work : radix * littlenum ≤ 16 * (2 ^ 16 - 1) := Nat.mul_le_mul radixSmall (by omega)
    have carried : (carry + radix * littlenum) / 2 ^ 16 < 16 := by omega
    obtain ⟨restSmall, carrySmall⟩ := ih (fun l member => small l (by simp [member])) carried
    refine ⟨?_, carrySmall⟩
    intro l member
    rcases List.mem_cons.mp member with rfl | later
    · exact Nat.mod_lt _ (by norm_num)
    · exact restSmall l later

/-- A bignum that has a value, and no more littlenums than it needs. -/
structure Bignum.Holds (bignum : Bignum) (value : Nat) : Prop where
  worth_eq : worth bignum.used = value
  small : ∀ littlenum ∈ bignum.used, littlenum < 2 ^ 16
  some_ : bignum.used ≠ []
  short : bignum.used.length = 1 ∨ 2 ^ (16 * (bignum.used.length - 1)) ≤ value

theorem Bignum.Holds.length_le {bignum : Bignum} {value : Nat} (holds : bignum.Holds value) {littlenums : Nat}
    (positive : 0 < littlenums) (fits : value < 2 ^ (16 * littlenums)) : bignum.used.length ≤ littlenums := by
  rcases holds.short with one | large
  · omega
  · by_contra long
    have more : 2 ^ (16 * littlenums) ≤ 2 ^ (16 * (bignum.used.length - 1)) :=
      Nat.pow_le_pow_right (by norm_num) (by omega)
    omega

theorem Bignum.addDigit_holds (radixSmall : radix.radix ≤ 16) (positive : 0 < radix.radix)
    {bignum : Bignum} {value : Nat} (holds : bignum.Holds value) {c : UInt8} (digit : hexValue c < 16)
    (fits : value * radix.radix + hexValue c < 2 ^ (16 * sizeOfLargeNumber)) :
    (bignum.addDigit radix c).Holds (value * radix.radix + hexValue c) := by
  obtain ⟨used, beyond⟩ := bignum
  have worth_eq : worth used = value := holds.worth_eq
  have length := timesPlus_length radix.radix used (hexValue c)
  have total := timesPlus_worth radix.radix used (hexValue c)
  have nonempty : 0 < used.length := List.length_pos_iff.mpr holds.some_
  have grows := Nat.le_mul_of_pos_right value positive
  have step := timesPlus_small radixSmall holds.small digit
  simp only [Bignum.addDigit]
  simp only at step
  generalize timesPlus radix.radix used (hexValue c) = after at length total step ⊢
  obtain ⟨used', carry⟩ := after
  obtain ⟨small, carrySmall⟩ := step
  simp only at length total small carrySmall ⊢
  rw [worth_eq, Nat.mul_comm radix.radix] at total
  by_cases zero : carry = 0
  · rw [if_neg (by simp [zero])]
    refine ⟨?_, small, ?_, ?_⟩
    · show worth used' = _
      rw [zero] at total
      omega
    · exact List.length_pos_iff.mp (by simp only; omega)
    · rcases holds.short with one | large
      · exact .inl (length.trans one)
      · right
        simp only at large ⊢
        rw [length]
        omega
  · have least : 2 ^ (16 * used.length) * 1 ≤ 2 ^ (16 * used.length) * carry := Nat.mul_le_mul_left _ (by omega)
    have room : used.length < sizeOfLargeNumber := by
      by_contra full
      have more : 2 ^ (16 * sizeOfLargeNumber) ≤ 2 ^ (16 * used.length) :=
        Nat.pow_le_pow_right (by norm_num) (by omega)
      omega
    rw [if_pos ⟨zero, length ▸ room⟩]
    refine ⟨?_, ?_, by simp, ?_⟩
    · show worth (used' ++ [carry]) = _
      rw [worth_append, length, worth, worth, Nat.ofDigits_singleton]
      rw [worth] at total
      omega
    · intro l member
      rcases List.mem_append.mp member with before | last
      · exact small l before
      · rw [List.mem_singleton.mp last]
        omega
    · right
      simp only [List.length_append, length, List.length_singleton, Nat.add_sub_cancel]
      omega

theorem Radix.bignum_holds (radixSmall : radix.radix ≤ 16) (positive : 0 < radix.radix)
    {digits : Text} (isDigits : ∀ c ∈ digits, hexValue c < 16)
    (fits : radix.value digits < 2 ^ (16 * sizeOfLargeNumber)) (littlenums : List Nat) : (radix.bignum digits littlenums).Holds (radix.value digits) := by
  induction digits using List.reverseRecOn with
  | nil => exact ⟨by simp [Radix.bignum, worth, Radix.value], by simp [Radix.bignum], by simp [Radix.bignum], .inl rfl⟩
  | append_singleton digits c ih =>
    have below := Nat.lt_of_le_of_lt (Radix.value_le_append positive digits [c]) fits
    rw [Radix.value_snoc] at fits ⊢
    rw [Radix.bignum, List.foldl_append]
    exact Bignum.addDigit_holds radixSmall positive
      (ih (fun d member => isDigits d (by simp [member])) below) (isDigits c (by simp)) fits

/-! ## Reading a literal -/

/-- A letter or a digit, which would go on a literal. -/
def isAlphanumeric (c : UInt8) : Bool := isDigit c || (65 ≤ c && c ≤ 90) || (97 ≤ c && c ≤ 122)

/-- What may follow a literal. -/
def EndsWord (more : Text) : Prop := isAlphanumeric (more.getD 0 0) = false

theorem ofUInt8_inj {c d : UInt8} (same : Char.ofUInt8 c = Char.ofUInt8 d) : c = d := by
  have values : c.toNat = d.toNat := congrArg Char.toNat same
  exact UInt8.toNat_inj.mp values

theorem hexValue_of_alphanumeric {c : UInt8} (outside : isAlphanumeric c = false ∨ c = 76 ∨ c = 85) : hexValue c = 42 := by
  rcases outside with other | rfl | rfl
  · simp only [isAlphanumeric, isDigit, Bool.or_eq_false_iff, Bool.and_eq_false_iff, decide_eq_false_iff_not,
      UInt8.le_iff_toNat_le] at other
    simp only [hexValue, UInt8.le_iff_toNat_le]
    simp at other ⊢
    split_ifs <;> omega
  · rfl
  · rfl

theorem Suffix.text_stop (suffix : Suffix) {more : Text} (word : EndsWord more) :
    isAlphanumeric ((suffix.text ++ more).getD 0 0) = false ∨ (suffix.text ++ more).getD 0 0 = 76 ∨
      (suffix.text ++ more).getD 0 0 = 85 := by
  cases suffix with
  | none => exact .inl word
  | ll => exact .inr (.inl rfl)
  | ull => exact .inr (.inr rfl)

theorem Radix.digits_append (decides : radix.maxdig ≤ 42) {digits tail : Text}
    (digits_lt : ∀ c ∈ digits, hexValue c < radix.maxdig) (stop : hexValue (tail.getD 0 0) = 42) :
    radix.digits (digits ++ tail) = digits := by
  rw [Radix.digits, List.takeWhile_append_of_pos (by simpa using digits_lt)]
  cases tail with
  | nil => simp
  | cons c tail =>
    have outside : ¬hexValue c < radix.maxdig := by
      rw [List.getD_cons_zero] at stop
      omega
    simp [outside]

theorem ignoreLlOrUll_suffix (suffix : Suffix) {more : Text} (word : EndsWord more) :
    ignoreLlOrUll (suffix.text ++ more) = more := by
  cases suffix with
  | none =>
    cases more with
    | nil => rfl
    | cons c more =>
      have notU : c ≠ 85 := by rintro rfl; cases word
      have notL : c ≠ 76 := by rintro rfl; cases word
      simp [ignoreLlOrUll, Suffix.text, ascii, notU.symm, notL.symm]
  | ll => simp [ignoreLlOrUll, Suffix.text, ascii]
  | ull => simp [ignoreLlOrUll, Suffix.text, ascii]

section Reading

variable {width : Nat} (as : Assembler width) {more : Text}

theorem smallNumber_literal (number : BitVec 64) (suffix : Suffix) (word : EndsWord more)
    (state : State width) : smallNumber as number (suffix.text ++ more) state = ⟨.absolute number, more, state⟩ := by
  have stop := suffix.text_stop word
  rw [smallNumber]
  split
  · rename_i backward
    rw [ofUInt8_inj (d := 98) backward] at stop
    exact absurd stop (by decide)
  · rename_i forward
    rw [ofUInt8_inj (d := 102) forward] at stop
    exact absurd stop (by decide)
  · rw [ignoreLlOrUll_suffix suffix word]

theorem signExtend_littlenums {bignum : Bignum} {value : Nat} (holds : bignum.Holds value) (large : 2 ^ 16 ≤ value)
    (small : value < 2 ^ 31) :
    bignum.used.length = 2 ∧
      (BitVec.ofNat 32 ((bignum.used ++ bignum.beyond).getD 1 0 * 2 ^ 16 + (bignum.used ++ bignum.beyond).getD 0 0)).signExtend 64 =
        BitVec.ofNat 64 value := by
  obtain ⟨low, high, used⟩ : ∃ low high, bignum.used = [low, high] := by
    have atMost : bignum.used.length ≤ 2 := holds.length_le (by norm_num) (by norm_num; omega)
    have some_ := List.length_pos_iff.mpr holds.some_
    have notOne : bignum.used.length ≠ 1 := by
      intro one
      have below := worth_lt holds.small
      rw [holds.worth_eq, one] at below
      omega
    exact List.length_eq_two.mp (by omega)
  have same : high * 2 ^ 16 + low = value := by
    have worth_eq := holds.worth_eq
    rw [used, worth, Nat.ofDigits_cons, Nat.ofDigits_singleton] at worth_eq
    push_cast at worth_eq
    omega
  refine ⟨by rw [used]; rfl, ?_⟩
  simp only [used, List.cons_append, List.getD_cons_zero, List.getD_cons_succ, same]
  have positive : (BitVec.ofNat 32 value).msb = false := by
    rw [BitVec.msb_eq_false_iff_two_mul_lt, BitVec.toNat_ofNat, Nat.mod_eq_of_lt (by omega)]
    omega
  rw [BitVec.signExtend_eq_setWidth_of_msb_false positive]
  apply BitVec.eq_of_toNat_eq
  simp only [BitVec.toNat_setWidth, BitVec.toNat_ofNat]
  omega

theorem Base.radix_small (base : Base) : base.radix.maxdig ≤ 16 ∧ base.radix.radix ≤ 16 ∧ 0 < base.radix.radix := by
  cases base <;> simp [Base.radix, Radix.decimal, Radix.octal, Radix.hex]

/-- **A plain literal is read as its value**, whatever the bignum was before. -/
theorem integer_literal (literal : Literal) (plain : literal.Plain) (word : EndsWord more)
    (state : State width) : ∃ littlenums,
      integer as literal.base.radix false (literal.digits ++ (literal.suffix.text ++ more)) state =
        ⟨.absolute (BitVec.ofNat 64 literal.value), more, { state with bignum := littlenums }⟩ := by
  obtain ⟨maxdig, radixSmall, positive⟩ := literal.base.radix_small
  have digits := Radix.digits_append (by omega) literal.digits_lt
    (hexValue_of_alphanumeric (literal.suffix.text_stop word))
  unfold integer
  simp only [digits, List.drop_left]
  by_cases few : literal.digits.length < literal.base.radix.tooManyDigits * 2
  · rw [if_pos ⟨few, rfl⟩, Radix.scan_eq, smallNumber_literal as _ _ word]
    exact ⟨state.bignum, rfl⟩
  · rw [if_neg fun both => few both.1]
    obtain ⟨large, small⟩ := plain.resolve_left few
    have holds := Radix.bignum_holds radixSmall positive
      (fun c member => Nat.lt_of_lt_of_le (literal.digits_lt c member) maxdig)
      (literal.fits.trans (Nat.pow_lt_pow_right (by norm_num) (by decide))) state.bignum
    obtain ⟨two, value⟩ := signExtend_littlenums holds large small
    rw [if_pos ⟨by omega, rfl⟩, value, smallNumber_literal as _ _ word]
    exact ⟨_, rfl⟩

theorem floatChars_alphanumeric (target : Target) {c : UInt8} (member : c ∈ floatChars target) :
    isAlphanumeric c = true ∧ isDigit c = false ∧ c ≠ 76 ∧ c ≠ 85 := by
  have all : ∀ d ∈ floatChars target, isAlphanumeric d = true ∧ isDigit d = false ∧ d ≠ 76 ∧ d ≠ 85 := by
    cases target <;> simp only [floatChars] <;> decide +kernel
  exact all c member

theorem number_octal {c : UInt8} {text : Text} (head : text.getD 0 0 = c)
    (plain : isDigit c = true ∨ isAlphanumeric c = false ∨ c = 76 ∨ c = 85) (state : State width) :
    number as 48 text state = integer as .octal false text state := by
  have notLetter (d : UInt8) (letter : isAlphanumeric d = true) (notDigit : isDigit d = false) (notL : d ≠ 76)
      (notU : d ≠ 85) : c ≠ d := by
    rintro rfl
    simp [letter, notDigit, notL, notU] at plain
  have notFloat : ¬(c ≠ 0 ∧ c ∈ floatChars as.target) := by
    rintro ⟨-, member⟩
    obtain ⟨letter, notDigit, notL, notU⟩ := floatChars_alphanumeric _ member
    exact notLetter c letter notDigit notL notU rfl
  unfold number
  simp only [head, ne_eq, not_true, if_false, notLetter 120 rfl rfl (by decide) (by decide),
    notLetter 88 rfl rfl (by decide) (by decide), notLetter 98 rfl rfl (by decide) (by decide),
    notLetter 66 rfl rfl (by decide) (by decide), notLetter 102 rfl rfl (by decide) (by decide), or_self, false_and]
  rw [if_neg notFloat]

theorem isDigit_of_hexValue {c : UInt8} (small : hexValue c < 10) : isDigit c = true := by
  simp only [hexValue, UInt8.le_iff_toNat_le] at small
  simp only [isDigit, UInt8.le_iff_toNat_le]
  simp at small ⊢
  split_ifs at small <;> omega

/-- From its first character on a literal is read by `integer`. -/
theorem simpleOperand_integer {base : Base} {digits : Text} (admits : base.Admits digits)
    (digits_lt : ∀ c ∈ digits, hexValue c < base.radix.maxdig) (suffix : Suffix) (word : EndsWord more)
    (state : State width) : ∃ c text, base.text ++ (digits ++ (suffix.text ++ more)) = c :: text ∧
      isDigit c = true ∧
      simpleOperand as c text state = integer as base.radix false (digits ++ (suffix.text ++ more)) state := by
  cases base with
  | decimal =>
    obtain ⟨some_, notZero⟩ := admits
    cases digits with
    | nil => exact absurd rfl some_
    | cons c digits =>
      have digit : isDigit c = true := isDigit_of_hexValue (digits_lt c (by simp))
      refine ⟨c, digits ++ (suffix.text ++ more), by simp [Base.text], digit, ?_⟩
      have first : c ≠ 48 := by simpa using notZero
      rw [simpleOperand, if_pos digit, number, if_pos first]
      rfl
  | octal =>
    refine ⟨48, digits ++ (suffix.text ++ more), by simp [Base.text, ascii], rfl, ?_⟩
    rw [simpleOperand, if_pos (show isDigit 48 = true from rfl), number_octal as rfl _ state]
    · rfl
    · cases digits with
      | nil => exact .inr (suffix.text_stop word)
      | cons c digits => exact .inl (isDigit_of_hexValue (digits_lt c (by simp)))
  | hex upper =>
    refine ⟨48, (if upper then 88 else 120) :: (digits ++ (suffix.text ++ more)), ?_, rfl, ?_⟩
    · cases upper <;> simp [Base.text, ascii]
    · rw [simpleOperand, if_pos (show isDigit 48 = true from rfl), number]
      cases upper <;> rfl

/-- **From its first character on a plain literal is read as its value.** -/
theorem simpleOperand_literal (literal : Literal) (plain : literal.Plain) (word : EndsWord more)
    (state : State width) : ∃ c text littlenums, literal.text ++ more = c :: text ∧ isDigit c = true ∧
      simpleOperand as c text state =
        ⟨.absolute (BitVec.ofNat 64 literal.value), more, { state with bignum := littlenums }⟩ := by
  obtain ⟨littlenums, read⟩ := integer_literal as literal plain word state
  obtain ⟨c, text, same, digit, begins⟩ :=
    simpleOperand_integer as literal.admits literal.digits_lt literal.suffix word state
  exact ⟨c, text, littlenums, by rw [← same, Literal.text]; simp, digit, begins.trans read⟩

end Reading

end Cctools.Expr
