/-
# Cctools.Expr.ExactLiterals -- integer constants of any length

What `operand` gives for a literal against its value: an absolute number of 64 bits, or a
bignum with the littlenums of the value.

`operand_exact_iff` says which literals are read so.  The digit counts that choose the fast
path let through 20 and 21 decimal digits and 17 hexadecimal ones, where it drops high bits.
The slow path makes an `int` of two littlenums, of which the second is an old one for a
short value, and a bignum has room for 20 of them.
-/
import Cctools.Expr.Precedence

namespace Cctools.Expr

open Cctools.Read (Text ascii newline)
open Cctools.PseudoSet

set_option autoImplicit false

/-! ## Numerals -/

structure Numeral where
  base : Base
  digits : Text
  suffix : Suffix
  admits : base.Admits digits
  digits_lt : ∀ c ∈ digits, hexValue c < base.radix.maxdig

namespace Numeral

def text (numeral : Numeral) : Text := numeral.base.text ++ (numeral.digits ++ numeral.suffix.text)

def value (numeral : Numeral) : Nat := numeral.base.radix.value numeral.digits

/-- The value is scanned as 64 bits. -/
def Few (numeral : Numeral) : Prop := numeral.digits.length < numeral.base.radix.tooManyDigits * 2

instance (numeral : Numeral) : Decidable numeral.Few := inferInstanceAs (Decidable (_ < _))

/-- What comes out exactly, when `second` is in `generic_bignum[1]`. -/
def Readable (numeral : Numeral) (second : Nat) : Prop :=
  if numeral.Few then numeral.value < 2 ^ 64
  else
    (numeral.value < 2 ^ 16 ∧ second % 2 ^ 16 = 0) ∨ (2 ^ 16 ≤ numeral.value ∧ numeral.value < 2 ^ 31) ∨
      (2 ^ 32 ≤ numeral.value ∧ numeral.value < 2 ^ (16 * sizeOfLargeNumber))

end Numeral

/-- **An absolute number that is the value, or a bignum that has the littlenums of the value.** -/
def Exact {width : Nat} (value : Nat) (result : Result width) : Prop :=
  (result.quantity = .absolute (BitVec.ofNat 64 value) ∧ value < 2 ^ 64) ∨
    (result.quantity = .big (Nat.digits (2 ^ 16) value).length ∧
      result.state.bignum.take (Nat.digits (2 ^ 16) value).length = Nat.digits (2 ^ 16) value)

/-! ## The littlenums of a long literal -/

variable {bignum : Bignum}

theorem Bignum.addDigit_beyond (radix : Radix) {littlenums : List Nat}
    (beyond : bignum.beyond = littlenums.drop bignum.used.length) (c : UInt8) :
    (bignum.addDigit radix c).beyond = littlenums.drop (bignum.addDigit radix c).used.length := by
  have length := timesPlus_length radix.radix bignum.used (hexValue c)
  unfold Bignum.addDigit
  generalize timesPlus radix.radix bignum.used (hexValue c) = after at length ⊢
  obtain ⟨used, carry⟩ := after
  dsimp only at length ⊢
  split
  · simp [beyond, length, List.drop_drop]
  · simp [beyond, length]

theorem Radix.bignum_beyond (radix : Radix) (digits : Text) (littlenums : List Nat) :
    (radix.bignum digits littlenums).beyond = littlenums.drop (radix.bignum digits littlenums).used.length := by
  induction digits using List.reverseRecOn with
  | nil => rfl
  | append_singleton digits c ih =>
    rw [Radix.bignum, List.foldl_append]
    exact Bignum.addDigit_beyond radix ih c

/-- At most as many littlenums as there is room for, each of 16 bits. -/
def Bignum.Bounded (bignum : Bignum) : Prop :=
  (∀ littlenum ∈ bignum.used, littlenum < 2 ^ 16) ∧ bignum.used.length ≤ sizeOfLargeNumber

theorem Bignum.addDigit_bounded {radix : Radix} (radixSmall : radix.radix ≤ 16)
    (bounded : bignum.Bounded) {c : UInt8} (digit : hexValue c < 16) : (bignum.addDigit radix c).Bounded := by
  have length := timesPlus_length radix.radix bignum.used (hexValue c)
  have step := timesPlus_small radixSmall bounded.1 digit
  unfold Bignum.addDigit
  generalize timesPlus radix.radix bignum.used (hexValue c) = after at length step ⊢
  obtain ⟨used, carry⟩ := after
  obtain ⟨small, carrySmall⟩ := step
  dsimp only at length small carrySmall ⊢
  split
  case isTrue room =>
    refine ⟨?_, ?_⟩
    · intro littlenum member
      rcases List.mem_append.mp member with before | last
      · exact small littlenum before
      · rw [List.mem_singleton.mp last]
        omega
    · rw [List.length_append]
      exact room.2
  case isFalse => exact ⟨small, length ▸ bounded.2⟩

theorem Radix.bignum_bounded {radix : Radix} (radixSmall : radix.radix ≤ 16) {digits : Text}
    (isDigits : ∀ c ∈ digits, hexValue c < 16) (littlenums : List Nat) :
    (radix.bignum digits littlenums).Bounded := by
  induction digits using List.reverseRecOn with
  | nil => exact ⟨by simp [Radix.bignum], by simp [Radix.bignum, sizeOfLargeNumber]⟩
  | append_singleton digits c ih =>
    rw [Radix.bignum, List.foldl_append]
    exact Bignum.addDigit_bounded radixSmall (ih fun d member => isDigits d (by simp [member])) (isDigits c (by simp))

theorem Bignum.Holds.digits_eq {value : Nat} (holds : bignum.Holds value)
    (several : 1 < bignum.used.length) : Nat.digits (2 ^ 16) value = bignum.used := by
  rw [← holds.worth_eq, worth]
  refine Nat.digits_ofDigits (2 ^ 16) (by norm_num) bignum.used holds.small fun some_ zero => ?_
  have large : 2 ^ (16 * (bignum.used.length - 1)) ≤ value := holds.short.resolve_left (by omega)
  have below := worth_lt fun littlenum (member : littlenum ∈ bignum.used.dropLast) =>
    holds.small littlenum (List.dropLast_subset _ member)
  have same : worth bignum.used = worth bignum.used.dropLast := by
    conv_lhs => rw [← List.dropLast_append_getLast some_, zero, worth_append]
    simp [worth]
  rw [← same, holds.worth_eq, List.length_dropLast] at below
  omega

/-! ## The number of two littlenums -/

theorem signExtend_eq_iff {total value : Nat} (fits : value < 2 ^ 32) :
    (BitVec.ofNat 32 total).signExtend 64 = BitVec.ofNat 64 value ↔ total % 2 ^ 32 = value ∧ value < 2 ^ 31 := by
  have sign : (BitVec.ofNat 32 total).msb = decide (2 ^ 31 ≤ total % 2 ^ 32) := by
    rw [BitVec.msb_eq_decide, BitVec.toNat_ofNat]
  rw [← BitVec.toNat_inj, BitVec.toNat_signExtend, sign]
  simp only [BitVec.toNat_setWidth, BitVec.toNat_ofNat, decide_eq_true_eq]
  split <;> omega

/-! ## The two paths -/

section Reading

variable {width : Nat} (as : Assembler width) (numeral : Numeral) {more : Text} (word : EndsWord more)
  (state : State width)

include word

theorem integer_digits :
    numeral.base.radix.digits (numeral.digits ++ (numeral.suffix.text ++ more)) = numeral.digits :=
  Radix.digits_append (by have := numeral.base.radix_small.1; omega) numeral.digits_lt
    (hexValue_of_alphanumeric (numeral.suffix.text_stop word))

theorem integer_few (few : numeral.Few) :
    integer as numeral.base.radix false (numeral.digits ++ (numeral.suffix.text ++ more)) state =
      ⟨.absolute (BitVec.ofNat 64 numeral.value), more, state⟩ := by
  unfold integer
  simp only [integer_digits numeral word, List.drop_left]
  rw [if_pos ⟨few, rfl⟩, Radix.scan_eq, smallNumber_literal as _ _ word]
  rfl

theorem integer_many (many : ¬numeral.Few) :
    integer as numeral.base.radix false (numeral.digits ++ (numeral.suffix.text ++ more)) state =
      let bignum := numeral.base.radix.bignum numeral.digits state.bignum
      let littlenums := bignum.used ++ bignum.beyond
      let quantity : Quantity :=
        if bignum.used.length ≤ 2 then
          .absolute ((BitVec.ofNat 32 (littlenums.getD 1 0 * 2 ^ 16 + littlenums.getD 0 0)).signExtend 64)
        else .big bignum.used.length
      ⟨quantity, more, { state with bignum := littlenums }⟩ := by
  unfold integer
  simp only [integer_digits numeral word, List.drop_left]
  rw [if_neg fun both => many both.1]
  split
  case isTrue short => rw [smallNumber_literal as _ _ word, if_pos short.1]
  case isFalse long => rw [if_neg fun short => long ⟨short, rfl⟩, ignoreLlOrUll_suffix _ word]

omit word in
theorem exact_absolute {value : Nat} {number : BitVec 64} {rest : Text} :
    Exact value ⟨.absolute number, rest, state⟩ ↔ number = BitVec.ofNat 64 value ∧ value < 2 ^ 64 := by
  simp [Exact, Quantity.absolute]

omit word in
theorem exact_big {value count : Nat} {rest : Text} :
    Exact value ⟨.big count, rest, state⟩ ↔
      count = (Nat.digits (2 ^ 16) value).length ∧ state.bignum.take count = Nat.digits (2 ^ 16) value := by
  simp only [Exact, Quantity.absolute, reduceCtorEq, false_and, false_or, Quantity.big.injEq, Int.natCast_inj]
  exact and_congr_right fun same => same ▸ Iff.rfl

end Reading

/-! ## Two littlenums at most -/

/-- The littlenums of a short bignum; one littlenum is read with an old one. -/
theorem Bignum.Holds.short_iff {value : Nat} {littlenums : List Nat} (holds : bignum.Holds value)
    (beyond : bignum.beyond = littlenums.drop bignum.used.length) (two : bignum.used.length ≤ 2) :
    ((bignum.used ++ bignum.beyond).getD 1 0 * 2 ^ 16 + (bignum.used ++ bignum.beyond).getD 0 0) % 2 ^ 32 = value ∧
        value < 2 ^ 31 ↔
      (value < 2 ^ 16 ∧ littlenums.getD 1 0 % 2 ^ 16 = 0) ∨ (2 ^ 16 ≤ value ∧ value < 2 ^ 31) := by
  have some_ := List.length_pos_iff.mpr holds.some_
  have short := holds.short
  have worth_eq := holds.worth_eq
  have small := holds.small
  match used : bignum.used with
  | [] => simp [used] at some_
  | [low] =>
    simp only [used, worth, Nat.ofDigits_singleton, List.mem_singleton, forall_eq] at worth_eq small
    have second : bignum.beyond.getD 0 0 = littlenums.getD 1 0 := by simp [beyond, used, List.getD_eq_getElem?_getD]
    simp only [List.cons_append, List.nil_append, List.getD_cons_succ, List.getD_cons_zero, second]
    omega
  | [low, high] =>
    have lowSmall : low < 2 ^ 16 := small low (by simp [used])
    have highSmall : high < 2 ^ 16 := small high (by simp [used])
    simp only [used, worth, Nat.ofDigits_cons, Nat.ofDigits_nil] at worth_eq
    simp only [used, List.length_cons, List.length_nil] at short
    simp only [List.cons_append, List.getD_cons_succ, List.getD_cons_zero]
    push_cast at worth_eq
    omega
  | _ :: _ :: _ :: _ =>
    simp only [used, List.length_cons] at two
    omega

/-! ## What is read exactly -/

section Exactness

variable {width : Nat} (as : Assembler width) (numeral : Numeral) {more : Text} (word : EndsWord more)
  (state : State width)

include word

theorem integer_exact_iff :
    Exact numeral.value (integer as numeral.base.radix false (numeral.digits ++ (numeral.suffix.text ++ more)) state) ↔
      numeral.Readable (state.bignum.getD 1 0) := by
  unfold Numeral.Readable
  by_cases few : numeral.Few
  · rw [integer_few as numeral word state few, exact_absolute, if_pos few]
    exact and_iff_right rfl
  · rw [integer_many as numeral word state few, if_neg few]
    obtain ⟨maxdig, radixSmall, positive⟩ := numeral.base.radix_small
    have isDigits : ∀ c ∈ numeral.digits, hexValue c < 16 := fun c member =>
      Nat.lt_of_lt_of_le (numeral.digits_lt c member) maxdig
    have beyond := Radix.bignum_beyond numeral.base.radix numeral.digits state.bignum
    obtain ⟨small, room⟩ := Radix.bignum_bounded radixSmall isDigits state.bignum
    have holds := fun fits => Radix.bignum_holds radixSmall positive isDigits fits state.bignum
    rw [← Numeral.value] at holds
    dsimp only
    generalize numeral.base.radix.bignum numeral.digits state.bignum = bignum at beyond small room holds ⊢
    have below := worth_lt small
    have most : 2 ^ (16 * bignum.used.length) ≤ 2 ^ (16 * sizeOfLargeNumber) :=
      Nat.pow_le_pow_right (by norm_num) (by omega)
    by_cases fits : numeral.value < 2 ^ (16 * sizeOfLargeNumber)
    · specialize holds fits
      split
      case isTrue two =>
        have fits32 : numeral.value < 2 ^ 32 := by
          rw [← holds.worth_eq]
          exact Nat.lt_of_lt_of_le below (Nat.pow_le_pow_right (by norm_num) (by omega : _ ≤ 16 * 2))
        rw [exact_absolute, signExtend_eq_iff fits32, and_iff_left (by omega), holds.short_iff beyond two]
        constructor
        · exact fun either => either.imp_right .inl
        · rintro (stale | two | ⟨large, -⟩)
          · exact .inl stale
          · exact .inr two
          · omega
      case isFalse long =>
        have digits := holds.digits_eq (by omega)
        have large : 2 ^ (16 * 2) ≤ numeral.value :=
          Nat.le_trans (Nat.pow_le_pow_right (by norm_num) (by omega)) (holds.short.resolve_left (by omega))
        rw [exact_big, digits]
        simp only [true_and, List.take_left]
        exact ⟨fun _ => .inr (.inr ⟨large, fits⟩), fun _ => trivial⟩
    · have large : 2 ^ 64 ≤ 2 ^ (16 * sizeOfLargeNumber) := Nat.pow_le_pow_right (by norm_num) (by decide)
      refine iff_of_false ?_ ?_
      · split
        · rw [exact_absolute]
          omega
        · rw [exact_big]
          rintro ⟨-, same⟩
          rw [List.take_left] at same
          have value_eq : worth bignum.used = numeral.value := by rw [worth, same, Nat.ofDigits_digits]
          omega
      · rintro (stale | two | bounded) <;> omega

theorem integer_cleanUp :
    (integer as numeral.base.radix false (numeral.digits ++ (numeral.suffix.text ++ more)) state).quantity.cleanUp =
      (integer as numeral.base.radix false (numeral.digits ++ (numeral.suffix.text ++ more)) state).quantity := by
  by_cases few : numeral.Few
  · rw [integer_few as numeral word state few]
    exact Quantity.cleanUp_absolute _
  · rw [integer_many as numeral word state few]
    dsimp only
    split
    · exact Quantity.cleanUp_absolute _
    · rfl

omit word in
theorem exact_finish {value : Nat} {result : Result width} (clean : result.quantity.cleanUp = result.quantity) :
    Exact value result.finish ↔ Exact value result := by
  unfold Exact Result.finish
  simp only [clean]

/-- **Which literals `operand` reads exactly**, whatever an earlier one left in `generic_bignum`. -/
theorem operand_exact_iff (fuel : Nat) :
    ∃ result, operand as (fuel + 1) (numeral.text ++ more) state = some result ∧
      (Exact numeral.value result ↔ numeral.Readable (state.bignum.getD 1 0)) := by
  obtain ⟨c, text, same, digit, begins⟩ :=
    simpleOperand_integer as numeral.admits numeral.digits_lt numeral.suffix word state
  have text_eq : numeral.text ++ more = c :: text := by
    rw [← same, Numeral.text]
    simp
  refine ⟨_, by rw [text_eq]; exact operand_digit as digit fuel false text state, ?_⟩
  rw [begins, exact_finish (integer_cleanUp as numeral word state)]
  exact integer_exact_iff as numeral word state

end Exactness

/-! ## Literals of many digits -/

theorem wideHex_admits : (Base.hex false).Admits (ascii "123456789abcdef0123") := by
  simp [Base.Admits, ascii]

theorem wideHex_digits_lt :
    ∀ c ∈ ascii "123456789abcdef0123", hexValue c < (Base.hex false).radix.maxdig := by
  decide +kernel

def wideHex : Numeral where
  base := .hex false
  digits := ascii "123456789abcdef0123"
  suffix := .ull
  admits := wideHex_admits
  digits_lt := wideHex_digits_lt

theorem wideHex_exact : ∃ result, operand plainAssembler 1 (wideHex.text ++ [newline]) plainState = some result ∧
    Exact 0x123456789abcdef0123 result := by
  obtain ⟨result, read, exact_iff⟩ :=
    operand_exact_iff plainAssembler wideHex (show EndsWord [newline] from rfl) plainState 0
  refine ⟨result, read, exact_iff.mpr ?_⟩
  unfold Numeral.Readable
  decide +kernel

theorem twentyDigits_admits : Base.decimal.Admits (ascii "18446744073709551616") := by
  simp [Base.Admits, ascii]

theorem twentyDigits_digits_lt :
    ∀ c ∈ ascii "18446744073709551616", hexValue c < Base.decimal.radix.maxdig := by
  decide +kernel

/-- 2^64 -/
def twentyDigits : Numeral where
  base := .decimal
  digits := ascii "18446744073709551616"
  suffix := .none
  admits := twentyDigits_admits
  digits_lt := twentyDigits_digits_lt

/-- Twenty digits are few, and come out as zero.  A one with many zeros before it gets the second littlenum of
the literal that was read last. -/
theorem twentyDigits_dropped :
    operand plainAssembler 1 (twentyDigits.text ++ [newline]) plainState = some ⟨.absolute 0, [newline], plainState⟩ ∧
      ¬ Exact twentyDigits.value (⟨.absolute 0, [newline], plainState⟩ : Result _) ∧
      operand plainAssembler 1 (ascii "0x000000000000010000\n") plainState =
        some ⟨.absolute 0x10000, [newline], ⟨plainState.table, 0 :: 1 :: List.replicate 24 0⟩⟩ ∧
      operand plainAssembler 1 (ascii "0x000000000000000001\n") ⟨plainState.table, 0 :: 1 :: List.replicate 24 0⟩ =
        some ⟨.absolute 0x10001, [newline], ⟨plainState.table, 1 :: 1 :: List.replicate 24 0⟩⟩ := by
  refine ⟨rfl, ?_, rfl, rfl⟩
  rw [exact_absolute]
  rintro ⟨-, fits⟩
  exact absurd fits (by decide +kernel)

end Cctools.Expr
