/-
# Cctools.Otool.Leb128Loops -- the loops that write and read LEB128

The loops of `append_uleb128`, `append_sleb128` and `uleb128_size` in `ld/LinkEdit.hpp`, and of the two
`read_uleb128` of `dyld_bind_info.c` and `MachOTrie.hpp`, on 64-bit words.  They are the digits of
`Theory.Leb128`, and every unsigned value is read back by both.

Of the signed values those that take ten bytes and are negative are not: the sign extension is shifted
by 70 then (`leb128_roundTrip`).
-/
import Cctools.Otool.Leb128
import Cctools.Theory.BitField

namespace Cctools.Otool.Loops

set_option autoImplicit false

open Cctools.Theory

/-! ## Words -/

theorem low_toNat (value : BitVec 64) : (value &&& 0x7F).toNat = value.toNat % 128 := by
  rw [BitVec.toNat_and]
  exact Nat.and_two_pow_sub_one_eq_mod value.toNat 7

theorem high_toNat (value : BitVec 64) : (value &&& ~~~0x7F).toNat = value.toNat / 128 * 128 :=
  BitField.toNat_and_high value _ (k := 7) (by decide)

theorem high_eq_zero_iff (value : BitVec 64) : value &&& ~~~0x7F = 0 ↔ value.toNat / 128 = 0 := by
  rw [← BitVec.toNat_inj, high_toNat]
  show value.toNat / 128 * 128 = 0 ↔ value.toNat / 128 = 0
  omega

theorem shifted_toNat (value : BitVec 64) : (value >>> 7).toNat = value.toNat / 128 := by
  rw [BitVec.toNat_ushiftRight, Nat.shiftRight_eq_div_pow]

theorem shifted_eq_zero_iff (value : BitVec 64) : value >>> 7 = 0 ↔ value.toNat / 128 = 0 := by
  rw [← BitVec.toNat_inj, shifted_toNat]
  rfl

theorem continued_byte {digit : Nat} (small : digit < 128) :
    UInt8.ofNat digit ||| 0x80 = UInt8.ofNat (digit + 128) := by
  have table : ∀ digit < 128, UInt8.ofNat digit ||| 0x80 = UInt8.ofNat (digit + 128) := by decide
  exact table digit small

/-! Ten digits are enough for a word. -/

theorem word_covered (value : BitVec 64) : value.toNat < 128 ^ (9 + 1) := lt_trans value.isLt (by norm_num)

theorem last_digit {n : Nat} (covered : n < 128 ^ (0 + 1)) : n / 128 = 0 := by
  rw [Nat.zero_add, pow_one] at covered
  exact Nat.div_eq_of_lt covered

theorem covered_div {fuel n : Nat} (covered : n < 128 ^ (fuel + 1 + 1)) : n / 128 < 128 ^ (fuel + 1) := by
  rw [pow_succ] at covered
  omega

/-! ## Writing -/

/-- The byte of a turn of `append_uleb128`: continued if the value has more bits than its lowest seven. -/
def ulebByte (value : BitVec 64) : UInt8 :=
  let byte := UInt8.ofNat (value &&& 0x7F).toNat
  if value &&& ~~~0x7F ≠ 0 then byte ||| 0x80 else byte

theorem ulebByte_eq (value : BitVec 64) :
    ulebByte value =
      if value.toNat / 128 = 0 then UInt8.ofNat (value.toNat % 128) else UInt8.ofNat (value.toNat % 128 + 128) := by
  rw [ulebByte, low_toNat]
  by_cases none : value.toNat / 128 = 0
  · rw [if_pos none, if_neg (not_not.mpr ((high_eq_zero_iff value).mpr none))]
  · rw [if_neg none, if_pos (mt (high_eq_zero_iff value).mp none),
      continued_byte (Nat.mod_lt _ (by decide))]

theorem ulebByte_more_iff (value : BitVec 64) : 0x80 ≤ ulebByte value ↔ value.toNat / 128 ≠ 0 := by
  have table : ∀ digit < 128, ¬ (0x80 : UInt8) ≤ UInt8.ofNat digit ∧ (0x80 : UInt8) ≤ UInt8.ofNat (digit + 128) := by
    decide
  obtain ⟨last, more⟩ := table (value.toNat % 128) (Nat.mod_lt _ (by decide))
  rw [ulebByte_eq]
  by_cases none : value.toNat / 128 = 0
  · rw [if_pos none]
    exact iff_of_false last (not_not.mpr none)
  · rw [if_neg none]
    exact iff_of_true more none

/-- `append_uleb128`: a byte of `0x80` or more has another one behind it. -/
def appendUleb128 (value : BitVec 64) : List UInt8 :=
  if 0x80 ≤ ulebByte value then ulebByte value :: appendUleb128 ((value &&& ~~~0x7F) >>> 7) else [ulebByte value]
  termination_by value.toNat
  decreasing_by
    rename_i more
    rw [ulebByte_more_iff] at more
    rw [shifted_toNat, high_toNat]
    omega

def uleb128Size (value : BitVec 64) : Nat :=
  if value >>> 7 ≠ 0 then uleb128Size (value >>> 7) + 1 else 1
  termination_by value.toNat
  decreasing_by
    rename_i more
    rw [ne_eq, ← BitVec.toNat_inj, shifted_toNat] at more
    rw [shifted_toNat]
    have : ¬ value.toNat / 128 = 0 := more
    omega

theorem appendUleb128_step (value : BitVec 64) :
    appendUleb128 value =
      if value.toNat / 128 = 0 then [UInt8.ofNat (value.toNat % 128)]
      else UInt8.ofNat (value.toNat % 128 + 128) :: appendUleb128 ((value &&& ~~~0x7F) >>> 7) := by
  rw [appendUleb128]
  by_cases none : value.toNat / 128 = 0
  · rw [if_neg ((ulebByte_more_iff value).not.mpr (not_not.mpr none)), ulebByte_eq, if_pos none, if_pos none]
  · rw [if_pos ((ulebByte_more_iff value).mpr none), ulebByte_eq, if_neg none, if_neg none]

variable {value : BitVec 64}

/-- **The loop writes the digits.** -/
theorem appendUleb128_eq_uleb {fuel : Nat} (covered : value.toNat < 128 ^ (fuel + 1)) :
    appendUleb128 value = Leb128.uleb (fuel + 1) value.toNat := by
  induction fuel generalizing value with
  | zero =>
    have none := last_digit covered
    rw [appendUleb128_step, if_pos none, Leb128.uleb, if_pos none]
  | succ fuel ih =>
    have left : ((value &&& ~~~0x7F) >>> 7).toNat = value.toNat / 128 := by
      rw [shifted_toNat, high_toNat]
      omega
    rw [appendUleb128_step, Leb128.uleb]
    by_cases none : value.toNat / 128 = 0
    · rw [if_pos none, if_pos none]
    · have shorter := covered_div covered
      rw [if_neg none, if_neg none, ih (by rwa [left]), left]

theorem uleb128Size_eq_ulebSize {fuel : Nat} (covered : value.toNat < 128 ^ (fuel + 1)) :
    uleb128Size value = Leb128.ulebSize (fuel + 1) value.toNat := by
  induction fuel generalizing value with
  | zero =>
    have none := last_digit covered
    rw [uleb128Size, if_neg (not_not.mpr ((shifted_eq_zero_iff value).mpr none)), Leb128.ulebSize, if_pos none]
  | succ fuel ih =>
    rw [uleb128Size, Leb128.ulebSize]
    by_cases none : value.toNat / 128 = 0
    · rw [if_neg (not_not.mpr ((shifted_eq_zero_iff value).mpr none)), if_pos none]
    · have shorter := covered_div covered
      rw [if_pos (mt (shifted_eq_zero_iff value).mp none), if_neg none, ih (by rwa [shifted_toNat]), shifted_toNat]

/-! ## Signed writing -/

/-- Whether another byte follows. -/
def slebMore (isNeg : Bool) (value : BitVec 64) : Bool :=
  let byte := UInt8.ofNat (value &&& 0x7F).toNat
  let value := value.sshiftRight 7
  if isNeg then value ≠ -1 || byte &&& 0x40 = 0 else value ≠ 0 || byte &&& 0x40 ≠ 0

theorem sshift_toInt (value : BitVec 64) : (value.sshiftRight 7).toInt = value.toInt / 128 := by
  rw [BitVec.toInt_sshiftRight, Int.shiftRight_eq_div_pow]
  rfl

theorem low_eq (value : BitVec 64) : (value &&& 0x7F).toNat = (value.toInt % 128).toNat := by
  rw [low_toNat, BitVec.toInt_eq_toNat_cond]
  split <;> omega

theorem slebMore_iff {isNeg : Bool} :
    slebMore isNeg value = true ↔ Continues isNeg value.toInt := by
  have table : ∀ digit < 128, ((UInt8.ofNat digit) &&& 0x40 = 0 ↔ digit < 64) := by decide
  have small : (value.toInt % 128).toNat < 128 := by omega
  have minus : value.sshiftRight 7 = -1 ↔ value.toInt / 128 = -1 := by
    rw [← BitVec.toInt_inj, sshift_toInt]
    rfl
  have zero : value.sshiftRight 7 = 0 ↔ value.toInt / 128 = 0 := by
    rw [← BitVec.toInt_inj, sshift_toInt]
    rfl
  rw [slebMore, Continues, low_eq]
  cases isNeg with
  | true =>
    simp only [if_true, Bool.or_eq_true, decide_eq_true_eq]
    exact or_congr (not_congr minus) (table _ small)
  | false =>
    simp only [Bool.false_eq_true, if_false, Bool.or_eq_true, decide_eq_true_eq]
    exact or_congr (not_congr zero) ((not_congr (table _ small)).trans not_lt)

/-- `isNeg` is taken once, and stays the sign of what is left. -/
def appendSleb128From (isNeg : Bool) (value : BitVec 64) (sign : isNeg = decide (value.toInt < 0)) : List UInt8 :=
  let byte := UInt8.ofNat (value &&& 0x7F).toNat
  if slebMore isNeg value then
    (byte ||| 0x80) :: appendSleb128From isNeg (value.sshiftRight 7) (by
      rw [sshift_toInt, sign]
      simp only [decide_eq_decide]
      omega)
  else [byte]
  termination_by value.toInt.natAbs
  decreasing_by
    rename_i more
    rw [slebMore_iff] at more
    rw [sshift_toInt]
    unfold Continues at more
    subst sign
    simp only [decide_eq_true_eq] at more
    split at more <;> omega

def appendSleb128 (value : BitVec 64) : List UInt8 := appendSleb128From (decide (value.toInt < 0)) value rfl

theorem appendSleb128From_eq_sleb {fuel : Nat} {isNeg : Bool}
    (sign : isNeg = decide (value.toInt < 0)) (lower : -(64 * 128 ^ fuel) ≤ value.toInt)
    (upper : value.toInt < 64 * 128 ^ fuel) :
    appendSleb128From isNeg value sign = Leb128.sleb (fuel + 1) isNeg value.toInt := by
  induction fuel generalizing value with
  | zero =>
    have stops : ¬ Continues isNeg value.toInt := by
      unfold Continues
      subst sign
      simp only [decide_eq_true_eq]
      split <;> omega
    rw [appendSleb128From, if_neg (mt slebMore_iff.mp stops), sleb_last stops, low_eq]
  | succ fuel ih =>
    rw [appendSleb128From]
    by_cases more : Continues isNeg value.toInt
    · have power : (64 * 128 ^ (fuel + 1) : Int) = 128 * (64 * 128 ^ fuel) := by ring
      rw [power] at lower upper
      have small : (value.toInt % 128).toNat < 128 := by omega
      rw [if_pos (slebMore_iff.mpr more), sleb_more more, low_eq, continued_byte small,
        ih _ (by rw [sshift_toInt]; omega) (by rw [sshift_toInt]; omega), sshift_toInt]
    · rw [if_neg (mt slebMore_iff.mp more), sleb_last more, low_eq]

/-! ## Reading -/

/-- The loop of both `read_uleb128`: they differ in what they say. -/
def readUlebFrom (pastEnd tooBig : String) : Nat → BitVec 64 → List UInt8 → Except String (BitVec 64) × List UInt8
  | _, _, [] => (.error pastEnd, [])
  | bit, result, byte :: rest =>
    let slice := BitVec.ofNat 64 (byte &&& 0x7f).toNat
    if 64 ≤ bit ∨ slice <<< bit >>> bit ≠ slice then (.error tooBig, byte :: rest)
    else
      let result := result ||| slice <<< bit
      if byte &&& 0x80 ≠ 0 then readUlebFrom pastEnd tooBig (bit + 7) result rest else (.ok result, rest)

/-- `read_uleb128` of `dyld_bind_info.c`. -/
def otoolReadUleb128 : List UInt8 → Except String (BitVec 64) × List UInt8 :=
  readUlebFrom "malformed uleb128, extends past opcode bytes" "uleb128 too big for uint64" 0 0

/-- `read_uleb128` of `MachOTrie.hpp`. -/
def trieReadUleb128 : List UInt8 → Except String (BitVec 64) × List UInt8 :=
  readUlebFrom "malformed uleb128 extends beyond trie" "uleb128 too big for 64-bits" 0 0

/-- A slice that comes back from the shift lost no bit of it. -/
theorem slice_fits_iff {slice bit : Nat} (small : slice < 128) :
    BitVec.ofNat 64 slice <<< bit >>> bit = BitVec.ofNat 64 slice ↔ slice * 2 ^ bit < 2 ^ 64 := by
  rw [← BitVec.toNat_inj, BitVec.toNat_ushiftRight, BitVec.toNat_shiftLeft, BitVec.toNat_ofNat,
    Nat.mod_eq_of_lt (show slice < 2 ^ 64 by omega), Nat.shiftLeft_eq, Nat.shiftRight_eq_div_pow]
  have positive : 0 < 2 ^ bit := Nat.two_pow_pos bit
  constructor
  · intro back
    by_contra large
    have less : slice * 2 ^ bit % 2 ^ 64 < slice * 2 ^ bit :=
      lt_of_lt_of_le (Nat.mod_lt _ (by decide)) (not_lt.mp large)
    exact absurd back (ne_of_lt (Nat.div_lt_of_lt_mul (less.trans_eq (Nat.mul_comm _ _))))
  · intro fits
    rw [Nat.mod_eq_of_lt fits, Nat.mul_div_cancel _ positive]

theorem byte_tests (byte : UInt8) :
    (byte &&& 0x7f).toNat = byte.toNat % 128 ∧ (byte &&& 0x80 ≠ 0 ↔ 128 ≤ byte.toNat) := by
  have table : ∀ n < 256,
      (UInt8.ofNat n &&& 0x7f).toNat = n % 128 ∧ (UInt8.ofNat n &&& 0x80 ≠ 0 ↔ 128 ≤ n) := by decide +kernel
  have at_ := table byte.toNat byte.toNat_lt
  rwa [UInt8.ofNat_toNat] at at_

/-- **The loop is the reader of digits of 64 bits**, with the texts of its errors. -/
theorem readUlebFrom_eq (pastEnd tooBig : String) (bytes : List UInt8) :
    ∀ (bit acc : Nat), acc < 2 ^ 64 →
      readUlebFrom pastEnd tooBig bit (BitVec.ofNat 64 acc) bytes =
        match Leb128.readUlebFrom 64 bit acc bytes with
        | .ok (value, rest) => (.ok (BitVec.ofNat 64 value), rest)
        | .error (.endOfInput, rest) => (.error pastEnd, rest)
        | .error (.tooBig, rest) => (.error tooBig, rest) := by
  induction bytes with
  | nil => exact fun _ _ _ => rfl
  | cons byte bytes ih =>
    intro bit acc fits
    obtain ⟨slice, continues⟩ := byte_tests byte
    have small : byte.toNat % 128 < 128 := Nat.mod_lt _ (by decide)
    have refused : (64 ≤ bit ∨
          BitVec.ofNat 64 (byte.toNat % 128) <<< bit >>> bit ≠ BitVec.ofNat 64 (byte.toNat % 128)) ↔
        (64 ≤ bit ∨ 2 ^ 64 ≤ byte.toNat % 128 * 2 ^ bit) :=
      or_congr Iff.rfl ((not_congr (slice_fits_iff small)).trans not_lt)
    rw [readUlebFrom, Leb128.readUlebFrom]
    simp only [slice]
    by_cases big : 64 ≤ bit ∨ 2 ^ 64 ≤ byte.toNat % 128 * 2 ^ bit
    · rw [if_pos (refused.mpr big), if_pos big]
    · obtain ⟨-, inside⟩ : bit < 64 ∧ byte.toNat % 128 * 2 ^ bit < 2 ^ 64 := by omega
      have stays : acc ||| (byte.toNat % 128) <<< bit < 2 ^ 64 :=
        Nat.or_lt_two_pow fits (by rwa [Nat.shiftLeft_eq])
      have together : BitVec.ofNat 64 acc ||| BitVec.ofNat 64 (byte.toNat % 128) <<< bit =
          BitVec.ofNat 64 (acc ||| (byte.toNat % 128) <<< bit) := by
        apply BitVec.eq_of_toNat_eq
        rw [BitVec.toNat_or, BitVec.toNat_shiftLeft, BitVec.toNat_ofNat, BitVec.toNat_ofNat,
          BitVec.toNat_ofNat, Nat.mod_eq_of_lt fits, Nat.mod_eq_of_lt stays,
          Nat.mod_eq_of_lt (show byte.toNat % 128 < 2 ^ 64 by omega), Nat.shiftLeft_eq, Nat.mod_eq_of_lt inside]
      rw [if_neg (mt refused.mp big), if_neg big, together]
      by_cases more : 128 ≤ byte.toNat
      · rw [if_pos (continues.mpr more), if_pos more, ih _ _ stays]
      · rw [if_neg (mt continues.mp more), if_neg more]

theorem readUlebFrom_append (pastEnd tooBig : String) (value : BitVec 64) (rest : List UInt8) :
    readUlebFrom pastEnd tooBig 0 0 (appendUleb128 value ++ rest) = (.ok value, rest) := by
  have covered := word_covered value
  have read := Leb128.readUleb_uleb covered value.isLt (by norm_num) rest
  rw [Leb128.readUleb] at read
  have loop := readUlebFrom_eq pastEnd tooBig (Leb128.uleb (9 + 1) value.toNat ++ rest) 0 0 (by norm_num)
  rw [read] at loop
  rw [appendUleb128_eq_uleb covered]
  simpa using loop

/-! ## Ten signed bytes -/

theorem more_digits {v : Int} (large : v < -64) : Continues true v := by
  simp only [Continues, if_true]
  omega

/-- A value below `-64 * 128 ^ n` takes `n + 1` digits in front of a last `-1`. -/
theorem readSlebFrom_long (rest : List UInt8) :
    ∀ (n : Nat) (v : Int) (bit acc : Nat), -(128 * 128 ^ n) ≤ v → v < -(64 * 128 ^ n) → acc < 2 ^ bit →
      bit + 7 * n < 64 →
      ∃ low : Nat, low < 2 ^ (bit + 7 * (n + 1)) ∧ (low : Int) - 2 ^ (bit + 7 * (n + 1)) = acc + v * 2 ^ bit ∧
        readSlebFrom bit (BitVec.ofNat 64 acc) (Leb128.sleb (n + 2) true v ++ rest) =
          readSlebFrom (bit + 7 * (n + 1)) (BitVec.ofNat 64 low) (0x7f :: rest) := by
  intro n
  induction n with
  | zero =>
    intro v bit acc lower upper low inside
    rw [pow_zero, mul_one] at lower upper
    obtain ⟨-, nextLow, total⟩ := next_digit (show true = decide (v < 0) by simp; omega) low
    have left : v / 128 = -1 := by omega
    rw [left] at total
    refine ⟨_, nextLow, by rw [← total]; ring, ?_⟩
    rw [readSlebFrom_more rest (more_digits upper) low (by omega), left]
    rfl
  | succ n ih =>
    intro v bit acc lower upper low inside
    have power : (128 : Int) ^ (n + 1) = 128 * 128 ^ n := by ring
    have positive : (0 : Int) < 128 ^ n := by positivity
    rw [power] at lower upper
    obtain ⟨-, nextLow, total⟩ := next_digit (show true = decide (v < 0) by simp; omega) low
    obtain ⟨last, fits, value, read⟩ := ih (v / 128) (bit + 7) _ (by omega) (by omega) nextLow (by omega)
    have position : bit + 7 + 7 * (n + 1) = bit + 7 * (n + 1 + 1) := by omega
    rw [position] at fits value read
    refine ⟨last, fits, value.trans total, ?_⟩
    rw [readSlebFrom_more rest (more_digits (by omega)) low (by omega), read]

/-- **A signed value of ten bytes is read with its bits from the sixth on set**: `-1` is shifted by `70`. -/
theorem readSleb128_long (small : value.toInt < -2 ^ 62) (rest : List UInt8) :
    readSleb128 (LinkEdit.appendSleb128 value ++ rest) = (.ok (value ||| -64), rest) := by
  have least : -2 ^ 63 ≤ value.toInt := BitVec.le_toInt value
  obtain ⟨low, fits, total, read⟩ :=
    readSlebFrom_long rest 8 value.toInt 0 0 (by norm_num; omega) (by norm_num; omega) (by norm_num) (by norm_num)
  have negative : decide (value.toInt < 0) = true := decide_eq_true (by omega)
  have sum : BitVec.ofNat 64 low ||| shiftLeft (BitVec.ofNat 64 127) 63 = value := by
    rw [or_slice fits (by norm_num), ← BitVec.ofInt_toInt (x := value)]
    apply ofNat_eq_ofInt
    push_cast at total ⊢
    omega
  rw [readSleb128, LinkEdit.appendSleb128, negative]
  refine read.trans ?_
  have last : (0x7f : UInt8) &&& 0x7f = 127 ∧ ¬ (0x7f : UInt8) &&& 0x80 ≠ 0 ∧ (0x7f : UInt8) &&& 0x40 ≠ 0 := by
    decide
  rw [readSlebFrom]
  simp only [if_neg last.2.1, if_pos last.2.2, last.1]
  exact congrArg (fun word => (Except.ok (word ||| -64), rest)) sum

theorem not_eq_or_low (small : value.toInt < -2 ^ 62) : value ||| -64 ≠ value := by
  intro same
  have bits : (-64 : BitVec 64).toNat ≤ value.toNat := by
    rw [← same, BitVec.toNat_or]
    exact Nat.right_le_or
  have word : (-64 : BitVec 64).toNat = 2 ^ 64 - 64 := rfl
  rw [BitVec.toInt_eq_toNat_cond] at small
  split at small <;> omega

theorem appendSleb128_eq (value : BitVec 64) : appendSleb128 value = LinkEdit.appendSleb128 value := by
  have upper : value.toInt < 64 * 128 ^ 9 := lt_trans (BitVec.toInt_lt (x := value)) (by norm_num)
  have lower : -(64 * 128 ^ 9) ≤ value.toInt := le_trans (by norm_num) (BitVec.le_toInt value)
  exact appendSleb128From_eq_sleb rfl lower upper

/-! ## The round trip -/

/-- **Every unsigned value is read back, by both readers, from the `uleb128_size` bytes the loop wrote;
a signed one exactly when it is at least `-2 ^ 62`.** -/
theorem leb128_roundTrip (value : BitVec 64) (rest : List UInt8) :
    (otoolReadUleb128 (appendUleb128 value ++ rest) = (.ok value, rest) ∧
        trieReadUleb128 (appendUleb128 value ++ rest) = (.ok value, rest) ∧
        (appendUleb128 value).length = uleb128Size value) ∧
      (readSleb128 (appendSleb128 value ++ rest) = (.ok value, rest) ↔ -2 ^ 62 ≤ value.toInt) := by
  have covered := word_covered value
  refine ⟨⟨readUlebFrom_append _ _ value rest, readUlebFrom_append _ _ value rest, ?_⟩, ?_, ?_⟩
  · rw [appendUleb128_eq_uleb covered, uleb128Size_eq_ulebSize covered, Leb128.length_uleb]
  · intro read
    by_contra small
    rw [appendSleb128_eq, readSleb128_long (not_le.mp small)] at read
    exact not_eq_or_low (not_le.mp small) (Except.ok.inj (Prod.mk.inj read).1)
  · intro large
    rw [appendSleb128_eq, Otool.readSleb128_append large]

/-- The least value is written in ten bytes and read as `-64`. -/
theorem leastSigned_lost :
    readSleb128 (appendSleb128 (BitVec.ofInt 64 (-2 ^ 63)) ++ []) = (.ok (BitVec.ofInt 64 (-64)), []) ∧
      readSleb128 (appendSleb128 (BitVec.ofInt 64 (-2 ^ 63)) ++ []) ≠ (.ok (BitVec.ofInt 64 (-2 ^ 63)), []) := by
  have read : readSleb128 (appendSleb128 (BitVec.ofInt 64 (-2 ^ 63)) ++ []) =
      (.ok (BitVec.ofInt 64 (-64)), []) := by
    rw [appendSleb128_eq, readSleb128_long (by decide)]
    rfl
  refine ⟨read, fun back => ?_⟩
  rw [read] at back
  exact absurd (Except.ok.inj (Prod.mk.inj back).1) (by decide)

end Cctools.Otool.Loops
