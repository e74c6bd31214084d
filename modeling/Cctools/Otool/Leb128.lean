/-
# Cctools.Otool.Leb128 -- the LEB128 readers of `dyld_bind_info.c`

`read_uleb128` is `LinkEdit.readUleb128` with its texts.  `read_sleb128` or-s
shifted slices into an `int64_t` and then sign extends by a shift of its own,
without looking at the bit position.  C leaves a shift by 64 or more undefined;
the model takes the count modulo 64, as the shift instructions of x86-64 and
arm64 do.

`readSleb128_append`: a written value is read back if it is at least `-2 ^ 62`.
A smaller one takes ten bytes, and the sign extension then shifts by 70.
-/
import Cctools.LinkEdit.ByteStream

namespace Cctools.Otool

set_option autoImplicit false

open Cctools.Theory
open Cctools.LinkEdit

/-- The value, or the text of the error, with the bytes that follow. -/
def readUleb128 (p : List UInt8) : Except String (BitVec 64) × List UInt8 :=
  match LinkEdit.readUleb128 p with
  | .ok (value, rest) => (.ok value, rest)
  | .error (.endOfInput, rest) => (.error "malformed uleb128, extends past opcode bytes", rest)
  | .error (.tooBig, rest) => (.error "uleb128 too big for uint64", rest)

def shiftLeft (value : BitVec 64) (bit : Nat) : BitVec 64 := value <<< (bit % 64)

def readSlebFrom : Nat → BitVec 64 → List UInt8 → Except String (BitVec 64) × List UInt8
  | _, _, [] => (.error "malformed sleb128, extends past opcode bytes", [])
  | bit, result, byte :: rest =>
    let result := result ||| shiftLeft (BitVec.ofNat 64 (byte &&& 0x7f).toNat) bit
    let bit := bit + 7
    if byte &&& 0x80 ≠ 0 then readSlebFrom bit result rest
    else (.ok (if byte &&& 0x40 ≠ 0 then result ||| shiftLeft (-1) bit else result), rest)

def readSleb128 (p : List UInt8) : Except String (BitVec 64) × List UInt8 := readSlebFrom 0 0 p

/-! ## Signed values -/

theorem byte_parts {digit : Nat} (small : digit < 128) (continues : Bool) :
    let byte := UInt8.ofNat (digit + if continues then 128 else 0)
    (byte &&& 0x7f).toNat = digit ∧ (byte &&& 0x80 ≠ 0 ↔ continues = true) ∧
      (byte &&& 0x40 ≠ 0 ↔ 64 ≤ digit % 128) := by
  have table : ∀ d : Fin 128, ∀ c : Bool,
      let byte := UInt8.ofNat (d.val + if c then 128 else 0)
      (byte &&& 0x7f).toNat = d.val ∧ (byte &&& 0x80 ≠ 0 ↔ c = true) ∧
        (byte &&& 0x40 ≠ 0 ↔ 64 ≤ d.val % 128) := by decide
  exact table ⟨digit, small⟩ continues

theorem or_slice {acc digit bit : Nat} (low : acc < 2 ^ bit) (inside : bit < 64) :
    BitVec.ofNat 64 acc ||| shiftLeft (BitVec.ofNat 64 digit) bit =
      BitVec.ofNat 64 (acc + digit * 2 ^ bit) := by
  have below : acc < 2 ^ 64 := lt_of_lt_of_le low (Nat.pow_le_pow_right (by norm_num) (by omega))
  rw [shiftLeft, Nat.mod_eq_of_lt inside, ← Leb128.or_shiftLeft_eq_add digit low]
  apply BitVec.eq_of_toNat_eq
  rw [BitVec.toNat_or, BitVec.toNat_shiftLeft, BitVec.toNat_ofNat, BitVec.toNat_ofNat,
    BitVec.toNat_ofNat, Nat.mod_eq_of_lt below, Nat.or_mod_two_pow, Nat.mod_eq_of_lt below]
  congr 1
  rw [Nat.shiftLeft_eq, Nat.shiftLeft_eq, Nat.mod_mul_mod]

theorem ofNat_eq_ofInt {n : Nat} {m : Int} (same : (n : Int) % 2 ^ 64 = m % 2 ^ 64) :
    BitVec.ofNat 64 n = BitVec.ofInt 64 m := by
  apply BitVec.eq_of_toNat_eq
  rw [BitVec.toNat_ofNat, BitVec.toNat_ofInt]
  simp only [Nat.cast_ofNat, Nat.cast_pow] at same ⊢
  omega

theorem or_sign {acc bit : Nat} (low : acc < 2 ^ bit) (inside : bit < 64) :
    BitVec.ofNat 64 acc ||| shiftLeft (-1) bit = BitVec.ofInt 64 (acc - 2 ^ bit) := by
  have ones : (-1 : BitVec 64) = BitVec.ofNat 64 (2 ^ 64 - 1) := rfl
  rw [ones, or_slice low inside]
  apply ofNat_eq_ofInt
  have wraps : ((acc + (2 ^ 64 - 1) * 2 ^ bit : Nat) : Int) = acc - 2 ^ bit + 2 ^ 64 * 2 ^ bit := by
    push_cast
    ring
  rw [wraps, Int.add_mul_emod_self_left]

/-- Whether another digit follows, as the writer decides it. -/
def Continues (isNeg : Bool) (v : Int) : Prop :=
  if isNeg then v / 128 ≠ -1 ∨ (v % 128).toNat < 64 else v / 128 ≠ 0 ∨ 64 ≤ (v % 128).toNat

theorem sleb_more {isNeg : Bool} {v : Int} (more : Continues isNeg v) (fuel : Nat) :
    Leb128.sleb (fuel + 1) isNeg v =
      UInt8.ofNat ((v % 128).toNat + 128) :: Leb128.sleb fuel isNeg (v / 128) := by
  unfold Continues at more
  simp only [Leb128.sleb, if_pos more]

theorem sleb_last {isNeg : Bool} {v : Int} (stops : ¬ Continues isNeg v) (fuel : Nat) :
    Leb128.sleb (fuel + 1) isNeg v = [UInt8.ofNat (v % 128).toNat] := by
  unfold Continues at stops
  simp only [Leb128.sleb, if_neg stops]

section Digits

variable {isNeg : Bool} {v : Int} {bit acc : Nat} (rest : List UInt8)

theorem readSlebFrom_more (more : Continues isNeg v) (low : acc < 2 ^ bit) (inside : bit < 64)
    (fuel : Nat) :
    readSlebFrom bit (BitVec.ofNat 64 acc) (Leb128.sleb (fuel + 1) isNeg v ++ rest) =
      readSlebFrom (bit + 7) (BitVec.ofNat 64 (acc + (v % 128).toNat * 2 ^ bit))
        (Leb128.sleb fuel isNeg (v / 128) ++ rest) := by
  obtain ⟨slice, continues, -⟩ := byte_parts (show (v % 128).toNat < 128 by omega) true
  simp only [if_true] at slice continues
  rw [sleb_more more, List.cons_append, readSlebFrom]
  simp only [slice, or_slice low inside]
  rw [if_pos (continues.2 trivial)]

theorem readSlebFrom_end (stops : ¬ Continues isNeg v) (sign : isNeg = decide (v < 0))
    (low : acc < 2 ^ bit) (inside : bit < 64) (extends_ : isNeg = true → bit + 7 < 64) (fuel : Nat) :
    readSlebFrom bit (BitVec.ofNat 64 acc) (Leb128.sleb (fuel + 1) isNeg v ++ rest) =
      (.ok (BitVec.ofInt 64 (acc + v * 2 ^ bit)), rest) := by
  obtain ⟨slice, continues, signed⟩ := byte_parts (show (v % 128).toNat < 128 by omega) false
  simp only [Bool.false_eq_true, if_false, iff_false, Nat.add_zero] at slice continues signed
  have digit : (v % 128).toNat % 128 = (v % 128).toNat := Nat.mod_eq_of_lt (by omega)
  rw [digit] at signed
  rw [sleb_last stops, List.singleton_append, readSlebFrom]
  simp only [slice, or_slice low inside]
  rw [if_neg continues]
  cases isNeg with
  | true =>
    have negative : v < 0 := by simpa using sign.symm
    simp only [Continues, if_true, not_or, not_not] at stops
    have value : ((v % 128).toNat : Int) = v + 128 := by omega
    have next : acc + (v % 128).toNat * 2 ^ bit < 2 ^ (bit + 7) := by
      have power : (2 : Nat) ^ (bit + 7) = 128 * 2 ^ bit := by rw [Nat.pow_add]; ring
      have bound : (v % 128).toNat * 2 ^ bit ≤ 127 * 2 ^ bit := Nat.mul_le_mul_right _ (by omega)
      omega
    rw [if_pos (signed.2 (by omega)), or_sign next (extends_ rfl)]
    congr 3
    push_cast
    rw [value, pow_add]
    ring
  | false =>
    simp only [Continues, Bool.false_eq_true, if_false, not_or, not_not] at stops
    have value : ((v % 128).toNat : Int) = v := by omega
    rw [if_neg (fun set => by have := signed.1 set; omega)]
    congr 2
    apply ofNat_eq_ofInt
    push_cast
    rw [value]

end Digits

theorem next_digit {isNeg : Bool} {v : Int} {bit acc : Nat} (sign : isNeg = decide (v < 0))
    (low : acc < 2 ^ bit) :
    isNeg = decide (v / 128 < 0) ∧ acc + (v % 128).toNat * 2 ^ bit < 2 ^ (bit + 7) ∧
      ((acc + (v % 128).toNat * 2 ^ bit : Nat) : Int) + v / 128 * 2 ^ (bit + 7) =
        acc + v * 2 ^ bit := by
  refine ⟨?_, ?_, ?_⟩
  · rw [sign]
    by_cases negative : v < 0
    · simp only [negative, decide_true]; symm; simp; omega
    · simp only [negative, decide_false]; symm; simp; omega
  · have power : (2 : Nat) ^ (bit + 7) = 128 * 2 ^ bit := by rw [Nat.pow_add]; ring
    have bound : (v % 128).toNat * 2 ^ bit ≤ 127 * 2 ^ bit := Nat.mul_le_mul_right _ (by omega)
    omega
  · have digits : v = 128 * (v / 128) + ((v % 128).toNat : Int) := by omega
    push_cast
    rw [Leb128.two_pow_add_seven]
    linear_combination (-(2 : Int) ^ bit) * digits

theorem readSlebFrom_short (rest : List UInt8) :
    ∀ (fuel more : Nat) (v : Int) (isNeg : Bool) (bit acc : Nat), isNeg = decide (v < 0) →
      -(64 * 128 ^ fuel) ≤ v → v < 64 * 128 ^ fuel → acc < 2 ^ bit → bit + 7 * fuel ≤ 56 →
      readSlebFrom bit (BitVec.ofNat 64 acc) (Leb128.sleb (fuel + more + 1) isNeg v ++ rest) =
        (.ok (BitVec.ofInt 64 (acc + v * 2 ^ bit)), rest) := by
  intro fuel
  induction fuel with
  | zero =>
    intro more v isNeg bit acc sign lower upper low room
    simp only [pow_zero, mul_one] at lower upper
    have stops : ¬ Continues isNeg v := by
      unfold Continues
      cases isNeg with
      | true =>
        have negative : v < 0 := by simpa using sign.symm
        simp only [if_true, not_or, not_not]
        omega
      | false =>
        have nonneg : ¬ v < 0 := by simpa using sign.symm
        simp only [Bool.false_eq_true, if_false, not_or, not_not]
        omega
    exact readSlebFrom_end rest stops sign low (by omega) (fun _ => by omega) _
  | succ fuel ih =>
    intro more v isNeg bit acc sign lower upper low room
    by_cases continues : Continues isNeg v
    · obtain ⟨nextSign, nextLow, total⟩ := next_digit sign low
      have power : (64 * 128 ^ (fuel + 1) : Int) = 128 * (64 * 128 ^ fuel) := by ring
      rw [power] at lower upper
      rw [readSlebFrom_more rest continues low (by omega),
        show fuel + 1 + more = fuel + more + 1 by omega,
        ih more (v / 128) isNeg (bit + 7) _ nextSign (by omega) (by omega) nextLow (by omega),
        total]
    · exact readSlebFrom_end rest continues sign low (by omega) (fun _ => by omega) _

theorem readSlebFrom_nonneg (rest : List UInt8) :
    ∀ (fuel : Nat) (v : Int) (bit acc : Nat), 0 ≤ v → v < 64 * 128 ^ fuel →
      v * 2 ^ bit < 2 ^ 63 → acc < 2 ^ bit → bit < 64 →
      readSlebFrom bit (BitVec.ofNat 64 acc) (Leb128.sleb (fuel + 1) false v ++ rest) =
        (.ok (BitVec.ofInt 64 (acc + v * 2 ^ bit)), rest) := by
  intro fuel
  induction fuel with
  | zero =>
    intro v bit acc nonneg upper fits low inside
    have stops : ¬ Continues false v := by
      simp only [Continues, Bool.false_eq_true, if_false, not_or, not_not]
      omega
    exact readSlebFrom_end rest stops (by simpa using nonneg) low inside (by simp) _
  | succ fuel ih =>
    intro v bit acc nonneg upper fits low inside
    have sign : false = decide (v < 0) := by simpa using nonneg
    by_cases continues : Continues false v
    · obtain ⟨-, nextLow, total⟩ := next_digit sign low
      have power : (64 * 128 ^ (fuel + 1) : Int) = 128 * (64 * 128 ^ fuel) := by ring
      have large : 64 ≤ v := by
        simp only [Continues, Bool.false_eq_true, if_false] at continues
        omega
      have nextInside : bit + 7 < 64 := by
        by_contra beyond
        have ge : (2 : Int) ^ 57 ≤ 2 ^ bit := pow_le_pow_right₀ (by norm_num) (by omega)
        have : (64 : Int) * 2 ^ 57 ≤ v * 2 ^ bit := mul_le_mul large ge (by norm_num) nonneg
        norm_num at this fits
        omega
      have nextFits : v / 128 * 2 ^ (bit + 7) < 2 ^ 63 := by
        have positive : (0 : Int) < 2 ^ bit := by positivity
        have : v / 128 * 128 ≤ v := by omega
        have := mul_le_mul_of_nonneg_right this positive.le
        rw [Leb128.two_pow_add_seven, ← mul_assoc]
        exact lt_of_le_of_lt this fits
      rw [power] at upper
      rw [readSlebFrom_more rest continues low inside,
        ih (v / 128) (bit + 7) _ (by omega) (by omega) nextFits nextLow nextInside, total]
    · exact readSlebFrom_end rest continues sign low inside (by simp) _

/-- **`read_sleb128` reads back what `append_sleb128` wrote**, down to `-2 ^ 62`. -/
theorem readSleb128_append {value : BitVec 64} (large : -2 ^ 62 ≤ value.toInt)
    (rest : List UInt8) : readSleb128 (appendSleb128 value ++ rest) = (.ok value, rest) := by
  have top : value.toInt < 2 ^ 63 := BitVec.toInt_lt
  by_cases short : value.toInt < 2 ^ 62
  · have read := readSlebFrom_short rest 8 1 value.toInt _ 0 0 rfl (by norm_num; exact large)
      (by norm_num; exact short) (by norm_num) (by norm_num)
    simpa [readSleb128, appendSleb128] using read
  · have nonneg : ¬ value.toInt < 0 := by omega
    have read := readSlebFrom_nonneg rest 9 value.toInt 0 0 (by omega) (by norm_num; omega)
      (by norm_num; omega) (by norm_num) (by norm_num)
    simpa [readSleb128, appendSleb128, nonneg] using read

end Cctools.Otool
