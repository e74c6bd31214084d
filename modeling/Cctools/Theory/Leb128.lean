/-
# Cctools.Theory.Leb128 -- base-128 digits with a continuation bit

A number written as bytes of seven bits each, lowest first, every byte but the
last with its high bit set.  The unsigned writer `uleb` and the signed writer
`sleb` take an explicit digit budget, so they are structural and compute; a
budget that covers the value (`n < 128 ^ fuel`) never shows in the result.

The unsigned reader checks the accumulated value against a machine width, as
fixed-width readers do: a slice whose bits do not fit at its position is an
error, and an error reports the bytes the reader stopped in front of.

* `readUleb_uleb`: reading what was written gives the number and the suffix.
* `length_uleb`: the number of bytes is `ulebSize`, which is monotone.
* `readSleb_sleb`: the same round trip for signed values.
* `within_div`: a value fits in one digit more than what is left of it behind one.
-/
import Mathlib.Data.Nat.Bitwise
import Mathlib.Algebra.Order.Ring.Int
import Mathlib.Tactic.Ring
import Mathlib.Tactic.LinearCombination
import Mathlib.Tactic.Positivity

namespace Cctools.Theory.Leb128

set_option autoImplicit false

/-! ## Unsigned values -/

/-- The digits of `n`, at most `fuel` of them. -/
def uleb : Nat → Nat → List UInt8
  | 0, _ => []
  | fuel + 1, n =>
    if n / 128 = 0 then [UInt8.ofNat (n % 128)]
    else UInt8.ofNat (n % 128 + 128) :: uleb fuel (n / 128)

/-- How many digits `n` has, at most `fuel` of them. -/
def ulebSize : Nat → Nat → Nat
  | 0, _ => 0
  | fuel + 1, n => if n / 128 = 0 then 1 else ulebSize fuel (n / 128) + 1

inductive Error where
  | endOfInput
  | tooBig
  deriving DecidableEq, Repr

/-- Read digits into `acc` from bit position `bit` on, for values below
`2 ^ width`.  An error carries the bytes that were not consumed. -/
def readUlebFrom (width : Nat) : Nat → Nat → List UInt8 →
    Except (Error × List UInt8) (Nat × List UInt8)
  | _, _, [] => .error (.endOfInput, [])
  | bit, acc, byte :: rest =>
    let slice := byte.toNat % 128
    if width ≤ bit ∨ 2 ^ width ≤ slice * 2 ^ bit then .error (.tooBig, byte :: rest)
    else if 128 ≤ byte.toNat then
      readUlebFrom width (bit + 7) (acc ||| slice <<< bit) rest
    else .ok (acc ||| slice <<< bit, rest)

def readUleb (width : Nat) (bytes : List UInt8) :
    Except (Error × List UInt8) (Nat × List UInt8) :=
  readUlebFrom width 0 0 bytes

theorem or_shiftLeft_eq_add {acc bit : Nat} (slice : Nat) (low : acc < 2 ^ bit) :
    acc ||| slice <<< bit = acc + slice * 2 ^ bit := by
  rw [Nat.or_comm, ← Nat.shiftLeft_add_eq_or_of_lt low, Nat.shiftLeft_eq, Nat.add_comm]

theorem uleb_succ_of_lt {fuel n : Nat} (small : n < 128) :
    uleb (fuel + 1) n = [UInt8.ofNat n] := by
  have quotient : n / 128 = 0 := Nat.div_eq_of_lt small
  simp only [uleb, quotient, if_true, Nat.mod_eq_of_lt small]

theorem uleb_succ_of_ge {fuel n : Nat} (large : 128 ≤ n) :
    uleb (fuel + 1) n = UInt8.ofNat (n % 128 + 128) :: uleb fuel (n / 128) := by
  have quotient : n / 128 ≠ 0 := by omega
  simp only [uleb, quotient, if_false]

/-- Reading resumes at any bit position: the digits of `n` add `n * 2 ^ bit`. -/
theorem readUlebFrom_uleb (width : Nat) (rest : List UInt8) :
    ∀ (fuel n bit acc : Nat), n < 128 ^ (fuel + 1) → acc < 2 ^ bit → bit < width →
      n * 2 ^ bit < 2 ^ width →
      readUlebFrom width bit acc (uleb (fuel + 1) n ++ rest) = .ok (acc + n * 2 ^ bit, rest) := by
  intro fuel
  induction fuel with
  | zero =>
    intro n bit acc covered low inWidth fits
    have small : n < 128 := by simpa using covered
    have byte : (UInt8.ofNat n).toNat = n := by simp; omega
    rw [uleb_succ_of_lt small]
    simp only [List.singleton_append, readUlebFrom, byte, Nat.mod_eq_of_lt small]
    rw [if_neg (by omega), if_neg (by omega), or_shiftLeft_eq_add n low]
  | succ fuel ih =>
    intro n bit acc covered low inWidth fits
    by_cases small : n < 128
    · have byte : (UInt8.ofNat n).toNat = n := by simp; omega
      rw [uleb_succ_of_lt small]
      simp only [List.singleton_append, readUlebFrom, byte, Nat.mod_eq_of_lt small]
      rw [if_neg (by omega), if_neg (by omega), or_shiftLeft_eq_add n low]
    · have byte : (UInt8.ofNat (n % 128 + 128)).toNat = n % 128 + 128 := by simp; omega
      have slice : (n % 128 + 128) % 128 = n % 128 := by omega
      have split : n * 2 ^ bit = n % 128 * 2 ^ bit + n / 128 * 2 ^ (bit + 7) := by
        have power : (2 : Nat) ^ (bit + 7) = 128 * 2 ^ bit := by rw [Nat.pow_add]; ring
        have digits := Nat.div_add_mod n 128
        calc n * 2 ^ bit = (128 * (n / 128) + n % 128) * 2 ^ bit := by rw [digits]
          _ = n % 128 * 2 ^ bit + n / 128 * 2 ^ (bit + 7) := by rw [power]; ring
      have quotient : 1 * 2 ^ (bit + 7) ≤ n / 128 * 2 ^ (bit + 7) :=
        Nat.mul_le_mul_right _ (by omega)
      have nextBit : bit + 7 < width := by
        by_contra beyond
        have : (2 : Nat) ^ width ≤ 2 ^ (bit + 7) := Nat.pow_le_pow_right (by omega) (by omega)
        omega
      have nextLow : acc + n % 128 * 2 ^ bit < 2 ^ (bit + 7) := by
        have power : (2 : Nat) ^ (bit + 7) = 128 * 2 ^ bit := by rw [Nat.pow_add]; ring
        have digit : n % 128 * 2 ^ bit ≤ 127 * 2 ^ bit := Nat.mul_le_mul_right _ (by omega)
        omega
      rw [uleb_succ_of_ge (by omega)]
      simp only [List.cons_append, readUlebFrom, byte, slice]
      rw [if_neg (by omega), if_pos (by omega), or_shiftLeft_eq_add _ low,
        ih (n / 128) (bit + 7) _ (by rw [Nat.pow_succ] at covered; omega) nextLow nextBit
          (by omega), split]
      congr 2
      omega

/-- **Round trip.**  A covered value below the width is read back, and the
bytes after it are untouched. -/
theorem readUleb_uleb {width fuel n : Nat} (covered : n < 128 ^ (fuel + 1)) (fits : n < 2 ^ width)
    (positive : 0 < width) (rest : List UInt8) :
    readUleb width (uleb (fuel + 1) n ++ rest) = .ok (n, rest) := by
  have read := readUlebFrom_uleb width rest fuel n 0 0 covered (by simp) positive (by simpa using fits)
  simpa [readUleb] using read

theorem length_of_readUlebFrom {width bit acc n : Nat} {bytes rest : List UInt8}
    (read : readUlebFrom width bit acc bytes = .ok (n, rest)) : rest.length < bytes.length := by
  induction bytes generalizing bit acc with
  | nil => cases read
  | cons byte bytes ih =>
    rw [readUlebFrom] at read
    split at read
    · cases read
    · split at read
      · exact Nat.lt_succ_of_lt (ih read)
      · obtain ⟨-, rfl⟩ := Prod.mk.inj (Except.ok.inj read)
        exact Nat.lt_succ_self _

theorem length_uleb (fuel n : Nat) : (uleb fuel n).length = ulebSize fuel n := by
  induction fuel generalizing n with
  | zero => rfl
  | succ fuel ih =>
    simp only [uleb, ulebSize]
    split
    · rfl
    · simp [ih]

theorem ulebSize_pos (fuel n : Nat) : 0 < ulebSize (fuel + 1) n := by
  simp only [ulebSize]
  split <;> omega

theorem ulebSize_le_of_lt (fuel : Nat) {k n : Nat} (small : n < 128 ^ (k + 1)) : ulebSize fuel n ≤ k + 1 := by
  induction fuel generalizing k n with
  | zero => exact Nat.zero_le _
  | succ fuel ih =>
    rw [ulebSize]
    split
    · omega
    · rename_i large
      cases k with
      | zero =>
        rw [Nat.zero_add, pow_one] at small
        exact absurd (Nat.div_eq_of_lt small) large
      | succ k =>
        rw [pow_succ] at small
        exact Nat.succ_le_succ (ih (Nat.div_lt_of_lt_mul (by omega)))

theorem ulebSize_mono (fuel : Nat) {m n : Nat} (le : m ≤ n) : ulebSize fuel m ≤ ulebSize fuel n := by
  induction fuel generalizing m n with
  | zero => simp [ulebSize]
  | succ fuel ih =>
    simp only [ulebSize]
    have := ih (Nat.div_le_div_right (c := 128) le)
    have quotients : m / 128 ≤ n / 128 := Nat.div_le_div_right le
    split <;> split <;> omega

theorem uleb_ne_nil (fuel n : Nat) : uleb (fuel + 1) n ≠ [] := by
  simp only [uleb]
  split <;> simp

/-! ## Signed values -/

/-- The two's-complement digits of `v`, at most `fuel` of them.  The last digit
is the first one after which only copies of its own sign bit would follow. -/
def sleb : Nat → Bool → Int → List UInt8
  | 0, _, _ => []
  | fuel + 1, isNeg, v =>
    let digit := (v % 128).toNat
    let next := v / 128
    let more := if isNeg then next ≠ -1 ∨ digit < 64 else next ≠ 0 ∨ 64 ≤ digit
    if more then UInt8.ofNat (digit + 128) :: sleb fuel isNeg next else [UInt8.ofNat digit]

/-- Read signed digits into `acc` from bit position `bit` on. -/
def readSlebFrom : Nat → Int → List UInt8 → Option (Int × List UInt8)
  | _, _, [] => none
  | bit, acc, byte :: rest =>
    let slice := byte.toNat % 128
    let acc := acc + slice * 2 ^ bit
    if 128 ≤ byte.toNat then readSlebFrom (bit + 7) acc rest
    else some (if 64 ≤ slice then acc - 2 ^ (bit + 7) else acc, rest)

def readSleb (bytes : List UInt8) : Option (Int × List UInt8) :=
  readSlebFrom 0 0 bytes

theorem two_pow_add_seven (bit : Nat) : (2 : Int) ^ (bit + 7) = 128 * 2 ^ bit := by
  rw [pow_add]; ring

/-- The digit that ends the encoding carries the sign of the whole value. -/
theorem readSlebFrom_last {v : Int} {isNeg : Bool} (sign : isNeg = decide (v < 0)) (bit : Nat)
    (acc : Int) (rest : List UInt8)
    (stops : ¬ if isNeg then v / 128 ≠ -1 ∨ (v % 128).toNat < 64
      else v / 128 ≠ 0 ∨ 64 ≤ (v % 128).toNat) :
    readSlebFrom bit acc (UInt8.ofNat (v % 128).toNat :: rest) = some (acc + v * 2 ^ bit, rest) := by
  have digit : (v % 128).toNat < 128 := by omega
  have byte : (UInt8.ofNat (v % 128).toNat).toNat = (v % 128).toNat := by simp; omega
  simp only [readSlebFrom, byte, Nat.mod_eq_of_lt digit]
  rw [if_neg (by omega), two_pow_add_seven]
  cases isNeg with
  | true =>
    have negative : v < 0 := by simpa using sign.symm
    simp only [if_true, not_or, not_not] at stops
    have value : ((v % 128).toNat : Int) = v + 128 := by omega
    rw [if_pos (by omega), value]
    congr 2
    ring
  | false =>
    simp only [Bool.false_eq_true, if_false, not_or, not_not] at stops
    have value : ((v % 128).toNat : Int) = v := by omega
    rw [if_neg (by omega), value]

theorem readSlebFrom_sleb (rest : List UInt8) :
    ∀ (fuel : Nat) (v : Int) (isNeg : Bool) (bit : Nat) (acc : Int),
      isNeg = decide (v < 0) → -(64 * 128 ^ fuel) ≤ v → v < 64 * 128 ^ fuel →
      readSlebFrom bit acc (sleb (fuel + 1) isNeg v ++ rest) = some (acc + v * 2 ^ bit, rest) := by
  intro fuel
  induction fuel with
  | zero =>
    intro v isNeg bit acc sign lower upper
    simp only [pow_zero, mul_one] at lower upper
    have stops : ¬ if isNeg then v / 128 ≠ -1 ∨ (v % 128).toNat < 64
        else v / 128 ≠ 0 ∨ 64 ≤ (v % 128).toNat := by
      cases isNeg with
      | true =>
        have negative : v < 0 := by simpa using sign.symm
        simp only [if_true, not_or, not_not]
        omega
      | false =>
        have nonneg : ¬ v < 0 := by simpa using sign.symm
        simp only [Bool.false_eq_true, if_false, not_or, not_not]
        omega
    simp only [sleb, if_neg stops, List.singleton_append]
    exact readSlebFrom_last sign bit acc rest stops
  | succ fuel ih =>
    intro v isNeg bit acc sign lower upper
    by_cases more : if isNeg then v / 128 ≠ -1 ∨ (v % 128).toNat < 64
        else v / 128 ≠ 0 ∨ 64 ≤ (v % 128).toNat
    · have byte : (UInt8.ofNat ((v % 128).toNat + 128)).toNat = (v % 128).toNat + 128 := by
        simp; omega
      have slice : ((v % 128).toNat + 128) % 128 = (v % 128).toNat := by omega
      have nextSign : isNeg = decide (v / 128 < 0) := by
        rw [sign]
        by_cases negative : v < 0
        · simp only [negative, decide_true]; symm; simp; omega
        · simp only [negative, decide_false]; symm; simp; omega
      have power : (64 * 128 ^ (fuel + 1) : Int) = 128 * (64 * 128 ^ fuel) := by ring
      rw [power] at lower upper
      have digits : v = 128 * (v / 128) + ((v % 128).toNat : Int) := by omega
      rw [sleb]
      simp only [if_pos more, List.cons_append, readSlebFrom, byte, slice]
      rw [if_pos (by omega), ih (v / 128) isNeg (bit + 7) _ nextSign (by omega) (by omega),
        two_pow_add_seven]
      congr 2
      linear_combination (-(2 : Int) ^ bit) * digits
    · rw [sleb]
      simp only [if_neg more, List.singleton_append]
      exact readSlebFrom_last sign bit acc rest more

/-- **Signed round trip.** -/
theorem readSleb_sleb {fuel : Nat} {v : Int} (lower : -(64 * 128 ^ fuel) ≤ v)
    (upper : v < 64 * 128 ^ fuel) (rest : List UInt8) :
    readSleb (sleb (fuel + 1) (decide (v < 0)) v ++ rest) = some (v, rest) := by
  have read := readSlebFrom_sleb rest fuel v _ 0 0 rfl lower upper
  simpa [readSleb] using read

/-! ## How many digits -/

/-- A value fits in `groups + 1` digits, with the sign in the last or without. -/
def Within (sign : Bool) (groups : Nat) (value : Int) : Prop :=
  if sign then -(64 * 128 ^ groups) ≤ value ∧ value < 64 * 128 ^ groups
  else value < 128 ^ (groups + 1)

theorem within_div (sign : Bool) (groups : Nat) (value : Int) :
    Within sign (groups + 1) value ↔ Within sign groups (value / 128) := by
  have positive : (0 : Int) < 128 ^ groups := by positivity
  have next : (128 : Int) ^ (groups + 1) = 128 ^ groups * 128 := pow_succ _ _
  have more : (128 : Int) ^ (groups + 1 + 1) = 128 ^ (groups + 1) * 128 := pow_succ _ _
  unfold Within
  split
  · omega
  · omega

theorem within_signed_zero (value : Int) :
    Within true 0 value ↔
      (value / 128 = 0 ∧ value % 128 < 64 ∨ value / 128 = -1 ∧ 64 ≤ value % 128) := by
  simp only [Within, if_true, pow_zero]
  omega

theorem within_longer {sign : Bool} {groups more : Nat} (less : groups ≤ more) {value : Int}
    (within : Within sign groups value) : Within sign more value := by
  have grows : (128 : Int) ^ groups ≤ 128 ^ more := pow_le_pow_right₀ (by decide) less
  have next : (128 : Int) ^ (groups + 1) = 128 ^ groups * 128 := pow_succ _ _
  have last : (128 : Int) ^ (more + 1) = 128 ^ more * 128 := pow_succ _ _
  unfold Within at within ⊢
  split at within
  · rename_i signed
    rw [if_pos signed]
    omega
  · rename_i unsigned
    rw [if_neg unsigned]
    omega

theorem within_first (groups : Nat) {value : Int} (first : value / 128 = 0) :
    Within false groups value := by
  refine within_longer (Nat.zero_le groups) ?_
  simp only [Within, Bool.false_eq_true, if_false, Nat.zero_add, pow_one]
  omega

end Cctools.Theory.Leb128
