/-
# Cctools.Theory.Bytes -- numbers in bytes, most significant first or last

`beBytes` writes a number in a fixed count of bytes and drops what does not fit;
`readBe` reads one back.  `readLe` takes the same bytes in the other order.
-/
import Mathlib.Algebra.Order.Ring.Nat
import Mathlib.Tactic.Ring

namespace Cctools.Theory

set_option autoImplicit false

def beBytes : Nat → Nat → List UInt8
  | 0, _ => []
  | n + 1, value => UInt8.ofNat (value / 256 ^ n) :: beBytes n value

def readBe : Nat → List UInt8 → Nat
  | n + 1, byte :: rest => byte.toNat * 256 ^ n + readBe n rest
  | _, _ => 0

def readLe : Nat → List UInt8 → Nat
  | n + 1, byte :: rest => byte.toNat + 256 * readLe n rest
  | _, _ => 0

@[simp] theorem length_beBytes (n value : Nat) : (beBytes n value).length = n := by
  induction n with
  | zero => rfl
  | succ n ih => rw [beBytes, List.length_cons, ih]

theorem readBe_beBytes (n value : Nat) (rest : List UInt8) :
    readBe n (beBytes n value ++ rest) = value % 256 ^ n := by
  induction n with
  | zero => simp [readBe, Nat.mod_one]
  | succ n ih =>
    have digits : value % 256 ^ (n + 1) = value % 256 ^ n + 256 ^ n * (value / 256 ^ n % 256) :=
      Nat.mod_pow_succ
    rw [beBytes, List.cons_append, readBe, ih, UInt8.toNat_ofNat', digits]
    ring

theorem readBe_lt (n : Nat) (bytes : List UInt8) : readBe n bytes < 256 ^ n := by
  induction n generalizing bytes with
  | zero =>
    rw [readBe]
    · exact Nat.one_pos
    · exact nofun
  | succ n ih =>
    cases bytes with
    | nil =>
      rw [readBe]
      · exact Nat.pow_pos (by decide)
      · exact nofun
    | cons byte rest =>
      have low := ih rest
      have high : byte.toNat * 256 ^ n ≤ 255 * 256 ^ n :=
        Nat.mul_le_mul_right _ (Nat.le_of_lt_succ byte.toNat_lt)
      rw [readBe, Nat.pow_succ]
      omega

theorem beBytes_add_mul (n value high : Nat) : beBytes n (value + 256 ^ n * high) = beBytes n value := by
  induction n generalizing high with
  | zero => rfl
  | succ n ih =>
    have shifted : value + 256 ^ (n + 1) * high = value + 256 ^ n * (256 * high) := by
      rw [Nat.pow_succ]
      ring
    have first : (value + 256 ^ n * (256 * high)) / 256 ^ n = value / 256 ^ n + 256 * high :=
      Nat.add_mul_div_left _ _ (Nat.pow_pos (by decide))
    rw [beBytes, beBytes, shifted, ih, first]
    congr 1
    apply UInt8.toNat.inj
    rw [UInt8.toNat_ofNat', UInt8.toNat_ofNat']
    exact Nat.add_mul_mod_self_left _ _ _

theorem beBytes_readBe {n : Nat} {bytes : List UInt8} (whole : bytes.length = n) : beBytes n (readBe n bytes) = bytes := by
  induction bytes generalizing n with
  | nil =>
    subst whole
    rfl
  | cons byte rest ih =>
    obtain ⟨n, rfl⟩ : ∃ k, n = k + 1 := ⟨rest.length, by simpa using whole.symm⟩
    have small := readBe_lt n rest
    have swap : byte.toNat * 256 ^ n + readBe n rest = readBe n rest + 256 ^ n * byte.toNat := by ring
    have first : (readBe n rest + 256 ^ n * byte.toNat) / 256 ^ n = byte.toNat := by
      rw [Nat.add_mul_div_left _ _ (Nat.pow_pos (by decide)), Nat.div_eq_of_lt small, Nat.zero_add]
    rw [readBe, beBytes, swap, first, beBytes_add_mul, ih (by simpa using whole), UInt8.ofNat_toNat]

theorem readLe_append {n : Nat} {bytes : List UInt8} (enough : n ≤ bytes.length) (rest : List UInt8) :
    readLe n (bytes ++ rest) = readLe n bytes := by
  induction n generalizing bytes with
  | zero => simp [readLe]
  | succ n ih =>
    cases bytes with
    | nil => simp at enough
    | cons byte more =>
      rw [List.cons_append, readLe, readLe, ih (by simpa using enough)]

theorem readLe_split {n m : Nat} {low : List UInt8} (whole : low.length = n) (high : List UInt8) :
    readLe (n + m) (low ++ high) = readLe n low + 256 ^ n * readLe m high := by
  induction low generalizing n with
  | nil =>
    subst whole
    simp [readLe]
  | cons byte rest ih =>
    obtain ⟨n, rfl⟩ : ∃ k, n = k + 1 := ⟨rest.length, by simpa using whole.symm⟩
    rw [Nat.succ_add_eq_add_succ, Nat.add_succ, List.cons_append, readLe, readLe,
      ih (by simpa using whole)]
    ring

/-- The bytes of a number, least significant first, are read back. -/
theorem readLe_reverse_beBytes (n value : Nat) (rest : List UInt8) :
    readLe n ((beBytes n value).reverse ++ rest) = value % 256 ^ n := by
  rw [readLe_append (by simp)]
  induction n with
  | zero => simp [readLe, Nat.mod_one]
  | succ n ih =>
    have digits : value % 256 ^ (n + 1) = value % 256 ^ n + 256 ^ n * (value / 256 ^ n % 256) :=
      Nat.mod_pow_succ
    rw [beBytes, List.reverse_cons, readLe_split (by simp), ih, digits]
    simp [readLe]

theorem readLe_lt (n : Nat) (bytes : List UInt8) : readLe n bytes < 256 ^ n := by
  induction n generalizing bytes with
  | zero => simp [readLe]
  | succ n ih =>
    cases bytes with
    | nil => simp [readLe, Nat.pow_succ]
    | cons byte rest =>
      have high := ih rest
      have low : byte.toNat < 256 := byte.toNat_lt
      rw [readLe, Nat.pow_succ]
      omega

end Cctools.Theory
