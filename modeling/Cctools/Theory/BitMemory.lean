/-
# Cctools.Theory.BitMemory -- little-endian memory, bit by bit

A memory is a function of the bit address: bit `i` of the byte at `b` is bit
`8 * b + i`, so an integer of the memory and a bit field of it are both a run of
bits.  Reading a run that was written gives what was written (`get_set`), and
writing one leaves every run beside it (`get_set_of_apart`).
-/
import Mathlib.Order.Basic
import Mathlib.Tactic.Common

namespace Cctools.Theory.BitMemory

set_option autoImplicit false

abbrev Bits := Nat → Bool

variable {n m start : Nat}

/-- The `n` bits from `start` on, the least significant first. -/
def get (bits : Bits) (start n : Nat) : BitVec n :=
  (BitVec.iunfoldr (fun (i : Fin n) (_ : Unit) => ((), bits (start + i))) ()).2

def set (bits : Bits) (start : Nat) (v : BitVec n) : Bits :=
  fun i => if start ≤ i ∧ i < start + n then v.getLsbD (i - start) else bits i

theorem getLsbD_get (bits : Bits) {i : Nat} (inside : i < n) :
    (get bits start n).getLsbD i = bits (start + i) := by
  exact BitVec.iunfoldr_getLsbD (fun _ => ()) ⟨i, inside⟩ (fun _ => rfl)

theorem get_congr {one other : Bits}
    (same : ∀ i, start ≤ i → i < start + n → one i = other i) : get one start n = get other start n := by
  apply BitVec.eq_of_getLsbD_eq
  intro i inside
  rw [getLsbD_get _ inside, getLsbD_get _ inside]
  exact same _ (by omega) (by omega)

theorem get_set (bits : Bits) (v : BitVec n) : get (set bits start v) start n = v := by
  apply BitVec.eq_of_getLsbD_eq
  intro i inside
  rw [getLsbD_get _ inside, set, if_pos (by omega), Nat.add_sub_cancel_left]

theorem set_of_apart (bits : Bits) (v : BitVec n) {i : Nat} (apart : i < start ∨ start + n ≤ i) :
    set bits start v i = bits i := by
  rw [set, if_neg (by omega)]

theorem get_set_of_apart (bits : Bits) (v : BitVec n) {lo : Nat}
    (apart : lo + m ≤ start ∨ start + n ≤ lo) : get (set bits start v) lo m = get bits lo m :=
  get_congr fun i _ _ => set_of_apart bits v (by omega)

end Cctools.Theory.BitMemory
