/-
# Cctools.LinkEdit.Deltas -- addresses as the differences between them

A list of addresses is written as uleb128 differences, the first from a base address, and ends with a
zero.  Differences are of pointers and wrap; what is read back is each address in turn
(`readUntil_deltas`), as long as none is the one in front of it (`Moves`).
-/
import Cctools.LinkEdit.ByteStream
import Cctools.Theory.Counted

namespace Cctools.LinkEdit.Deltas

set_option autoImplicit false

open Cctools.Theory

variable {bits : Nat}

/-- `delta`, with `addr` for the pointer in front. -/
def delta (addr nextAddr : BitVec bits) : BitVec 64 := (nextAddr - addr).setWidth 64

/-- A difference and the address it leads to; a zero ends the list. -/
def readDelta : EndReader (BitVec bits) UInt8 (BitVec bits) := fun addr bytes =>
  match readUleb128 bytes with
  | .error _ => none
  | .ok (delta, rest) =>
    if delta = 0 then some (none, rest)
    else some (some (addr + delta.setWidth bits, addr + delta.setWidth bits), rest)

def writeDelta (addr nextAddr : BitVec bits) : List UInt8 := appendUleb128 (delta addr nextAddr)

/-- No address is the one in front of it. -/
abbrev Moves : BitVec bits → List (BitVec bits) → Prop :=
  Along (fun addr nextAddr => nextAddr ≠ addr) fun _ nextAddr => nextAddr

theorem moves_iff {addr : BitVec bits} {pointers : List (BitVec bits)} :
    Moves addr pointers ↔ (addr :: pointers).IsChain (· ≠ ·) := by
  induction pointers generalizing addr with
  | nil => simp [Along]
  | cons pointer pointers ih =>
    rw [List.isChain_cons_cons, ← ih]
    exact and_congr_left' ne_comm

theorem delta_eq_zero_iff (small : bits ≤ 64) {addr nextAddr : BitVec bits} :
    delta addr nextAddr = 0 ↔ nextAddr = addr := by
  have wide : (nextAddr - addr).toNat < 2 ^ 64 :=
    lt_of_lt_of_le (nextAddr - addr).isLt (Nat.pow_le_pow_right (by decide) small)
  constructor
  · intro zero
    have same : (nextAddr - addr).toNat = 0 := by
      have := congrArg BitVec.toNat zero
      rwa [delta, BitVec.toNat_setWidth, Nat.mod_eq_of_lt wide] at this
    have sum := BitVec.sub_add_cancel nextAddr addr
    rw [BitVec.eq_of_toNat_eq (show (nextAddr - addr).toNat = (0 : BitVec bits).toNat by simpa using same)] at sum
    simpa using sum.symm
  · rintro rfl
    simp [delta]

theorem add_delta (small : bits ≤ 64) (addr nextAddr : BitVec bits) :
    addr + (delta addr nextAddr).setWidth bits = nextAddr := by
  rw [delta, BitVec.setWidth_setWidth_of_le _ small, BitVec.setWidth_eq, BitVec.add_comm, BitVec.sub_add_cancel]

theorem readDelta_writeDelta (small : bits ≤ 64) (addr nextAddr : BitVec bits) (rest : List UInt8)
    (moves : nextAddr ≠ addr) :
    readDelta addr (writeDelta addr nextAddr ++ rest) = some (some (nextAddr, nextAddr), rest) := by
  rw [readDelta, writeDelta, readUleb128_append]
  dsimp only
  rw [if_neg fun zero => moves ((delta_eq_zero_iff small).mp zero), add_delta small]

theorem readDelta_zero (addr : BitVec bits) (rest : List UInt8) :
    readDelta addr ([0] ++ rest) = some (none, rest) := by
  have zero : ([0] : List UInt8) = appendUleb128 0 := rfl
  rw [readDelta, zero, readUleb128_append]
  rfl

/-- **Addresses** are read back. -/
theorem readUntil_deltas (small : bits ≤ 64) {addr : BitVec bits} {pointers : List (BitVec bits)}
    (moves : Moves addr pointers) (rest : List UInt8) :
    readUntil readDelta ((writeAll writeDelta (fun _ nextAddr => nextAddr) addr pointers ++ ([0] ++ rest)).length + 1)
      addr (writeAll writeDelta (fun _ nextAddr => nextAddr) addr pointers ++ ([0] ++ rest)) =
      some (pointers, rest) := by
  have enough : pointers.length ≤ (writeAll writeDelta (fun _ nextAddr => nextAddr) addr pointers).length :=
    length_writeAll (fun addr nextAddr => appendUleb128_ne_nil _) addr pointers
  rw [readUntil_writeAll (readDelta_writeDelta small) readDelta_zero moves
    (by rw [List.length_append]; omega), List.map_id']

end Cctools.LinkEdit.Deltas
