/-
# Cctools.Theory.Block -- a block of allocated bytes

A write that leaves the block is `none`, and so is a `memcpy` of regions that overlap.
What was written is read back (`read_put`), and the rest is as it was (`read_put_of_apart`).
-/
import Mathlib.Data.List.OfFn

namespace Cctools.Theory

set_option autoImplicit false

structure Block where
  size : Nat
  cells : Nat → UInt8

namespace Block

/-- The bytes from an offset on. -/
def read (block : Block) (start count : Nat) : List UInt8 := List.ofFn fun i : Fin count => block.cells (start + i)

def put (block : Block) (start : Nat) (bytes : List UInt8) : Block :=
  { block with
    cells := fun i => if start ≤ i then (bytes[i - start]?).getD (block.cells i) else block.cells i }

def write (block : Block) (start : Nat) (bytes : List UInt8) : Option Block :=
  if start + bytes.length ≤ block.size then some (block.put start bytes) else none

def memcpy (block : Block) (target source count : Nat) : Option Block :=
  if target < source + count ∧ source < target + count then none
  else if source + count ≤ block.size then block.write target (block.read source count)
  else none

/-- The block moves, and what is new in it is not known. -/
def realloc (block : Block) (size : Nat) : Block := { block with size }

@[simp] theorem size_put (block : Block) (start : Nat) (bytes : List UInt8) : (block.put start bytes).size = block.size := rfl

@[simp] theorem length_read (block : Block) (start count : Nat) : (block.read start count).length = count :=
  List.length_ofFn

theorem read_eq {block : Block} {start : Nat} {bytes : List UInt8}
    (each : ∀ i (inside : i < bytes.length), block.cells (start + i) = bytes[i]) :
    block.read start bytes.length = bytes := by
  apply List.ext_getElem (length_read _ _ _)
  intro i _ inside
  simp only [read, List.getElem_ofFn]
  exact each i inside

theorem cells_of_read {block : Block} {start : Nat} {bytes : List UInt8} (is : block.read start bytes.length = bytes)
    {i : Nat} (inside : i < bytes.length) : block.cells (start + i) = bytes[i] := by
  have within : i < (block.read start bytes.length).length := by
    rw [length_read]
    exact inside
  have each := List.getElem_of_eq is within
  rw [← each]
  simp only [read, List.getElem_ofFn]

theorem read_congr {one other : Block} {start count : Nat}
    (same : ∀ i, start ≤ i → i < start + count → one.cells i = other.cells i) :
    one.read start count = other.read start count := by
  unfold read
  congr 1
  funext i
  exact same _ (Nat.le_add_right _ _) (Nat.add_lt_add_left i.isLt _)

theorem read_append (block : Block) (start first second : Nat) :
    block.read start (first + second) = block.read start first ++ block.read (start + first) second := by
  unfold read
  rw [List.ofFn_add]
  congr 2
  funext i
  rw [Fin.val_natAdd, Nat.add_assoc]

theorem cells_put_of_apart (block : Block) (start : Nat) (bytes : List UInt8) {i : Nat}
    (apart : i < start ∨ start + bytes.length ≤ i) : (block.put start bytes).cells i = block.cells i := by
  unfold put
  dsimp only
  split
  · rw [List.getElem?_eq_none (by omega)]
    rfl
  · rfl

theorem read_put (block : Block) (start : Nat) (bytes : List UInt8) :
    (block.put start bytes).read start bytes.length = bytes := by
  apply read_eq
  intro i inside
  unfold put
  dsimp only
  rw [if_pos (Nat.le_add_right _ _), Nat.add_sub_cancel_left, List.getElem?_eq_getElem inside]
  rfl

theorem read_put_of_apart (block : Block) (start : Nat) (bytes : List UInt8) {lo count : Nat}
    (apart : lo + count ≤ start ∨ start + bytes.length ≤ lo) :
    (block.put start bytes).read lo count = block.read lo count :=
  read_congr fun i _ _ => cells_put_of_apart block start bytes (by omega)

theorem read_put_head {block : Block} {start : Nat} {rest : List UInt8} (is : block.read (start + 1) rest.length = rest)
    (c : UInt8) : (block.put start [c]).read start (c :: rest).length = c :: rest := by
  have front : (block.put start [c]).read start 1 = [c] := read_put block start [c]
  have behind : (block.put start [c]).read (start + 1) rest.length = rest :=
    (read_put_of_apart block start [c] (.inr (Nat.le_refl _))).trans is
  rw [List.length_cons, Nat.add_comm rest.length 1, read_append, front, behind]
  rfl

theorem read_tail {block : Block} {start : Nat} {c : UInt8} {rest : List UInt8}
    (is : block.read start (c :: rest).length = c :: rest) :
    block.cells start = c ∧ block.read (start + 1) rest.length = rest := by
  have first : block.cells (start + 0) = c := cells_of_read is (Nat.succ_pos _)
  rw [List.length_cons, Nat.add_comm rest.length 1, read_append] at is
  have split : block.read start 1 ++ block.read (start + 1) rest.length = [c] ++ rest := is
  exact ⟨first, (List.append_inj split (length_read _ _ _)).2⟩

end Block

end Cctools.Theory
