/-
# Cctools.LinkEdit.ByteStream -- the link-edit byte stream and its readers

`ByteStream` of `ld/LinkEdit.hpp`: an appended vector of bytes.  Every append
is modelled by the bytes it adds.  64-bit operands are `BitVec 64`, so address
arithmetic wraps as it does in the source; a signed operand is the same word
read by `BitVec.toInt`.

`readUleb128` is the loop that `otool/dyld_bind_info.c`, `MachOTrie.hpp` and
`machochecker.cpp` each spell out: a slice that does not fit at its bit
position is refused before it is added.
-/
import Cctools.Theory.Leb128
import Mathlib.Data.List.Basic
import Mathlib.Tactic.NormNum

namespace Cctools.LinkEdit

set_option autoImplicit false

open Cctools.Theory

/-! ## Strings -/

/-- The characters of a `const char*`, without the terminator. -/
structure CString where
  bytes : List UInt8
  nulFree : (0 : UInt8) ∉ bytes
  deriving DecidableEq, Repr

namespace CString

@[ext] theorem ext {a b : CString} (same : a.bytes = b.bytes) : a = b := by
  cases a; cases b; cases same; rfl

/-- `strcmp(a, b) < 0`: the first differing byte decides, as unsigned bytes. -/
def strcmpLt (a b : CString) : Bool := decide (a.bytes < b.bytes)

def empty : CString := ⟨[], by simp⟩

/-! The names of one byte in the worked cases. -/

theorem nulFree_one : (0 : UInt8) ∉ [1] := by decide

theorem nulFree_two : (0 : UInt8) ∉ [2] := by decide

theorem nulFree_three : (0 : UInt8) ∉ [3] := by decide

theorem nulFree_a : (0 : UInt8) ∉ [0x61] := by decide

theorem nulFree_b : (0 : UInt8) ∉ [0x62] := by decide

end CString

/-- Scan to the terminator; `none` when the bytes end before one. -/
def readString : List UInt8 → Option (CString × List UInt8)
  | [] => none
  | byte :: rest =>
    if zero : byte = 0 then some (.empty, rest)
    else (readString rest).map fun scanned =>
      (⟨byte :: scanned.1.bytes, by simp [Ne.symm zero, scanned.1.nulFree]⟩, scanned.2)

/-! ## Appending -/

def appendUleb128 (value : BitVec 64) : List UInt8 := Leb128.uleb 10 value.toNat

def appendSleb128 (value : BitVec 64) : List UInt8 :=
  Leb128.sleb 10 (decide (value.toInt < 0)) value.toInt

def appendString (str : CString) : List UInt8 := str.bytes ++ [0]

def uleb128Size (value : BitVec 64) : Nat := Leb128.ulebSize 10 value.toNat

/-- `while (size % alignment != 0) push_back(0)`. -/
def padToSize (alignment : Nat) (data : List UInt8) : List UInt8 :=
  data ++ List.replicate ((alignment - data.length % alignment) % alignment) 0

/-! ## Reading back -/

def readUleb128 (bytes : List UInt8) :
    Except (Leb128.Error × List UInt8) (BitVec 64 × List UInt8) :=
  (Leb128.readUleb 64 bytes).map fun read => (BitVec.ofNat 64 read.1, read.2)

def readSleb128 (bytes : List UInt8) : Option (BitVec 64 × List UInt8) :=
  (Leb128.readSleb bytes).map fun read => (BitVec.ofInt 64 read.1, read.2)

@[simp] theorem readUleb128_append (value : BitVec 64) (rest : List UInt8) :
    readUleb128 (appendUleb128 value ++ rest) = .ok (value, rest) := by
  have covered : value.toNat < 128 ^ (9 + 1) := lt_trans value.isLt (by norm_num)
  rw [readUleb128, appendUleb128, Leb128.readUleb_uleb covered value.isLt (by norm_num)]
  simp [Except.map]

@[simp] theorem readSleb128_append (value : BitVec 64) (rest : List UInt8) :
    readSleb128 (appendSleb128 value ++ rest) = some (value, rest) := by
  have upper : value.toInt < 64 * 128 ^ 9 :=
    lt_trans (BitVec.toInt_lt (x := value)) (by norm_num)
  have lower : -(64 * 128 ^ 9) ≤ value.toInt :=
    le_trans (by norm_num) (BitVec.le_toInt (x := value))
  rw [readSleb128, appendSleb128, Leb128.readSleb_sleb lower upper]
  simp

@[simp] theorem readString_append (str : CString) (rest : List UInt8) :
    readString (appendString str ++ rest) = some (str, rest) := by
  obtain ⟨bytes, nulFree⟩ := str
  induction bytes with
  | nil => simp [appendString, readString, CString.empty]
  | cons byte bytes ih =>
    simp only [List.mem_cons, not_or] at nulFree
    have tail := ih nulFree.2
    simp only [appendString, List.append_assoc, List.cons_append] at tail ⊢
    simp only [readString, Ne.symm nulFree.1, dite_false, tail, Option.map_some]

theorem length_of_readUleb128 {bytes rest : List UInt8} {value : BitVec 64}
    (read : readUleb128 bytes = .ok (value, rest)) : rest.length < bytes.length := by
  cases found : Leb128.readUleb 64 bytes with
  | error error => simp [readUleb128, found, Except.map] at read
  | ok pair =>
    obtain ⟨n, left⟩ := pair
    obtain ⟨-, rfl⟩ : BitVec.ofNat 64 n = value ∧ left = rest := by
      simpa [readUleb128, found, Except.map] using read
    exact Leb128.length_of_readUlebFrom found

theorem readString_of_mem {bytes : List UInt8} (terminated : 0 ∈ bytes) :
    ∃ str rest, readString bytes = some (str, rest) ∧ bytes = str.bytes ++ 0 :: rest := by
  obtain ⟨before, rest, rfl, nulFree⟩ := List.eq_append_cons_of_mem terminated
  exact ⟨⟨before, nulFree⟩, rest, by simpa [appendString] using readString_append ⟨before, nulFree⟩ rest, rfl⟩

theorem readString_of_notMem {bytes : List UInt8} (unterminated : 0 ∉ bytes) : readString bytes = none := by
  induction bytes with
  | nil => rfl
  | cons byte bytes ih =>
    rw [List.mem_cons, not_or] at unterminated
    rw [readString, dif_neg (Ne.symm unterminated.1), ih unterminated.2, Option.map_none]

@[simp] theorem length_appendUleb128 (value : BitVec 64) :
    (appendUleb128 value).length = uleb128Size value :=
  Leb128.length_uleb _ _

theorem appendUleb128_ne_nil (value : BitVec 64) : appendUleb128 value ≠ [] :=
  Leb128.uleb_ne_nil _ _

theorem padToSize_eq (alignment : Nat) (data : List UInt8) :
    ∃ count, padToSize alignment data = data ++ List.replicate count 0 :=
  ⟨_, rfl⟩

end Cctools.LinkEdit
