/-
# Cctools.Lipo.SlicesInside -- whether the slices of an accepted fat file lie in it

`process_input_file` compares the sum of an offset and a size with the length of the file,
but the sum is one of 32 or 64 bits.  Nothing compares the offset of a slice with the end
of the entries, but for a hidden one, and there the first offset is not swapped.

`processInputFile_inside_iff`: an accepted file is sound if no sum wraps that leaves the
file, and no entry has an offset inside the table it stands in.
-/
import Cctools.Lipo.FatRoundTrip

namespace Cctools.Lipo

set_option autoImplicit false

open Cctools.Theory

/-! ## The entries of a file -/

section Entries

variable (bytes : List UInt8)

/-- The branch that is taken. -/
def isFat64 : Bool := readBe 4 bytes = fatMagic true

/-- The header's count, and one more if a hidden entry has been found. -/
def entryCount : Nat := entriesRead (isFat64 bytes) (readBe 4 (bytes.drop 4)) bytes

def archesRead : List FatArch := readArches (isFat64 bytes) (entryCount bytes) (bytes.drop headerSize)

/-- Where the last entry that is read ends. -/
def tableEnd : Nat := headerSize + archSize (isFat64 bytes) * entryCount bytes

/-- The slices and the entries lie inside the file, the entries before every slice. -/
structure SlicesInside (slices : List Slice) : Prop where
  inside : ∀ slice ∈ slices, slice.offset + slice.size ≤ bytes.length
  entries : tableEnd bytes ≤ bytes.length
  before : ∀ slice ∈ slices, tableEnd bytes ≤ slice.offset

/-- The sum of the two fields does not fit their type. -/
def FatArch.Wraps (fat64 : Bool) (arch : FatArch) : Prop := 2 ^ width fat64 ≤ arch.offset + arch.size

/-- No entry leaves the file by a sum that wraps, and none points into the table. -/
def EntriesPlain : Prop :=
  ∀ arch ∈ archesRead bytes,
    (arch.Wraps (isFat64 bytes) → arch.offset + arch.size ≤ bytes.length) ∧ tableEnd bytes ≤ arch.offset

end Entries

/-! ## What is checked -/

theorem checkArch_sum {fat64 : Bool} {size : Nat} {arch : FatArch}
    (checked : checkArch fat64 size arch = .ok ()) :
    (arch.offset + arch.size) % 2 ^ width fat64 ≤ size := by
  by_contra past
  have beyond : size < (arch.offset + arch.size) % 2 ^ (if fat64 then 64 else 32) := by
    cases fat64 <;> exact Nat.lt_of_not_le past
  rw [checkArch, if_pos beyond] at checked
  cases checked

theorem checkArch_inside {fat64 : Bool} {size : Nat} {arch : FatArch}
    (checked : checkArch fat64 size arch = .ok ()) (fits : ¬ arch.Wraps fat64) :
    arch.offset + arch.size ≤ size := by
  have sum := checkArch_sum checked
  rwa [Nat.mod_eq_of_lt (Nat.lt_of_not_le fits)] at sum

variable {bytes : List UInt8}

/-- A file that is accepted: its entries fit in it, each is checked, each is a slice. -/
theorem processFat_ok {fat64 : Bool} {slices : List Slice} (accepted : processFat fat64 bytes = .ok slices) :
    let count := readBe 4 (bytes.drop 4)
    let arches := readArches fat64 (entriesRead fat64 count bytes) (bytes.drop headerSize)
    count * archSize fat64 + headerSize ≤ bytes.length
      ∧ (∀ arch ∈ arches, checkArch fat64 bytes.length arch = .ok ())
      ∧ slices = arches.map (FatArch.slice bytes) := by
  intro count arches
  rw [processFat] at accepted
  dsimp only at accepted
  split at accepted
  · cases accepted
  rename_i room
  refine ⟨Nat.le_of_not_lt room, ?_⟩
  change ((arches.forM (checkArch fat64 bytes.length)).bind fun _ =>
    if arches.Pairwise (fun a b => ¬ a.arch.same b.arch) then
      (.ok (arches.map (FatArch.slice bytes)) : Except String (List Slice)) else .error _) = .ok slices at accepted
  cases checked : arches.forM (checkArch fat64 bytes.length) with
  | error message =>
    rw [checked] at accepted
    cases accepted
  | ok value =>
    rw [checked] at accepted
    change (if arches.Pairwise (fun a b => ¬ a.arch.same b.arch) then
      (.ok (arches.map (FatArch.slice bytes)) : Except String (List Slice)) else .error _) = .ok slices
      at accepted
    split at accepted
    · exact ⟨forM_ok_iff.mp checked, (Except.ok.inj accepted).symm⟩
    · cases accepted

theorem processInputFile_ok {slices : List Slice}
    (accepted : processInputFile bytes = .ok slices) : processFat (isFat64 bytes) bytes = .ok slices := by
  unfold processInputFile at accepted
  split at accepted
  · rename_i is32
    have magic : readBe 4 bytes = fatMagic false := by simpa using (Bool.and_eq_true_iff.mp is32).2
    have narrow : isFat64 bytes = false := by
      rw [isFat64, magic]
      rfl
    rwa [narrow]
  split at accepted
  · rename_i is64
    have wide : isFat64 bytes = true := by simpa [isFat64] using (Bool.and_eq_true_iff.mp is64).2
    rwa [wide]
  · cases accepted

/-- The table of an accepted file ends in it, with the hidden entry. -/
theorem tableEnd_le (room : readBe 4 (bytes.drop 4) * archSize (isFat64 bytes) + headerSize ≤ bytes.length) :
    tableEnd bytes ≤ bytes.length := by
  unfold tableEnd entryCount entriesRead
  split
  · rename_i found
    obtain ⟨narrow, hidden⟩ := Bool.and_eq_true_iff.mp found
    have narrow : isFat64 bytes = false := by simpa using narrow
    have more : readBe 4 (bytes.drop 4) * archSize false + headerSize + archSize false ≤ bytes.length := by
      unfold hasHidden at hidden
      simp only [Bool.and_eq_true, decide_eq_true_eq] at hidden
      exact hidden.1.1
    rw [narrow, Nat.mul_succ, Nat.mul_comm]
    omega
  · rw [Nat.mul_comm]
    omega

/-- **When the slices of an accepted file lie in it, behind the entries.** -/
theorem processInputFile_inside_iff (bytes : List UInt8) (slices : List Slice)
    (accepted : processInputFile bytes = .ok slices) :
    SlicesInside bytes slices ↔ EntriesPlain bytes := by
  obtain ⟨room, checked, made⟩ := processFat_ok (processInputFile_ok accepted)
  change ∀ arch ∈ archesRead bytes, checkArch (isFat64 bytes) bytes.length arch = .ok () at checked
  change slices = (archesRead bytes).map (FatArch.slice bytes) at made
  rw [made]
  constructor
  · intro sound arch member
    have slice := @List.mem_map_of_mem _ _ _ _ (FatArch.slice bytes) member
    exact ⟨fun _ => sound.inside _ slice, sound.before _ slice⟩
  · intro plain
    refine ⟨?_, tableEnd_le room, ?_⟩
    · intro slice isSlice
      obtain ⟨arch, member, rfl⟩ := List.mem_map.mp isSlice
      show arch.offset + arch.size ≤ bytes.length
      by_cases wraps : arch.Wraps (isFat64 bytes)
      · exact (plain arch member).1 wraps
      · exact checkArch_inside (checked arch member) wraps
    · intro slice isSlice
      obtain ⟨arch, member, rfl⟩ := List.mem_map.mp isSlice
      exact (plain arch member).2

/-- One entry of i386 with two bytes behind it. -/
def oneSlice : List UInt8 :=
  [0xCA, 0xFE, 0xBA, 0xBE, 0, 0, 0, 1] ++ [0, 0, 0, 7, 0, 0, 0, 3, 0, 0, 0, 28, 0, 0, 0, 2, 0, 0, 0, 0] ++ [1, 2]

theorem oneSlice_inside : SlicesInside oneSlice [⟨⟨7, 3⟩, 28, 2, 0, [1, 2]⟩] :=
  (processInputFile_inside_iff oneSlice [⟨⟨7, 3⟩, 28, 2, 0, [1, 2]⟩] (by decide)).mpr (by
    have arches : archesRead oneSlice = [⟨⟨7, 3⟩, 28, 2, 0⟩] := by decide
    intro arch member
    rw [arches, List.mem_singleton] at member
    subst member
    exact ⟨fun _ => by decide, by decide⟩)

/-- An entry of which the last byte is at 2^32 - 1 and two bytes belong to it. -/
def wrappingSlice : List UInt8 :=
  [0xCA, 0xFE, 0xBA, 0xBE, 0, 0, 0, 1] ++
    [0, 0, 0, 7, 0, 0, 0, 3, 0xFF, 0xFF, 0xFF, 0xFF, 0, 0, 0, 2, 0, 0, 0, 0]

/-- **A slice at the end of the address space is accepted.** -/
theorem wrappingSlice_outside : ∃ slices,
    processInputFile wrappingSlice = .ok slices ∧ ¬ SlicesInside wrappingSlice slices := by
  refine ⟨[⟨⟨7, 3⟩, 0xFFFFFFFF, 2, 0, []⟩], by decide, ?_⟩
  intro sound
  have reach := sound.inside _ List.mem_cons_self
  exact absurd reach (by decide)

end Cctools.Lipo
