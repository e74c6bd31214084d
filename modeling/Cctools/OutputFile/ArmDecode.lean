/-
# Cctools.OutputFile.ArmDecode -- how the processor reads a fixed-up instruction

The architecture's side of the instruction fixups: what a branch, an ADRP, a load
offset or a move of sixteen bits means at its address.  A decoder gives `none` for
a word that is not of its class.  Branches of 32-bit code also say whether they
land in Thumb code.
-/
import Mathlib.Logic.Basic
import Mathlib.Tactic.Common

namespace Cctools.OutputFile

set_option autoImplicit false

/-! ## arm64 -/

/-- B and BL: `PC + SignExtend(imm26:'00', 64)`. -/
def decodeARM64Branch (address : BitVec 64) (word : BitVec 32) : Option (BitVec 64) :=
  if word.extractLsb' 26 5 = 0b00101 then
    some (address + (word.extractLsb' 0 26).signExtend 64 <<< 2)
  else none

/-- ADRP: the page of the pc and `SignExtend(immhi:immlo:Zeros(12), 64)`. -/
def decodeADRP (address : BitVec 64) (word : BitVec 32) : Option (BitVec 64) :=
  if word.extractLsb' 31 1 = 1 ∧ word.extractLsb' 24 5 = 0b10000 then
    let page := address &&& -4096
    let imm := word.extractLsb' 5 19 ++ word.extractLsb' 29 2
    some (page + imm.signExtend 64 <<< 12)
  else none

/-- ADD (immediate) without a shift. -/
def isAddImmediate (word : BitVec 32) : Bool := word.extractLsb' 22 9 = 0b001000100

/-- Loads and stores with an unsigned offset. -/
def isLoadStore (word : BitVec 32) : Bool :=
  word.extractLsb' 27 3 = 0b111 ∧ word.extractLsb' 24 2 = 0b01

/-- The scale of a load or store: its size, above it `opc<1>` for a vector register; a scale
above four is not allocated. -/
def loadStoreScale (word : BitVec 32) : Option Nat :=
  let size := (word.extractLsb' 30 2).toNat
  if word.extractLsb' 26 1 = 1 ∧ word.extractLsb' 23 1 = 1 then
    if size = 0 then some 4 else none
  else some size

/-- The address an ADD forms, or a load or store accesses, over a base register. -/
def decodePageOffset (base : BitVec 64) (word : BitVec 32) : Option (BitVec 64) :=
  let imm12 := (word.extractLsb' 10 12).setWidth 64
  if isAddImmediate word then some (base + imm12)
  else if isLoadStore word then (loadStoreScale word).map fun scale => base + imm12 <<< scale
  else none

/-! ## arm and Thumb -/

/-- Where a branch of 32-bit code lands. -/
structure Landing where
  address : BitVec 32
  thumb : Bool
  deriving DecidableEq, Repr

/-- `Align(pc, 4)`. -/
def align4 (pc : BitVec 32) : BitVec 32 := pc &&& -4

/-- B, BL and, with the condition field all ones, BLX: the pc is eight past the instruction. -/
def decodeARMBranch (address word : BitVec 32) : Option Landing :=
  if word.extractLsb' 25 3 = 0b101 then
    let pc := address + 8
    let imm24 := word.extractLsb' 0 24
    if word.extractLsb' 28 4 = 0b1111 then
      some ⟨align4 pc + (imm24 ++ word.extractLsb' 24 1).signExtend 32 <<< 1, true⟩
    else some ⟨pc + imm24.signExtend 32 <<< 2, false⟩
  else none

/-- The landing of a Thumb branch with a displacement in halfwords; BLX counts from the aligned
pc and its displacement is of whole words. -/
def thumbLanding {n : Nat} (address : BitVec 32) (isBlx : Bool) (imm : BitVec n) : Option Landing :=
  let pc := address + 4
  let offset := imm.signExtend 32 <<< 1
  if isBlx then
    if imm.getLsbD 0 then none else some ⟨align4 pc + offset, false⟩
  else some ⟨pc + offset, true⟩

/-- BL, BLX and the unconditional B of Thumb-2: `S:I1:I2:imm10:imm11` with `I = NOT(J EOR S)`. -/
def decodeThumb2Branch (address word : BitVec 32) : Option Landing :=
  if word.extractLsb' 11 5 = 0b11110 ∧ word.extractLsb' 31 1 = 1 then
    let s := word.extractLsb' 10 1
    let i1 := ~~~(word.extractLsb' 29 1 ^^^ s)
    let i2 := ~~~(word.extractLsb' 27 1 ^^^ s)
    let imm := s ++ i1 ++ i2 ++ word.extractLsb' 0 10 ++ word.extractLsb' 16 11
    if word.extractLsb' 28 1 = 1 then thumbLanding address false imm
    else if word.extractLsb' 30 1 = 1 then thumbLanding address true imm
    else none
  else none

/-- The pair of halfwords of BL and BLX before Thumb-2. -/
def decodeThumb1Branch (address word : BitVec 32) : Option Landing :=
  if word.extractLsb' 11 5 = 0b11110 then
    let imm := word.extractLsb' 0 11 ++ word.extractLsb' 16 11
    if word.extractLsb' 27 5 = 0b11111 then thumbLanding address false imm
    else if word.extractLsb' 27 5 = 0b11101 then thumbLanding address true imm
    else none
  else none

def decodeThumbBranch (thumb2 : Bool) (address word : BitVec 32) : Option Landing :=
  if thumb2 then decodeThumb2Branch address word else decodeThumb1Branch address word

/-- The sixteen bits a MOVW or MOVT of ARM code puts in the half of its register. -/
def decodeARMMov (word : BitVec 32) : BitVec 16 := word.extractLsb' 16 4 ++ word.extractLsb' 0 12

/-- The same for Thumb code: `imm4:i:imm3:imm8`. -/
def decodeThumbMov (word : BitVec 32) : BitVec 16 :=
  word.extractLsb' 0 4 ++ word.extractLsb' 10 1 ++ word.extractLsb' 28 3 ++ word.extractLsb' 16 8

end Cctools.OutputFile
