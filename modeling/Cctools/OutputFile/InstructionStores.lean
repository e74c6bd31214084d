/-
# Cctools.OutputFile.InstructionStores -- fixups that rewrite an instruction

The stores of `OutputFile::applyFixUps` for arm64 and arm code.  A `Site` is what
the loop over the fixups of an atom has in hand at the store: where the
instruction is, its old word, the accumulator the earlier fixups of the cluster
built and the flags of the fixup.  `storeInstruction` is the word written back, or
the text of the exception.

The `kindStoreTargetAddress…` kinds first load the accumulator from their own
target; for arm code that is the place where a branch to an island is sent to
the island's target when that is in range (`Operand.load`).
-/
import Mathlib.Logic.Basic
import Mathlib.Tactic.Common

namespace Cctools.OutputFile

set_option autoImplicit false

/-! ## Range checks -/

def checkArmBranch24Displacement (displacement : BitVec 64) : Bool :=
  displacement.toInt < 33554428 && displacement.toInt > -33554432

def rangeCheckARMBranch24 (displacement : BitVec 64) : Except String Unit :=
  if checkArmBranch24Displacement displacement then .ok ()
  else .error "b/bl/blx ARM branch out of range"

/-- `thumb2` says that `archThumb2Support()` is at least `branch24`. -/
def checkThumbBranch22Displacement (thumb2 : Bool) (displacement : BitVec 64) : Bool :=
  if thumb2 then
    !(displacement.toInt > 16777214 || displacement.toInt < -16777216)
  else
    !(displacement.toInt > 4194302 || displacement.toInt < -4194304)

def rangeCheckThumbBranch22 (thumb2 : Bool) (displacement : BitVec 64) : Except String Unit :=
  if checkThumbBranch22Displacement thumb2 displacement then .ok ()
  else if thumb2 then .error "b/bl/blx thumb2 branch out of range"
  else .error "b/bl/blx thumb1 branch out of range"

def rangeCheckARM64Branch26 (displacement : BitVec 64) : Except String Unit :=
  if displacement.toInt > 0x07FFFFFF || displacement.toInt < -0x07FFFFFF then
    .error "b(l) ARM64 branch out of range"
  else .ok ()

def rangeCheckARM64Page21 (displacement : BitVec 64) : Except String Unit :=
  if displacement.toInt > 0x100000000 || displacement.toInt < -0x100000000 then
    .error "ARM64 ADRP out of range"
  else .ok ()

/-! ## Sites -/

/-- An address of code and whether the code there is Thumb. -/
structure Destination where
  address : BitVec 64
  thumb : Bool
  deriving DecidableEq, Repr

structure Site where
  /-- `atom->finalAddress() + fit->offsetInAtom`. -/
  address : BitVec 64
  instruction : BitVec 32
  accumulator : BitVec 64
  thumbTarget : Bool
  contentAddendOnly : Bool
  contentDetlaToAddendOnly : Bool
  thumb2 : Bool
  deriving DecidableEq, Repr

/-! ## arm64 -/

def storeARM64Branch26 (site : Site) : Except String (BitVec 32) := do
  let delta := if site.contentAddendOnly then site.accumulator else site.accumulator - site.address
  rangeCheckARM64Branch26 delta
  pure ((site.instruction &&& 0xFC000000) ||| ((delta.sshiftRight 2).setWidth 32 &&& 0x03FFFFFF))

def storeARM64Page21 (site : Site) : Except String (BitVec 32) := do
  let delta :=
    if site.contentAddendOnly then 0
    else (site.accumulator &&& -4096) - (site.address &&& -4096)
  rangeCheckARM64Page21 delta
  let immhi := (delta.sshiftRight 9 &&& 0x00FFFFE0).setWidth 32
  let immlo := (delta <<< 17 &&& 0x60000000).setWidth 32
  pure ((site.instruction &&& 0x9F00001F) ||| immlo ||| immhi)

/-- The scale of a load or store, and the alignment it asks of the offset. -/
def implictShift (instruction offset : BitVec 32) : Except String Nat :=
  match (instruction >>> 30 &&& 0x3).toNat with
  | 0 =>
    -- vector and byte LDR/STR have the same size bits
    if instruction &&& 0x04800000 = 0x04800000 then
      if offset &&& 0xF ≠ 0 then .error "128-bit LDR/STR not 16-byte aligned" else .ok 4
    else .ok 0
  | 1 => if offset &&& 0x1 ≠ 0 then .error "16-bit LDR/STR not 2-byte aligned" else .ok 1
  | 2 => if offset &&& 0x3 ≠ 0 then .error "32-bit LDR/STR not 4-byte aligned" else .ok 2
  | _ => if offset &&& 0x7 ≠ 0 then .error "64-bit LDR/STR not 8-byte aligned" else .ok 3

/-- Compensate for the implicit scale. -/
def scaleOffset (instruction offset : BitVec 32) : Except String (BitVec 32) :=
  if instruction &&& 0x08000000 ≠ 0 then
    (implictShift instruction offset).map fun shift => offset >>> shift
  else .ok offset

def storeARM64PageOff12 (site : Site) : Except String (BitVec 32) := do
  let offset ← scaleOffset site.instruction ((site.accumulator &&& 0x00000FFF).setWidth 32)
  let imm12 := (if site.contentAddendOnly then 0 else offset) <<< 10
  pure ((site.instruction &&& 0xFFC003FF) ||| imm12)

/-- The registers and the immediate of an ADD of eight bytes. -/
structure AddInfo where
  destReg : BitVec 32
  srcReg : BitVec 32
  addend : BitVec 32

def parseADD (instruction : BitVec 32) : Option AddInfo :=
  if instruction &&& 0xFFC00000 ≠ 0x91000000 then none
  else some ⟨instruction &&& 0x1F#32, instruction >>> 5 &&& 0x1F#32, instruction >>> 10 &&& 0xFFF#32⟩

/-- `makeLoadOrStore` for a load of eight bytes that is neither float nor sign extending. -/
def makeLoad (reg baseReg offset : BitVec 32) : Except String (BitVec 32) :=
  if offset % 8#32 = 0 then
    .ok (0x39000000#32 ||| reg ||| (baseReg <<< 5) ||| (3#32 <<< 30) ||| (1#32 <<< 22) ||| ((offset / 8#32) <<< 10))
  else .error "assertion failed: (info.offset % 8) == 0"

/-- An Objective-C constant was moved: load its address from the GOT slot instead of forming it. -/
def storeARM64PageOff12ConvertAddToLoad (site : Site) : Except String (BitVec 32) := do
  let newInstruction ← storeARM64PageOff12 site
  match parseADD newInstruction with
  | none => .error "Reloc does not point to an ADD instruction"
  | some addInfo => makeLoad addInfo.destReg addInfo.srcReg addInfo.addend

/-- The slot was optimized away: the LDR from it becomes an ADD. -/
def storeARM64LeaPageOff12 (text : String) (site : Site) : Except String (BitVec 32) :=
  if site.instruction &&& 0xBFC00000 ≠ 0xB9400000 then .error text
  else
    let imm12 := (site.accumulator &&& 0x00000FFF).setWidth 32 <<< 10
    .ok (0x91000000 ||| imm12 ||| (site.instruction &&& 0x000003FF))

def storeARM64GOTLeaPageOff12 (site : Site) : Except String (BitVec 32) :=
  storeARM64LeaPageOff12 "GOT load reloc does not point to a LDR instruction" site

def storeARM64TLVPLoadNowLeaPageOff12 (site : Site) : Except String (BitVec 32) :=
  storeARM64LeaPageOff12 "TLV load reloc does not point to a LDR instruction" site

/-! ## arm -/

def isArmBl (instruction : BitVec 32) : Bool := instruction &&& 0xFF000000 = 0xEB000000

def isArmBlx (instruction : BitVec 32) : Bool := instruction &&& 0xFE000000 = 0xFA000000

def isArmB (instruction : BitVec 32) : Bool :=
  !isArmBlx instruction && instruction &&& 0x0F000000 = 0x0A000000

/-- A BL or BLX becomes the one of the two that the target asks for; anything else keeps its
opcode and cannot reach Thumb code. -/
def armBranch24Word (site : Site) (delta : BitVec 64) : Except String (BitVec 32) :=
  let instruction := site.instruction
  let disp := (delta.sshiftRight 2).setWidth 32 &&& 0x00FFFFFF
  let call := isArmBl instruction || isArmBlx instruction
  if call && site.thumbTarget then
    let h_bit := (delta <<< 23).setWidth 32 &&& 0x01000000
    .ok (0xFA000000 ||| h_bit ||| disp)
  else if call && !site.thumbTarget then
    .ok (0xEB000000 ||| disp)
  else if isArmB instruction && site.thumbTarget then
    if site.contentDetlaToAddendOnly then .ok ((instruction &&& 0xFF000000) ||| disp)
    else .error "no pc-rel bx arm instruction"
  else if site.thumbTarget then
    .error "don't know how to convert instruction"
  else .ok ((instruction &&& 0xFF000000) ||| disp)

def storeARMBranch24 (site : Site) : Except String (BitVec 32) := do
  -- the pc is eight past the instruction
  let delta := site.accumulator - (site.address + 8)
  rangeCheckARMBranch24 delta
  armBranch24Word site delta

/-- The encoding of MOVW and MOVT that all of the ARM forms share. -/
def armMovWord (instruction imm4 imm12 : BitVec 32) : BitVec 32 :=
  (instruction &&& 0xFFF0F000#32) ||| (imm4 <<< 16) ||| imm12

def storeARMLow16 (site : Site) : BitVec 32 :=
  armMovWord site.instruction (((site.accumulator &&& 0x0000F000) >>> 12).setWidth 32)
    ((site.accumulator &&& 0x00000FFF).setWidth 32)

def storeARMHigh16 (site : Site) : BitVec 32 :=
  armMovWord site.instruction (((site.accumulator &&& 0xF0000000) >>> 28).setWidth 32)
    (((site.accumulator &&& 0x0FFF0000) >>> 16).setWidth 32)

/-! ## Thumb

A Thumb branch is two halfwords, the first of them in the low half of the word. -/

def isThumbBl (instruction : BitVec 32) : Bool := instruction &&& 0xD000F800 = 0xD000F000

def isThumbBlx (instruction : BitVec 32) : Bool := instruction &&& 0xD000F800 = 0xC000F000

def isThumbB (instruction : BitVec 32) : Bool := instruction &&& 0xD000F800 = 0x9000F000

/-- The thumb bit of a Thumb target goes; an ARM target takes bit 1 of the base address, so that
the displacement of the BLX is a multiple of four. -/
def thumbBranchBase (address accumulator : BitVec 64) (thumbTarget : Bool) : BitVec 64 :=
  if thumbTarget then accumulator &&& -2 else (accumulator &&& -3) ||| (address &&& 2)

/-- `while ( delta < (-16777216LL) ) delta += 0x2000000`. -/
def raiseDelta (delta : Int) : Int :=
  if delta < -16777216 then raiseDelta (delta + 0x2000000) else delta
termination_by (-16777216 - delta).toNat

def thumbBranchDelta (site : Site) : BitVec 64 :=
  if site.contentDetlaToAddendOnly then
    .ofInt 64 (raiseDelta (site.accumulator - (site.address + 4)).toInt)
  else thumbBranchBase site.address site.accumulator site.thumbTarget - (site.address + 4)

def thumb2Opcode (site : Site) : Except String (BitVec 32) :=
  if isThumbBl site.instruction || isThumbBlx site.instruction then
    if site.thumbTarget then .ok 0xD000F000 else .ok 0xC000F000
  else if isThumbB site.instruction then
    if !site.thumbTarget && !site.contentDetlaToAddendOnly then
      .error "armv7 has no pc-rel bx thumb instruction"
    else .ok 0x9000F000
  else if !site.thumbTarget then
    .error "don't know how to convert branch instruction"
  else .ok 0x9000F000

def thumb2BranchWord (opcode : BitVec 32) (delta : BitVec 64) : BitVec 32 :=
  let s := (delta.sshiftRight 24).setWidth 32 &&& 0x1
  let i1 := (delta.sshiftRight 23).setWidth 32 &&& 0x1
  let i2 := (delta.sshiftRight 22).setWidth 32 &&& 0x1
  let imm10 := (delta.sshiftRight 12).setWidth 32 &&& 0x3FF
  let imm11 := (delta.sshiftRight 1).setWidth 32 &&& 0x7FF
  let j1 : BitVec 32 := if i1 = s then 1 else 0
  let j2 : BitVec 32 := if i2 = s then 1 else 0
  let nextDisp := (j1 <<< 13) ||| (j2 <<< 11) ||| imm11
  let firstDisp := (s <<< 10) ||| imm10
  opcode ||| (nextDisp <<< 16) ||| firstDisp

def thumb1Opcode (site : Site) : Except String (BitVec 32) :=
  if isThumbBl site.instruction && !site.thumbTarget then .ok 0xE800F000
  else if isThumbBlx site.instruction && site.thumbTarget then .ok 0xF800F000
  else if isThumbB site.instruction then
    if !site.thumbTarget && !site.contentDetlaToAddendOnly then
      .error "armv6 has no pc-rel bx thumb instruction"
    else .ok 0x9000F000
  else .ok (site.instruction &&& 0xF800F800)

def thumb1BranchWord (opcode : BitVec 32) (delta : BitVec 64) : BitVec 32 :=
  let firstDisp := (delta.sshiftRight 12).setWidth 32 &&& 0x7FF
  let nextDisp := (delta.sshiftRight 1).setWidth 32 &&& 0x7FF
  opcode ||| (nextDisp <<< 16) ||| firstDisp

def storeThumbBranch22 (site : Site) : Except String (BitVec 32) := do
  let delta := thumbBranchDelta site
  rangeCheckThumbBranch22 site.thumb2 delta
  if site.thumb2 then (thumb2Opcode site).map fun opcode => thumb2BranchWord opcode delta
  else (thumb1Opcode site).map fun opcode => thumb1BranchWord opcode delta

def thumbMovWord (instruction imm4 i imm3 imm8 : BitVec 32) : BitVec 32 :=
  (instruction &&& 0x8F00FBF0#32) ||| imm4 ||| (i <<< 10) ||| (imm3 <<< 28) ||| (imm8 <<< 16)

def storeThumbLow16 (site : Site) : BitVec 32 :=
  thumbMovWord site.instruction (((site.accumulator &&& 0x0000F000) >>> 12).setWidth 32)
    (((site.accumulator &&& 0x00000800) >>> 11).setWidth 32)
    (((site.accumulator &&& 0x00000700) >>> 8).setWidth 32)
    ((site.accumulator &&& 0x000000FF).setWidth 32)

def storeThumbHigh16 (site : Site) : BitVec 32 :=
  thumbMovWord site.instruction (((site.accumulator &&& 0xF0000000) >>> 28).setWidth 32)
    (((site.accumulator &&& 0x08000000) >>> 27).setWidth 32)
    (((site.accumulator &&& 0x07000000) >>> 24).setWidth 32)
    (((site.accumulator &&& 0x00FF0000) >>> 16).setWidth 32)

/-! ## The switch -/

inductive StoreKind where
  | arm64Branch26
  | arm64Page21
  | arm64PageOff12
  | arm64PageOff12ConvertAddToLoad
  | arm64GOTLeaPageOff12
  | arm64TLVPLoadNowLeaPageOff12
  | armBranch24
  | thumbBranch22
  | armLow16
  | armHigh16
  | thumbLow16
  | thumbHigh16
  deriving DecidableEq, Repr

def storeInstruction (kind : StoreKind) (site : Site) : Except String (BitVec 32) :=
  match kind with
  | .arm64Branch26 => storeARM64Branch26 site
  | .arm64Page21 => storeARM64Page21 site
  | .arm64PageOff12 => storeARM64PageOff12 site
  | .arm64PageOff12ConvertAddToLoad => storeARM64PageOff12ConvertAddToLoad site
  | .arm64GOTLeaPageOff12 => storeARM64GOTLeaPageOff12 site
  | .arm64TLVPLoadNowLeaPageOff12 => storeARM64TLVPLoadNowLeaPageOff12 site
  | .armBranch24 => storeARMBranch24 site
  | .thumbBranch22 => storeThumbBranch22 site
  | .armLow16 => .ok (storeARMLow16 site)
  | .armHigh16 => .ok (storeARMHigh16 site)
  | .thumbLow16 => .ok (storeThumbLow16 site)
  | .thumbHigh16 => .ok (storeThumbHigh16 site)

/-! ## Where the accumulator comes from -/

/-- The accumulator is the cluster's, or the store's own target, which may be an island with the
target of its `kindIslandTarget` fixup. -/
inductive Operand where
  | cluster
  | targetAddress (target : Destination) (island : Option Destination)
  deriving DecidableEq, Repr

/-- The island's target when a branch of this kind reaches it, else the fixup's. -/
def Operand.pick (target : Destination) (island : Option Destination)
    (inRange : Destination → Bool) : Destination :=
  match island with
  | some ultimate => if inRange ultimate then ultimate else target
  | none => target

def armIslandInRange (site : Site) (ultimate : Destination) : Bool :=
  checkArmBranch24Displacement (ultimate.address - (site.address + 8))

def thumbIslandAddress (site : Site) (ultimate : Destination) : BitVec 64 :=
  if site.contentDetlaToAddendOnly then ultimate.address
  else thumbBranchBase site.address ultimate.address ultimate.thumb

def thumbIslandInRange (site : Site) (ultimate : Destination) : Bool :=
  checkThumbBranch22Displacement site.thumb2
    (thumbIslandAddress site ultimate - (site.address + 4))

/-- What the arm branches make of the picked address. -/
def Site.branchTo (site : Site) (address : BitVec 64) (thumbTarget : Bool) : Site :=
  { site with
    accumulator :=
      if site.contentDetlaToAddendOnly then 0
      else if thumbTarget then address ||| 1 else address
    thumbTarget }

def Operand.load (operand : Operand) (kind : StoreKind) (site : Site) : Site :=
  match operand with
  | .cluster => site
  | .targetAddress target island =>
    match kind with
    | .armBranch24 =>
      let picked := Operand.pick target island (armIslandInRange site)
      site.branchTo picked.address picked.thumb
    | .thumbBranch22 =>
      match island with
      | some ultimate =>
        if thumbIslandInRange site ultimate then
          site.branchTo (thumbIslandAddress site ultimate) ultimate.thumb
        else site.branchTo target.address target.thumb
      | none => site.branchTo target.address target.thumb
    | _ => { site with accumulator := target.address }

/-- The store of a fixup: load the accumulator if the kind does, then write. -/
def applyInstructionFixup (kind : StoreKind) (operand : Operand) (site : Site) :
    Except String (BitVec 32) :=
  storeInstruction kind (operand.load kind site)

end Cctools.OutputFile
