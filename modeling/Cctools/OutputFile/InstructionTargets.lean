/-
# Cctools.OutputFile.InstructionTargets -- fixed-up instructions reach their target

The words of `InstructionStores` read by the decoders of `ArmDecode`.  Each store
that passes its range check puts the bits of the displacement, field by field,
where the decoder looks for them, and leaves the rest of the word; what is left is
whether the displacement is what the field can hold.  It is not when a target is
off the unit of the field, and for an ADRP exactly four gigabytes ahead, which
`rangeCheckARM64Page21` lets through.
-/
import Cctools.OutputFile.InstructionStores
import Cctools.OutputFile.ArmDecode
import Cctools.Theory.BitField
import Cctools.Theory.Transducer

namespace Cctools.OutputFile

set_option autoImplicit false

open Cctools.Theory
open Cctools.Theory.BitField

/-! ## What a fixup is to do -/

/-- Where code at a destination is entered: the thumb bit is not part of the address. -/
def Destination.landing (destination : Destination) : Landing :=
  ⟨(if destination.thumb then destination.address &&& -2 else destination.address).setWidth 32,
    destination.thumb⟩

/-- The destination of a fixup: that of the cluster, or of the target, or behind an island. -/
def Operand.intended (operand : Operand) (kind : StoreKind) (site : Site) : Destination :=
  match operand with
  | .cluster => ⟨site.accumulator, site.thumbTarget⟩
  | .targetAddress target island =>
    match kind with
    | .armBranch24 => Operand.pick target island (armIslandInRange site)
    | .thumbBranch22 => Operand.pick target island (thumbIslandInRange site)
    | _ => target

/-- The instruction is one the kind is for, at an address where one can be. -/
def WellFormed (kind : StoreKind) (site : Site) : Prop :=
  match kind with
  | .arm64Branch26 => 4 ∣ site.address.toNat ∧ site.instruction.extractLsb' 26 5 = 0b00101
  | .arm64Page21 =>
    site.instruction.extractLsb' 31 1 = 1 ∧ site.instruction.extractLsb' 24 5 = 0b10000
  | .arm64PageOff12ConvertAddToLoad => isAddImmediate site.instruction
  | .arm64PageOff12 =>
    isAddImmediate site.instruction ∨
      isLoadStore site.instruction ∧ (loadStoreScale site.instruction).isSome
  | .armBranch24 => 4 ∣ site.address.toNat ∧ site.instruction.extractLsb' 25 3 = 0b101
  | .thumbBranch22 =>
    2 ∣ site.address.toNat ∧ site.instruction.extractLsb' 11 5 = 0b11110 ∧
      if site.thumb2 then
        isThumbBl site.instruction ∨ isThumbBlx site.instruction ∨ isThumbB site.instruction
      else
        site.instruction.extractLsb' 27 5 = 0b11111 ∨ site.instruction.extractLsb' 27 5 = 0b11101
  | _ => True

/-- The processor takes the new word to the destination. -/
def Reaches (kind : StoreKind) (site : Site) (destination : Destination) (word : BitVec 32) : Prop :=
  match kind with
  | .arm64Branch26 => decodeARM64Branch site.address word = some destination.address
  | .arm64Page21 => decodeADRP site.address word = some (destination.address &&& -4096)
  | .arm64PageOff12 | .arm64PageOff12ConvertAddToLoad | .arm64GOTLeaPageOff12
  | .arm64TLVPLoadNowLeaPageOff12 =>
    decodePageOffset (destination.address &&& -4096) word = some destination.address
  | .armBranch24 => decodeARMBranch (site.address.setWidth 32) word = some destination.landing
  | .thumbBranch22 =>
    decodeThumbBranch site.thumb2 (site.address.setWidth 32) word = some destination.landing
  | .armLow16 => decodeARMMov word = destination.address.extractLsb' 0 16
  | .armHigh16 => decodeARMMov word = destination.address.extractLsb' 16 16
  | .thumbLow16 => decodeThumbMov word = destination.address.extractLsb' 0 16
  | .thumbHigh16 => decodeThumbMov word = destination.address.extractLsb' 16 16

/-- The bits that are not of an immediate field. -/
def opcodeBits (kind : StoreKind) (site : Site) : BitVec 32 :=
  match kind with
  | .arm64Branch26 => 0xFC000000
  | .arm64Page21 => 0x9F00001F
  | .arm64PageOff12 | .arm64PageOff12ConvertAddToLoad | .arm64GOTLeaPageOff12
  | .arm64TLVPLoadNowLeaPageOff12 => 0xFFC003FF
  | .armBranch24 => 0xFF000000
  | .thumbBranch22 => if site.thumb2 then 0xD000F800 else 0xF800F800
  | .armLow16 | .armHigh16 => 0xFFF0F000
  | .thumbLow16 | .thumbHigh16 => 0x8F00FBF0

/-- A BL or a BLX, which the store may turn into each other. -/
def isCall (kind : StoreKind) (site : Site) (word : BitVec 32) : Bool :=
  match kind with
  | .armBranch24 => isArmBl word || isArmBlx word
  | .thumbBranch22 =>
    if site.thumb2 then isThumbBl word || isThumbBlx word
    else word &&& 0xF800F800 = 0xF800F000 || word &&& 0xF800F800 = 0xE800F000
  | _ => false

/-- Nothing outside the immediate fields changed, except that a call is still a call. -/
def Keeps (kind : StoreKind) (site : Site) (word : BitVec 32) : Prop :=
  word &&& opcodeBits kind site = site.instruction &&& opcodeBits kind site ∨
    isCall kind site site.instruction ∧ isCall kind site word

/-- An ADD that became the load of eight bytes from where it pointed to, or a load that became the ADD
that forms the address, over the same registers. -/
def Converted (kind : StoreKind) (site : Site) (word : BitVec 32) : Prop :=
  match kind with
  | .arm64PageOff12ConvertAddToLoad =>
    word &&& 0xFFC003FF#32 = 0xF9400000#32 ||| (site.instruction &&& 0x000003FF#32)
  | .arm64GOTLeaPageOff12 | .arm64TLVPLoadNowLeaPageOff12 =>
    word &&& 0xFFC003FF#32 = 0x91000000#32 ||| (site.instruction &&& 0x000003FF#32)
  | _ => False

/-- What the field of the instruction can express. -/
def Expressible (kind : StoreKind) (site : Site) (destination : Destination) : Prop :=
  match kind with
  | .arm64Branch26 => 4 ∣ destination.address.toNat
  | .arm64Page21 =>
    (destination.address &&& -4096) - (site.address &&& -4096) ≠ 0x100000000#64
  | .armBranch24 | .thumbBranch22 => destination.thumb ∨ 4 ∣ destination.address.toNat
  | _ => True

/-! ## arm64 -/

variable {result : Unit}

theorem rangeCheckARM64Branch26_ok {delta : BitVec 64} (checked : rangeCheckARM64Branch26 delta = .ok result) :
    -0x07FFFFFF ≤ delta.toInt ∧ delta.toInt ≤ 0x07FFFFFF := by
  simp only [rangeCheckARM64Branch26] at checked
  split at checked
  · cases checked
  · simp_all

theorem rangeCheckARM64Page21_ok {delta : BitVec 64} (checked : rangeCheckARM64Page21 delta = .ok result) :
    -0x100000000 ≤ delta.toInt ∧ delta.toInt ≤ 0x100000000 := by
  simp only [rangeCheckARM64Page21] at checked
  split at checked
  · cases checked
  · simp_all

theorem dvd_sub_iff {k : Nat} {x a : BitVec 64} (unit : k ∣ 2 ^ 64) (aligned : k ∣ a.toNat) :
    k ∣ (x - a).toNat ↔ k ∣ x.toNat := by
  have below := a.isLt
  rw [BitVec.toNat_sub, Nat.dvd_mod_iff unit, Nat.dvd_add_right (Nat.dvd_sub unit aligned)]

variable {word : BitVec 32} {site : Site}

theorem storeARM64Branch26_spec
    (final : site.contentAddendOnly = false) (formed : WellFormed .arm64Branch26 site)
    (stored : storeARM64Branch26 site = .ok word) :
    Keeps .arm64Branch26 site word ∧
      (Reaches .arm64Branch26 site ⟨site.accumulator, site.thumbTarget⟩ word ↔
        4 ∣ site.accumulator.toNat) := by
  obtain ⟨aligned, branch⟩ := formed
  obtain ⟨_, checked, written⟩ := ok_of_bind stored
  cases written
  simp only [final, Bool.false_eq_true, if_false] at checked ⊢
  have inRange := rangeCheckARM64Branch26_ok checked
  constructor
  · left
    simp only [opcodeBits, BitVec.and_or_distrib_right, BitVec.and_assoc]
    simp
  · have opcode : ∀ y : BitVec 32, ((site.instruction &&& 0xFC000000) |||
        (y &&& 0x03FFFFFF)).extractLsb' 26 5 = 0b00101 := by
      intro y
      rw [← branch]
      simp (disch := decide) only [BitVec.extractLsb'_or, extract_and_ones, extract_and_zero,
        BitVec.or_zero]
    have field : ∀ delta : BitVec 64, ((site.instruction &&& 0xFC000000) |||
        ((delta.sshiftRight 2).setWidth 32 &&& 0x03FFFFFF)).extractLsb' 0 26
          = delta.extractLsb' 2 26 := by
      intro delta
      simp (disch := decide) only [BitVec.extractLsb'_or, extract_and_ones, extract_and_zero,
        BitVec.extractLsb'_setWidth_of_le, extract_sshiftRight, BitVec.zero_or]
    simp only [Reaches, decodeARM64Branch, opcode, if_true, field, Option.some.injEq]
    have unit : 4 ∣ (site.accumulator - site.address).toNat ↔ 4 ∣ site.accumulator.toNat :=
      dvd_sub_iff (by decide) aligned
    rw [add_signed_field_iff _ _ (by decide), ← unit]
    simp only [Nat.reducePow, Nat.reduceAdd, Int.reducePow]
    omega

theorem page_dvd (x : BitVec 64) : 4096 ∣ (x &&& -4096).toNat := by
  rw [@toNat_and_high _ x (-4096) 12 (by decide)]
  exact Nat.dvd_mul_left _ _

theorem storeARM64Page21_spec (final : site.contentAddendOnly = false) (formed : WellFormed .arm64Page21 site)
    (stored : storeARM64Page21 site = .ok word) :
    Keeps .arm64Page21 site word ∧
      (Reaches .arm64Page21 site ⟨site.accumulator, site.thumbTarget⟩ word ↔
        Expressible .arm64Page21 site ⟨site.accumulator, site.thumbTarget⟩) := by
  obtain ⟨adrp, page⟩ := formed
  obtain ⟨_, checked, written⟩ := ok_of_bind stored
  cases written
  simp only [final, Bool.false_eq_true, if_false] at checked ⊢
  have inRange := rangeCheckARM64Page21_ok checked
  constructor
  · left
    simp only [opcodeBits, BitVec.and_or_distrib_right, BitVec.and_assoc, BitVec.setWidth_and]
    simp
  · have opcode : ∀ y z : BitVec 64, (site.instruction &&& 0x9F00001F |||
        (y &&& 0x60000000).setWidth 32 ||| (z &&& 0x00FFFFE0).setWidth 32).extractLsb' 31 1 = 1 ∧
        (site.instruction &&& 0x9F00001F ||| (y &&& 0x60000000).setWidth 32 |||
          (z &&& 0x00FFFFE0).setWidth 32).extractLsb' 24 5 = 0b10000 := by
      intro y z
      rw [← adrp, ← page]
      simp (disch := decide) only [BitVec.extractLsb'_or, extract_and_ones, extract_and_zero,
        BitVec.extractLsb'_setWidth_of_le, BitVec.or_zero, and_self]
    have fields : ∀ y z : BitVec 64, (site.instruction &&& 0x9F00001F |||
        (y &&& 0x60000000).setWidth 32 ||| (z &&& 0x00FFFFE0).setWidth 32).extractLsb' 5 19 ++
        (site.instruction &&& 0x9F00001F ||| (y &&& 0x60000000).setWidth 32 |||
          (z &&& 0x00FFFFE0).setWidth 32).extractLsb' 29 2
          = z.extractLsb' 5 19 ++ y.extractLsb' 29 2 := by
      intro y z
      simp (disch := decide) only [BitVec.extractLsb'_or, extract_and_ones, extract_and_zero,
        BitVec.extractLsb'_setWidth_of_le, BitVec.zero_or, BitVec.or_zero]
    have joined : ∀ delta : BitVec 64, (delta.sshiftRight 9).extractLsb' 5 19 ++
        (delta <<< 17).extractLsb' 29 2 = delta.extractLsb' 12 (20 + 1) := by
      intro delta
      rw [extract_sshiftRight delta (by decide), extract_shiftLeft delta (by decide) (by decide)]
      exact @extract_append 64 2 19 delta 12
    have unit := (dvd_sub_iff (x := site.accumulator &&& -4096) (by decide : 4096 ∣ 2 ^ 64)
      (page_dvd site.address)).mpr (page_dvd site.accumulator)
    simp only [Reaches, decodeADRP, opcode, and_self, if_true, fields, joined, Option.some.injEq,
      Expressible]
    rw [add_signed_field_iff _ _ (by decide), ← BitVec.toInt_inj.ne]
    simp only [Nat.reducePow, Nat.reduceAdd, Int.reducePow, BitVec.reduceToInt]
    omega

theorem vector_iff (instruction : BitVec 32) : instruction &&& 0x04800000 = 0x04800000 ↔
    instruction.extractLsb' 26 1 = 1 ∧ instruction.extractLsb' 23 1 = 1 := by
  constructor
  · intro same
    constructor
    · have bit := congrArg (fun x => x.extractLsb' 26 1) same
      rwa [extract_and_ones _ _ (by decide)] at bit
    · have bit := congrArg (fun x => x.extractLsb' 23 1) same
      rwa [extract_and_ones _ _ (by decide)] at bit
  · rintro ⟨vector, opc⟩
    have bits : (0x04800000 : BitVec 32) = BitVec.twoPow 32 26 ||| BitVec.twoPow 32 23 := by decide
    have bit26 := congrArg (fun x => x.getLsbD 0) vector
    have bit23 := congrArg (fun x => x.getLsbD 0) opc
    simp only [BitVec.getLsbD_extractLsb'] at bit26 bit23
    apply BitVec.eq_of_getLsbD_eq
    intro i inside
    rw [bits, BitVec.getLsbD_and]
    by_cases at26 : i = 26
    · simp_all
    · by_cases at23 : i = 23
      · simp_all
      · simp_all

theorem aligned_of_row {offset mask : BitVec 32} {text : String} {k shift : Nat} (fits : k ≤ 32)
    (low : mask = BitVec.ofNat 32 (2 ^ k - 1))
    (row : (if offset &&& mask ≠ 0 then Except.error text else Except.ok k) = .ok shift) :
    shift = k ∧ 2 ^ k ∣ offset.toNat := by
  subst low
  split at row
  · cases row
  · rename_i zero
    cases row
    exact ⟨rfl, (and_low_eq_zero_iff offset fits).mp (not_not.mp zero)⟩

theorem implictShift_ok {instruction offset : BitVec 32} {shift scale : Nat}
    (scaled : loadStoreScale instruction = some scale)
    (shifted : implictShift instruction offset = .ok shift) :
    shift = scale ∧ 2 ^ scale ∣ offset.toNat := by
  have size : (instruction >>> 30 &&& 0x3).toNat = (instruction.extractLsb' 30 2).toNat := by
    rw [show (0x3 : BitVec 32) = put 32 0 (BitVec.allOnes 2) by decide, and_mask, put_zero,
      BitVec.toNat_setWidth_of_le (by decide), extract_ushiftRight]
  have small := (instruction.extractLsb' 30 2).isLt
  simp only [implictShift, size, vector_iff] at shifted
  simp only [loadStoreScale] at scaled
  generalize (instruction.extractLsb' 30 2).toNat = bits at *
  by_cases vector : instruction.extractLsb' 26 1 = 1 ∧ instruction.extractLsb' 23 1 = 1
  · rw [if_pos vector] at scaled
    split at scaled
    · rename_i zero
      cases scaled
      subst zero
      simp only [if_pos vector] at shifted
      exact aligned_of_row (by decide) (by decide) shifted
    · cases scaled
  · rw [if_neg vector] at scaled
    cases scaled
    obtain rfl | rfl | rfl | rfl : scale = 0 ∨ scale = 1 ∨ scale = 2 ∨ scale = 3 := by omega
    · simp only [if_neg vector] at shifted
      cases shifted
      exact ⟨rfl, one_dvd _⟩
    · exact aligned_of_row (by decide) (by decide) shifted
    · exact aligned_of_row (by decide) (by decide) shifted
    · exact aligned_of_row (by decide) (by decide) shifted

variable {instruction : BitVec 32}

theorem isAddImmediate_not_load (add : isAddImmediate instruction) :
    instruction &&& 0x08000000 = 0 := by
  have opcode := of_decide_eq_true add
  have bit : instruction.extractLsb' 27 1 = 0 := by
    have := @extract_extract 32 9 1 instruction 22 5 (by decide)
    rw [opcode] at this
    rw [← this]
    decide
  rw [show (0x08000000 : BitVec 32) = put 32 27 (BitVec.allOnes 1) by decide, and_mask, bit]
  decide

theorem isLoadStore_load (load : isLoadStore instruction) :
    instruction &&& 0x08000000 ≠ 0 := by
  have opcode := (of_decide_eq_true load).1
  have bit : instruction.extractLsb' 27 1 = 1 := by
    have := @extract_extract 32 3 1 instruction 27 0 (by decide)
    rw [opcode] at this
    rw [← this]
    decide
  rw [show (0x08000000 : BitVec 32) = put 32 27 (BitVec.allOnes 1) by decide, and_mask, bit]
  decide

/-- The scaled offset is the low twelve bits of the target in the units of the instruction. -/
theorem scaleOffset_ok {low : BitVec 12} {offset : BitVec 32} (formed : WellFormed .arm64PageOff12 site)
    (scaled : scaleOffset site.instruction (low.setWidth 32) = .ok offset) :
    ∃ scale, offset = (low >>> scale).setWidth 32 ∧ 2 ^ scale ∣ low.toNat ∧
      ∀ base word, isAddImmediate word = isAddImmediate site.instruction →
        isLoadStore word = isLoadStore site.instruction →
        loadStoreScale word = loadStoreScale site.instruction →
        decodePageOffset base word = some (base + (word.extractLsb' 10 12).setWidth 64 <<< scale) := by
  cases add : isAddImmediate site.instruction with
  | true =>
    rw [scaleOffset, if_neg (not_not.mpr (isAddImmediate_not_load add))] at scaled
    refine ⟨0, (Except.ok.inj scaled).symm, one_dvd _, ?_⟩
    intro base word sameAdd _ _
    simp [decodePageOffset, sameAdd]
  | false =>
    obtain ⟨load, allocated⟩ := formed.resolve_left (by simp [add])
    obtain ⟨scale, scaleIs⟩ := Option.isSome_iff_exists.mp allocated
    rw [scaleOffset, if_pos (isLoadStore_load load)] at scaled
    obtain ⟨shift, shifted, rfl⟩ := ok_of_map scaled
    obtain ⟨rfl, units⟩ := implictShift_ok scaleIs shifted
    rw [BitVec.toNat_setWidth_of_le (by decide)] at units
    refine ⟨shift, ?_, units, ?_⟩
    · apply BitVec.eq_of_toNat_eq
      simp
    · intro base word sameAdd sameLoad sameScale
      simp [decodePageOffset, sameAdd, sameLoad, sameScale, load, scaleIs]

theorem scale_back {offset : BitVec 12} {scale : Nat} (units : 2 ^ scale ∣ offset.toNat) :
    (offset >>> scale).setWidth 64 <<< scale = offset.setWidth 64 := by
  have below := offset.isLt
  apply BitVec.eq_of_toNat_eq
  rw [BitVec.toNat_shiftLeft, BitVec.toNat_setWidth_of_le (by decide), BitVec.toNat_ushiftRight,
    Nat.shiftRight_eq_div_pow, Nat.shiftLeft_eq, Nat.div_mul_cancel units, BitVec.toNat_setWidth_of_le (by decide)]
  omega

/-- A page and the offset in it, taken in units and scaled back. -/
theorem page_add_offset (target : BitVec 64) {scale : Nat}
    (units : 2 ^ scale ∣ (target.extractLsb' 0 12).toNat) :
    (target &&& -4096) + (target.extractLsb' 0 12 >>> scale).setWidth 64 <<< scale = target := by
  have page := @toNat_and_high _ target (-4096) 12 (by decide)
  have low : (target.extractLsb' 0 12).toNat = target.toNat % 4096 := by
    simp
  apply BitVec.eq_of_toNat_eq
  rw [scale_back units, BitVec.toNat_add, page, BitVec.toNat_setWidth_of_le (by decide), low]
  omega

theorem storeARM64PageOff12_spec
    (final : site.contentAddendOnly = false) (formed : WellFormed .arm64PageOff12 site)
    (stored : storeARM64PageOff12 site = .ok word) :
    Keeps .arm64PageOff12 site word ∧
      Reaches .arm64PageOff12 site ⟨site.accumulator, site.thumbTarget⟩ word := by
  obtain ⟨offset, scaled, written⟩ := ok_of_bind stored
  cases written
  simp only [final, Bool.false_eq_true, if_false]
  have low : (site.accumulator &&& 0x00000FFF).setWidth 32
      = (site.accumulator.extractLsb' 0 12).setWidth 32 := by
    rw [show (0x00000FFF : BitVec 64) = put 64 0 (BitVec.allOnes 12) by decide, and_mask, put_zero,
      BitVec.setWidth_setWidth_of_le _ (by decide)]
  rw [low] at scaled
  obtain ⟨scale, rfl, units, decoded⟩ := scaleOffset_ok formed scaled
  have placed : (site.accumulator.extractLsb' 0 12 >>> scale).setWidth 32 <<< 10
      = put 32 10 (site.accumulator.extractLsb' 0 12 >>> scale) := rfl
  rw [placed]
  constructor
  · left
    simp only [opcodeBits, BitVec.and_or_distrib_right, BitVec.and_assoc]
    rw [put_and_eq_zero _ _ (by decide)]
    simp
  · have opcode : ∀ lo n, 22 ≤ lo → (0xFFC003FF#32).extractLsb' lo n = BitVec.allOnes n →
        ∀ field : BitVec 12, ((site.instruction &&& 0xFFC003FF) ||| put 32 10 field).extractLsb' lo n
          = site.instruction.extractLsb' lo n := by
      intro lo n above ones field
      rw [BitVec.extractLsb'_or, extract_put_above _ above, BitVec.or_zero]
      exact extract_and_ones _ _ ones
    have imm12 : ∀ field : BitVec 12,
        ((site.instruction &&& 0xFFC003FF) ||| put 32 10 field).extractLsb' 10 12 = field := by
      intro field
      rw [BitVec.extractLsb'_or, extract_put _ (by decide), extract_and_zero _ _ (by decide),
        BitVec.zero_or]
    simp only [Reaches]
    rw [decoded, imm12, page_add_offset _ units]
    · simp (disch := decide) only [isAddImmediate, opcode]
    · simp (disch := decide) only [isLoadStore, opcode]
    · simp (disch := decide) only [loadStoreScale, opcode]

/-! ## Conversions -/

/-- A word of an opcode, an immediate and the registers of an instruction. -/
def assembled (opcode : BitVec 32) (imm12 : BitVec 12) (instruction : BitVec 32) : BitVec 32 :=
  opcode ||| put 32 10 imm12 ||| (instruction &&& 0x000003FF#32)

section Assembled

variable {opcode : BitVec 32} (imm12 : BitVec 12) (instruction : BitVec 32)

theorem assembled_kept (high : opcode &&& 0xFFC003FF#32 = opcode) :
    assembled opcode imm12 instruction &&& 0xFFC003FF#32 = opcode ||| (instruction &&& 0x000003FF#32) := by
  rw [assembled, BitVec.and_or_distrib_right, BitVec.and_or_distrib_right, high, put_and_eq_zero _ _ (by decide),
    BitVec.or_zero, BitVec.and_assoc]
  rfl

theorem assembled_imm12 (clear : opcode.extractLsb' 10 12 = 0#12) :
    (assembled opcode imm12 instruction).extractLsb' 10 12 = imm12 := by
  rw [assembled, BitVec.extractLsb'_or, BitVec.extractLsb'_or, clear, extract_put _ (by decide),
    extract_and_zero _ _ (by decide), BitVec.or_zero, BitVec.zero_or]

theorem assembled_high {lo n : Nat} (above : 22 ≤ lo) (low : (0x000003FF#32).extractLsb' lo n = 0#n) :
    (assembled opcode imm12 instruction).extractLsb' lo n = opcode.extractLsb' lo n := by
  rw [assembled, BitVec.extractLsb'_or, BitVec.extractLsb'_or, extract_put_above _ above,
    extract_and_zero _ _ low, BitVec.or_zero, BitVec.or_zero]

/-- The ADD that an LDR becomes forms the base and the immediate. -/
theorem decode_assembled_add (base : BitVec 64) :
    decodePageOffset base (assembled 0x91000000#32 imm12 instruction) = some (base + imm12.setWidth 64) := by
  have add : isAddImmediate (assembled 0x91000000#32 imm12 instruction) = true := by
    rw [isAddImmediate, assembled_high _ _ (by decide) (by decide)]
    decide
  rw [decodePageOffset, if_pos add, assembled_imm12 _ _ (by decide)]

/-- The LDR that an ADD becomes reads behind the base at eight times the immediate. -/
theorem decode_assembled_load (base : BitVec 64) :
    decodePageOffset base (assembled 0xF9400000#32 imm12 instruction) = some (base + imm12.setWidth 64 <<< 3) := by
  have add : isAddImmediate (assembled 0xF9400000#32 imm12 instruction) = false := by
    rw [isAddImmediate, assembled_high _ _ (by decide) (by decide)]
    decide
  have load : isLoadStore (assembled 0xF9400000#32 imm12 instruction) = true := by
    rw [isLoadStore, assembled_high _ _ (by decide) (by decide), assembled_high _ _ (by decide) (by decide)]
    decide
  have scale : loadStoreScale (assembled 0xF9400000#32 imm12 instruction) = some 3 := by
    rw [loadStoreScale, assembled_high _ _ (by decide) (by decide), assembled_high _ _ (by decide) (by decide),
      assembled_high _ _ (by decide) (by decide)]
    decide
  rw [decodePageOffset, add, load, scale, assembled_imm12 _ _ (by decide)]
  rfl

end Assembled

theorem storeARM64LeaPageOff12_ok {text : String} (stored : storeARM64LeaPageOff12 text site = .ok word) :
    word = assembled 0x91000000#32 (site.accumulator.extractLsb' 0 12) site.instruction := by
  rw [storeARM64LeaPageOff12] at stored
  split at stored
  · cases stored
  · have low : (site.accumulator &&& 0x00000FFF).setWidth 32
        = (site.accumulator.extractLsb' 0 12).setWidth 32 := by
      rw [show (0x00000FFF : BitVec 64) = put 64 0 (BitVec.allOnes 12) by decide, and_mask, put_zero,
        BitVec.setWidth_setWidth_of_le _ (by decide)]
    rw [low] at stored
    exact (Except.ok.inj stored).symm

theorem registers (word : BitVec 32) : (word &&& 0x1F#32) ||| ((word >>> 5 &&& 0x1F#32) <<< 5) = word &&& 0x000003FF#32 := by
  have five : 0x1F#32 = put 32 0 (BitVec.allOnes 5) := by decide
  have ten : 0x000003FF#32 = put 32 0 (BitVec.allOnes 10) := by decide
  rw [five, ten, and_mask, and_mask, and_mask]
  apply BitVec.eq_of_getLsbD_eq
  intro i inside
  simp only [BitVec.getLsbD_or, BitVec.getLsbD_shiftLeft, getLsbD_put, BitVec.getLsbD_extractLsb',
    BitVec.getLsbD_ushiftRight]
  by_cases first : i < 5
  · simp [first, show i < 10 by omega]
  · by_cases second : i < 10
    · simp [first, second, inside, show i - 5 < 5 by omega, show 5 + (i - 5) = i by omega, show i - 5 < 32 by omega]
    · simp [first, second, show ¬ i - 5 < 5 by omega]

/-- The registers of an ADD and an eighth of its immediate, in the place where a load has them. -/
theorem convert_ok {added word : BitVec 32} {addInfo : AddInfo} (parsed : parseADD added = some addInfo)
    (made : makeLoad addInfo.destReg addInfo.srcReg addInfo.addend = .ok word) :
    2 ^ 3 ∣ (added.extractLsb' 10 12).toNat ∧
      word = assembled 0xF9400000#32 (added.extractLsb' 10 12 >>> 3) added := by
  rw [parseADD] at parsed
  split at parsed
  · cases parsed
  · obtain rfl := Option.some.inj parsed
    have addend : added >>> 10 &&& 0xFFF#32 = (added.extractLsb' 10 12).setWidth 32 := by
      apply BitVec.eq_of_toNat_eq
      rw [BitVec.toNat_and, show (0xFFF#32).toNat = 2 ^ 12 - 1 by decide, Nat.and_two_pow_sub_one_eq_mod,
        BitVec.toNat_setWidth_of_le (by decide), BitVec.extractLsb'_toNat, BitVec.toNat_ushiftRight]
    rw [makeLoad] at made
    split at made
    · rename_i units
      dsimp only at units made
      rw [addend] at units made
      have small := (added.extractLsb' 10 12).isLt
      have divides : 2 ^ 3 ∣ (added.extractLsb' 10 12).toNat := by
        have rest := congrArg BitVec.toNat units
        rw [BitVec.toNat_umod, BitVec.toNat_setWidth_of_le (by decide)] at rest
        exact Nat.dvd_of_mod_eq_zero rest
      have eighth : (added.extractLsb' 10 12).setWidth 32 / 8#32 = (added.extractLsb' 10 12 >>> 3).setWidth 32 := by
        apply BitVec.eq_of_toNat_eq
        rw [BitVec.toNat_udiv, BitVec.toNat_setWidth_of_le (by decide), BitVec.toNat_setWidth_of_le (by decide),
          BitVec.toNat_ushiftRight, Nat.shiftRight_eq_div_pow]
        rfl
      refine ⟨divides, ?_⟩
      rw [eighth] at made
      rw [← Except.ok.inj made, assembled, ← registers]
      have opcode : 0xF9400000#32 = 0x39000000#32 ||| (3#32 <<< 30) ||| (1#32 <<< 22) := by decide
      rw [opcode, put]
      ac_rfl
    · cases made

theorem storeARM64LeaPageOff12_spec {text : String} (stored : storeARM64LeaPageOff12 text site = .ok word) :
    word &&& 0xFFC003FF#32 = 0x91000000#32 ||| (site.instruction &&& 0x000003FF#32) ∧
      decodePageOffset (site.accumulator &&& -4096) word = some site.accumulator := by
  have target := @page_add_offset site.accumulator 0 (one_dvd _)
  rw [storeARM64LeaPageOff12_ok stored, decode_assembled_add]
  refine ⟨assembled_kept _ _ (by decide), congrArg some ?_⟩
  simpa using target

theorem storeARM64PageOff12ConvertAddToLoad_spec
    (final : site.contentAddendOnly = false) (formed : WellFormed .arm64PageOff12ConvertAddToLoad site)
    (stored : storeARM64PageOff12ConvertAddToLoad site = .ok word) :
    Converted .arm64PageOff12ConvertAddToLoad site word ∧
      Reaches .arm64PageOff12ConvertAddToLoad site ⟨site.accumulator, site.thumbTarget⟩ word := by
  obtain ⟨added, isAdded, converted⟩ := ok_of_bind stored
  obtain ⟨kept, reaches⟩ := storeARM64PageOff12_spec final (.inl formed) isAdded
  cases parsed : parseADD added with
  | none =>
    rw [parsed] at converted
    cases converted
  | some addInfo =>
    rw [parsed] at converted
    obtain ⟨units, rfl⟩ := convert_ok parsed converted
    have same : added &&& 0xFFC003FF#32 = site.instruction &&& 0xFFC003FF#32 :=
      kept.resolve_right (by simp [isCall])
    have low : added &&& 0x000003FF#32 = site.instruction &&& 0x000003FF#32 := by
      have inside : 0xFFC003FF#32 &&& 0x000003FF#32 = 0x000003FF#32 := by decide
      rw [← inside, ← BitVec.and_assoc, ← BitVec.and_assoc, same]
    have add : isAddImmediate added = true := by
      rw [← (show isAddImmediate site.instruction = true from formed), isAddImmediate, isAddImmediate,
        ← extract_and_ones added 0xFFC003FF#32 (by decide), same, extract_and_ones _ _ (by decide)]
    have formed : decodePageOffset (site.accumulator &&& -4096) added = some site.accumulator := reaches
    rw [decodePageOffset, if_pos add] at formed
    constructor
    · rw [Converted, assembled_kept _ _ (by decide), low]
    · rw [Reaches, decode_assembled_load, scale_back units]
      exact formed

/-! ## Moves -/

theorem armMovWord_fields (instruction : BitVec 32) (imm4 : BitVec 4) (imm12 : BitVec 12) :
    armMovWord instruction (imm4.setWidth 32) (imm12.setWidth 32)
      = (instruction &&& 0xFFF0F000) ||| put 32 16 imm4 ||| put 32 0 imm12 := by
  rw [put_zero]
  rfl

theorem armMovWord_spec (instruction : BitVec 32) (imm4 : BitVec 4) (imm12 : BitVec 12) :
    armMovWord instruction (imm4.setWidth 32) (imm12.setWidth 32) &&& 0xFFF0F000
        = instruction &&& 0xFFF0F000 ∧
      decodeARMMov (armMovWord instruction (imm4.setWidth 32) (imm12.setWidth 32))
        = imm4 ++ imm12 := by
  rw [armMovWord_fields]
  constructor
  · simp (disch := decide) only [BitVec.and_or_distrib_right, put_and_eq_zero, BitVec.and_assoc,
      BitVec.or_zero, BitVec.and_self]
  · simp (disch := decide) only [decodeARMMov, BitVec.extractLsb'_or, extract_put, extract_put_above,
      extract_put_below, extract_and_zero, BitVec.or_zero, BitVec.zero_or]

theorem thumbMovWord_fields (instruction : BitVec 32) (imm4 : BitVec 4) (i : BitVec 1)
    (imm3 : BitVec 3) (imm8 : BitVec 8) :
    thumbMovWord instruction (imm4.setWidth 32) (i.setWidth 32) (imm3.setWidth 32) (imm8.setWidth 32)
      = (instruction &&& 0x8F00FBF0) ||| put 32 0 imm4 ||| put 32 10 i ||| put 32 28 imm3 |||
        put 32 16 imm8 := by
  rw [put_zero]
  rfl

theorem thumbMovWord_spec (instruction : BitVec 32) (imm4 : BitVec 4) (i : BitVec 1)
    (imm3 : BitVec 3) (imm8 : BitVec 8) :
    thumbMovWord instruction (imm4.setWidth 32) (i.setWidth 32) (imm3.setWidth 32)
          (imm8.setWidth 32) &&& 0x8F00FBF0 = instruction &&& 0x8F00FBF0 ∧
      decodeThumbMov (thumbMovWord instruction (imm4.setWidth 32) (i.setWidth 32)
          (imm3.setWidth 32) (imm8.setWidth 32)) = imm4 ++ i ++ imm3 ++ imm8 := by
  rw [thumbMovWord_fields]
  constructor
  · simp (disch := decide) only [BitVec.and_or_distrib_right, put_and_eq_zero, BitVec.and_assoc,
      BitVec.or_zero, BitVec.and_self]
  · simp (disch := decide) only [decodeThumbMov, BitVec.extractLsb'_or, extract_put,
      extract_put_above, extract_put_below, extract_and_zero, BitVec.or_zero, BitVec.zero_or]

theorem storeARMLow16_spec (site : Site) : Keeps .armLow16 site (storeARMLow16 site) ∧
    decodeARMMov (storeARMLow16 site) = site.accumulator.extractLsb' 0 16 := by
  have imm12 := @masked_field 64 12 0 site.accumulator 0x00000FFF 32 (by decide) (by decide) (by decide)
  have imm4 := @masked_field 64 4 12 site.accumulator 0x0000F000 32 (by decide) (by decide) (by decide)
  rw [BitVec.ushiftRight_zero] at imm12
  rw [storeARMLow16, imm4, imm12]
  obtain ⟨kept, decoded⟩ := armMovWord_spec site.instruction (site.accumulator.extractLsb' 12 4)
    (site.accumulator.extractLsb' 0 12)
  exact ⟨.inl kept, decoded.trans (extract_append _)⟩

theorem storeARMHigh16_spec (site : Site) : Keeps .armHigh16 site (storeARMHigh16 site) ∧
    decodeARMMov (storeARMHigh16 site) = site.accumulator.extractLsb' 16 16 := by
  have imm12 := @masked_field 64 12 16 site.accumulator 0x0FFF0000 32 (by decide) (by decide) (by decide)
  have imm4 := @masked_field 64 4 28 site.accumulator 0xF0000000 32 (by decide) (by decide) (by decide)
  rw [storeARMHigh16, imm4, imm12]
  obtain ⟨kept, decoded⟩ := armMovWord_spec site.instruction (site.accumulator.extractLsb' 28 4)
    (site.accumulator.extractLsb' 16 12)
  exact ⟨.inl kept, decoded.trans (extract_append _)⟩

/-- Four neighbouring fields make the half of the address. -/
theorem thumbMov_join (x : BitVec 64) (lo : Nat) :
    x.extractLsb' (lo + 12) 4 ++ x.extractLsb' (lo + 11) 1 ++ x.extractLsb' (lo + 8) 3 ++
      x.extractLsb' lo 8 = x.extractLsb' lo 16 := by
  rw [show lo + 12 = lo + 11 + 1 by omega, extract_append, show lo + 11 = lo + 8 + 3 by omega,
    extract_append, extract_append]

theorem storeThumbLow16_spec (site : Site) : Keeps .thumbLow16 site (storeThumbLow16 site) ∧
    decodeThumbMov (storeThumbLow16 site) = site.accumulator.extractLsb' 0 16 := by
  have imm4 := @masked_field 64 4 12 site.accumulator 0x0000F000 32 (by decide) (by decide) (by decide)
  have i := @masked_field 64 1 11 site.accumulator 0x00000800 32 (by decide) (by decide) (by decide)
  have imm3 := @masked_field 64 3 8 site.accumulator 0x00000700 32 (by decide) (by decide) (by decide)
  have imm8 := @masked_field 64 8 0 site.accumulator 0x000000FF 32 (by decide) (by decide) (by decide)
  rw [BitVec.ushiftRight_zero] at imm8
  rw [storeThumbLow16, imm4, i, imm3, imm8]
  obtain ⟨kept, decoded⟩ := thumbMovWord_spec site.instruction (site.accumulator.extractLsb' 12 4)
    (site.accumulator.extractLsb' 11 1) (site.accumulator.extractLsb' 8 3)
    (site.accumulator.extractLsb' 0 8)
  exact ⟨.inl kept, decoded.trans (thumbMov_join _ 0)⟩

theorem storeThumbHigh16_spec (site : Site) : Keeps .thumbHigh16 site (storeThumbHigh16 site) ∧
    decodeThumbMov (storeThumbHigh16 site) = site.accumulator.extractLsb' 16 16 := by
  have imm4 := @masked_field 64 4 28 site.accumulator 0xF0000000 32 (by decide) (by decide) (by decide)
  have i := @masked_field 64 1 27 site.accumulator 0x08000000 32 (by decide) (by decide) (by decide)
  have imm3 := @masked_field 64 3 24 site.accumulator 0x07000000 32 (by decide) (by decide) (by decide)
  have imm8 := @masked_field 64 8 16 site.accumulator 0x00FF0000 32 (by decide) (by decide) (by decide)
  rw [storeThumbHigh16, imm4, i, imm3, imm8]
  obtain ⟨kept, decoded⟩ := thumbMovWord_spec site.instruction (site.accumulator.extractLsb' 28 4)
    (site.accumulator.extractLsb' 27 1) (site.accumulator.extractLsb' 24 3)
    (site.accumulator.extractLsb' 16 8)
  exact ⟨.inl kept, decoded.trans (thumbMov_join _ 16)⟩

/-! ## ARM branches -/

theorem rangeCheckARMBranch24_ok {delta : BitVec 64} (checked : rangeCheckARMBranch24 delta = .ok result) :
    -33554432 < delta.toInt ∧ delta.toInt < 33554428 := by
  simp only [rangeCheckARMBranch24] at checked
  split at checked
  · simp_all [checkArmBranch24Displacement]
  · cases checked

theorem and_neg_two_toNat (x : BitVec 64) : (x &&& -2).toNat = x.toNat / 2 * 2 :=
  @toNat_and_high _ x (-2) 1 (by decide)

theorem and_neg_four_toNat (x : BitVec 64) : (x &&& -4).toNat = x.toNat / 4 * 4 :=
  @toNat_and_high _ x (-4) 2 (by decide)

theorem and_neg_four_of_dvd {x : BitVec 64} (aligned : 4 ∣ x.toNat) : x &&& -4 = x := by
  apply BitVec.eq_of_toNat_eq
  rw [and_neg_four_toNat, Nat.div_mul_cancel aligned]

theorem align4_setWidth (pc : BitVec 64) : align4 (pc.setWidth 32) = (pc &&& -4).setWidth 32 := by
  rw [align4, BitVec.setWidth_and]
  rfl

/-- The bits of a displacement to a Thumb target do not see the thumb bit. -/
theorem thumb_displacement {x base : BitVec 64} {n : Nat} (even : 2 ∣ base.toNat) :
    (x - base).extractLsb' 1 n = ((x &&& -2) - base).extractLsb' 1 n := by
  have split : (x - base).toNat / 2 = ((x &&& -2) - base).toNat / 2 := by
    rw [BitVec.toNat_sub, BitVec.toNat_sub, and_neg_two_toNat]
    omega
  apply BitVec.eq_of_toNat_eq
  rw [BitVec.extractLsb'_toNat, BitVec.extractLsb'_toNat, Nat.shiftRight_eq_div_pow,
    Nat.shiftRight_eq_div_pow]
  simp only [pow_one, split]

theorem thumb_displacement_toInt {x base : BitVec 64} (even : 2 ∣ base.toNat) :
    ((x &&& -2) - base).toInt = (x - base).toInt - (x.toNat % 2 : Nat) := by
  have whole := and_neg_two_toNat x
  rw [BitVec.toInt_eq_toNat_cond, BitVec.toInt_eq_toNat_cond, BitVec.toNat_sub, BitVec.toNat_sub, whole]
  have := x.isLt
  have := base.isLt
  split <;> split <;> omega

theorem armBranch_lands {base target : BitVec 64} (aligned : 4 ∣ base.toNat)
    (inRange : -33554432 < (target - base).toInt ∧ (target - base).toInt < 33554428) :
    base.setWidth 32 + ((target - base).extractLsb' 2 24).signExtend 32 <<< 2 = target.setWidth 32 ↔
      4 ∣ target.toNat := by
  have unit : 4 ∣ (target - base).toNat ↔ 4 ∣ target.toNat := dvd_sub_iff (by decide) aligned
  rw [@narrow_add_signed_field_iff 64 23 base target 31 2 (by decide) (by omega) (by omega)
    (by decide), ← unit]
  simp only [Nat.reducePow, Nat.reduceAdd, Int.reducePow]
  omega

theorem thumbBranch_lands {base target : BitVec 64} {n : Nat} (even : 2 ∣ base.toNat)
    (narrow : n ≤ 24) (low : -2 ^ (1 + n) ≤ (target - base).toInt)
    (high : (target - base).toInt < 2 ^ (1 + n)) :
    base.setWidth 32 + ((target - base).extractLsb' 1 (n + 1)).signExtend 32 <<< 1
      = (target &&& -2).setWidth 32 := by
  have exact := @thumb_displacement_toInt target base even
  have unit : 2 ∣ ((target &&& -2) - base).toNat := by
    rw [dvd_sub_iff (by decide) even, and_neg_two_toNat]
    exact Nat.dvd_mul_left _ _
  have whole : (2 : Int) ∣ ((target &&& -2) - base).toInt :=
    (@dvd_toInt_iff _ ((target &&& -2) - base) 1 (by decide)).mpr unit
  have power : (2 : Int) ∣ 2 ^ (1 + n) := dvd_pow_self 2 (by omega)
  have bound : (2 : Int) ^ (1 + n) ≤ 2 ^ 25 := by
    exact_mod_cast Nat.pow_le_pow_right two_pos (by omega)
  have above : -2 ^ (1 + n) ≤ ((target &&& -2) - base).toInt := by omega
  have below : ((target &&& -2) - base).toInt < 2 ^ (1 + n) := by omega
  rw [thumb_displacement even]
  exact (@narrow_add_signed_field_iff 64 n base (target &&& -2) 31 1 (by decide) (by omega) (by omega)
    (by omega)).mpr ⟨unit, above, below⟩

/-- The decoder's BLX, all ones in the condition field, is the store's. -/
theorem isArmBlx_of_condition (branch : instruction.extractLsb' 25 3 = 0b101)
    (condition : instruction.extractLsb' 28 4 = 0b1111) : isArmBlx instruction := by
  have opcode : instruction.extractLsb' 25 7 = 0b1111101 := by
    rw [← @extract_append 32 3 4 instruction 25, branch, condition]
    decide
  apply decide_eq_true
  rw [show (0xFE000000 : BitVec 32) = put 32 25 (BitVec.allOnes 7) by decide, and_mask, opcode]
  decide

theorem armBranch24Word_spec {delta : BitVec 64} (final : site.contentDetlaToAddendOnly = false)
    (branch : site.instruction.extractLsb' 25 3 = 0b101)
    (written : armBranch24Word site delta = .ok word) :
    Keeps .armBranch24 site word ∧ word.extractLsb' 25 3 = 0b101 ∧
      word.extractLsb' 0 24 = delta.extractLsb' 2 24 ∧
      (site.thumbTarget = true → word.extractLsb' 28 4 = 0b1111 ∧
        word.extractLsb' 24 1 = delta.extractLsb' 1 1) ∧
      (site.thumbTarget = false → word.extractLsb' 28 4 ≠ 0b1111) := by
  simp only [armBranch24Word] at written
  cases call : isArmBl site.instruction || isArmBlx site.instruction with
  | true =>
    cases thumb : site.thumbTarget with
    | true =>
      simp only [thumb, call, Bool.and_self, if_true] at written
      cases written
      refine ⟨.inr ⟨call, ?_⟩, ?_, ?_, ?_, ?_⟩
      · have blx : ∀ h d : BitVec 32, isArmBlx (0xFA000000 ||| (h &&& 0x01000000) |||
            (d &&& 0x00FFFFFF)) := by
          intro h d
          simp [isArmBlx, BitVec.and_or_distrib_right, BitVec.and_assoc]
        simp only [isCall, blx, Bool.or_true]
      · simp (disch := decide) only [BitVec.extractLsb'_or, extract_and_zero]
        decide
      · simp (disch := decide) only [BitVec.extractLsb'_or, extract_and_zero, extract_and_ones,
          BitVec.extractLsb'_setWidth_of_le, extract_sshiftRight]
        simp
      · intro _
        simp (disch := decide) only [BitVec.extractLsb'_or, extract_and_zero, extract_and_ones,
          BitVec.extractLsb'_setWidth_of_le, extract_shiftLeft]
        simp
      · simp
    | false =>
      simp only [thumb, call, Bool.and_false, Bool.not_false, Bool.and_self, Bool.false_eq_true,
        if_false, if_true] at written
      cases written
      refine ⟨.inr ⟨call, ?_⟩, ?_, ?_, ?_, ?_⟩
      · have bl : ∀ d : BitVec 32, isArmBl (0xEB000000 ||| (d &&& 0x00FFFFFF)) := by
          intro d
          simp [isArmBl, BitVec.and_or_distrib_right, BitVec.and_assoc]
        simp only [isCall, bl, Bool.true_or]
      · simp (disch := decide) only [BitVec.extractLsb'_or, extract_and_zero]
        decide
      · simp (disch := decide) only [BitVec.extractLsb'_or, extract_and_ones,
          BitVec.extractLsb'_setWidth_of_le, extract_sshiftRight]
        simp
      · simp
      · intro _
        simp (disch := decide) only [BitVec.extractLsb'_or, extract_and_zero]
        decide
  | false =>
    cases thumb : site.thumbTarget with
    | true =>
      simp [thumb, call, final] at written
      split at written <;> cases written
    | false =>
      simp only [thumb, call, Bool.false_and, Bool.and_false, Bool.false_eq_true, if_false] at written
      cases written
      refine ⟨.inl ?_, ?_, ?_, ?_, ?_⟩
      · simp only [opcodeBits, BitVec.and_or_distrib_right, BitVec.and_assoc]
        simp
      · rw [← branch]
        simp (disch := decide) only [BitVec.extractLsb'_or, extract_and_zero, extract_and_ones,
          BitVec.or_zero]
      · simp (disch := decide) only [BitVec.extractLsb'_or, extract_and_ones, extract_and_zero,
          BitVec.extractLsb'_setWidth_of_le, extract_sshiftRight, BitVec.zero_or]
      · simp
      · intro _
        simp (disch := decide) only [BitVec.extractLsb'_or, extract_and_zero, extract_and_ones,
          BitVec.or_zero]
        intro condition
        simp [isArmBlx_of_condition branch condition] at call

theorem storeARMBranch24_spec
    (final : site.contentDetlaToAddendOnly = false) (formed : WellFormed .armBranch24 site)
    (stored : storeARMBranch24 site = .ok word) :
    Keeps .armBranch24 site word ∧
      (Reaches .armBranch24 site ⟨site.accumulator, site.thumbTarget⟩ word ↔
        Expressible .armBranch24 site ⟨site.accumulator, site.thumbTarget⟩) := by
  obtain ⟨aligned, branch⟩ := formed
  obtain ⟨_, checked, written⟩ := ok_of_bind stored
  have inRange := rangeCheckARMBranch24_ok checked
  obtain ⟨kept, opcode, imm24, toThumb, toArm⟩ := armBranch24Word_spec final branch written
  refine ⟨kept, ?_⟩
  have pc : site.address.setWidth 32 + 8 = (site.address + 8).setWidth 32 := by
    rw [BitVec.setWidth_add site.address 8 (by decide : 32 ≤ 64)]
    rfl
  have pcAligned : 4 ∣ (site.address + 8).toNat := by
    rw [BitVec.toNat_add]
    simp
    omega
  cases thumb : site.thumbTarget with
  | true =>
    obtain ⟨condition, half⟩ := toThumb thumb
    have alignedPc : align4 ((site.address + 8).setWidth 32) = (site.address + 8).setWidth 32 := by
      rw [align4_setWidth, and_neg_four_of_dvd pcAligned]
    have lands := @thumbBranch_lands (site.address + 8) site.accumulator 24 (by omega) (by decide)
      (by omega) (by omega)
    simp only [Reaches, decodeARMBranch, opcode, condition, if_true, imm24, half, pc, alignedPc,
      Expressible, Destination.landing]
    rw [@extract_append 64 1 24 _ 1, lands]
    simp
  | false =>
    have lands := @armBranch_lands (site.address + 8) site.accumulator pcAligned inRange
    simp only [Reaches, decodeARMBranch, opcode, if_true, if_neg (toArm thumb), imm24, pc,
      Expressible, Destination.landing]
    rw [← lands]
    simp

/-! ## Thumb branches -/

/-- The word of a Thumb-2 branch as its fields, with `J = NOT(I EOR S)`. -/
theorem thumb2BranchWord_fields (opcode : BitVec 32) (delta : BitVec 64) :
    thumb2BranchWord opcode delta = opcode |||
      put 32 29 (~~~(delta.extractLsb' 23 1 ^^^ delta.extractLsb' 24 1)) |||
      put 32 27 (~~~(delta.extractLsb' 22 1 ^^^ delta.extractLsb' 24 1)) |||
      put 32 16 (delta.extractLsb' 1 11) ||| put 32 10 (delta.extractLsb' 24 1) |||
      put 32 0 (delta.extractLsb' 12 10) := by
  have bit : ∀ k, k + 1 ≤ 64 → (delta.sshiftRight k).setWidth 32 &&& 0x1
      = (delta.extractLsb' k 1).setWidth 32 := by
    intro k inside
    rw [show (0x1 : BitVec 32) = put 32 0 (BitVec.allOnes 1) by decide, and_mask, put_zero,
      BitVec.extractLsb'_setWidth_of_le (by decide), extract_sshiftRight _ (by omega), Nat.zero_add]
  have imm10 : (delta.sshiftRight 12).setWidth 32 &&& 0x3FF = (delta.extractLsb' 12 10).setWidth 32 := by
    rw [show (0x3FF : BitVec 32) = put 32 0 (BitVec.allOnes 10) by decide, and_mask, put_zero,
      BitVec.extractLsb'_setWidth_of_le (by decide), extract_sshiftRight _ (by decide)]
  have imm11 : (delta.sshiftRight 1).setWidth 32 &&& 0x7FF = (delta.extractLsb' 1 11).setWidth 32 := by
    rw [show (0x7FF : BitVec 32) = put 32 0 (BitVec.allOnes 11) by decide, and_mask, put_zero,
      BitVec.extractLsb'_setWidth_of_le (by decide), extract_sshiftRight _ (by decide)]
  have j : ∀ a b : BitVec 1, (if a.setWidth 32 = b.setWidth 32 then (1 : BitVec 32) else 0)
      = (~~~(a ^^^ b)).setWidth 32 := by decide
  simp only [thumb2BranchWord, bit 24 (by decide), bit 23 (by decide), bit 22 (by decide), imm10,
    imm11, j, BitVec.shiftLeft_or_distrib, ← BitVec.shiftLeft_add, put_zero, ← BitVec.or_assoc]
  rfl

theorem thumb1BranchWord_fields (opcode : BitVec 32) (delta : BitVec 64) :
    thumb1BranchWord opcode delta
      = opcode ||| put 32 16 (delta.extractLsb' 1 11) ||| put 32 0 (delta.extractLsb' 12 11) := by
  have imm11 : ∀ k, k + 11 ≤ 64 → (delta.sshiftRight k).setWidth 32 &&& 0x7FF
      = (delta.extractLsb' k 11).setWidth 32 := by
    intro k inside
    rw [show (0x7FF : BitVec 32) = put 32 0 (BitVec.allOnes 11) by decide, and_mask, put_zero,
      BitVec.extractLsb'_setWidth_of_le (by decide), extract_sshiftRight _ (by omega), Nat.zero_add]
  simp only [thumb1BranchWord, imm11 12 (by decide), imm11 1 (by decide), put_zero]
  rfl

variable {opcode : BitVec 32}

theorem thumb2BranchWord_decode {delta : BitVec 64} (address : BitVec 32)
    (known : opcode = 0xD000F000 ∨ opcode = 0x9000F000 ∨ opcode = 0xC000F000) :
    thumb2BranchWord opcode delta &&& 0xD000F800 = opcode ∧
      decodeThumb2Branch address (thumb2BranchWord opcode delta)
        = thumbLanding address (opcode = 0xC000F000) (delta.extractLsb' 1 24) := by
  have i : ∀ a b : BitVec 1, ~~~(~~~(a ^^^ b) ^^^ b) = a := by decide
  have joined : delta.extractLsb' 24 1 ++ delta.extractLsb' 23 1 ++ delta.extractLsb' 22 1 ++
      delta.extractLsb' 12 10 ++ delta.extractLsb' 1 11 = delta.extractLsb' 1 24 := by
    rw [@extract_append 64 1 1 _ 23, @extract_append 64 1 2 _ 22, @extract_append 64 10 3 _ 12,
      @extract_append 64 11 13 _ 1]
  rw [thumb2BranchWord_fields]
  rcases known with rfl | rfl | rfl
  all_goals
    constructor
    · simp (disch := decide) only [BitVec.and_or_distrib_right, put_and_eq_zero, BitVec.or_zero]
      decide
    · simp (disch := decide) only [decodeThumb2Branch, BitVec.extractLsb'_or, extract_put,
        extract_put_above, extract_put_below, BitVec.or_zero]
      simp only [BitVec.reduceExtractLsb', BitVec.zero_or, i]
      rw [joined]
      rfl

theorem thumb1BranchWord_decode {delta : BitVec 64} (address : BitVec 32)
    (known : opcode = 0xF800F000 ∨ opcode = 0xE800F000) :
    thumb1BranchWord opcode delta &&& 0xF800F800 = opcode ∧
      decodeThumb1Branch address (thumb1BranchWord opcode delta)
        = thumbLanding address (opcode = 0xE800F000) (delta.extractLsb' 1 22) := by
  have joined : delta.extractLsb' 12 11 ++ delta.extractLsb' 1 11 = delta.extractLsb' 1 22 :=
    @extract_append 64 11 11 _ 1
  rw [thumb1BranchWord_fields]
  rcases known with rfl | rfl
  all_goals
    constructor
    · simp (disch := decide) only [BitVec.and_or_distrib_right, put_and_eq_zero, BitVec.or_zero]
      decide
    · simp (disch := decide) only [decodeThumb1Branch, BitVec.extractLsb'_or, extract_put,
        extract_put_above, extract_put_below, BitVec.or_zero]
      simp only [BitVec.reduceExtractLsb', BitVec.zero_or]
      rw [joined]
      rfl

theorem and_two_toNat (x : BitVec 64) : (x &&& 2).toNat = x.toNat / 2 % 2 * 2 := by
  rw [show (2 : BitVec 64) = put 64 1 (BitVec.allOnes 1) by decide, and_mask, put,
    BitVec.toNat_shiftLeft, BitVec.toNat_setWidth_of_le (by decide), BitVec.extractLsb'_toNat,
    Nat.shiftRight_eq_div_pow, Nat.shiftLeft_eq]
  omega

/-- Counting the BLX from the address or from the aligned pc is the same. -/
theorem blxDelta_eq {address accumulator : BitVec 64} (even : 2 ∣ address.toNat) :
    thumbBranchBase address accumulator false - (address + 4)
      = (accumulator &&& -3) - ((address + 4) &&& -4) := by
  have disjoint : (accumulator &&& -3) &&& (address &&& 2) = 0#64 := by
    rw [BitVec.and_assoc, BitVec.and_comm address, ← BitVec.and_assoc (-3)]
    simp
  have pc : address + 4 = ((address + 4) &&& -4) + (address &&& 2) := by
    apply BitVec.eq_of_toNat_eq
    rw [BitVec.toNat_add, BitVec.toNat_add, and_neg_four_toNat, and_two_toNat, BitVec.toNat_add]
    simp
    omega
  have joined : thumbBranchBase address accumulator false = (accumulator &&& -3) + (address &&& 2) := by
    rw [BitVec.add_eq_or_of_and_eq_zero _ _ disjoint]
    rfl
  rw [joined]
  nth_rewrite 1 [pc]
  rw [BitVec.sub_eq_iff_eq_add, ← BitVec.add_assoc, BitVec.sub_add_cancel]

theorem and_neg_three_toNat (x : BitVec 64) : (x &&& -3).toNat = x.toNat / 4 * 4 + x.toNat % 2 := by
  have disjoint : (x &&& -4) &&& (x &&& 1) = 0#64 := by
    rw [BitVec.and_assoc, BitVec.and_comm x 1, ← BitVec.and_assoc (-4)]
    simp
  have joined : x &&& -3 = (x &&& -4) + (x &&& 1) := by
    rw [BitVec.add_eq_or_of_and_eq_zero _ _ disjoint, ← BitVec.and_or_distrib_left]
    rfl
  have bit : (x &&& 1).toNat = x.toNat % 2 := by
    rw [BitVec.toNat_and]
    exact Nat.and_one_is_mod _
  have below := x.isLt
  rw [joined, BitVec.toNat_add, and_neg_four_toNat, bit]
  omega

theorem setWidth_add_four (address : BitVec 64) :
    address.setWidth 32 + 4 = (address + 4).setWidth 32 := by
  rw [BitVec.setWidth_add address 4 (by decide : 32 ≤ 64)]
  rfl

theorem even_add_four {address : BitVec 64} (even : 2 ∣ address.toNat) :
    2 ∣ (address + 4).toNat := by
  rw [BitVec.toNat_add]
  simp
  omega

section Landing

variable {address accumulator : BitVec 64} {n : Nat}

theorem thumbLanding_thumb (even : 2 ∣ address.toNat) (narrow : n ≤ 24)
    (low : -2 ^ (1 + n) ≤ (thumbBranchBase address accumulator true - (address + 4)).toInt)
    (high : (thumbBranchBase address accumulator true - (address + 4)).toInt < 2 ^ (1 + n)) :
    thumbLanding (address.setWidth 32) false
        ((thumbBranchBase address accumulator true - (address + 4)).extractLsb' 1 (n + 1))
      = some (Destination.landing ⟨accumulator, true⟩) := by
  have lands := thumbBranch_lands (even_add_four even) narrow low high
  have masked : thumbBranchBase address accumulator true &&& -2 = accumulator &&& -2 := by
    simp [thumbBranchBase, BitVec.and_assoc]
  rw [masked] at lands
  simp only [thumbLanding, Bool.false_eq_true, if_false, setWidth_add_four, lands,
    Destination.landing, if_true]

theorem thumbLanding_arm (even : 2 ∣ address.toNat) (narrow : n ≤ 24)
    (low : -2 ^ (1 + n) ≤ (thumbBranchBase address accumulator false - (address + 4)).toInt)
    (high : (thumbBranchBase address accumulator false - (address + 4)).toInt < 2 ^ (1 + n)) :
    thumbLanding (address.setWidth 32) true
        ((thumbBranchBase address accumulator false - (address + 4)).extractLsb' 1 (n + 1))
      = some ⟨(accumulator &&& -4).setWidth 32, false⟩ := by
  rw [blxDelta_eq even] at *
  have pages := and_neg_four_toNat (address + 4)
  have lands := @thumbBranch_lands ((address + 4) &&& -4) (accumulator &&& -3) n (by omega) narrow low high
  have masked : (accumulator &&& -3) &&& -2 = accumulator &&& -4 := by
    rw [BitVec.and_assoc]
    rfl
  have words : (((accumulator &&& -3) - ((address + 4) &&& -4)).extractLsb' 1 (n + 1)).getLsbD 0
      = false := by
    rw [BitVec.getLsbD_extractLsb', BitVec.getLsbD, Nat.testBit_eq_decide_div_mod_eq,
      BitVec.toNat_sub, pages, and_neg_three_toNat]
    simp
    omega
  rw [masked] at lands
  simp only [thumbLanding, words, Bool.false_eq_true, if_false, if_true, setWidth_add_four,
    align4_setWidth, lands]

end Landing

theorem landing_arm_iff (accumulator : BitVec 64) :
    some (⟨(accumulator &&& -4).setWidth 32, false⟩ : Landing)
        = some (Destination.landing ⟨accumulator, false⟩) ↔ 4 ∣ accumulator.toNat := by
  have whole := and_neg_four_toNat accumulator
  simp only [Destination.landing, Option.some.injEq, Landing.mk.injEq, and_true, Bool.false_eq_true,
    if_false, ← BitVec.toNat_inj, BitVec.toNat_setWidth, whole]
  omega

theorem thumb2Opcode_ok (final : site.contentDetlaToAddendOnly = false)
    (formed : isThumbBl site.instruction ∨ isThumbBlx site.instruction ∨ isThumbB site.instruction)
    (chosen : thumb2Opcode site = .ok opcode) :
    (opcode = 0xD000F000 ∨ opcode = 0x9000F000 ∨ opcode = 0xC000F000) ∧
      (opcode = 0xC000F000 ↔ site.thumbTarget = false) ∧
      (opcode = site.instruction &&& 0xD000F800 ∨
        (isThumbBl site.instruction || isThumbBlx site.instruction) ∧
          (opcode = 0xD000F000 ∨ opcode = 0xC000F000)) := by
  simp only [thumb2Opcode, final] at chosen
  cases call : isThumbBl site.instruction || isThumbBlx site.instruction with
  | true =>
    cases thumb : site.thumbTarget <;> simp [call, thumb] at chosen <;> subst chosen <;> simp
  | false =>
    have b : isThumbB site.instruction := by
      rw [Bool.or_eq_false_iff] at call
      simpa [call.1, call.2] using formed
    cases thumb : site.thumbTarget
    · simp [call, thumb, b] at chosen
    · simp [call, thumb, b] at chosen
      have same : site.instruction &&& 0xD000F800 = 0x9000F000 := of_decide_eq_true b
      subst chosen
      exact ⟨.inr (.inl rfl), by simp, .inl same.symm⟩

theorem thumb1Opcode_ok (call : site.instruction &&& 0xF800F800 = 0xF800F000 ∨
      site.instruction &&& 0xF800F800 = 0xE800F000) (chosen : thumb1Opcode site = .ok opcode) :
    (opcode = 0xF800F000 ∨ opcode = 0xE800F000) ∧
      (opcode = 0xE800F000 ↔ site.thumbTarget = false) := by
  have narrow : site.instruction &&& 0xD000F800 = (site.instruction &&& 0xF800F800) &&& 0xD000F800 := by
    rw [BitVec.and_assoc]
    rfl
  simp only [thumb1Opcode, isThumbBl, isThumbBlx, isThumbB, narrow] at chosen
  rcases call with bl | blx
  · rw [bl] at chosen
    cases thumb : site.thumbTarget <;> simp [thumb] at chosen <;> subst chosen <;> simp
  · rw [blx] at chosen
    cases thumb : site.thumbTarget <;> simp [thumb] at chosen <;> subst chosen <;> simp

/-- The pair of halfwords before Thumb-2, by the bits of their opcodes. -/
theorem thumb1_call (first : instruction.extractLsb' 11 5 = 0b11110)
    (second : instruction.extractLsb' 27 5 = 0b11111 ∨ instruction.extractLsb' 27 5 = 0b11101) :
    instruction &&& 0xF800F800 = 0xF800F000 ∨ instruction &&& 0xF800F800 = 0xE800F000 := by
  have fields : instruction &&& 0xF800F800
      = put 32 27 (instruction.extractLsb' 27 5) ||| put 32 11 (instruction.extractLsb' 11 5) := by
    rw [← and_mask, ← and_mask, ← BitVec.and_or_distrib_left]
    rfl
  rw [fields, first]
  rcases second with bl | blx
  · rw [bl]
    decide
  · rw [blx]
    decide

theorem rangeCheckThumbBranch22_ok {thumb2 : Bool} {delta : BitVec 64}
    (checked : rangeCheckThumbBranch22 thumb2 delta = .ok result) :
    if thumb2 then -16777216 ≤ delta.toInt ∧ delta.toInt ≤ 16777214
    else -4194304 ≤ delta.toInt ∧ delta.toInt ≤ 4194302 := by
  simp only [rangeCheckThumbBranch22] at checked
  split at checked
  · rename_i passed
    cases thumb2 <;> simp_all [checkThumbBranch22Displacement]
  · split at checked <;> cases checked

/-- A landing in the code the destination is in is the destination's, up to the word of ARM code. -/
theorem thumbLanding_iff {address : BitVec 64} {destination : Destination} {n : Nat}
    (even : 2 ∣ address.toNat) (narrow : n ≤ 24)
    (low : -2 ^ (1 + n) ≤
      (thumbBranchBase address destination.address destination.thumb - (address + 4)).toInt)
    (high : (thumbBranchBase address destination.address destination.thumb - (address + 4)).toInt
      < 2 ^ (1 + n)) :
    thumbLanding (address.setWidth 32) (!destination.thumb)
        ((thumbBranchBase address destination.address destination.thumb -
          (address + 4)).extractLsb' 1 (n + 1)) = some destination.landing ↔
      destination.thumb ∨ 4 ∣ destination.address.toNat := by
  obtain ⟨target, thumb⟩ := destination
  cases thumb with
  | true =>
    simp only [Bool.not_true, thumbLanding_thumb even narrow low high, true_or]
  | false =>
    simp only [Bool.not_false, thumbLanding_arm even narrow low high, landing_arm_iff,
      Bool.false_eq_true, false_or]

theorem decide_eq_not {opcode : Prop} [Decidable opcode] {thumb : Bool}
    (blx : opcode ↔ thumb = false) : decide opcode = !thumb := by
  cases thumb <;> simp [blx]

theorem storeThumbBranch22_spec {destination : Destination}
    (final : site.contentDetlaToAddendOnly = false) (formed : WellFormed .thumbBranch22 site)
    (goes : thumbBranchBase site.address site.accumulator site.thumbTarget
      = thumbBranchBase site.address destination.address destination.thumb)
    (thumb : site.thumbTarget = destination.thumb)
    (stored : storeThumbBranch22 site = .ok word) :
    Keeps .thumbBranch22 site word ∧
      (Reaches .thumbBranch22 site destination word ↔ Expressible .thumbBranch22 site destination) := by
  obtain ⟨even, first, kind⟩ := formed
  obtain ⟨_, checked, written⟩ := ok_of_bind stored
  have inRange := rangeCheckThumbBranch22_ok checked
  simp only [thumbBranchDelta, final, Bool.false_eq_true, if_false, goes] at inRange written
  cases thumb2 : site.thumb2 with
  | true =>
    simp only [thumb2, if_true] at inRange written kind
    obtain ⟨opcode, chosen, rfl⟩ := ok_of_map written
    obtain ⟨known, blx, kept⟩ := thumb2Opcode_ok final kind chosen
    obtain ⟨opcodeIs, decoded⟩ := @thumb2BranchWord_decode opcode (thumbBranchBase site.address
      destination.address destination.thumb - (site.address + 4)) (site.address.setWidth 32) known
    have isBlx : decide (opcode = 0xC000F000) = !destination.thumb := by
      rw [← thumb]
      exact decide_eq_not blx
    have lands := @thumbLanding_iff site.address destination 23 even (by decide) (by omega) (by omega)
    constructor
    · simp only [Keeps, opcodeBits, thumb2, if_true, opcodeIs]
      refine kept.imp_right fun ⟨call, isNow⟩ => ⟨by simpa [isCall, thumb2] using call, ?_⟩
      simp only [isCall, thumb2, if_true, isThumbBl, isThumbBlx, opcodeIs]
      rcases isNow with rfl | rfl <;> decide
    · simp only [Reaches, decodeThumbBranch, thumb2, if_true, decoded, isBlx, Expressible]
      exact lands
  | false =>
    simp only [thumb2, Bool.false_eq_true, if_false] at inRange written kind
    obtain ⟨opcode, chosen, rfl⟩ := ok_of_map written
    have call := thumb1_call first kind
    obtain ⟨known, blx⟩ := thumb1Opcode_ok call chosen
    obtain ⟨opcodeIs, decoded⟩ := @thumb1BranchWord_decode opcode (thumbBranchBase site.address
      destination.address destination.thumb - (site.address + 4)) (site.address.setWidth 32) known
    have isBlx : decide (opcode = 0xE800F000) = !destination.thumb := by
      rw [← thumb]
      exact decide_eq_not blx
    have lands := @thumbLanding_iff site.address destination 21 even (by decide) (by omega) (by omega)
    constructor
    · right
      simp only [isCall, thumb2, Bool.false_eq_true, if_false, opcodeIs]
      exact ⟨by simpa using call, by simpa using known⟩
    · simp only [Reaches, decodeThumbBranch, thumb2, Bool.false_eq_true, if_false, decoded, isBlx,
        Expressible]
      exact lands

/-! ## The fixups -/

section Operands

variable (operand : Operand) (site : Site)

theorem load_frame (kind : StoreKind) :
    (operand.load kind site).address = site.address ∧
      (operand.load kind site).instruction = site.instruction ∧
      (operand.load kind site).contentAddendOnly = site.contentAddendOnly ∧
      (operand.load kind site).contentDetlaToAddendOnly = site.contentDetlaToAddendOnly ∧
      (operand.load kind site).thumb2 = site.thumb2 := by
  cases operand with
  | cluster => simp [Operand.load]
  | targetAddress target island =>
    cases kind <;> cases island <;> simp [Operand.load, Site.branchTo]
    split <;> simp

theorem or_one_and_neg_two (x : BitVec 64) : (x ||| 1) &&& -2 = x &&& -2 := by
  rw [BitVec.and_or_distrib_right]
  simp

/-- An ARM branch is loaded with its destination, the thumb bit added. -/
theorem load_armBranch24 (detla : site.contentDetlaToAddendOnly = false) :
    let loaded := operand.load .armBranch24 site
    let intended := operand.intended .armBranch24 site
    loaded.thumbTarget = intended.thumb ∧
      (intended.thumb = false → loaded.accumulator = intended.address) ∧
      loaded.accumulator &&& -2 = intended.address &&& -2 := by
  cases operand with
  | cluster => simp [Operand.load, Operand.intended]
  | targetAddress target island =>
    simp only [Operand.load, Operand.intended, Site.branchTo, detla, Bool.false_eq_true, if_false]
    generalize Operand.pick target island (armIslandInRange site) = picked
    cases picked.thumb
    · simp
    · simp only [Bool.true_eq_false, if_true, true_and, false_implies]
      exact or_one_and_neg_two _

theorem thumbBranchBase_idem (address target : BitVec 64) (thumb : Bool) :
    thumbBranchBase address
        (if thumb then thumbBranchBase address target thumb ||| 1
          else thumbBranchBase address target thumb) thumb
      = thumbBranchBase address target thumb := by
  cases thumb with
  | true =>
    simp only [thumbBranchBase, if_true, or_one_and_neg_two, BitVec.and_assoc, BitVec.and_self]
  | false =>
    have bit : (address &&& 2) &&& -3 = 0#64 := by
      rw [BitVec.and_assoc]
      simp
    simp only [thumbBranchBase, Bool.false_eq_true, if_false, BitVec.and_or_distrib_right, bit,
      BitVec.or_zero, BitVec.and_assoc, BitVec.and_self]

theorem thumbBranchBase_or_one (address target : BitVec 64) (thumb : Bool) :
    thumbBranchBase address (if thumb then target ||| 1 else target) thumb
      = thumbBranchBase address target thumb := by
  cases thumb with
  | true => simp only [thumbBranchBase, if_true, or_one_and_neg_two]
  | false => rfl

/-- A Thumb branch is loaded with the base of its destination. -/
theorem load_thumbBranch22 (detla : site.contentDetlaToAddendOnly = false) :
    let loaded := operand.load .thumbBranch22 site
    let intended := operand.intended .thumbBranch22 site
    loaded.thumbTarget = intended.thumb ∧
      thumbBranchBase site.address loaded.accumulator loaded.thumbTarget
        = thumbBranchBase site.address intended.address intended.thumb := by
  cases operand with
  | cluster => simp [Operand.load, Operand.intended]
  | targetAddress target island =>
    cases island with
    | none =>
      simp only [Operand.load, Operand.intended, Operand.pick, Site.branchTo, detla,
        Bool.false_eq_true, if_false, true_and]
      exact thumbBranchBase_or_one _ _ _
    | some ultimate =>
      simp only [Operand.load, Operand.intended, Operand.pick]
      split
      · simp only [Site.branchTo, thumbIslandAddress, detla, Bool.false_eq_true, if_false, true_and]
        exact thumbBranchBase_idem _ _ _
      · simp only [Site.branchTo, detla, Bool.false_eq_true, if_false, true_and]
        exact thumbBranchBase_or_one _ _ _

theorem load_accumulator (kind : StoreKind) (notArm : kind ≠ .armBranch24) (notThumb : kind ≠ .thumbBranch22) :
    (operand.load kind site).accumulator = (operand.intended kind site).address := by
  cases operand with
  | cluster => rfl
  | targetAddress target island => cases kind <;> first | rfl | contradiction

end Operands

theorem Destination.landing_congr {left right : Destination} (thumb : left.thumb = right.thumb)
    (arm : right.thumb = false → left.address = right.address)
    (masked : left.address &&& -2 = right.address &&& -2) : left.landing = right.landing := by
  simp only [Destination.landing, thumb, masked]
  cases right_thumb : right.thumb
  · simp [arm right_thumb]
  · simp

/-- The store of a loaded site, against the destination it was loaded for. -/
theorem storeInstruction_spec {kind : StoreKind} {operand : Operand} (addend : site.contentAddendOnly = false)
    (detla : site.contentDetlaToAddendOnly = false)
    (formed : WellFormed kind (operand.load kind site))
    (stored : storeInstruction kind (operand.load kind site) = .ok word) :
    (Keeps kind (operand.load kind site) word ∨ Converted kind (operand.load kind site) word) ∧
      (Reaches kind (operand.load kind site) (operand.intended kind site) word ↔
        Expressible kind (operand.load kind site) (operand.intended kind site)) := by
  obtain ⟨address, -, sameAddend, sameDetla, -⟩ := load_frame operand site kind
  rw [addend] at sameAddend
  rw [detla] at sameDetla
  cases kind with
  | arm64Branch26 =>
    have target := load_accumulator operand site .arm64Branch26 (by decide) (by decide)
    obtain ⟨kept, reaches⟩ := storeARM64Branch26_spec sameAddend formed stored
    refine ⟨.inl kept, ?_⟩
    simpa only [Reaches, Expressible, target] using reaches
  | arm64Page21 =>
    have target := load_accumulator operand site .arm64Page21 (by decide) (by decide)
    obtain ⟨kept, reaches⟩ := storeARM64Page21_spec sameAddend formed stored
    refine ⟨.inl kept, ?_⟩
    simpa only [Reaches, Expressible, target] using reaches
  | arm64PageOff12 =>
    have target := load_accumulator operand site .arm64PageOff12 (by decide) (by decide)
    obtain ⟨kept, reaches⟩ := storeARM64PageOff12_spec sameAddend formed stored
    refine ⟨.inl kept, ?_⟩
    simpa only [Reaches, Expressible, target, iff_true] using reaches
  | arm64PageOff12ConvertAddToLoad =>
    have target := load_accumulator operand site .arm64PageOff12ConvertAddToLoad (by decide) (by decide)
    obtain ⟨kept, reaches⟩ := storeARM64PageOff12ConvertAddToLoad_spec sameAddend formed stored
    refine ⟨.inr kept, ?_⟩
    simpa only [Reaches, Expressible, target, iff_true] using reaches
  | arm64GOTLeaPageOff12 =>
    have target := load_accumulator operand site .arm64GOTLeaPageOff12 (by decide) (by decide)
    obtain ⟨kept, reaches⟩ := storeARM64LeaPageOff12_spec stored
    refine ⟨.inr kept, ?_⟩
    simpa only [Reaches, Expressible, target, iff_true] using reaches
  | arm64TLVPLoadNowLeaPageOff12 =>
    have target := load_accumulator operand site .arm64TLVPLoadNowLeaPageOff12 (by decide) (by decide)
    obtain ⟨kept, reaches⟩ := storeARM64LeaPageOff12_spec stored
    refine ⟨.inr kept, ?_⟩
    simpa only [Reaches, Expressible, target, iff_true] using reaches
  | armBranch24 =>
    obtain ⟨thumb, arm, masked⟩ := load_armBranch24 operand site detla
    have spec := storeARMBranch24_spec sameDetla formed stored
    have landing := @Destination.landing_congr
      ⟨(operand.load .armBranch24 site).accumulator, (operand.load .armBranch24 site).thumbTarget⟩
      (operand.intended .armBranch24 site) thumb arm masked
    simp only [Reaches, Expressible, landing] at spec ⊢
    rw [thumb] at spec
    refine ⟨.inl spec.1, spec.2.trans ?_⟩
    cases toThumb : (operand.intended .armBranch24 site).thumb
    · rw [arm toThumb]
    · simp
  | thumbBranch22 =>
    obtain ⟨thumb, goes⟩ := load_thumbBranch22 operand site detla
    rw [← address] at goes
    obtain ⟨kept, reaches⟩ := storeThumbBranch22_spec sameDetla formed goes thumb stored
    exact ⟨.inl kept, reaches⟩
  | armLow16 =>
    have target := load_accumulator operand site .armLow16 (by decide) (by decide)
    cases stored
    obtain ⟨kept, reaches⟩ := storeARMLow16_spec (operand.load .armLow16 site)
    refine ⟨.inl kept, ?_⟩
    simpa only [Reaches, Expressible, target, iff_true] using reaches
  | armHigh16 =>
    have target := load_accumulator operand site .armHigh16 (by decide) (by decide)
    cases stored
    obtain ⟨kept, reaches⟩ := storeARMHigh16_spec (operand.load .armHigh16 site)
    refine ⟨.inl kept, ?_⟩
    simpa only [Reaches, Expressible, target, iff_true] using reaches
  | thumbLow16 =>
    have target := load_accumulator operand site .thumbLow16 (by decide) (by decide)
    cases stored
    obtain ⟨kept, reaches⟩ := storeThumbLow16_spec (operand.load .thumbLow16 site)
    refine ⟨.inl kept, ?_⟩
    simpa only [Reaches, Expressible, target, iff_true] using reaches
  | thumbHigh16 =>
    have target := load_accumulator operand site .thumbHigh16 (by decide) (by decide)
    cases stored
    obtain ⟨kept, reaches⟩ := storeThumbHigh16_spec (operand.load .thumbHigh16 site)
    refine ⟨.inl kept, ?_⟩
    simpa only [Reaches, Expressible, target, iff_true] using reaches

section Frame

variable {kind : StoreKind} {site other : Site} {destination : Destination} {word : BitVec 32}

theorem wellFormed_congr (address : other.address = site.address)
    (instruction : other.instruction = site.instruction) (thumb2 : other.thumb2 = site.thumb2) :
    WellFormed kind other ↔ WellFormed kind site := by
  cases kind <;> simp only [WellFormed, address, instruction, thumb2]

theorem keeps_congr (instruction : other.instruction = site.instruction)
    (thumb2 : other.thumb2 = site.thumb2) : Keeps kind other word ↔ Keeps kind site word := by
  cases kind <;> simp only [Keeps, opcodeBits, isCall, instruction, thumb2]

theorem converted_congr (instruction : other.instruction = site.instruction) :
    Converted kind other word ↔ Converted kind site word := by
  cases kind <;> simp only [Converted, instruction]

theorem reaches_congr (address : other.address = site.address) (thumb2 : other.thumb2 = site.thumb2) :
    Reaches kind other destination word ↔ Reaches kind site destination word := by
  cases kind <;> simp only [Reaches, address, thumb2]

theorem expressible_congr (address : other.address = site.address) :
    Expressible kind other destination ↔ Expressible kind site destination := by
  cases kind <;> simp only [Expressible, address]

end Frame

/-- **A fixed-up instruction reaches its target** where its field can express the displacement, and
keeps the rest of its word, or is converted: `contentAddendOnly` and `contentDetlaToAddendOnly` are
off in a final image, where the instruction holds a target and not the addend of a relocation. -/
theorem applyInstructionFixup_reaches (kind : StoreKind) (operand : Operand) (site : Site)
    (word : BitVec 32) (addend : site.contentAddendOnly = false)
    (detla : site.contentDetlaToAddendOnly = false) (formed : WellFormed kind site)
    (stored : applyInstructionFixup kind operand site = .ok word) :
    (Keeps kind site word ∨ Converted kind site word) ∧
      (Expressible kind site (operand.intended kind site) →
        Reaches kind site (operand.intended kind site) word) := by
  obtain ⟨address, instruction, -, -, thumb2⟩ := load_frame operand site kind
  have spec := storeInstruction_spec addend detla
    ((wellFormed_congr address instruction thumb2).mpr formed) stored
  rw [keeps_congr instruction thumb2, converted_congr instruction, reaches_congr address thumb2,
    expressible_congr address] at spec
  exact ⟨spec.1, spec.2.mpr⟩

/-- A BLX to ARM code in range, through an island. -/
theorem applyInstructionFixup_reaches_blx :
    ∃ word, applyInstructionFixup .thumbBranch22
        (.targetAddress ⟨0x9000000, true⟩ (some ⟨0x8000, false⟩))
        ⟨0x4002, 0xF800F000, 0, false, false, false, true⟩ = .ok word ∧
      decodeThumb2Branch 0x4002 word = some ⟨0x8000, false⟩ := by
  obtain ⟨word, stored⟩ : ∃ word, applyInstructionFixup .thumbBranch22
      (.targetAddress ⟨0x9000000, true⟩ (some ⟨0x8000, false⟩))
      ⟨0x4002, 0xF800F000, 0, false, false, false, true⟩ = .ok word := ⟨_, rfl⟩
  have formed : WellFormed .thumbBranch22 ⟨0x4002, 0xF800F000, 0, false, false, false, true⟩ :=
    ⟨by decide, by decide, .inl rfl⟩
  have reaches := (applyInstructionFixup_reaches _ _ _ word rfl rfl formed stored).2
    (.inr (by decide))
  exact ⟨word, stored, reaches⟩

/-- An ADD of a page offset that becomes the load of the eight bytes there. -/
theorem applyInstructionFixup_converts :
    ∃ word, applyInstructionFixup .arm64PageOff12ConvertAddToLoad (.targetAddress ⟨0x100004008, false⟩ none)
        ⟨0x100000004, 0x91000000, 0, false, false, false, false⟩ = .ok word ∧
      WellFormed .arm64PageOff12ConvertAddToLoad ⟨0x100000004, 0x91000000, 0, false, false, false, false⟩ ∧
      decodePageOffset 0x100004000 word = some 0x100004008 ∧
      ¬ Keeps .arm64PageOff12ConvertAddToLoad ⟨0x100000004, 0x91000000, 0, false, false, false, false⟩
        word := by
  have converted : ¬ Keeps .arm64PageOff12ConvertAddToLoad
      ⟨0x100000004, 0x91000000, 0, false, false, false, false⟩ 0xF9400400 := by
    rw [Keeps]
    decide
  exact ⟨0xF9400400, rfl, rfl, by decide, converted⟩

end Cctools.OutputFile
