/-
# Cctools.OutputFile.ChainedImports -- the imports of chained fixups

A bind of a chained image is a pointer with the number of an import and, where it
fits, an addend of its own; the import table has the library, the name and the
rest of the addend.  `ChainedFixupBinds` collects the targets while
`buildChainedFixupInfo` plans the fixups, `ChainedInfoAtom::encode` chooses one of
three formats for all of them and writes the table with its pool of names, and
`setFixup64`, `setFixup64e` and `setFixup32` write the pointers.

The reader is the one of otool: `get_fixup_targets` for the table and the switch
of `walk_chain` for the pointers.

What the writer asks of an atom is in `ImportAtom`; the atoms themselves are only
compared.  The table is the vectors that `encode` builds before it copies them
behind one another.
-/
import Cctools.OutputFile.ChainedFixups
import Cctools.LinkEdit.ThreadedPointers

namespace Cctools.OutputFile

set_option autoImplicit false

open Cctools.Theory
open Cctools.LinkEdit (AuthData PtrauthKey)

/-! ## Targets -/

structure ImportAtom where
  name : List UInt8
  libOrdinal : Int
  weakImport : Bool
  deriving DecidableEq, Repr

/-- The atoms of a link, and how many dylibs have an ordinal.  An ordinal is that of a dylib, or
one of the three special ones. -/
structure ImportAtoms (α : Type) where
  atom : α → ImportAtom
  maxLibOrdinal : Nat
  terminated : ∀ a, (0 : UInt8) ∉ (atom a).name
  ordinals : ∀ a, -3 ≤ (atom a).libOrdinal ∧ (atom a).libOrdinal ≤ maxLibOrdinal

section Binds

variable {α : Type} [DecidableEq α]

structure ChainedFixupBinds (α : Type) where
  bindOrdinalsWithNoAddend : List (α × Nat)
  bindsTargets : List (α × BitVec 64)
  hasLargeAddends : Bool
  hasHugeAddends : Bool
  deriving DecidableEq, Repr

def ChainedFixupBinds.empty : ChainedFixupBinds α := ⟨[], [], false, false⟩

/-- Whether an addend needs the wider tables; an authenticated pointer has no addend at all. -/
def isLargeAddend (authPtr : Bool) (addend : BitVec 64) : Bool :=
  addend.toNat ≤ 0xFFFFFFFF && if authPtr then addend ≠ 0 else 255 < addend.toNat

def ChainedFixupBinds.ensureTarget (binds : ChainedFixupBinds α) (atom : α) (authPtr : Bool)
    (addend : BitVec 64) : ChainedFixupBinds α :=
  if addend = 0 then
    if (binds.bindOrdinalsWithNoAddend.lookup atom).isSome then binds
    else { binds with
      bindOrdinalsWithNoAddend := (atom, binds.bindsTargets.length) :: binds.bindOrdinalsWithNoAddend
      bindsTargets := binds.bindsTargets ++ [(atom, 0)] }
  else if (atom, addend) ∈ binds.bindsTargets then binds
  else { binds with
    bindsTargets := binds.bindsTargets ++ [(atom, addend)]
    hasHugeAddends := binds.hasHugeAddends || 0xFFFFFFFF < addend.toNat
    hasLargeAddends := binds.hasLargeAddends || isLargeAddend authPtr addend }

/-- `none` is the assertion that the target was registered. -/
def ChainedFixupBinds.ordinal (binds : ChainedFixupBinds α) (atom : α) (addend : BitVec 64) :
    Option Nat :=
  if addend = 0 then binds.bindOrdinalsWithNoAddend.lookup atom
  else binds.bindsTargets.findIdx? fun entry => entry.1 = atom ∧ entry.2 = addend

end Binds

/-! ## Pointers -/

namespace PointerFormat

def isArm64e : PointerFormat → Bool
  | .arm64e | .arm64eKernel | .arm64eUserland | .arm64eUserland24 | .arm64eFirmware => true
  | _ => false

/-- `chainedFixupBindAddendFitsInline`. -/
def addendFitsInline (format : PointerFormat) (accumulator : BitVec 64) : Bool :=
  match format with
  | .ptr64 | .ptr64Offset => accumulator.toNat ≤ 255
  | .ptr32 => accumulator.toNat ≤ 63
  | .ptr32Firmware => accumulator = 0
  | _ => accumulator.toNat < 0x40000 || 0xFFFFFFFFFFFC0000 ≤ accumulator.toNat

def ordinalWidth : PointerFormat → Nat
  | .ptr32 => 20
  | .ptr64 | .ptr64Offset | .arm64eUserland24 => 24
  | _ => 16

/-- Where the addend of a bind begins, and how wide it is. -/
def addendField : PointerFormat → Nat × Nat
  | .ptr32 => (20, 6)
  | .ptr64 | .ptr64Offset => (24, 8)
  | _ => (32, 19)

/-- The bit that says that a pointer is a bind. -/
def bindBit : PointerFormat → Nat
  | .ptr32 => 31
  | .ptr64 | .ptr64Offset => 63
  | _ => 62

end PointerFormat

/-- A pointer to an import, with the addend it should have in the end. -/
structure BindRequest (format : PointerFormat) (α : Type) where
  atom : α
  authData : Option AuthData
  accumulator : BitVec 64
  signed : authData.isSome → format.isArm64e

section Pointer

variable {format : PointerFormat} {α : Type}

/-- `needsBind`: what stays in the pointer, and what goes into the table. -/
def BindRequest.split (request : BindRequest format α) : BitVec 64 × BitVec 64 :=
  if request.authData.isNone ∧ format.addendFitsInline request.accumulator then
    (request.accumulator, 0)
  else (0, request.accumulator)

def BindRequest.inlineAddend (request : BindRequest format α) : BitVec 64 := request.split.1

def BindRequest.importAddend (request : BindRequest format α) : BitVec 64 := request.split.2

open BitField in
/-- The word of a bind, 32 bits of it with `DYLD_CHAINED_PTR_32`; `next` is still 0. -/
def setBind (format : PointerFormat) (authData : Option AuthData) (bindOrdinal : Nat)
    (inlineAddend : BitVec 64) : Except String (BitVec 64) :=
  let ordinal := BitVec.ofNat format.ordinalWidth bindOrdinal
  let word := put 64 0 ordinal ||| put 64 format.bindBit (1 : BitVec 1) |||
    match authData with
    | none => put 64 format.addendField.1 (inlineAddend.setWidth format.addendField.2)
    | some data => put 64 32 data.discriminator ||| put 64 48 (BitVec.ofBool data.hasAddressDiversity) |||
        put 64 49 data.key.code ||| put 64 63 (1 : BitVec 1)
  if ordinal.toNat = bindOrdinal then .ok word
  else .error "assertion failed: b->ordinal == bindOrdinal"

/-- `DYLD_CHAINED_PTR_32_FIRMWARE` has no binds; `setFixup32` writes the rebase of the accumulator. -/
def setFirmwareRebase (accumulator : BitVec 64) : Except String (BitVec 64) :=
  let target := accumulator.setWidth 26
  if target.setWidth 64 = accumulator then .ok (BitField.put 64 0 target)
  else .error "assertion failed: r->target == accumulator"

def signExtendedAddend64e (addend19 : BitVec 64) : BitVec 64 :=
  if addend19 &&& 0x40000 ≠ 0 then addend19 ||| 0xFFFFFFFFFFFC0000 else addend19

def signExtendedAddend64 (addend27 : BitVec 64) : BitVec 64 :=
  let top8Bits := addend27 &&& 0x00007F80000
  let bottom19Bits := addend27 &&& 0x0000007FFFF
  top8Bits <<< 13 ||| (bottom19Bits <<< 37) >>> 37 &&& 0x00FFFFFFFFFFFFFF

/-- The ordinal of a bind and its own addend, as `walk_chain` takes them from the word. -/
def readBind (format : PointerFormat) (word : BitVec 64) : Option (Nat × BitVec 64) :=
  if word.extractLsb' format.bindBit 1 = 0 then none
  else
    let ordinal := (word.extractLsb' 0 format.ordinalWidth).toNat
    let addend := (word.extractLsb' format.addendField.1 format.addendField.2).setWidth 64
    match format with
    | .ptr32 => some (ordinal, addend)
    | .ptr32Firmware => none
    | .ptr64 | .ptr64Offset => some (ordinal, signExtendedAddend64 addend)
    | _ =>
      if word.extractLsb' 63 1 = 0 then some (ordinal, signExtendedAddend64e addend)
      else some (ordinal, 0)

end Pointer

/-! ## The table -/

inductive ImportsFormat where
  | import_
  | addend
  | addend64
  deriving DecidableEq, Repr

inductive ImportEntry where
  | import_ (fields : BitVec 32)
  | addend (fields addend : BitVec 32)
  | addend64 (fields addend : BitVec 64)
  deriving DecidableEq, Repr

section Table

variable {α : Type} (atoms : ImportAtoms α)

/-- The total size is only looked at from 9000 targets on. -/
def hasHugeSymbolStrings (targets : List (α × BitVec 64)) : Bool :=
  if targets.length < 9000 then false
  else 0x00800000 ≤ (targets.map fun entry => (atoms.atom entry.1).name.length + 1).sum % 2 ^ 32

def importsFormat (binds : ChainedFixupBinds α) : ImportsFormat :=
  if hasHugeSymbolStrings atoms binds.bindsTargets || 240 < atoms.maxLibOrdinal then .addend64
  else if binds.hasHugeAddends then .addend64
  else if binds.hasLargeAddends then .addend
  else .import_

open BitField in
/-- An entry of 32 bits of fields: the ordinal, the weak bit and the offset of the name. -/
def packImport (atom : ImportAtom) (nameOffset : Nat) : Except String (BitVec 32) :=
  if nameOffset % 2 ^ 32 % 2 ^ 23 = nameOffset % 2 ^ 32 then
    .ok (put 32 0 (BitVec.ofInt 8 atom.libOrdinal) ||| put 32 8 (BitVec.ofBool atom.weakImport) |||
      put 32 9 (BitVec.ofNat 23 nameOffset))
  else .error "assertion failed: name_offset == nameOffset"

open BitField in
def packImport64 (atom : ImportAtom) (nameOffset : Nat) : BitVec 64 :=
  put 64 0 (BitVec.ofInt 16 atom.libOrdinal) ||| put 64 16 (BitVec.ofBool atom.weakImport) |||
    put 64 32 (BitVec.ofNat 32 nameOffset)

def encodeImport (format : ImportsFormat) (atom : ImportAtom) (addend : BitVec 64) (nameOffset : Nat) :
    Except String ImportEntry :=
  match format with
  | .import_ => (packImport atom nameOffset).map .import_
  | .addend =>
    if (addend.setWidth 32).signExtend 64 = addend then
      (packImport atom nameOffset).map fun fields => .addend fields (addend.setWidth 32)
    else .error "assertion failed: (uint64_t)anImportA.addend == addend"
  | .addend64 => .ok (.addend64 (packImport64 atom nameOffset) addend)

/-- The loop over the targets, with the pool of names as it is so far. -/
def encodeImports (format : ImportsFormat) : List UInt8 → List (α × BitVec 64) →
    Except String (List ImportEntry × List UInt8)
  | stringPool, [] => .ok ([], stringPool)
  | stringPool, (a, addend) :: rest =>
    (encodeImport format (atoms.atom a) addend stringPool.length).bind fun entry =>
      (encodeImports format (stringPool ++ ((atoms.atom a).name ++ [0])) rest).map fun table =>
        (entry :: table.1, table.2)

/-- The imports and symbols of `encode`. -/
def encodeTable (binds : ChainedFixupBinds α) : Except String (List ImportEntry × List UInt8) :=
  encodeImports atoms (importsFormat atoms binds) [0] binds.bindsTargets

end Table

/-! ## Reading the table -/

structure FixupTarget where
  symbolName : List UInt8
  addend : BitVec 64
  weakImport : Bool
  libraryOrdinal : Int
  deriving DecidableEq, Repr

def libOrdinalFromUInt8 (value : BitVec 8) : Int :=
  if value = 0xFF then -1 else if value = 0xFE then -2 else if value = 0xFD then -3 else value.toNat

def libOrdinalFromUInt16 (value : BitVec 16) : Int :=
  if value = 0xFFFF then -1 else if value = 0xFFFE then -2 else if value = 0xFFFD then -3
  else value.toNat

/-- The string at an offset of the pool, the one at 0 when the offset is past its end. -/
def symbolAt (pool : List UInt8) (offset : Nat) : List UInt8 :=
  (pool.drop (if pool.length < offset then 0 else offset)).takeWhile (· ≠ 0)

/-- An entry of the table, as `get_fixup_targets` records it. -/
def fixupTarget (pool : List UInt8) : ImportEntry → FixupTarget
  | .import_ fields =>
    ⟨symbolAt pool (fields.extractLsb' 9 23).toNat, 0, fields.extractLsb' 8 1 ≠ 0,
      libOrdinalFromUInt8 (fields.extractLsb' 0 8)⟩
  | .addend fields addend =>
    ⟨symbolAt pool (fields.extractLsb' 9 23).toNat, addend.signExtend 64, fields.extractLsb' 8 1 ≠ 0,
      libOrdinalFromUInt8 (fields.extractLsb' 0 8)⟩
  | .addend64 fields addend =>
    ⟨symbolAt pool (fields.extractLsb' 32 32).toNat, addend, fields.extractLsb' 16 1 ≠ 0,
      libOrdinalFromUInt16 (fields.extractLsb' 0 16)⟩

/-- What a pointer binds to, with the whole addend. -/
def readTarget (format : PointerFormat) (table : List ImportEntry × List UInt8) (word : BitVec 64) :
    Option FixupTarget := do
  let (ordinal, addend) ← readBind format word
  let entry ← table.1[ordinal]?
  let target := fixupTarget table.2 entry
  return { target with addend := target.addend + addend }

/-! ## A whole image -/

section Image

variable {format : PointerFormat} {α : Type} [DecidableEq α]

/-- The targets of the pointers, in the order in which they are planned. -/
def collectBinds (requests : List (BindRequest format α)) : ChainedFixupBinds α :=
  requests.foldl (fun binds request =>
    binds.ensureTarget request.atom request.authData.isSome request.importAddend) .empty

/-- The word of one pointer, once all targets are known. -/
def bindPointer (binds : ChainedFixupBinds α) (request : BindRequest format α) :
    Except String (BitVec 64) :=
  match binds.ordinal request.atom request.importAddend with
  | none => .error "assertion failed: bind ordinal missing"
  | some bindOrdinal =>
    if format = .ptr32Firmware then setFirmwareRebase request.importAddend
    else setBind format request.authData bindOrdinal request.inlineAddend

end Image

end Cctools.OutputFile
