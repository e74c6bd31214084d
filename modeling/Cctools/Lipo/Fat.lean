/-
# Cctools.Lipo.Fat -- writing fat files and reading them

`create_fat` sorts the thin files, lays them out behind a header with one entry for
each, and writes everything at its offset.  With `-hideARM64` the header counts
fewer architectures than there are entries; `process_input_file` then looks behind
the entries for one more.

All numbers in a fat file are big endian.  The reader runs on a little endian host:
its loop for the first offset forgets to swap.

`qsort` is the one of the C library.  Only what a fat file needs of
`process_input_file` is here, not its branches for other kinds of files.
-/
import Cctools.Theory.Bytes
import Mathlib.Data.List.Basic

namespace Cctools.Lipo

set_option autoImplicit false

open Cctools.Theory

/-! ## Thin files -/

def cpuTypeArm : BitVec 32 := 12

def cpuTypeArm64 : BitVec 32 := 0x0100000C

def cpuSubtypeMask : BitVec 32 := 0xFF000000

def maxSectAlign : Nat := 15

structure Arch where
  cputype : BitVec 32
  cpusubtype : BitVec 32
  deriving DecidableEq, Repr

/-- The feature flags of a subtype do not count. -/
def Arch.same (a b : Arch) : Bool :=
  a.cputype = b.cputype && a.cpusubtype &&& ~~~cpuSubtypeMask = b.cpusubtype &&& ~~~cpuSubtypeMask

/-- `align` is guessed from the file, and never above 2^15. -/
structure ThinFile where
  arch : Arch
  align : Nat
  content : List UInt8
  aligned : align ≤ maxSectAlign
  deriving DecidableEq, Repr

def ThinFile.size (file : ThinFile) : Nat := file.content.length

/-- `get_mh_filetype`; the third branch of the source swaps for the wrong magic. -/
def getMhFiletype (content : List UInt8) : Nat :=
  match content.take 4 with
  | [0xCE, 0xFA, 0xED, 0xFE] => if 28 ≤ content.length then readLe 4 (content.drop 12) else 0
  | [0xFE, 0xED, 0xFA, 0xCE] => if 28 ≤ content.length then readBe 4 (content.drop 12) else 0
  | [0xCF, 0xFA, 0xED, 0xFE] | [0xFE, 0xED, 0xFA, 0xCF] =>
    if 32 ≤ content.length then readLe 4 (content.drop 12) else 0
  | _ => 0

def mhExecute : Nat := 2

/-! ## Writing -/

structure SegAlign where
  arch : Arch
  align : Nat
  small : align ≤ maxSectAlign
  deriving DecidableEq, Repr

def foldSegalign (files : List ThinFile) (segalign : SegAlign) : Except String (List ThinFile) :=
  match files.findIdx? fun file => segalign.arch.same file.arch with
  | none => .error "-segalign specified but resulting fat file does not contain that architecture"
  | some j => .ok (files.modify j fun file => { file with align := segalign.align, aligned := segalign.small })

def foldSegaligns (segaligns : List SegAlign) (files : List ThinFile) : Except String (List ThinFile) :=
  if segaligns.Pairwise fun a b => ¬ a.arch.same b.arch then segaligns.foldlM foldSegalign files
  else .error "-segalign specified multiple times"

def cmpQsort (thin1 thin2 : ThinFile) : Int :=
  if thin1.arch.cputype = thin2.arch.cputype then
    (thin1.arch.cpusubtype &&& ~~~cpuSubtypeMask).toInt - (thin2.arch.cpusubtype &&& ~~~cpuSubtypeMask).toInt
  else if thin1.arch.cputype = cpuTypeArm64 then 1
  else if thin2.arch.cputype = cpuTypeArm64 then -1
  else thin1.align - thin2.align

structure Flags where
  fat64 : Bool
  hideARM64 : Bool
  deriving DecidableEq, Repr

/-- The loop of `-hideARM64`: whether there are ARM and ARM64 files, and how many of the latter. -/
def hideLoop : Bool → Nat → List ThinFile → Except String (Bool × Nat)
  | hasArm32, numArm64, [] => .ok (hasArm32, numArm64)
  | hasArm32, numArm64, file :: rest =>
    if getMhFiletype file.content ≠ mhExecute then
      .error "-hideARM64 specified but thin file is not of type MH_EXECUTE"
    else if 0 < numArm64 && file.arch.cputype ≠ cpuTypeArm64 then
      .error "-hideARM64 specified but thin files are not in correct order"
    else
      hideLoop (hasArm32 || file.arch.cputype = cpuTypeArm)
        (if file.arch.cputype = cpuTypeArm64 then numArm64 + 1 else numArm64) rest

/-- `fat_header.nfat_arch`. -/
def nfatArch (flags : Flags) (files : List ThinFile) : Except String Nat :=
  if flags.hideARM64 then
    (hideLoop false 0 files).map fun (hasArm32, numArm64) =>
      if hasArm32 && 0 < numArm64 then files.length - numArm64 else files.length
  else .ok files.length

/-- `rnd` for a power of two. -/
def rnd (v r : Nat) : Nat := (v + (r - 1)) / r * r

def layoutFrom (fat64 : Bool) : Nat → List ThinFile → Except String (List (Nat × ThinFile))
  | _, [] => .ok []
  | offset, file :: rest =>
    let here := rnd offset (2 ^ file.align)
    if fat64 = false && 0xFFFFFFFF < here then
      .error "fat file too large to be created because the offset field in struct fat_arch is only 32-bits"
    else (layoutFrom fat64 (here + file.size) rest).map ((here, file) :: ·)

def headerSize : Nat := 8

/-- The sizes of `struct fat_arch` and `struct fat_arch_64`. -/
def archSize (fat64 : Bool) : Nat := if fat64 then 32 else 20

/-- `reserved` is not set. -/
def encodeArch (fat64 : Bool) (reserved : Nat) (slice : Nat × ThinFile) : List UInt8 :=
  if fat64 then
    beBytes 4 slice.2.arch.cputype.toNat ++ (beBytes 4 slice.2.arch.cpusubtype.toNat ++
      (beBytes 8 slice.1 ++ (beBytes 8 slice.2.size ++ (beBytes 4 slice.2.align ++ beBytes 4 reserved))))
  else
    beBytes 4 slice.2.arch.cputype.toNat ++ (beBytes 4 slice.2.arch.cpusubtype.toNat ++
      (beBytes 4 slice.1 ++ (beBytes 4 slice.2.size ++ beBytes 4 slice.2.align)))

def fatMagic (fat64 : Bool) : Nat := if fat64 then 0xCAFEBABF else 0xCAFEBABE

/-- `lseek` and `write`: a hole is zeros, and nothing written does not reach anywhere. -/
def writeAt (file : List UInt8) (offset : Nat) (data : List UInt8) : List UInt8 :=
  if data = [] then file
  else (file ++ List.replicate (offset - file.length) 0).take offset ++ (data ++ file.drop (offset + data.length))

section Create

variable (qsort : (ThinFile → ThinFile → Int) → List ThinFile → List ThinFile)

def createFat (flags : Flags) (segaligns : List SegAlign) (reserved : Nat) (thinFiles : List ThinFile) :
    Except String (List UInt8) := do
  let folded ← foldSegaligns segaligns thinFiles
  let files := qsort cmpQsort folded
  let nfat ← nfatArch flags files
  let slices ← layoutFrom flags.fat64 (headerSize + archSize flags.fat64 * files.length) files
  let header := beBytes 4 (fatMagic flags.fat64) ++
    (beBytes 4 nfat ++ slices.flatMap (encodeArch flags.fat64 reserved))
  return slices.foldl (fun file slice => writeAt file slice.1 slice.2.content) header

end Create

/-! ## Reading -/

structure FatArch where
  arch : Arch
  offset : Nat
  size : Nat
  align : Nat
  deriving DecidableEq, Repr

def readArch (fat64 : Bool) (bytes : List UInt8) : FatArch :=
  let word (at_ : Nat) := readBe 4 (bytes.drop at_)
  if fat64 then
    ⟨⟨BitVec.ofNat 32 (word 0), BitVec.ofNat 32 (word 4)⟩, readBe 8 (bytes.drop 8), readBe 8 (bytes.drop 16), word 24⟩
  else ⟨⟨BitVec.ofNat 32 (word 0), BitVec.ofNat 32 (word 4)⟩, word 8, word 12, word 16⟩

def readArches (fat64 : Bool) : Nat → List UInt8 → List FatArch
  | 0, _ => []
  | n + 1, bytes => readArch fat64 bytes :: readArches fat64 n (bytes.drop (archSize fat64))

/-- The least of the offsets, as the little endian host has them before they are swapped. -/
def firstOffset : Nat → Nat → List UInt8 → Nat
  | first, 0, _ => first
  | first, n + 1, bytes =>
    let offset := readLe 4 (bytes.drop 8)
    firstOffset (if offset < first then offset else first) n (bytes.drop (archSize false))

/-- Whether there is a hidden arm64 entry behind the ones the header counts. -/
def hasHidden (nfat : Nat) (bytes : List UInt8) : Bool :=
  let bigSize := nfat * archSize false + headerSize
  bigSize + archSize false ≤ bytes.length &&
    bigSize + archSize false ≤ firstOffset 0xFFFFFFFF nfat (bytes.drop headerSize) &&
    (readArch false (bytes.drop bigSize)).arch.cputype = cpuTypeArm64

/-- The sum is one of 32 or 64 bits. -/
def checkArch (fat64 : Bool) (size : Nat) (arch : FatArch) : Except String Unit :=
  if size < (arch.offset + arch.size) % 2 ^ (if fat64 then 64 else 32) then
    .error "truncated or malformed fat file (offset plus size extends past the end of the file)"
  else if maxSectAlign < arch.align then .error "align too large of fat file"
  else if arch.offset % 2 ^ arch.align ≠ 0 then .error "offset of fat file not aligned on its alignment"
  else .ok ()

structure Slice where
  arch : Arch
  offset : Nat
  size : Nat
  align : Nat
  content : List UInt8
  deriving DecidableEq, Repr

def FatArch.slice (bytes : List UInt8) (arch : FatArch) : Slice :=
  ⟨arch.arch, arch.offset, arch.size, arch.align, (bytes.drop arch.offset).take arch.size⟩

def processFat (fat64 : Bool) (bytes : List UInt8) : Except String (List Slice) := do
  let nfat := readBe 4 (bytes.drop 4)
  if bytes.length < nfat * archSize fat64 + headerSize then
    .error "truncated or malformed fat file (fat_arch structs would extend past the end of the file)"
  let found := if fat64 = false && hasHidden nfat bytes then nfat + 1 else nfat
  let arches := readArches fat64 found (bytes.drop headerSize)
  arches.forM (checkArch fat64 bytes.length)
  if arches.Pairwise fun a b => ¬ a.arch.same b.arch then return arches.map (FatArch.slice bytes)
  else .error "fat file contains two of the same architecture"

def processInputFile (bytes : List UInt8) : Except String (List Slice) :=
  if headerSize ≤ bytes.length && readBe 4 bytes = fatMagic false then processFat false bytes
  else if headerSize ≤ bytes.length && readBe 4 bytes = fatMagic true then processFat true bytes
  else .error "not a fat file"

end Cctools.Lipo
