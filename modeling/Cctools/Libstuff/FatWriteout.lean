/-
# Cctools.Libstuff.FatWriteout -- where writeout puts the slices

`writeout_to_mem` of libstuff adds up the size of the file in one loop and the offsets of
the slices in a second one.  In the format with 32-bit fields an offset is checked before it
is rounded up to the alignment of its slice, and the rounded one is stored.

`writeoutToMem_laidOut_iff` says what that costs: the slices are where they belong just when
every one begins below 2^32 in that format, and the true end fits 64 bits.
-/
import Cctools.Lipo.FatRoundTrip
import Cctools.Theory.BitField

namespace Cctools.Libstuff.FatWriteout

set_option autoImplicit false

open Cctools.Theory Cctools.Lipo

/-! ## Architectures -/

/-- What is written for an architecture.  Of an archive `librarySize` counts the members only, and
`tocSize` the table of contents with its header. -/
inductive Contents
  | archive (librarySize : BitVec 64) (tocSize : BitVec 32)
  | machO (objectSize inputSymInfoSize outputNewContentSize outputSymInfoSize : BitVec 32)
  | unknown
  deriving DecidableEq, Repr

/-- `struct arch`, with the fields of its `fat_arch` or `fat_arch_64`. -/
structure Arch where
  fileName : String
  fatArchName : String
  cputype : BitVec 32
  cpusubtype : BitVec 32
  align : Nat
  align_le : align ≤ 15
  contents : Contents
  unknownSize : BitVec 64
  deriving DecidableEq

/-- One architecture on its own, or a fat file of either kind. -/
inductive Format
  | thin
  | fat
  | fat64
  deriving DecidableEq, Repr

/-- The architectures are all of one kind. -/
structure Archs where
  format : Format
  list : List Arch
  some_ : list ≠ []
  one_of_thin : format = .thin → list.length = 1
  narrow : list.length < 2 ^ 32

def sarmag : BitVec 32 := 8

/-- `struct fat_header`, and one `fat_arch` for each. -/
def Format.headerSize (format : Format) (narchs : Nat) : Nat :=
  match format with
  | .thin => 0
  | .fat => Lipo.headerSize + archSize false * narchs
  | .fat64 => Lipo.headerSize + archSize true * narchs

/-! ## Sizes -/

def rnd64 (v r : BitVec 64) : BitVec 64 := (v + (r - 1)) &&& ~~~(r - 1)

def Format.align (format : Format) (offset : BitVec 64) (arch : Arch) : BitVec 64 :=
  match format with
  | .thin => offset
  | .fat | .fat64 => rnd64 offset (1#64 <<< arch.align)

/-- The message for an archive prints the size of other data too. -/
def sizeError (what : String) (arch : Arch) : String :=
  "file too large to create as a fat file because size field in struct fat_arch is only 32-bits and " ++ what ++
    " (" ++ toString arch.unknownSize.toNat ++ ") of file " ++ arch.fileName ++ " exceeds that"

/-- The size that is stored.  `SARMAG` and the size of the table are added in 32 bits. -/
def Arch.size (format : Format) (arch : Arch) : Except String (BitVec 64) :=
  match arch.contents with
  | .archive librarySize tocSize =>
    let librarySize := librarySize + (sarmag + tocSize).setWidth 64
    if format = .fat ∧ 0xFFFFFFFF < librarySize then .error (sizeError "library_size" arch)
    else .ok librarySize
  | .machO objectSize inputSymInfoSize outputNewContentSize outputSymInfoSize =>
    let fullSize := objectSize.setWidth 64 - inputSymInfoSize.setWidth 64 +
      outputNewContentSize.setWidth 64 + outputSymInfoSize.setWidth 64
    if 0xFFFFFFFF < fullSize then
      .error ("file too large to create because the size of output for file " ++ arch.fileName ++
        " exceeds 32-bits ")
    else .ok ((fullSize.setWidth 32).setWidth 64)
  | .unknown =>
    if format = .fat ∧ 0xFFFFFFFF < arch.unknownSize then .error (sizeError "unknown_size" arch)
    else .ok arch.unknownSize

/-- The first loop: the size of the file, and that of each architecture. -/
def sumSizes (format : Format) : BitVec 64 → List Arch → Except String (BitVec 64 × List (BitVec 64))
  | fileSize, [] => .ok (fileSize, [])
  | fileSize, arch :: rest => do
      let size ← arch.size format
      let (fileSize, sizes) ← sumSizes format (format.align fileSize arch + size) rest
      return (fileSize, size :: sizes)

/-! ## Offsets -/

structure FatArch where
  cputype : BitVec 32
  cpusubtype : BitVec 32
  offset : BitVec 64
  size : BitVec 64
  align : Nat
  deriving DecidableEq, Repr

/-- A field of the format. -/
def Format.field (format : Format) (value : BitVec 64) : BitVec 64 :=
  match format with
  | .fat => (value.setWidth 32).setWidth 64
  | .thin | .fat64 => value

def offsetError (offset : BitVec 64) (arch : Arch) : String :=
  "file too large to create as a fat file because offset field in struct fat_arch is only 32-bits and offset (" ++
    toString offset.toNat ++ ") to architecture " ++ arch.fatArchName ++ " exceeds that"

/-- The second loop. -/
def fillFatArchs (format : Format) : BitVec 64 → List (Arch × BitVec 64) → Except String (List FatArch)
  | _, [] => .ok []
  | offset, (arch, size) :: rest =>
    if format = .fat ∧ 0xFFFFFFFF < offset then .error (offsetError offset arch)
    else do
      let offset := format.align offset arch
      let entry : FatArch :=
        ⟨arch.cputype, arch.cpusubtype, format.field offset, format.field size, arch.align⟩
      let entries ← fillFatArchs format (offset + format.field size) rest
      return entry :: entries

/-- The bytes that are copied for an architecture. -/
def Arch.length (arch : Arch) : Nat :=
  match arch.contents with
  | .archive librarySize tocSize => librarySize.toNat + (sarmag.toNat + tocSize.toNat)
  | .machO objectSize inputSymInfoSize outputNewContentSize outputSymInfoSize =>
    objectSize.toNat + outputNewContentSize.toNat + outputSymInfoSize.toNat - inputSymInfoSize.toNat
  | .unknown => arch.unknownSize.toNat

/-- What is left in memory: the size of the buffer, the entries of the header, and where how many
bytes were copied to. -/
structure Written where
  fileSize : BitVec 64
  fatArchs : List FatArch
  copied : List (Nat × Nat)
  deriving DecidableEq, Repr

/-- `vmAllocate` says whether there is room for a buffer. -/
def writeoutToMem (vmAllocate : BitVec 64 → Bool) (archs : Archs) : Except String Written := do
  let headerSize := BitVec.ofNat 64 (archs.format.headerSize archs.list.length)
  let (fileSize, sizes) ← sumSizes archs.format headerSize archs.list
  if vmAllocate fileSize then
    match archs.format with
    | .thin => return ⟨fileSize, [], archs.list.map fun arch => (0, arch.length)⟩
    | .fat | .fat64 =>
      let fatArchs ← fillFatArchs archs.format headerSize (archs.list.zip sizes)
      return ⟨fileSize, fatArchs, fatArchs.zipWith (fun entry arch => (entry.offset.toNat, arch.length)) archs.list⟩
  else .error ("can't vm_allocate() buffer for output file of size " ++ toString fileSize.toNat)

/-! ## Where the slices belong -/

/-- `align`, without a bound. -/
def Format.aligned (format : Format) (offset : Nat) (arch : Arch) : Nat :=
  match format with
  | .thin => offset
  | .fat | .fat64 => Lipo.rnd offset (2 ^ arch.align)

/-- Position and length of each slice, from an offset on. -/
def placesFrom (format : Format) : Nat → List Arch → List (Nat × Nat)
  | _, [] => []
  | offset, arch :: rest =>
    (format.aligned offset arch, arch.length) :: placesFrom format (format.aligned offset arch + arch.length) rest

def stopFrom (format : Format) : Nat → List Arch → Nat
  | offset, [] => offset
  | offset, arch :: rest => stopFrom format (format.aligned offset arch + arch.length) rest

theorem Format.le_aligned (format : Format) (offset : Nat) (arch : Arch) : offset ≤ format.aligned offset arch := by
  cases format with
  | thin => exact le_rfl
  | fat | fat64 => exact Lipo.le_rnd _ _

theorem le_stopFrom (format : Format) (offset : Nat) (list : List Arch) : offset ≤ stopFrom format offset list := by
  induction list generalizing offset with
  | nil => exact le_rfl
  | cons arch rest ih =>
    have := ih (format.aligned offset arch + arch.length)
    have := format.le_aligned offset arch
    rw [stopFrom]
    omega

theorem placesFrom_inside (format : Format) (offset : Nat) (list : List Arch) :
    ∀ slice ∈ placesFrom format offset list, offset ≤ slice.1 ∧ slice.1 + slice.2 ≤ stopFrom format offset list := by
  induction list generalizing offset with
  | nil => nofun
  | cons arch rest ih =>
    intro slice member
    have here := format.le_aligned offset arch
    obtain rfl | later := List.mem_cons.mp member
    · exact ⟨here, le_stopFrom format _ rest⟩
    · obtain ⟨behind, inside⟩ := ih _ slice later
      exact ⟨by omega, inside⟩

theorem placesFrom_apart (format : Format) (offset : Nat) (list : List Arch) :
    (placesFrom format offset list).Pairwise fun a b => a.1 + a.2 ≤ b.1 := by
  induction list generalizing offset with
  | nil => exact .nil
  | cons arch rest ih => exact .cons (fun slice later => (placesFrom_inside format _ rest slice later).1) (ih _)

variable {list : List Arch}

theorem placesFrom_last (format : Format) (offset : Nat) (some_ : list ≠ []) :
    ∃ last, (placesFrom format offset list).getLast? = some last ∧ stopFrom format offset list = last.1 + last.2 := by
  induction list generalizing offset with
  | nil => exact absurd rfl some_
  | cons arch rest ih =>
    cases rest with
    | nil => exact ⟨_, rfl, rfl⟩
    | cons second others =>
      obtain ⟨last, isLast, stop⟩ := ih (format.aligned offset arch + arch.length) (by simp)
      refine ⟨last, ?_, stop⟩
      rw [placesFrom, List.getLast?_cons, isLast]
      rfl

theorem placesFrom_lengths (format : Format) (offset : Nat) (list : List Arch) :
    (placesFrom format offset list).map Prod.snd = list.map Arch.length := by
  induction list generalizing offset with
  | nil => rfl
  | cons arch rest ih => rw [placesFrom, List.map_cons, List.map_cons, ih]

def Archs.headerSize (archs : Archs) : Nat := archs.format.headerSize archs.list.length

def Archs.places (archs : Archs) : List (Nat × Nat) := placesFrom archs.format archs.headerSize archs.list

def Archs.stop (archs : Archs) : Nat := stopFrom archs.format archs.headerSize archs.list

/-- The file as it should be. -/
structure LaidOut (archs : Archs) (written : Written) : Prop where
  entries : archs.format ≠ .thin →
    written.fatArchs.map (fun entry => (entry.offset.toNat, entry.size.toNat)) = archs.places
  copied : written.copied = archs.places
  aligned : ∀ entry ∈ written.fatArchs, 2 ^ entry.align ∣ entry.offset.toNat
  behindHeader : ∀ slice ∈ written.copied, archs.headerSize ≤ slice.1
  apart : written.copied.Pairwise fun a b => a.1 + a.2 ≤ b.1
  inside : ∀ slice ∈ written.copied, slice.1 + slice.2 ≤ written.fileSize.toNat
  ends : ∃ last, written.copied.getLast? = some last ∧ written.fileSize.toNat = last.1 + last.2

/-- The magic string and the table of contents of an archive are counted in 32 bits. -/
def Arch.SmallTable (arch : Arch) : Prop :=
  match arch.contents with
  | .archive _ tocSize => sarmag.toNat + tocSize.toNat < 2 ^ 32
  | .machO .. | .unknown => True

structure Fits (archs : Archs) : Prop where
  tables : ∀ arch ∈ archs.list, arch.SmallTable
  offsets : archs.format = .fat → ∀ slice ∈ archs.places, slice.1 < 2 ^ 32
  stop : archs.stop < 2 ^ 64

/-! ## Rounding -/

theorem rnd64_toNat (v : BitVec 64) {k : Nat} (small : k ≤ 15) :
    (rnd64 v (1#64 <<< k)).toNat = (v.toNat + (2 ^ k - 1)) % 2 ^ 64 / 2 ^ k * 2 ^ k := by
  have low : ∀ k ≤ 15, (1#64 <<< k - (1 : BitVec 64)).toNat = 2 ^ k - 1 := by decide
  have high : ∀ k ≤ 15, ~~~(1#64 <<< k - (1 : BitVec 64)) = BitVec.allOnes 64 <<< k := by decide
  rw [rnd64, BitField.toNat_and_high _ _ (high k small), BitVec.toNat_add, low k small]

variable {format : Format} {offset : BitVec 64}

theorem Format.align_toNat {arch : Arch} (fits : format.aligned offset.toNat arch < 2 ^ 64) :
    (format.align offset arch).toNat = format.aligned offset.toNat arch := by
  have rounds (fits : Lipo.rnd offset.toNat (2 ^ arch.align) < 2 ^ 64) :
      (rnd64 offset (1#64 <<< arch.align)).toNat = Lipo.rnd offset.toNat (2 ^ arch.align) := by
    rw [rnd64_toNat offset arch.align_le, Lipo.rnd]
    rw [Nat.mod_eq_of_lt]
    by_contra past
    have whole : 2 ^ 64 / 2 ^ arch.align * 2 ^ arch.align = 2 ^ 64 :=
      Nat.div_mul_cancel (Nat.pow_dvd_pow 2 (by have := arch.align_le; omega))
    have quotients : 2 ^ 64 / 2 ^ arch.align ≤ (offset.toNat + (2 ^ arch.align - 1)) / 2 ^ arch.align :=
      Nat.div_le_div_right (not_lt.mp past)
    have more := Nat.mul_le_mul_right (2 ^ arch.align) quotients
    rw [Lipo.rnd] at fits
    omega
  cases format with
  | thin => rfl
  | fat | fat64 => exact rounds fits

theorem Format.dvd_align (notThin : format ≠ .thin) (offset : BitVec 64) (arch : Arch) :
    2 ^ arch.align ∣ (format.field (format.align offset arch)).toNat := by
  have rounded : 2 ^ arch.align ∣ (rnd64 offset (1#64 <<< arch.align)).toNat := by
    rw [rnd64_toNat offset arch.align_le]
    exact Nat.dvd_mul_left _ _
  cases format with
  | thin => exact absurd rfl notThin
  | fat64 => exact rounded
  | fat =>
    have whole : 2 ^ arch.align ∣ 2 ^ 32 := Nat.pow_dvd_pow 2 (by have := arch.align_le; omega)
    show 2 ^ arch.align ∣ (((rnd64 offset (1#64 <<< arch.align)).setWidth 32).setWidth 64).toNat
    rw [BitVec.toNat_setWidth_of_le (by decide), BitVec.toNat_setWidth]
    exact (Nat.dvd_mod_iff whole).mpr rounded

/-! ## The loops -/

/-- The size is that of the slice if the table of contents is small, and fits its field. -/
theorem Arch.size_ok {arch : Arch} {size : BitVec 64} (isOk : arch.size format = .ok size) :
    (arch.SmallTable → arch.length < 2 ^ 64 → size.toNat = arch.length) ∧
      (size.toNat = arch.length → arch.SmallTable) ∧ (format = .fat → size.toNat < 2 ^ 32) := by
  cases contents : arch.contents with
  | archive librarySize tocSize =>
    simp only [Arch.size, Arch.length, SmallTable, contents] at isOk ⊢
    have sum : (sarmag + tocSize).toNat = (sarmag.toNat + tocSize.toNat) % 2 ^ 32 := BitVec.toNat_add _ _
    have total : (librarySize + (sarmag + tocSize).setWidth 64).toNat =
        (librarySize.toNat + (sarmag.toNat + tocSize.toNat) % 2 ^ 32) % 2 ^ 64 := by
      rw [BitVec.toNat_add, BitVec.toNat_setWidth_of_le (by decide), sum]
    have tocLt := tocSize.isLt
    have magic : sarmag.toNat = 8 := rfl
    split at isOk
    · cases isOk
    · rename_i small
      obtain rfl := Except.ok.inj isOk
      rw [total]
      refine ⟨by omega, by omega, ?_⟩
      rintro rfl
      have bound := BitVec.not_lt.mp fun large => small ⟨rfl, large⟩
      rw [BitVec.le_def, total] at bound
      have : (0xFFFFFFFF : BitVec 64).toNat = 2 ^ 32 - 1 := rfl
      omega
  | machO objectSize inputSymInfoSize outputNewContentSize outputSymInfoSize =>
    simp only [Arch.size, Arch.length, SmallTable, contents] at isOk ⊢
    have objectLt := objectSize.isLt
    have inputLt := inputSymInfoSize.isLt
    have contentLt := outputNewContentSize.isLt
    have outputLt := outputSymInfoSize.isLt
    split at isOk
    · cases isOk
    · rename_i small
      obtain rfl := Except.ok.inj isOk
      rw [BitVec.not_lt, BitVec.le_def] at small
      have bound : (0xFFFFFFFF : BitVec 64).toNat = 2 ^ 32 - 1 := rfl
      rw [BitVec.toNat_setWidth_of_le (by decide), BitVec.toNat_setWidth]
      simp only [BitVec.toNat_add, BitVec.toNat_sub, BitVec.toNat_setWidth_of_le (show 32 ≤ 64 by decide), bound]
        at small ⊢
      exact ⟨fun _ _ => by omega, fun _ => trivial, fun _ => by omega⟩
  | unknown =>
    simp only [Arch.size, Arch.length, SmallTable, contents] at isOk ⊢
    split at isOk
    · cases isOk
    · rename_i small
      obtain rfl := Except.ok.inj isOk
      refine ⟨fun _ _ => rfl, fun _ => trivial, ?_⟩
      rintro rfl
      have bound := BitVec.not_lt.mp fun large => small ⟨rfl, large⟩
      rw [BitVec.le_def] at bound
      have : (0xFFFFFFFF : BitVec 64).toNat = 2 ^ 32 - 1 := rfl
      omega

theorem Format.field_toNat {value : BitVec 64} (fits : format = .fat → value.toNat < 2 ^ 32) :
    (format.field value).toNat = value.toNat := by
  cases format with
  | thin | fat64 => rfl
  | fat =>
    show ((value.setWidth 32).setWidth 64).toNat = _
    rw [BitVec.toNat_setWidth_of_le (by decide), BitVec.toNat_setWidth, Nat.mod_eq_of_lt (fits rfl)]

theorem Format.field_lt (value : BitVec 64) : (Format.fat.field value).toNat < 2 ^ 32 := by
  show ((value.setWidth 32).setWidth 64).toNat < _
  rw [BitVec.toNat_setWidth_of_le (by decide)]
  exact (value.setWidth 32).isLt

variable {sizes : List (BitVec 64)}

theorem sumSizes_sizes {fileSize final : BitVec 64}
    (isOk : sumSizes format fileSize list = .ok (final, sizes)) :
    List.Forall₂ (fun arch size => arch.size format = .ok size) list sizes := by
  induction list generalizing fileSize final sizes with
  | nil =>
    obtain ⟨-, rfl⟩ := Prod.mk.inj (Except.ok.inj isOk)
    exact .nil
  | cons arch rest ih =>
    rw [sumSizes] at isOk
    obtain ⟨size, sizeOk, isOk⟩ := ok_of_bind isOk
    obtain ⟨⟨end_, others⟩, restOk, isOk⟩ := ok_of_bind isOk
    obtain ⟨-, rfl⟩ := Prod.mk.inj (Except.ok.inj isOk)
    exact .cons sizeOk (ih restOk)

/-- Without a bound the first loop comes to the true end, and each size is right. -/
theorem sumSizes_toNat {fileSize final : BitVec 64}
    (isOk : sumSizes format fileSize list = .ok (final, sizes)) (tables : ∀ arch ∈ list, arch.SmallTable)
    (fits : stopFrom format fileSize.toNat list < 2 ^ 64) :
    final.toNat = stopFrom format fileSize.toNat list ∧ sizes.map BitVec.toNat = list.map Arch.length := by
  induction list generalizing fileSize final sizes with
  | nil =>
    obtain ⟨rfl, rfl⟩ := Prod.mk.inj (Except.ok.inj isOk)
    exact ⟨rfl, rfl⟩
  | cons arch rest ih =>
    rw [sumSizes] at isOk
    obtain ⟨size, sizeOk, isOk⟩ := ok_of_bind isOk
    obtain ⟨⟨end_, others⟩, restOk, isOk⟩ := ok_of_bind isOk
    obtain ⟨rfl, rfl⟩ := Prod.mk.inj (Except.ok.inj isOk)
    rw [stopFrom] at fits ⊢
    have inside := (le_stopFrom format _ rest).trans_lt fits
    have sizeEq := (Arch.size_ok sizeOk).1 (tables arch List.mem_cons_self) (by omega)
    have next : (format.align fileSize arch + size).toNat = format.aligned fileSize.toNat arch + arch.length := by
      rw [BitVec.toNat_add, format.align_toNat (by omega), sizeEq, Nat.mod_eq_of_lt inside]
    obtain ⟨stop, lengths⟩ := ih restOk (fun other later => tables other (List.mem_cons_of_mem _ later))
      (by rw [next]; exact fits)
    rw [next] at stop
    exact ⟨stop, by rw [List.map_cons, List.map_cons, sizeEq, lengths]⟩

theorem tables_of_lengths (ofSize : List.Forall₂ (fun arch size => arch.size format = .ok size) list sizes)
    (lengths : sizes.map BitVec.toNat = list.map Arch.length) : ∀ arch ∈ list, arch.SmallTable := by
  induction ofSize with
  | nil => nofun
  | cons sizeOk _ ih =>
    obtain ⟨here, later⟩ := List.cons.inj lengths
    intro arch member
    obtain rfl | other := List.mem_cons.mp member
    · exact (Arch.size_ok sizeOk).2.1 here
    · exact ih later arch other

theorem fillFatArchs_toNat
    {entries : List FatArch} (isOk : fillFatArchs format offset (list.zip sizes) = .ok entries)
    (ofSize : List.Forall₂ (fun arch size => arch.size format = .ok size) list sizes)
    (lengths : sizes.map BitVec.toNat = list.map Arch.length)
    (offsets : format = .fat → ∀ slice ∈ placesFrom format offset.toNat list, slice.1 < 2 ^ 32)
    (fits : stopFrom format offset.toNat list < 2 ^ 64) :
    entries.map (fun entry => (entry.offset.toNat, entry.size.toNat)) = placesFrom format offset.toNat list := by
  induction ofSize generalizing offset entries with
  | nil =>
    obtain rfl := Except.ok.inj isOk
    rfl
  | @cons arch size rest others sizeOk ofRest ih =>
    rw [List.map_cons, List.map_cons, List.cons.injEq] at lengths
    rw [List.zip_cons_cons, fillFatArchs] at isOk
    rw [stopFrom] at fits
    split at isOk
    · cases isOk
    · obtain ⟨more, restOk, isOk⟩ := ok_of_bind isOk
      obtain rfl := Except.ok.inj isOk
      have inside := (le_stopFrom format _ rest).trans_lt fits
      have aligned : (format.align offset arch).toNat = format.aligned offset.toNat arch :=
        format.align_toNat (by omega)
      have sizeField := format.field_toNat (Arch.size_ok sizeOk).2.2
      have offsetField : (format.field (format.align offset arch)).toNat = format.aligned offset.toNat arch := by
        rw [format.field_toNat, aligned]
        intro narrow
        rw [aligned]
        exact offsets narrow _ List.mem_cons_self
      have next : (format.align offset arch + format.field size).toNat =
          format.aligned offset.toNat arch + arch.length := by
        rw [BitVec.toNat_add, aligned, sizeField, lengths.1, Nat.mod_eq_of_lt inside]
      have laterOffsets : format = .fat →
          ∀ slice ∈ placesFrom format (format.align offset arch + format.field size).toNat rest, slice.1 < 2 ^ 32 := by
        rw [next]
        intro narrow slice later
        exact offsets narrow slice (List.mem_cons_of_mem _ later)
      rw [List.map_cons, placesFrom, offsetField, sizeField, lengths.1,
        ih restOk lengths.2 laterOffsets (by rw [next]; exact fits), next]

/-- Whatever the offsets: they are aligned, fit the field, and with each goes the size of its architecture. -/
theorem fillFatArchs_fields {entries : List FatArch} (notThin : format ≠ .thin)
    (isOk : fillFatArchs format offset (list.zip sizes) = .ok entries)
    (ofSize : List.Forall₂ (fun arch size => arch.size format = .ok size) list sizes) :
    (∀ entry ∈ entries, 2 ^ entry.align ∣ entry.offset.toNat ∧ (format = .fat → entry.offset.toNat < 2 ^ 32)) ∧
      entries.map (fun entry => entry.size.toNat) = sizes.map BitVec.toNat := by
  induction ofSize generalizing offset entries with
  | nil =>
    obtain rfl := Except.ok.inj isOk
    exact ⟨nofun, rfl⟩
  | @cons arch size rest others sizeOk ofRest ih =>
    rw [List.zip_cons_cons, fillFatArchs] at isOk
    split at isOk
    · cases isOk
    · obtain ⟨more, restOk, isOk⟩ := ok_of_bind isOk
      obtain rfl := Except.ok.inj isOk
      obtain ⟨fields, sizesEq⟩ := ih restOk
      refine ⟨?_, by rw [List.map_cons, List.map_cons, format.field_toNat (Arch.size_ok sizeOk).2.2, sizesEq]⟩
      intro entry member
      obtain rfl | later := List.mem_cons.mp member
      · exact ⟨Format.dvd_align notThin offset arch, by rintro rfl; exact Format.field_lt _⟩
      · exact fields entry later

/-! ## Writing -/

section Write

variable {vmAllocate : BitVec 64 → Bool} {archs : Archs} {written : Written}

theorem Archs.headerSize_lt (archs : Archs) : archs.headerSize < 2 ^ 64 := by
  have narrow := archs.narrow
  rw [Archs.headerSize]
  cases archs.format with
  | thin => exact Nat.two_pow_pos 64
  | fat =>
    show 8 + 20 * archs.list.length < 2 ^ 64
    omega
  | fat64 =>
    show 8 + 32 * archs.list.length < 2 ^ 64
    omega

theorem Archs.headerSize_toNat (archs : Archs) : (BitVec.ofNat 64 archs.headerSize).toNat = archs.headerSize := by
  rw [BitVec.toNat_ofNat, Nat.mod_eq_of_lt archs.headerSize_lt]

/-- What the two loops found. -/
structure Loops (archs : Archs) (written : Written) (sizes : List (BitVec 64)) : Prop where
  summed : sumSizes archs.format (BitVec.ofNat 64 archs.headerSize) archs.list = .ok (written.fileSize, sizes)
  thin : archs.format = .thin →
    written.fatArchs = [] ∧ written.copied = archs.list.map fun arch => (0, arch.length)
  fat : archs.format ≠ .thin →
    fillFatArchs archs.format (BitVec.ofNat 64 archs.headerSize) (archs.list.zip sizes) = .ok written.fatArchs ∧
      written.copied = written.fatArchs.zipWith (fun entry arch => (entry.offset.toNat, arch.length)) archs.list

theorem writeoutToMem_ok (isOk : writeoutToMem vmAllocate archs = .ok written) : ∃ sizes, Loops archs written sizes := by
  rw [writeoutToMem] at isOk
  obtain ⟨⟨fileSize, sizes⟩, sizesOk, isOk⟩ := ok_of_bind isOk
  dsimp only at isOk
  split at isOk
  · cases format : archs.format with
    | thin =>
      rw [format] at isOk
      obtain rfl := Except.ok.inj isOk
      exact ⟨sizes, sizesOk, fun _ => ⟨rfl, rfl⟩, fun notThin => absurd format notThin⟩
    | fat | fat64 =>
      rw [format] at isOk
      obtain ⟨entries, filled, isOk⟩ := ok_of_bind isOk
      obtain rfl := Except.ok.inj isOk
      refine ⟨sizes, sizesOk, fun thin => ?_, fun _ => ⟨by rw [format]; exact format ▸ filled, rfl⟩⟩
      rw [format] at thin
      cases thin
  · cases isOk

/-- An entry that is right has the bytes copied to the right place. -/
theorem copies_of_entries {format : Format} {offset : Nat} {list : List Arch} {entries : List FatArch}
    (right : entries.map (fun entry => (entry.offset.toNat, entry.size.toNat)) = placesFrom format offset list) :
    entries.zipWith (fun entry arch => (entry.offset.toNat, arch.length)) list = placesFrom format offset list := by
  induction list generalizing offset entries with
  | nil =>
    obtain rfl := List.map_eq_nil_iff.mp right
    rfl
  | cons arch rest ih =>
    obtain ⟨entry, others, rfl, here, later⟩ := List.map_eq_cons_iff.mp right
    rw [List.zipWith_cons_cons, placesFrom, ih later, (Prod.mk.inj here).1]

/-- **Of sizes that fit, everything is where it belongs.** -/
theorem Loops.laidOut {sizes : List (BitVec 64)} (loops : Loops archs written sizes) (fits : Fits archs) :
    LaidOut archs written := by
  have start := archs.headerSize_toNat
  have stop : stopFrom archs.format (BitVec.ofNat 64 archs.headerSize).toNat archs.list < 2 ^ 64 := by
    rw [start]
    exact fits.stop
  obtain ⟨fileSize, lengths⟩ := sumSizes_toNat loops.summed fits.tables stop
  rw [start] at fileSize
  have inFat (notThin : archs.format ≠ .thin) :
      written.fatArchs.map (fun entry => (entry.offset.toNat, entry.size.toNat)) = archs.places := by
    have filled := fillFatArchs_toNat (loops.fat notThin).1 (sumSizes_sizes loops.summed) lengths
      (by rw [start]; exact fits.offsets) stop
    rwa [start] at filled
  have copied : written.copied = archs.places := by
    by_cases thin : archs.format = .thin
    · obtain ⟨arch, single⟩ := List.length_eq_one_iff.mp (archs.one_of_thin thin)
      rw [(loops.thin thin).2, Archs.places, Archs.headerSize, thin, single]
      rfl
    · rw [(loops.fat thin).2]
      exact copies_of_entries (inFat thin)
  refine ⟨inFat, copied, ?_, ?_, ?_, ?_, ?_⟩
  · intro entry member
    by_cases thin : archs.format = .thin
    · rw [(loops.thin thin).1] at member
      cases member
    · exact ((fillFatArchs_fields thin (loops.fat thin).1 (sumSizes_sizes loops.summed)).1 entry member).1
  · rw [copied]
    exact fun slice member => (placesFrom_inside _ _ _ slice member).1
  · rw [copied]
    exact placesFrom_apart _ _ _
  · rw [copied, fileSize]
    exact fun slice member => (placesFrom_inside _ _ _ slice member).2
  · rw [copied, fileSize]
    exact placesFrom_last _ _ archs.some_

theorem Loops.fits {sizes : List (BitVec 64)} (loops : Loops archs written sizes) (laidOut : LaidOut archs written) :
    Fits archs := by
  have ofSize := sumSizes_sizes loops.summed
  obtain ⟨last, isLast, stopEq⟩ := placesFrom_last archs.format archs.headerSize archs.some_
  have stop : written.fileSize.toNat = archs.stop := by
    obtain ⟨copied, isCopied, ends⟩ := laidOut.ends
    rw [laidOut.copied, Archs.places, isLast] at isCopied
    obtain rfl := Option.some.inj isCopied
    rw [ends, Archs.stop, stopEq]
  have lengths : sizes.map BitVec.toNat = archs.list.map Arch.length := by
    by_cases thin : archs.format = .thin
    · obtain ⟨arch, single⟩ := List.length_eq_one_iff.mp (archs.one_of_thin thin)
      have zero : archs.headerSize = 0 := by
        rw [Archs.headerSize, thin]
        rfl
      have summed := loops.summed
      rw [Archs.stop, thin, single, zero] at stop
      rw [thin, single, zero, sumSizes] at summed
      obtain ⟨size, -, summed⟩ := ok_of_bind summed
      obtain ⟨⟨end_, others⟩, nothing, summed⟩ := ok_of_bind summed
      obtain ⟨rfl, rfl⟩ := Prod.mk.inj (Except.ok.inj nothing)
      obtain ⟨fileSize, rfl⟩ := Prod.mk.inj (Except.ok.inj summed)
      have whole : size.toNat = arch.length := by
        rw [← fileSize] at stop
        simpa [Format.align, stopFrom, Format.aligned] using stop
      rw [single, List.map_cons, whole]
      rfl
    · obtain ⟨-, sizesEq⟩ := fillFatArchs_fields thin (loops.fat thin).1 ofSize
      rw [← sizesEq, ← placesFrom_lengths archs.format archs.headerSize, ← Archs.places, ← laidOut.entries thin,
        List.map_map]
      rfl
  refine ⟨?_, ?_, ?_⟩
  · exact tables_of_lengths ofSize lengths
  · intro narrow slice member
    have notThin : archs.format ≠ .thin := by
      rw [narrow]
      nofun
    rw [← laidOut.entries notThin, List.mem_map] at member
    obtain ⟨entry, entryMember, rfl⟩ := member
    exact ((fillFatArchs_fields notThin (loops.fat notThin).1 ofSize).1 entry entryMember).2 narrow
  · rw [← stop]
    exact written.fileSize.isLt

/-- **A file that could be written has its slices where they belong exactly when, without a
bound, each begins below 2^32 in the format of 32 bits, and the last ends below 2^64.** -/
theorem writeoutToMem_laidOut_iff (isOk : writeoutToMem vmAllocate archs = .ok written) :
    LaidOut archs written ↔ Fits archs := by
  obtain ⟨sizes, loops⟩ := writeoutToMem_ok isOk
  exact ⟨loops.fits, loops.laidOut⟩

end Write

/-! ## Two slices -/

def unknownArch (name : String) (align : Fin 16) (size : BitVec 64) : Arch :=
  ⟨name, name, 7, 3, align, Nat.le_of_lt_succ align.isLt, .unknown, size⟩

/-- Two files of data, for a fat file of 32-bit fields. -/
def twoArchs (size : BitVec 64) : Archs where
  format := .fat
  list := [unknownArch "x86_64" 12 size, unknownArch "arm64" 14 100]
  some_ := nofun
  one_of_thin := nofun
  narrow := show 2 < 2 ^ 32 by decide

theorem writeoutToMem_laidOut_iff_small : ∃ written,
    writeoutToMem (fun _ => true) (twoArchs 100) = .ok written ∧ LaidOut (twoArchs 100) written := by
  obtain ⟨written, isOk⟩ : ∃ written, writeoutToMem (fun _ => true) (twoArchs 100) = .ok written := ⟨_, rfl⟩
  refine ⟨written, isOk, (writeoutToMem_laidOut_iff isOk).mpr ⟨?_, ?_, ?_⟩⟩
  · intro arch member
    obtain rfl | rfl : arch = unknownArch "x86_64" 12 100 ∨ arch = unknownArch "arm64" 14 100 := by
      simpa [twoArchs] using member
    · trivial
    · trivial
  · intro _
    decide
  · decide

/-- The first slice ends 96 bytes below 2^32, and the second one is said to begin at the header. -/
theorem roundedOffset_wraps : ∃ written,
    writeoutToMem (fun _ => true) (twoArchs 0xFFFFEFA0) = .ok written ∧
      written.copied = [(0x1000, 0xFFFFEFA0), (0, 100)] ∧ ¬LaidOut (twoArchs 0xFFFFEFA0) written := by
  refine ⟨_, rfl, rfl, fun laidOut => ?_⟩
  have behind := laidOut.behindHeader (0, 100) (by decide)
  exact absurd behind (by decide)

end Cctools.Libstuff.FatWriteout
