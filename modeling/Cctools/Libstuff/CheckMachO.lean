/-
# Cctools.Libstuff.CheckMachO -- the load commands of an object, and its segments

`check_Mach_O` of libstuff's ofile.c walks the load commands and compares the fields of
each with the size of the object.  Sums are made in 64 bits, which is enough for the 32-bit
fields and not for those of a 64-bit segment.

The segment commands are given in full.  What the other commands check is a parameter, and
so is what is compared after the loop (`OtherChecks`): no result depends on it.
-/
import Cctools.Libstuff.Overlap
import Cctools.Theory.Bytes
import Cctools.Theory.Transducer

namespace Cctools.Libstuff

set_option autoImplicit false

open Cctools.Theory

/-! ## The object -/

/-- The part of `struct ofile` that is checked. -/
structure ObjectFile where
  /-- what is at `object_addr` -/
  bytes : List UInt8
  /-- `mh64 != NULL`, and not `mh != NULL` -/
  is64 : Bool
  /-- `object_byte_sex` -/
  big : Bool
  /-- in a fat file, the number of the object's architecture and the `cputype` of its entry -/
  fatArch : Option (Nat × Nat)

/-- Why the check ends: `CHECK_BAD` with its message, or a read through `mh` or `mh64`
where it is `NULL`. -/
inductive Stop
  | bad (message : String)
  | crash
  deriving DecidableEq, Repr

def reject (bad : Prop) [Decidable bad] (message : String) : Except Stop Unit :=
  if bad then .error (.bad message) else .ok ()

/-- A read through a pointer. -/
def readThrough (isNull : Bool) : Except Stop Unit := if isNull then .error .crash else .ok ()

theorem reject_ok_iff {bad : Prop} [Decidable bad] {message : String} : reject bad message = .ok () ↔ ¬ bad := by
  unfold reject
  split <;> simp_all

/-- `uint64_t` -/
def sum64 (a b : Nat) : Nat := (a + b) % 2 ^ 64

structure SegmentHeader where
  vmaddr : Nat
  vmsize : Nat
  fileoff : Nat
  filesize : Nat
  nsects : Nat
  deriving DecidableEq, Repr

structure SectionHeader where
  addr : Nat
  size : Nat
  offset : Nat
  reloff : Nat
  nreloc : Nat
  flags : Nat
  deriving DecidableEq, Repr

def mhCore : Nat := 4
def mhDylibStub : Nat := 9
def mhDsym : Nat := 10

def lcSegment : Nat := 1
def lcThread : Nat := 4
def lcSegment64 : Nat := 25

def sZerofill : Nat := 1
def sGbZerofill : Nat := 12
def sThreadLocalZerofill : Nat := 18

/-- `sizeof(struct relocation_info)` -/
def sizeofReloc : Nat := 8

def sizeofSegment (wide : Bool) : Nat := if wide then 72 else 56

def sizeofSection (wide : Bool) : Nat := if wide then 80 else 68

def segmentName (wide : Bool) : String := if wide then "LC_SEGMENT_64" else "LC_SEGMENT"

namespace ObjectFile

variable (object : ObjectFile)

/-- A field of `n` bytes, swapped to the host's byte order where it has to be. -/
def read (n start : Nat) : Nat :=
  if object.big then readBe n (object.bytes.drop start) else readLe n (object.bytes.drop start)

/-- `object_size`, a `uint32_t` -/
def objectSize : Nat := object.bytes.length % 2 ^ 32

def headerSize : Nat := if object.is64 then 32 else 28

def cputype : Nat := object.read 4 4
def filetype : Nat := object.read 4 12
def ncmds : Nat := object.read 4 16
def sizeofcmds : Nat := object.read 4 20

/-- The header and the load commands. -/
def sizeofhdrs : Nat := object.sizeofcmds + object.headerSize

/-- The fields of a segment command, those of `LC_SEGMENT_64` if `wide`. -/
def segmentAt (wide : Bool) (start : Nat) : SegmentHeader :=
  if wide then
    ⟨object.read 8 (start + 24), object.read 8 (start + 32), object.read 8 (start + 40), object.read 8 (start + 48),
      object.read 4 (start + 64)⟩
  else
    ⟨object.read 4 (start + 24), object.read 4 (start + 28), object.read 4 (start + 32), object.read 4 (start + 36),
      object.read 4 (start + 48)⟩

def sectionAt (wide : Bool) (start : Nat) : SectionHeader :=
  if wide then
    ⟨object.read 8 (start + 32), object.read 8 (start + 40), object.read 4 (start + 48), object.read 4 (start + 56),
      object.read 4 (start + 60), object.read 4 (start + 64)⟩
  else
    ⟨object.read 4 (start + 32), object.read 4 (start + 36), object.read 4 (start + 40), object.read 4 (start + 48),
      object.read 4 (start + 52), object.read 4 (start + 56)⟩

/-- The section headers behind a segment command at `start`. -/
def sectionsAt (wide : Bool) (start : Nat) : List SectionHeader :=
  (List.range (object.segmentAt wide start).nsects).map fun j =>
    object.sectionAt wide (start + sizeofSegment wide + j * sizeofSection wide)

/-! ## Sections -/

/-- What is compared with the file: the whole word of the flags is tested. -/
def hasContents (flags : Nat) : Prop :=
  object.filetype ≠ mhDylibStub ∧ object.filetype ≠ mhDsym ∧ flags ≠ sZerofill ∧ flags ≠ sThreadLocalZerofill

instance (flags : Nat) : Decidable (object.hasContents flags) := inferInstanceAs (Decidable (_ ∧ _))

/-- `check_overlaping_element`: its arguments are `uint32_t`. -/
def checkElement (elements : List Element) (offset size : Nat) (name : String) : Except Stop (List Element) :=
  (checkOverlapingElement elements ⟨BitVec.ofNat 32 offset, BitVec.ofNat 32 size, name⟩).mapError Stop.bad

/-- The relocation entries of a section, checked in the same way for both. -/
def checkRelocs (wide : Bool) (i j : Nat) (sect : SectionHeader) (elements : List Element) :
    Except Stop (List Element) := do
  reject (object.objectSize < sect.reloff) ("truncated or malformed object (reloff field of section " ++ toString j ++
    " in " ++ segmentName wide ++ " command " ++ toString i ++ " extends past the end of the file)")
  reject (object.objectSize < sum64 (sect.nreloc * sizeofReloc) sect.reloff)
    ("truncated or malformed object (reloff field plus nreloc field times sizeof(struct relocation_info) of section " ++
      toString j ++ " in " ++ segmentName wide ++ " command " ++ toString i ++ " extends past the end of the file)")
  checkElement elements sect.reloff (sect.nreloc * sizeofReloc) "section relocation entries"

/-- The place of a section's contents, checked in the same way for both. -/
def checkContents (wide : Bool) (segment : SegmentHeader) (i j : Nat) (sect : SectionHeader) : Except Stop Unit := do
  reject (object.hasContents sect.flags ∧ object.objectSize < sect.offset)
    ("truncated or malformed object (offset field of section " ++ toString j ++ " in " ++ segmentName wide ++
      " command " ++ toString i ++ " extends past the end of the file)")
  reject (object.hasContents sect.flags ∧ segment.fileoff = 0 ∧ sect.offset < object.sizeofhdrs ∧ sect.size ≠ 0)
    ("malformed object (offset field of section " ++ toString j ++ " in LC_SEGMENT command " ++ toString i ++
      " not past the headers of the file)")
  reject (object.hasContents sect.flags ∧ object.objectSize < sum64 sect.offset sect.size)
    ("truncated or malformed object (offset field plus size field of section " ++ toString j ++ " in " ++
      segmentName wide ++ " command " ++ toString i ++ " extends past the end of the file)")

def checkOverlap (sect : SectionHeader) (elements : List Element) : Except Stop (List Element) :=
  if object.hasContents sect.flags then checkElement elements sect.offset sect.size "section contents"
  else .ok elements

/-- The body of the loop of `LC_SEGMENT`.  It reads `mh->filetype` first. -/
def checkSection32 (segment : SegmentHeader) (i j : Nat) (sect : SectionHeader) (elements : List Element) :
    Except Stop (List Element) := do
  readThrough object.is64
  object.checkContents false segment i j sect
  reject (object.hasContents sect.flags ∧ segment.filesize < sect.size)
    ("malformed object (size field of section " ++ toString j ++ " in LC_SEGMENT command " ++ toString i ++
      " greater than the segment)")
  reject (object.filetype ≠ mhDylibStub ∧ object.filetype ≠ mhDsym ∧ sect.size ≠ 0 ∧ sect.addr < segment.vmaddr)
    ("malformed object (addr field of section " ++ toString j ++ " in LC_SEGMENT command " ++ toString i ++
      " less than the segment's vmaddr)")
  reject (segment.vmsize ≠ 0 ∧ sect.size ≠ 0 ∧ sum64 segment.vmaddr segment.vmsize < sum64 sect.addr sect.size)
    ("malformed object (addr field plus size of section " ++ toString j ++ " in LC_SEGMENT command " ++ toString i ++
      " greater than than the segment's vmaddr plus vmsize)")
  let elements ← object.checkOverlap sect elements
  object.checkRelocs false i j sect elements

/-- The body of the loop of `LC_SEGMENT_64`.  It reads `mh64->filetype` first. -/
def checkSection64 (segment : SegmentHeader) (i j : Nat) (sect : SectionHeader) (elements : List Element) :
    Except Stop (List Element) := do
  readThrough (!object.is64)
  object.checkContents true segment i j sect
  let elements ← object.checkOverlap sect elements
  object.checkRelocs true i j sect elements

def checkSection (wide : Bool) : SegmentHeader → Nat → Nat → SectionHeader → List Element → Except Stop (List Element) :=
  if wide then object.checkSection64 else object.checkSection32

/-- The loop over the sections. -/
def checkSections (wide : Bool) (segment : SegmentHeader) (i : Nat) :
    Nat → List SectionHeader → List Element → Except Stop (List Element)
  | _, [], elements => .ok elements
  | j, sect :: sects, elements => do
      let elements ← object.checkSection wide segment i j sect elements
      checkSections wide segment i (j + 1) sects elements

/-! ## Load commands -/

/-- `case LC_SEGMENT` and `case LC_SEGMENT_64`, for the command `i` at `start`. -/
def checkSegment (wide : Bool) (i start cmdsize : Nat) (elements : List Element) : Except Stop (List Element) := do
  reject (cmdsize < sizeofSegment wide)
    ("malformed object (" ++ segmentName wide ++ " cmdsize too small) in command " ++ toString i)
  let segment := object.segmentAt wide start
  reject (cmdsize ≠ segment.nsects * sizeofSection wide + sizeofSegment wide)
    ("malformed object (inconsistent cmdsize in " ++ segmentName wide ++ " command " ++ toString i ++
      " for the number of sections)")
  reject (object.objectSize < segment.fileoff)
    ("truncated or malformed object (" ++ segmentName wide ++ " command " ++ toString i ++
      " fileoff field extends past the end of the file)")
  reject (object.objectSize < sum64 segment.fileoff segment.filesize)
    ("truncated or malformed object (" ++ segmentName wide ++ " command " ++ toString i ++
      " fileoff field plus filesize field extends past the end of the file)")
  reject (wide = false ∧ segment.vmsize ≠ 0 ∧ segment.vmsize < segment.filesize)
    ("malformed object (LC_SEGMENT command " ++ toString i ++ " filesize field greater than vmsize field)")
  object.checkSections wide segment i 0 (object.sectionsAt wide start) elements

/-- Commands of a multiple of 4 or 8 bytes.  `LC_THREAD` in a core file may be one of 4. -/
def loadCommandMultiple : Nat := if object.is64 then 8 else 4

end ObjectFile

/-- The checks that are not about segments: of the other commands, with what they keep of
the commands before (`σ`), and after the loop. -/
structure OtherChecks (σ : Type) where
  start : σ
  command : (i start : Nat) → σ → List Element → Except Stop (σ × List Element)
  finish : σ → Except Stop Unit

section Checks

variable {σ : Type} (others : OtherChecks σ) (object : ObjectFile)

/-- `switch(l.cmd)` -/
def checkCommand (i start : Nat) (kept : σ) (elements : List Element) : Except Stop (σ × List Element) :=
  let cmd := object.read 4 start
  let cmdsize := object.read 4 (start + 4)
  if cmd = lcSegment then (object.checkSegment false i start cmdsize elements).map (kept, ·)
  else if cmd = lcSegment64 then (object.checkSegment true i start cmdsize elements).map (kept, ·)
  else others.command i start kept elements

/-- The loop: `count` commands are left, and those before take `loadEnd` bytes. -/
def checkCommands : Nat → Nat → Nat → σ → List Element → Except Stop (Nat × σ)
  | 0, _, loadEnd, kept, _ => .ok (loadEnd, kept)
  | count + 1, i, loadEnd, kept, elements => do
      reject (object.sizeofcmds < loadEnd + 8)
        ("truncated or malformed object (load command " ++ toString i ++
          " extends past the end all load commands in the file)")
      let cmd := object.read 4 (object.headerSize + loadEnd)
      let cmdsize := object.read 4 (object.headerSize + loadEnd + 4)
      reject (cmdsize % object.loadCommandMultiple ≠ 0 ∧
          (object.is64 = false ∨ object.filetype ≠ mhCore ∨ cmd ≠ lcThread ∨ cmdsize % 4 ≠ 0))
        ("malformed object (load command " ++ toString i ++ " cmdsize not a multiple of " ++
          toString object.loadCommandMultiple ++ ")")
      reject (object.sizeofcmds < loadEnd + cmdsize)
        ("truncated or malformed object (load command " ++ toString i ++ " extends past the end of the file)")
      reject (cmdsize = 0) ("malformed object (load command " ++ toString i ++ " cmdsize is zero)")
      let (kept, elements) ← checkCommand others object i (object.headerSize + loadEnd) kept elements
      reject (object.sizeofcmds < loadEnd + cmdsize)
        ("truncated or malformed object (load command " ++ toString (i + 1) ++ " extends past the end of the file)")
      checkCommands count (i + 1) (loadEnd + cmdsize) kept elements

def checkFatArch : Except Stop Unit :=
  match object.fatArch with
  | some (narch, cputype) =>
    reject (cputype ≠ object.cputype) ("malformed fat file (fat header architecture: " ++ toString narch ++
      "'s cputype does not match object file's mach header)")
  | none => .ok ()

/-- `check_Mach_O`: `CHECK_GOOD` is `ok`. -/
def checkMachO : Except Stop Unit := do
  reject (object.objectSize < object.sizeofhdrs)
    "truncated or malformed object (load commands extend past the end of the file)"
  let elements ← ObjectFile.checkElement [] 0 object.sizeofhdrs "Mach-O headers"
  checkFatArch object
  let (loadEnd, kept) ← checkCommands others object object.ncmds 0 0 others.start elements
  others.finish kept
  reject (object.sizeofcmds ≠ loadEnd) "malformed object (inconsistent sizeofcmds field in mach header)"

end Checks

/-! ## What an accepted object keeps -/

/-- A load command: where it begins, its `cmd` and its `cmdsize`. -/
structure CommandAt where
  start : Nat
  cmd : Nat
  cmdsize : Nat

namespace ObjectFile

variable (object : ObjectFile)

/-- `count` commands, each behind the one before. -/
def commandsFrom : Nat → Nat → List CommandAt
  | 0, _ => []
  | count + 1, start =>
    ⟨start, object.read 4 start, object.read 4 (start + 4)⟩ ::
      commandsFrom count (start + object.read 4 (start + 4))

def commands : List CommandAt := object.commandsFrom object.ncmds object.headerSize

/-- The section has bytes in the file: its type is none of the zero-fill types, and the
file is not one without contents. -/
def InsideMatters (sect : SectionHeader) : Prop :=
  object.filetype ≠ mhDylibStub ∧ object.filetype ≠ mhDsym ∧ sect.flags % 256 ≠ sZerofill ∧
    sect.flags % 256 ≠ sGbZerofill ∧ sect.flags % 256 ≠ sThreadLocalZerofill

instance (sect : SectionHeader) : Decidable (object.InsideMatters sect) := inferInstanceAs (Decidable (_ ∧ _))

/-- A segment command at `start` and its sections lie inside the object. -/
structure SegmentInFile (wide : Bool) (command : CommandAt) : Prop where
  headers : sizeofSegment wide + (object.segmentAt wide command.start).nsects * sizeofSection wide ≤ command.cmdsize
  segment : (object.segmentAt wide command.start).fileoff + (object.segmentAt wide command.start).filesize
    ≤ object.objectSize
  contents : ∀ sect ∈ object.sectionsAt wide command.start, object.InsideMatters sect →
    sect.offset + sect.size ≤ object.objectSize
  relocs : ∀ sect ∈ object.sectionsAt wide command.start, object.InsideMatters sect →
    sect.reloff + 8 * sect.nreloc ≤ object.objectSize

def segmentCmd (wide : Bool) : Nat := if wide then lcSegment64 else lcSegment

/-- The load commands fill their place, and the segments lie inside the object. -/
structure InFile : Prop where
  tiled : (object.commands.map CommandAt.cmdsize).sum = object.sizeofcmds
  nonempty : ∀ command ∈ object.commands, 0 < command.cmdsize
  room : object.headerSize + object.sizeofcmds ≤ object.objectSize
  segments : ∀ wide, ∀ command ∈ object.commands, command.cmd = segmentCmd wide → object.SegmentInFile wide command

/-- No sum of a 64-bit segment, or of a section of one that matters, is 2^64 or more. -/
def NoWrap : Prop :=
  ∀ command ∈ object.commands, command.cmd = lcSegment64 →
    (object.segmentAt true command.start).fileoff + (object.segmentAt true command.start).filesize < 2 ^ 64 ∧
      ∀ sect ∈ object.sectionsAt true command.start, object.InsideMatters sect → sect.offset + sect.size < 2 ^ 64

/-! ## Fields -/

theorem read_lt (n start : Nat) : object.read n start < 256 ^ n := by
  unfold read
  split
  · exact readBe_lt _ _
  · exact readLe_lt _ _

theorem segmentAt_narrow (start : Nat) :
    (object.segmentAt false start).fileoff < 2 ^ 32 ∧ (object.segmentAt false start).filesize < 2 ^ 32 :=
  ⟨object.read_lt 4 _, object.read_lt 4 _⟩

variable {sect : SectionHeader}

theorem sectionAt_narrow {start : Nat} (there : sect ∈ object.sectionsAt false start) :
    sect.offset < 2 ^ 32 ∧ sect.size < 2 ^ 32 := by
  obtain ⟨j, -, rfl⟩ := List.mem_map.1 there
  exact ⟨object.read_lt 4 _, object.read_lt 4 _⟩

theorem sectionAt_relocs {wide : Bool} {start : Nat} (there : sect ∈ object.sectionsAt wide start) :
    sect.reloff < 2 ^ 32 ∧ sect.nreloc < 2 ^ 32 := by
  obtain ⟨j, -, rfl⟩ := List.mem_map.1 there
  cases wide <;> exact ⟨object.read_lt 4 _, object.read_lt 4 _⟩

theorem objectSize_lt : object.objectSize < 2 ^ 32 := Nat.mod_lt _ (by decide)

/-- The word that is tested is that of no section whose type matters. -/
theorem InsideMatters.hasContents (matters : object.InsideMatters sect) :
    object.hasContents sect.flags := by
  obtain ⟨notStub, notDsym, notZero, -, notLocal⟩ := matters
  refine ⟨notStub, notDsym, fun zero => notZero ?_, fun zero => notLocal ?_⟩ <;> rw [zero] <;> rfl

/-! ## What each check says -/

end ObjectFile

theorem reject_bind_ok {bad : Prop} [Decidable bad] {message : String} {β : Type} {next : Unit → Except Stop β}
    {result : β} (ok : (reject bad message >>= next) = .ok result) : ¬ bad ∧ next () = .ok result := by
  obtain ⟨⟨⟩, passed, ok⟩ := ok_of_bind ok
  exact ⟨reject_ok_iff.1 passed, ok⟩

theorem sum64_eq {a b : Nat} (fits : a + b < 2 ^ 64) : sum64 a b = a + b := Nat.mod_eq_of_lt fits

namespace ObjectFile

variable {object : ObjectFile} {wide : Bool} {segment : SegmentHeader} {sect : SectionHeader}

theorem checkContents_ok {i j : Nat}
    (ok : object.checkContents wide segment i j sect = .ok ()) (contents : object.hasContents sect.flags) :
    sum64 sect.offset sect.size ≤ object.objectSize := by
  obtain ⟨-, ok⟩ := reject_bind_ok ok
  obtain ⟨-, ok⟩ := reject_bind_ok ok
  have := reject_ok_iff.1 ok
  exact Nat.le_of_not_lt fun past => this ⟨contents, past⟩

theorem checkRelocs_ok {i j : Nat} {elements longer : List Element}
    (ok : object.checkRelocs wide i j sect elements = .ok longer) :
    sum64 (sect.nreloc * sizeofReloc) sect.reloff ≤ object.objectSize := by
  obtain ⟨-, ok⟩ := reject_bind_ok ok
  exact Nat.le_of_not_lt (reject_bind_ok ok).1

theorem checkSection_ok {i j : Nat}
    {elements longer : List Element} (ok : object.checkSection wide segment i j sect elements = .ok longer) :
    (object.hasContents sect.flags → sum64 sect.offset sect.size ≤ object.objectSize) ∧
      sum64 (sect.nreloc * sizeofReloc) sect.reloff ≤ object.objectSize := by
  cases wide with
  | false =>
    change object.checkSection32 segment i j sect elements = .ok longer at ok
    unfold checkSection32 at ok
    obtain ⟨-, -, ok⟩ := ok_of_bind ok
    obtain ⟨⟨⟩, inside, ok⟩ := ok_of_bind ok
    obtain ⟨-, ok⟩ := reject_bind_ok ok
    obtain ⟨-, ok⟩ := reject_bind_ok ok
    obtain ⟨-, ok⟩ := reject_bind_ok ok
    obtain ⟨between, -, ok⟩ := ok_of_bind ok
    exact ⟨checkContents_ok inside, checkRelocs_ok ok⟩
  | true =>
    change object.checkSection64 segment i j sect elements = .ok longer at ok
    unfold checkSection64 at ok
    obtain ⟨-, -, ok⟩ := ok_of_bind ok
    obtain ⟨⟨⟩, inside, ok⟩ := ok_of_bind ok
    obtain ⟨between, -, ok⟩ := ok_of_bind ok
    exact ⟨checkContents_ok inside, checkRelocs_ok ok⟩

theorem checkSections_ok {i : Nat} (sects : List SectionHeader) :
    ∀ {j : Nat} {elements longer : List Element}, object.checkSections wide segment i j sects elements = .ok longer →
      ∀ sect ∈ sects, (object.hasContents sect.flags → sum64 sect.offset sect.size ≤ object.objectSize) ∧
        sum64 (sect.nreloc * sizeofReloc) sect.reloff ≤ object.objectSize := by
  induction sects with
  | nil => exact fun _ => nofun
  | cons sect sects ih =>
    intro j elements longer ok other there
    obtain ⟨between, first, ok⟩ := ok_of_bind ok
    rcases List.mem_cons.1 there with rfl | there
    · exact checkSection_ok first
    · exact ih ok other there

/-- A segment command that is passed: all but the sums of 64-bit fields is as it has to be. -/
theorem checkSegment_ok {i start cmdsize : Nat} {elements longer : List Element}
    (ok : object.checkSegment wide i start cmdsize elements = .ok longer) :
    cmdsize = (object.segmentAt wide start).nsects * sizeofSection wide + sizeofSegment wide ∧
      sum64 (object.segmentAt wide start).fileoff (object.segmentAt wide start).filesize ≤ object.objectSize ∧
      ∀ sect ∈ object.sectionsAt wide start,
        (object.hasContents sect.flags → sum64 sect.offset sect.size ≤ object.objectSize) ∧
          sum64 (sect.nreloc * sizeofReloc) sect.reloff ≤ object.objectSize := by
  unfold checkSegment at ok
  obtain ⟨-, ok⟩ := reject_bind_ok ok
  obtain ⟨tiled, ok⟩ := reject_bind_ok ok
  obtain ⟨-, ok⟩ := reject_bind_ok ok
  obtain ⟨sum, ok⟩ := reject_bind_ok ok
  obtain ⟨-, ok⟩ := reject_bind_ok ok
  exact ⟨not_not.1 tiled, Nat.le_of_not_lt sum, checkSections_ok _ ok⟩

/-- A segment whose sums, as they are made, are inside the object. -/
structure SegmentPassed (object : ObjectFile) (wide : Bool) (command : CommandAt) : Prop where
  tiled : command.cmdsize = (object.segmentAt wide command.start).nsects * sizeofSection wide + sizeofSegment wide
  segment : sum64 (object.segmentAt wide command.start).fileoff (object.segmentAt wide command.start).filesize
    ≤ object.objectSize
  contents : ∀ sect ∈ object.sectionsAt wide command.start, object.hasContents sect.flags →
    sum64 sect.offset sect.size ≤ object.objectSize
  relocs : ∀ sect ∈ object.sectionsAt wide command.start, sum64 (sect.nreloc * sizeofReloc) sect.reloff ≤ object.objectSize

/-- A segment that is passed lies inside the object if the sums that matter do not wrap. -/
theorem SegmentPassed.inFile {command : CommandAt} (passed : SegmentPassed object wide command)
    (segmentFits : (object.segmentAt wide command.start).fileoff + (object.segmentAt wide command.start).filesize < 2 ^ 64)
    (sectionsFit : ∀ sect ∈ object.sectionsAt wide command.start, object.InsideMatters sect →
      sect.offset + sect.size < 2 ^ 64) : object.SegmentInFile wide command where
  headers := by
    rw [passed.tiled]
    omega
  segment := sum64_eq segmentFits ▸ passed.segment
  contents sect there matters :=
    sum64_eq (sectionsFit sect there matters) ▸ passed.contents sect there (InsideMatters.hasContents object matters)
  relocs sect there _ := by
    have narrow := object.sectionAt_relocs there
    have inside := passed.relocs sect there
    rw [sum64_eq (by unfold sizeofReloc; omega)] at inside
    unfold sizeofReloc at inside
    omega

theorem SegmentPassed.inFile_narrow {command : CommandAt} (passed : SegmentPassed object false command) :
    object.SegmentInFile false command := by
  have segment := object.segmentAt_narrow command.start
  refine passed.inFile (by omega) fun sect there _ => ?_
  have := object.sectionAt_narrow there
  omega

end ObjectFile

section Accepted

variable {σ : Type} {others : OtherChecks σ} {object : ObjectFile}

theorem checkCommand_passed {i start : Nat} {kept kept' : σ} {elements longer : List Element}
    (ok : checkCommand others object i start kept elements = .ok (kept', longer)) (wide : Bool)
    (isSegment : object.read 4 start = ObjectFile.segmentCmd wide) :
    object.SegmentPassed wide ⟨start, object.read 4 start, object.read 4 (start + 4)⟩ := by
  have branch : ((object.checkSegment wide i start (object.read 4 (start + 4)) elements).map (kept, ·)) =
      .ok (kept', longer) := by
    unfold checkCommand at ok
    dsimp only at ok
    cases wide with
    | false => rwa [if_pos (show object.read 4 start = lcSegment from isSegment)] at ok
    | true =>
      have is64 : object.read 4 start = lcSegment64 := isSegment
      rwa [if_neg (by rw [is64]; decide), if_pos is64] at ok
  cases passed : object.checkSegment wide i start (object.read 4 (start + 4)) elements with
  | error stop =>
    rw [passed] at branch
    cases branch
  | ok between =>
    obtain ⟨tiled, segment, sections⟩ := ObjectFile.checkSegment_ok passed
    exact ⟨tiled, segment, fun sect there => (sections sect there).1, fun sect there => (sections sect there).2⟩

/-- The run: the commands follow each other up to where the loop ends, and every segment is
passed. -/
theorem checkCommands_passed (count : Nat) : ∀ {i loadEnd : Nat} {kept : σ} {elements : List Element} {last : Nat}
    {kept' : σ}, checkCommands others object count i loadEnd kept elements = .ok (last, kept') →
    last = loadEnd + ((object.commandsFrom count (object.headerSize + loadEnd)).map CommandAt.cmdsize).sum ∧
      ∀ command ∈ object.commandsFrom count (object.headerSize + loadEnd), 0 < command.cmdsize ∧
        ∀ wide, command.cmd = ObjectFile.segmentCmd wide → object.SegmentPassed wide command := by
  induction count with
  | zero =>
    intro i loadEnd kept elements last kept' ok
    cases ok
    exact ⟨rfl, nofun⟩
  | succ count ih =>
    intro i loadEnd kept elements last kept' ok
    unfold checkCommands at ok
    obtain ⟨-, ok⟩ := reject_bind_ok ok
    obtain ⟨-, ok⟩ := reject_bind_ok ok
    obtain ⟨-, ok⟩ := reject_bind_ok ok
    obtain ⟨nonempty, ok⟩ := reject_bind_ok ok
    obtain ⟨⟨between, longer⟩, passed, ok⟩ := ok_of_bind ok
    obtain ⟨-, ok⟩ := reject_bind_ok ok
    obtain ⟨total, rest⟩ := ih ok
    rw [← Nat.add_assoc] at total rest
    refine ⟨?_, fun command there => ?_⟩
    · rw [total, ObjectFile.commandsFrom, List.map_cons, List.sum_cons, Nat.add_assoc]
    · rcases List.mem_cons.1 there with rfl | there
      · exact ⟨Nat.pos_of_ne_zero nonempty, checkCommand_passed passed⟩
      · exact rest command there

/-- An accepted object: its commands fill their place, and every segment is passed. -/
theorem checkMachO_passed (ok : checkMachO others object = .ok ()) :
    object.headerSize + object.sizeofcmds ≤ object.objectSize ∧
      (object.commands.map CommandAt.cmdsize).sum = object.sizeofcmds ∧
      ∀ command ∈ object.commands, 0 < command.cmdsize ∧
        ∀ wide, command.cmd = ObjectFile.segmentCmd wide → object.SegmentPassed wide command := by
  unfold checkMachO at ok
  obtain ⟨room, ok⟩ := reject_bind_ok ok
  obtain ⟨elements, -, ok⟩ := ok_of_bind ok
  obtain ⟨-, -, ok⟩ := ok_of_bind ok
  obtain ⟨⟨loadEnd, kept⟩, commands, ok⟩ := ok_of_bind ok
  obtain ⟨-, -, ok⟩ := ok_of_bind ok
  obtain ⟨total, each⟩ := checkCommands_passed _ commands
  have whole := not_not.1 (reject_ok_iff.1 ok)
  refine ⟨?_, ?_, each⟩
  · unfold ObjectFile.sizeofhdrs at room
    omega
  · rw [whole, total, Nat.zero_add]
    rfl

/-- **An accepted object has its segments and sections inside it exactly when no sum of a
64-bit segment, or of a section of one that is not zero-fill, is 2^64 or more.** -/
theorem checkMachO_inFile_iff (others : OtherChecks σ) (object : ObjectFile)
    (accepted : checkMachO others object = .ok ()) : object.InFile ↔ object.NoWrap := by
  obtain ⟨room, tiled, each⟩ := checkMachO_passed accepted
  have small := object.objectSize_lt
  constructor
  · intro inFile command there isSegment
    have segment := inFile.segments true command there isSegment
    refine ⟨lt_of_le_of_lt segment.segment (by omega), fun sect member matters => ?_⟩
    exact lt_of_le_of_lt (segment.contents sect member matters) (by omega)
  · intro noWrap
    refine ⟨tiled, fun command there => (each command there).1, room, fun wide command there isSegment => ?_⟩
    have passed := (each command there).2 wide isSegment
    cases wide with
    | false => exact passed.inFile_narrow
    | true =>
      obtain ⟨segmentFits, sectionsFit⟩ := noWrap command there isSegment
      exact passed.inFile segmentFits sectionsFit

end Accepted

/-- The checks where no command but segments is known, and nothing is left for the end. -/
def segmentsOnly : OtherChecks Unit where
  start := ()
  command i _ _ _ := .error (.bad ("malformed object (unknown load command " ++ toString i ++ ")"))
  finish _ := .ok ()

/-- A 64-bit object of one segment with one section, least significant byte first. -/
def oneSegment (fileoff filesize size : Nat) (offset : Nat) : ObjectFile where
  bytes :=
    ([(4, 0xfeedfacf), (4, 0x01000007), (4, 3), (4, 1), (4, 1), (4, 152), (4, 0), (4, 0),
      (4, 25), (4, 152), (16, 0), (8, 0), (8, 0), (8, fileoff), (8, filesize), (4, 7), (4, 7), (4, 1), (4, 0),
      (16, 0), (16, 0), (8, 0), (8, size), (4, offset), (4, 0), (4, 0), (4, 0), (4, 0), (4, 0), (4, 0), (4, 0)]
      : List (Nat × Nat)).flatMap fun field => (beBytes field.1 field.2).reverse
  is64 := true
  big := false
  fatArch := none

theorem checkMachO_inFile_iff_plain : (oneSegment 0 184 0 184).InFile ↔ (oneSegment 0 184 0 184).NoWrap :=
  checkMachO_inFile_iff segmentsOnly (oneSegment 0 184 0 184) (by decide +kernel)

/-- The offset and size of the segment add up to 2^64, and so do those of the section. -/
theorem wrappedSegment_accepted :
    let object := oneSegment 50 (2 ^ 64 - 50) (2 ^ 64 - 184) 184
    object.bytes.length = 184 ∧ checkMachO segmentsOnly object = .ok () ∧ ¬ object.InFile := by
  intro object
  refine ⟨by decide +kernel, by decide +kernel, fun inFile => ?_⟩
  have command : object.commands.map (fun command => (command.start, command.cmd)) = [(32, 25)] := by decide +kernel
  obtain ⟨first, there, isFirst⟩ := List.mem_map.1 (command ▸ List.mem_singleton_self (32, 25))
  obtain ⟨start, cmd⟩ := Prod.mk.inj isFirst
  have segment := (inFile.segments true first there (cmd.trans rfl)).segment
  rw [start] at segment
  exact absurd segment (by decide +kernel)

end Cctools.Libstuff
