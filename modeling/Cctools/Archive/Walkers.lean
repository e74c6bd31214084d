/-
# Cctools.Archive.Walkers -- three loops over the headers of an archive

`check_archive`, `ofile_first_member` with `ofile_next_member`, and the scan of
`ofile_specific_member` each find the next header with a formula of their own.  The
first two round what is left of the size when the name is taken off, the scan rounds
the size as it stands, in 64 bits.

A name may come from the table of System V names, through a pointer that
`ofile_next_member` takes from the member before the table; a name that is read from
memory that is not the table's is `none`.
-/
import Cctools.Archive.MemberNames
import Cctools.Archive.Readers
import Cctools.Theory.Walk

namespace Cctools.Archive.Walkers

set_option autoImplicit false

open Cctools.Theory Cctools.Theory.Decimal Cctools.Archive
open Cctools.Lipo (rnd)

/-- A member that a walk visits, with its name. -/
structure Visit where
  member : Member
  name : Option (List UInt8)
  deriving DecidableEq

section Model

variable (archive : List UInt8)

/-! ## check_archive -/

def checkNameSize (header : Nat) : Option Nat :=
  if hasLongName archive header then
    checkExtendFormat1 archive header ((archive.length + 2 ^ 64 - (header + sizeofArHdr)) % 2 ^ 32)
  else some 0

/-- The name that follows the header, or the one in it. -/
def nameOfSize (header nameSize : Nat) : List UInt8 :=
  if hasLongName archive header then (archive.drop (header + sizeofArHdr)).take nameSize
  else shortName archive header

def checkVisit (header nameSize : Nat) : Visit :=
  ⟨⟨header, header + sizeofArHdr + nameSize, (sizeNumber archive header + 2 ^ 32 - nameSize) % 2 ^ 32⟩,
    some (nameOfSize archive header nameSize)⟩

def checkStep (fatAllowed : Bool) (header : Nat) : Option (Visit × Nat) :=
  if header < archive.length then do
    let nameSize ← checkNameSize archive header
    let next ← checkMember archive fatAllowed header
    return (checkVisit archive header nameSize, next)
  else none

/-! ## ofile_first_member and ofile_next_member -/

/-- The fields of a `struct ofile` that a walk leaves for its next step. -/
structure Ofile where
  member : Member
  name : Except Failure (List UInt8)
  strtab : SysvStrtab

/-- Where `member_name` points. -/
def nameAddress (header : Nat) : Nat :=
  if hasLongName archive header then header + sizeofArHdr else header

/-- The first member is the table when its data are not an object's and its name, a C string, is `// `. -/
def firstStrtab (first : Member) : SysvStrtab :=
  let remaining := archive.length - first.data
  if 4 < first.size && !isFat archive first.data && !(28 ≤ remaining && isMachO32 (first.contents archive)) &&
      !(32 ≤ remaining && isMachO64 (first.contents archive)) &&
      (archive.drop (nameAddress archive first.header)).take 4 = ascii "// " ++ [0] then
    if first.data % 8 = 0 then .at first.data first.size else .freed first.size
  else .null

variable (contentsGood : Member → Bool)

def firstMember : Option Ofile :=
  (ofileFirstMember archive contentsGood).map fun member =>
    ⟨member, memberName archive .null member.header, firstStrtab archive member⟩

def nextMember (ofile : Ofile) : Option Ofile :=
  (ofileNextMember archive contentsGood ofile.member).map fun member =>
    let strtab := ofile.strtab.next archive ofile.member member
    ⟨member, memberName archive strtab member.header, strtab⟩

def nextStep : Option Ofile → Option (Visit × Option Ofile)
  | none => none
  | some ofile => some (⟨ofile.member, ofile.name.toOption⟩, nextMember archive contentsGood ofile)

/-! ## ofile_specific_member -/

/-- `offset`, and where the table stands with its size. -/
structure Scan where
  header : Nat
  strtab : Option (Nat × Nat)
  deriving DecidableEq

def scanStrtab (header : Nat) : Option (Nat × Nat) → Option (Nat × Nat)
  | none =>
    if (arName archive header).take 3 = ascii "// " then
      some (header + sizeofArHdr, sizeNumber archive header)
    else none
  | some table => some table

/-- A name in the table.  The index that looks for its end is an `int32_t`. -/
def tableName (start size number : Nat) : Option (List UInt8) :=
  let name := ((archive.drop (start + number)).take (size - number)).takeWhile (· ≠ 47)
  if 2 ^ 31 ≤ number + name.length then none else some name

/-- The number behind `#1/`, however far its digits go. -/
def longNumber (header : Nat) : Nat := strtoul (longName archive header) % 2 ^ 32

/-- The number behind the `/` of a System V name. -/
def tableNumber (header : Nat) : Nat := strtoul ((arName archive header).drop 1) % 2 ^ 32

def scanName (strtab : Option (Nat × Nat)) (header : Nat) : Option (List UInt8) :=
  if isSysvName archive header then
    match strtab with
    | none => some (shortName archive header)
    | some (start, size) =>
      if tableNumber archive header < size then tableName archive start size (tableNumber archive header)
      else some (shortName archive header)
  else some (nameOfSize archive header (longNumber archive header))

def scanVisit (strtab : Option (Nat × Nat)) (header : Nat) : Visit :=
  let nameSize := if hasLongName archive header then longNumber archive header else 0
  ⟨⟨header, header + sizeofArHdr + nameSize, (sizeNumber archive header + 2 ^ 32 - nameSize) % 2 ^ 32⟩,
    scanName archive strtab header⟩

/-- `offset` after a member: the size is a `uint64_t` here, and so is what `rnd` gives. -/
def scanNext (header : Nat) : Nat :=
  (header + sizeofArHdr + (strtoul (arSize archive header) + 1) % 2 ^ 64 / 2 * 2) % 2 ^ 64

def scanStep (scan : Scan) : Option (Visit × Scan) :=
  if scan.header < archive.length then
    let strtab := scanStrtab archive scan.header scan.strtab
    some (scanVisit archive strtab scan.header, ⟨scanNext archive scan.header, strtab⟩)
  else none

/-! ## The same members -/

/-- Each walk ends, with the same members, whose headers and data lie in the archive. -/
def SameMembers (fatAllowed : Bool) : Prop :=
  ∃ visits, Visits (checkStep archive fatAllowed) 8 visits ∧
    Visits (nextStep archive contentsGood) (firstMember archive contentsGood) visits ∧
    Visits (scanStep archive) ⟨8, none⟩ visits ∧
    ∀ visit ∈ visits, visit.member.header + sizeofArHdr ≤ archive.length ∧
      visit.member.data + visit.member.size ≤ archive.length

/-! ## The condition -/

def SysvStrtab.size : SysvStrtab → Nat
  | .null => 0
  | .at _ size | .freed size => size

/-- A header that the three read alike: the number behind `#1/` ends in `ar_name` and is no more than the
size, and no name is looked up in the table. -/
structure Alike (strtab : SysvStrtab) (scanned : Option (Nat × Nat)) (header : Nat) : Prop where
  long : hasLongName archive header = true →
    strtoul ((longName archive header).take 13) % 2 ^ 32 = longNumber archive header ∧
      longNumber archive header ≤ sizeNumber archive header
  sysv : isSysvName archive header = true →
    SysvStrtab.size strtab ≤ tableNumber archive header ∧ ∀ table ∈ scanned, table.2 ≤ tableNumber archive header
  good : contentsGood (numbered archive header) = true

/-- From a header on every one is read alike, each name is of even length but the last one's, and no
size is of more than 32 bits. -/
inductive Agree : SysvStrtab → SysvStrtab → Option (Nat × Nat) → Nat → Prop where
  | last {strtab stored : SysvStrtab} {scanned : Option (Nat × Nat)} {header : Nat} :
      Alike archive contentsGood strtab (scanStrtab archive header scanned) header →
      (numbered archive header).nextOffset = archive.length → archive.length ≤ scanNext archive header →
      Agree strtab stored scanned header
  | next {strtab stored : SysvStrtab} {scanned : Option (Nat × Nat)} {header next : Nat} :
      Alike archive contentsGood strtab (scanStrtab archive header scanned) header →
      (numbered archive header).nextOffset = next → next < archive.length →
      strtoul (arSize archive header) < 2 ^ 32 → 2 ∣ nameNumber archive header →
      Agree (stored.next archive (numbered archive header) (numbered archive next))
        (stored.next archive (numbered archive header) (numbered archive next))
        (scanStrtab archive header scanned) next →
      Agree strtab stored scanned header

/-- The archive is empty, or its headers agree from the first one on. -/
def HeadersAgree : Prop :=
  archive.length = 8 ∨
    Agree archive contentsGood .null (firstStrtab archive (numbered archive 8)) none 8

end Model
end Cctools.Archive.Walkers
