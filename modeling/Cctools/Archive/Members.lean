/-
# Cctools.Archive.Members -- the members of an archive, as libstuff and as ld read them

The archive is a list of bytes, mapped whole.  Behind its end stand the zeros of the
last page, so a text that runs past the end stops there.

libstuff rounds the end of a member's data up to two bytes, counted from the data.
ld rounds the address of the end up to four.
-/
import Cctools.Lipo.Fat
import Cctools.Theory.Decimal
import Mathlib.Tactic.Common

namespace Cctools.Archive

set_option autoImplicit false

open Cctools.Theory Cctools.Theory.Decimal
open Cctools.Lipo (rnd)

/-! ## Headers -/

/-- `!<arch>` and a newline. -/
def armag : List UInt8 := [33, 60, 97, 114, 99, 104, 62, 10]

/-- `#1/`. -/
def arEfmt1 : List UInt8 := [35, 49, 47]

/-- `sizeof(struct ar_hdr)`. -/
def sizeofArHdr : Nat := 60

/-- `ar_name` and all that follows. -/
def arName (archive : List UInt8) (header : Nat) : List UInt8 := archive.drop header

/-- `ar_size` and all that follows. -/
def arSize (archive : List UInt8) (header : Nat) : List UInt8 := archive.drop (header + 48)

def hasLongName (archive : List UInt8) (header : Nat) : Bool :=
  (arName archive header).take 3 = arEfmt1

/-- What follows `#1/`. -/
def longName (archive : List UInt8) (header : Nat) : List UInt8 := (arName archive header).drop 3

/-- A member that a walk visits: where its header stands, where its data, and how long they are. -/
structure Member where
  header : Nat
  data : Nat
  size : Nat
  deriving DecidableEq, Repr

/-! ## libstuff -/

section Libstuff

variable (archive : List UInt8)

/-- `check_extend_format_1`: the length of the name, of sixteen characters only.
Thirteen digits do not overflow `strtoul`. -/
def checkExtendFormat1 (header sizeLeft : Nat) : Option Nat :=
  let text := (longName archive header).take 13
  let behind := (text.dropWhile isDigit).dropWhile (· = 32)
  if text.head?.all (fun c => !isDigit c) then none
  else if behind.head?.any (· ≠ 0) then none
  else if sizeLeft < strtoul text % 2 ^ 32 then none
  else some (strtoul text % 2 ^ 32)

/-- `FAT_MAGIC` and `FAT_MAGIC_64`, as they stand in the file. -/
def isFat (data : Nat) : Bool :=
  4 < archive.length - data &&
    ((archive.drop data).take 4 = [0xCA, 0xFE, 0xBA, 0xBE] ||
      (archive.drop data).take 4 = [0xCA, 0xFE, 0xBA, 0xBF])

/-- One turn of the loop of `check_archive`: where the next header stands.  A cputype that
differs from the other members' is only reported. -/
def checkMember (fatAllowed : Bool) (header : Nat) : Option Nat := do
  let size := strtoul (arSize archive header) % 2 ^ 32
  let nameSize ←
    if hasLongName archive header then
      checkExtendFormat1 archive header ((archive.length + 2 ^ 64 - (header + sizeofArHdr)) % 2 ^ 32)
    else some 0
  let data := header + sizeofArHdr + nameSize
  let rest := (size + 2 ^ 32 - nameSize) % 2 ^ 32
  if archive.length < rnd rest 2 + data then none
  else if isFat archive data && !fatAllowed then none
  else some (data + rnd rest 2)

def checkMembers (fatAllowed : Bool) : Nat → Nat → Bool
  | 0, _ => false
  | fuel + 1, header =>
    if header < archive.length then
      match checkMember archive fatAllowed header with
      | some next => checkMembers fatAllowed fuel next
      | none => false
    else true

/-- `check_archive`. -/
def checkArchive (fatAllowed : Bool) : Bool :=
  if archive.length < 8 || archive.take 8 ≠ armag then false
  else if archive.length = 8 then true
  else if archive.length < 8 + sizeofArHdr then false
  else checkMembers archive fatAllowed archive.length 8

/-- `member_size` before the name is taken off. -/
def memberSize (header : Nat) : Nat :=
  min (strtoul (arSize archive header) % 2 ^ 32) (archive.length - sizeofArHdr)

def memberNameSize (header : Nat) : Nat :=
  if hasLongName archive header then
    min (strtoul (longName archive header) % 2 ^ 32) (memberSize archive header)
  else 0

variable (contentsGood : Member → Bool)

/-- The end of `ofile_first_member` and of `ofile_next_member`: `member_addr_set`, and the
checks of the data (fat file, Mach-O file, table of contents), which are `contentsGood`. -/
def setMember (header : Nat) : Option Member :=
  let nameSize := memberNameSize archive header
  let member : Member := ⟨header, header + sizeofArHdr + nameSize, memberSize archive header - nameSize⟩
  if archive.length < member.data + member.size then none
  else if contentsGood member then some member
  else none

def ofileFirstMember : Option Member :=
  if archive.length < 8 || archive.take 8 ≠ armag then none
  else if archive.length ≠ 8 && archive.length < 8 + sizeofArHdr then none
  else if archive.length = 8 then none
  else setMember archive contentsGood 8

def Member.nextOffset (member : Member) : Nat := member.data + rnd member.size 2

def ofileNextMember (member : Member) : Option Member :=
  if member.nextOffset = archive.length then none
  else if archive.length < member.nextOffset then none
  else setMember archive contentsGood member.nextOffset

/-- The members that `ofile_next_member` gives until it gives none. -/
def membersFrom : Nat → Option Member → List Member
  | 0, _ | _, none => []
  | fuel + 1, some member => member :: membersFrom fuel (ofileNextMember archive contentsGood member)

def ofileMembers : List Member :=
  membersFrom archive contentsGood archive.length (ofileFirstMember archive contentsGood)

end Libstuff

/-! ## ld -/

section Ld

variable (base : Nat) (archive : List UInt8)

/-- `Entry::getLongNameSpace`, an `unsigned int`. -/
def getLongNameSpace (header : Nat) : Nat := (strtol (longName archive header) % 2 ^ 32).toNat

/-- `Entry::content`, from the start of the file. -/
def content (header : Nat) : Nat :=
  if hasLongName archive header then header + sizeofArHdr + getLongNameSpace archive header
  else header + sizeofArHdr

/-- `Entry::contentSize`: ten characters, and the name does not count. -/
def contentSize (header : Nat) : Nat :=
  let size := strtol ((arSize archive header).take 10)
  let size := if hasLongName archive header then size - getLongNameSpace archive header else size
  (size % 2 ^ 32).toNat

/-- `Entry::next`: the address is rounded. -/
def next (header : Nat) : Nat :=
  rnd (base + (content archive header + contentSize archive header)) 4 - base

def entry (header : Nat) : Member := ⟨header, content archive header, contentSize archive header⟩

/-- `for (p = start; p < end; p = p->next())`: the entries, and where `p` is then. -/
def entriesFrom : Nat → Nat → List Member × Nat
  | 0, p => ([], p)
  | fuel + 1, p =>
    if p < archive.length then
      let rest := entriesFrom fuel (next base archive p)
      (entry archive p :: rest.1, rest.2)
    else ([], p)

def ldEntries : List Member × Nat := entriesFrom base archive archive.length 8

end Ld

end Cctools.Archive
