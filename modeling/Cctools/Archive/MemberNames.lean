/-
# Cctools.Archive.MemberNames -- the name of a member

A name stands in the header, behind it (`#1/`), or in the table of System V names.
A member whose data do not stand at a multiple of eight is copied into a buffer, and
the next member frees that buffer, also when the table of names was in it: what reads
a freed buffer ends in `Failure.freed`.
-/
import Cctools.Archive.TableOfContents

namespace Cctools.Archive

set_option autoImplicit false

open Cctools.Theory Cctools.Theory.Decimal
open Cctools.Lipo (rnd)

inductive Failure where
  /-- Memory is read that was given back. -/
  | freed
  deriving DecidableEq, Repr

/-! ## Contents -/

def isMachO32 (contents : List UInt8) : Bool :=
  contents.take 4 = [0xFE, 0xED, 0xFA, 0xCE] || contents.take 4 = [0xCE, 0xFA, 0xED, 0xFE]

def isMachO64 (contents : List UInt8) : Bool :=
  contents.take 4 = [0xFE, 0xED, 0xFA, 0xCF] || contents.take 4 = [0xCF, 0xFA, 0xED, 0xFE]

section Walk

variable (archive : List UInt8)

def Member.contents (member : Member) : List UInt8 := (archive.drop member.data).take member.size

/-! ## Names -/

/-- `size_ar_name`, from a character on. -/
def sizeArNameFrom (name : List UInt8) : Nat → Nat
  | i + 1 => if name.getD (i + 1) 0 = 32 then sizeArNameFrom name i else i + 1
  | 0 => 0

def sizeArName (name : List UInt8) : Nat :=
  let i := sizeArNameFrom name 15
  if 1 < i && name.getD i 0 = 47 then i else i + 1

/-- The table of System V names: where it stands, or that the buffer it was in is free. -/
inductive SysvStrtab where
  | null
  | at (start size : Nat)
  | freed (size : Nat)
  deriving DecidableEq, Repr

/-- The first `// ` member sets the table: to the address of the member before it, and its own size. -/
def SysvStrtab.next (strtab : SysvStrtab) (before member : Member) : SysvStrtab :=
  match strtab with
  | .null =>
    if (arName archive member.header).take 3 = ascii "// " then
      if before.data % 8 = 0 then .at before.data (memberSize archive member.header)
      else .freed (memberSize archive member.header)
    else .null
  | _ => strtab

def isSysvName (header : Nat) : Bool :=
  (arName archive header).getD 0 0 = 47 &&
    (arName archive header).getD 1 0 ≠ 32 && (arName archive header).getD 1 0 ≠ 47

def shortName (header : Nat) : List UInt8 :=
  (arName archive header).take (sizeArName ((arName archive header).take 16))

/-- `member_name` with `member_name_size` characters. -/
def memberName (strtab : SysvStrtab) (header : Nat) : Except Failure (List UInt8) :=
  if isSysvName archive header then
    let offset := strtoul ((arName archive header).drop 1) % 2 ^ 32
    match strtab with
    | .null => .ok (shortName archive header)
    | .at start size =>
      if offset < size then .ok (((archive.drop (start + offset)).take (size - offset)).takeWhile (· ≠ 47))
      else .ok (shortName archive header)
    | .freed size => if offset < size then .error .freed else .ok (shortName archive header)
  else if hasLongName archive header then
    .ok ((archive.drop (header + sizeofArHdr)).take (memberNameSize archive header))
  else .ok (shortName archive header)

end Walk

end Cctools.Archive
