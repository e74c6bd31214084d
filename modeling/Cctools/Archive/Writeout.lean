/-
# Cctools.Archive.Writeout -- archives taken apart and written again

`breakout` gives every member a long name, so that header and name take a multiple of
eight bytes, and a size that counts its padding.  `make_table_of_contents` goes over
the symbols twice: once for the sizes and once for the entries and their strings.
`writeout_to_mem` then puts the magic string, the table and the members in a row.

The buffer is filled with zeros before.  Where the two passes differ, or the 32-bit
counters of the second one run over, the table is `none`.
-/
import Cctools.Archive.TableOfContents

namespace Cctools.Archive

set_option autoImplicit false

open Cctools.Theory Cctools.Theory.Decimal
open Cctools.Lipo (rnd)

/-! ## Members -/

/-- `struct nlist` and `struct nlist_64`. -/
structure Nlist where
  strx : Nat
  type : BitVec 8
  sect : Nat
  value : Nat
  deriving DecidableEq, Repr

/-- The parts of an object file that its entries in a table of contents come from.  `strings` is
the string table, `sectionFlags` are the flags of its sections. -/
structure Object where
  bigEndian : Bool
  symbols : List Nlist
  strings : List UInt8
  sectionFlags : List (BitVec 32)
  deriving DecidableEq, Repr

/-- What `ofile_next_member` says of a member. -/
structure InputMember where
  arHdr : List UInt8
  name : List UInt8
  object : Option Object
  contents : List UInt8
  whole : arHdr.length = sizeofArHdr
  name_fits : name.length < 2 ^ 32
  contents_fit : contents.length < 2 ^ 32
  deriving DecidableEq

/-- `struct member`. -/
structure OutputMember where
  arHdr : List UInt8
  offset : Nat
  memberName : List UInt8
  object : Option Object
  contents : List UInt8
  deriving DecidableEq, Repr

/-! ## breakout -/

/-- Trailing NULs do not count, but for a first character. -/
def trimmedSize (name : List UInt8) : Nat → Nat
  | n + 2 => if name.getD (n + 1) 0 = 0 then trimmedSize name (n + 1) else n + 2
  | n => n

def trimName (name : List UInt8) : List UInt8 := name.take (trimmedSize name name.length)

/-- The bytes from the header to the contents. -/
def longNameSize (nameSize : Nat) : Nat := rnd nameSize 8 + (rnd sizeofArHdr 8 - sizeofArHdr)

def InputMember.arNameSize (member : InputMember) : Nat := longNameSize (trimName member.name).length

/-- `ar_size` in the output. -/
def InputMember.newSize (member : InputMember) : Nat := rnd member.contents.length 8 + member.arNameSize

def InputMember.newHdr (member : InputMember) : List UInt8 :=
  (arEfmt1 ++ leftJustify 13 (printed 10 member.arNameSize)).take 16 ++ (member.arHdr.drop 16).take 32 ++
    (leftJustify 10 (printed 10 member.newSize)).take 10 ++ member.arHdr.drop 58

/-- The loop of `breakout_loop_through_archive`, from a `library_size` on. -/
def breakoutMembers : Nat → List InputMember → List OutputMember
  | _, [] => []
  | librarySize, member :: rest =>
    { arHdr := member.newHdr
      offset := librarySize
      memberName := trimName member.name
      object := member.object
      contents := member.contents } :: breakoutMembers (librarySize + (sizeofArHdr + member.newSize)) rest

/-! ## The symbols of the table of contents -/

/-- `toc`. -/
def tocSelects (strx : Nat) (type : BitVec 8) (value : Nat) (commonsInToc attrNoToc : Bool) : Bool :=
  if strx = 0 then false
  else if type &&& 0x01 = 0 then false
  else if type &&& 0x0e = 0 && value = 0 then false
  else if type &&& 0x0e = 0 && value ≠ 0 && !commonsInToc then false
  else !attrNoToc

/-- `toc_symbol` and `toc_symbol_64`. -/
def tocSymbol (commonsInToc : Bool) (object : Object) (symbol : Nlist) : Bool :=
  tocSelects symbol.strx symbol.type symbol.value commonsInToc
    (symbol.type &&& 0x0e = 0x0e && object.sectionFlags.getD (symbol.sect - 1) 0 &&& 0x40000000 ≠ 0)

def Object.symbolName (object : Object) (symbol : Nlist) : List UInt8 :=
  cString (object.strings.drop symbol.strx)

/-- The names that the first pass counts. -/
def countedNames (commonsInToc : Bool) (object : Object) : List (List UInt8) :=
  (object.symbols.filter (tocSymbol commonsInToc object)).map object.symbolName

/-- The names that the second pass fills in: it looks at the string index first. -/
def filledNames (commonsInToc : Bool) (object : Object) : List (List UInt8) :=
  (object.symbols.filter fun symbol =>
    !(object.strings.length < symbol.strx) && tocSymbol commonsInToc object symbol).map object.symbolName

/-- The names of all members, each with the member's index plus one. -/
def namesFrom (names : Object → List (List UInt8)) : Nat → List OutputMember → List (Nat × List UInt8)
  | _, [] => []
  | index, member :: rest =>
    ((member.object.map names).getD []).map (index + 1, ·) ++ namesFrom names (index + 1) rest

/-- `struct toc_entry`: the place of the name in `toc_strings`, the name there, and the index of
the member plus one. -/
structure TocEntry where
  strx : Nat
  symbolName : List UInt8
  memberIndex : Nat
  deriving DecidableEq, Repr

def entriesAt : Nat → List (Nat × List UInt8) → List TocEntry
  | _, [] => []
  | s, (index, name) :: rest => ⟨s, name, index⟩ :: entriesAt (s + (name.length + 1)) rest

def stringsOf (names : List (Nat × List UInt8)) : List UInt8 := names.flatMap fun name => name.2 ++ [0]

/-- `toc_entry_name_qsort`: `strcmp` on names without NULs. -/
def nameLe (toc1 toc2 : TocEntry) : Bool := toc1.symbolName ≤ toc2.symbolName

/-- `toc_entry_index_qsort`. -/
def indexLe (toc1 toc2 : TocEntry) : Bool := toc1.memberIndex ≤ toc2.memberIndex

/-- `check_sort_toc_entries`: two neighbours do not have one name. -/
def checkSortTocEntries : List TocEntry → Bool
  | toc1 :: toc2 :: rest => toc1.symbolName ≠ toc2.symbolName && checkSortTocEntries (toc2 :: rest)
  | _ => true

/-- The entries in the order of the table, and whether that is the order of the names. -/
def sortTocEntries (sortToc : Bool) (entries : List TocEntry) : List TocEntry × Bool :=
  if sortToc then
    if checkSortTocEntries (entries.mergeSort nameLe) then (entries.mergeSort nameLe, true)
    else ((entries.mergeSort nameLe).mergeSort indexLe, false)
  else (entries, false)

/-! ## make_table_of_contents -/

/-- Who and when: zeros and 0100644 in deterministic mode, else the clock and the process. -/
structure Stamp where
  date : Nat
  uid : Nat
  gid : Nat
  mode : Nat
  date_fits : date < 10 ^ 12
  uid_fits : uid < 2 ^ 16
  gid_fits : gid < 2 ^ 16
  mode_fits : mode < 8 ^ 8

def Stamp.deterministic : Stamp where
  date := 0
  uid := 0
  gid := 0
  mode := 0o100644
  date_fits := by decide
  uid_fits := by decide
  gid_fits := by decide
  mode_fits := by decide

structure Options where
  sortToc : Bool
  commonsInToc : Bool
  force64bitToc : Bool
  stamp : Stamp

/-- `toc_name`, of `toc_name_size` bytes. -/
def tocName : TocForm → Bool → List UInt8
  | .symdef, true => ascii "__.SYMDEF SORTED"
  | .symdef, false => ascii "__.SYMDEF" ++ List.replicate 7 0
  | .symdef64, true => ascii "__.SYMDEF_64 SORTED" ++ List.replicate 5 0
  | .symdef64, false => ascii "__.SYMDEF_64" ++ List.replicate 4 0

def tocArName : TocForm → Bool → List UInt8
  | .symdef64, true => ascii "#1/28"
  | _, _ => ascii "#1/20"

/-- `toc_size`, a `uint32_t`: with the header and the name. -/
def tocSize (form : TocForm) (sorted : Bool) (ntocs strsize : Nat) : Nat :=
  ((sizeofArHdr + form.word + ntocs * (2 * form.word) + form.word + strsize) % 2 ^ 32 +
    ((tocName form sorted).length + (rnd sizeofArHdr 8 - sizeofArHdr))) % 2 ^ 32

def tocHdr (stamp : Stamp) (form : TocForm) (sorted : Bool) (size : Nat) : List UInt8 :=
  (leftJustify 16 (tocArName form sorted) ++ leftJustify 12 (printed 10 stamp.date) ++
    leftJustify 6 (printed 10 stamp.uid) ++ leftJustify 6 (printed 10 stamp.gid) ++
    leftJustify 8 (printed 8 stamp.mode) ++ leftJustify 10 (printed 10 (size - sizeofArHdr))).take 58 ++ [96, 10]

/-- The `toc_*` fields of `struct arch`. -/
structure MadeToc where
  form : TocForm
  sorted : Bool
  size : Nat
  entries : List TocEntry
  strings : List UInt8

/-- `make_table_of_contents` from the counts of the first pass and the names of the second one. -/
def fillToc (options : Options) (members : List OutputMember) (ntocs strsize : Nat)
    (filled : List (Nat × List UInt8)) : MadeToc :=
  let sorting := sortTocEntries options.sortToc (entriesAt 0 filled)
  let using64toc := options.force64bitToc ||
    members.any fun member => 0xFFFFFFFF < member.offset + 8 + tocSize .symdef sorting.2 ntocs strsize
  let form := if using64toc then .symdef64 else .symdef
  { form
    sorted := sorting.2
    size := tocSize form sorting.2 ntocs strsize
    entries := sorting.1
    strings := stringsOf filled ++ List.replicate (strsize - (stringsOf filled).length) 0 }

def makeTableOfContents (options : Options) (members : List OutputMember) : Option MadeToc :=
  let counted := namesFrom (countedNames options.commonsInToc) 0 members
  let filled := namesFrom (filledNames options.commonsInToc) 0 members
  let strsize := rnd (stringsOf counted).length 8
  if counted.length ≠ filled.length || 2 ^ 32 ≤ strsize || 2 ^ 32 ≤ counted.length then none
  else some (fillToc options members counted.length strsize filled)

/-! ## writeout_to_mem -/

def putWord (form : TocForm) (bigEndian : Bool) (value : Nat) : List UInt8 :=
  if bigEndian then beBytes form.word value else (beBytes form.word value).reverse

/-- `ran_off`, when the offsets of the members are final. -/
def MadeToc.ranOff (made : MadeToc) (members : List OutputMember) (entry : TocEntry) : Nat :=
  (members.map OutputMember.offset).getD (entry.memberIndex - 1) 0 + (8 + made.size)

def MadeToc.ranlib (made : MadeToc) (members : List OutputMember) (bigEndian : Bool) (entry : TocEntry) :
    List UInt8 :=
  putWord made.form bigEndian entry.strx ++ putWord made.form bigEndian (made.ranOff members entry)

/-- `target_byte_sex`: that of the first object file. -/
def targetBigEndian (members : List OutputMember) : Bool :=
  ((members.filterMap OutputMember.object).head?.map Object.bigEndian).getD false

/-- The table of contents behind its header and name. -/
def MadeToc.table (made : MadeToc) (members : List OutputMember) : List UInt8 :=
  let bigEndian := targetBigEndian members
  putWord made.form bigEndian (made.entries.length * (2 * made.form.word)) ++
    made.entries.flatMap (made.ranlib members bigEndian) ++
    putWord made.form bigEndian made.strings.length ++ made.strings

def MadeToc.bytes (made : MadeToc) (stamp : Stamp) (members : List OutputMember) : List UInt8 :=
  tocHdr stamp made.form made.sorted made.size ++ tocName made.form made.sorted ++
    List.replicate (rnd sizeofArHdr 8 - sizeofArHdr) 0 ++ made.table members

/-- A member's header, name and contents, with the zeros of the buffer behind the name and
newlines behind the contents. -/
def OutputMember.bytes (member : OutputMember) : List UInt8 :=
  member.arHdr ++ member.memberName ++
    List.replicate (longNameSize member.memberName.length - member.memberName.length) 0 ++
    member.contents ++ List.replicate (rnd member.contents.length 8 - member.contents.length) 10

/-- The archive that `writeout_to_mem` writes.  In the 32-bit form the size of the entries must fit. -/
def writeoutToMem (options : Options) (members : List OutputMember) : Option (List UInt8) := do
  let made ← makeTableOfContents options members
  if made.form = .symdef && 0xFFFFFFFF < made.entries.length * (2 * made.form.word) then none
  else some (armag ++ made.bytes options.stamp members ++ members.flatMap OutputMember.bytes)

end Cctools.Archive
