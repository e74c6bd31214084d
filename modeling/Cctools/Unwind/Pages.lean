/-
# Cctools.Unwind.Pages -- the second level pages of the unwind info

`makeRegularSecondLevelPage`, `makeCompressedSecondLevelPage` and the loop of
the constructor of `UnwindInfoAtom` in `compact_unwind.cpp`.  Pages are built from the last entry to
the first, so both passes get the entries in front of `endIndex` in reverse: the position of an
entry is the number of those behind it in that list, and `index >= 0` says that some are left.

An entry of a page names its function by a fixup, and the dwarf data of the function by another.
-/
import Mathlib.Data.List.Basic
import Mathlib.Algebra.GroupWithZero.Nat

namespace Cctools.Unwind

set_option autoImplicit false

/-! ## Entries -/

abbrev Encoding := BitVec 32

/-- `UnwindEntry`, as far as the pages show it; `func` and `fde` are atoms. -/
structure UnwindEntry where
  func : Nat
  fde : Option Nat
  funcTentAddress : BitVec 64
  encoding : Encoding
  deriving DecidableEq, Repr

inductive Arch where
  | x86
  | x86_64
  | arm64
  | arm64_32
  | arm
  deriving DecidableEq, Repr

/-- `UNWIND_X86_MODE_DWARF` and the others. -/
def Arch.modeDwarf : Arch → Encoding
  | x86 | x86_64 | arm => 0x04000000
  | arm64 | arm64_32 => 0x03000000

variable (arch : Arch)

/-- The mode masks are all the same. -/
def encodingMeansUseDwarf (enc : Encoding) : Bool := enc &&& 0x0F000000 = arch.modeDwarf

/-! ## Common encodings -/

/-- The common table that `findCommonEncoding` makes, by index.  Dwarf is never in it. -/
structure CommonEncodings where
  table : List Encoding
  few : table.length ≤ 127
  nodup : table.Nodup
  noDwarf : ∀ enc ∈ table, encodingMeansUseDwarf arch enc = false

/-! ## Pages -/

/-- `unwind_info_regular_second_level_entry`, with what is fixed up in it. -/
structure RegularEntry where
  func : Nat
  encoding : Encoding
  fde : Option Nat
  deriving DecidableEq, Repr

/-- An entry of a compressed page; `fde` is fixed up in the encoding it has. -/
structure CompressedEntry where
  func : Nat
  encodingIndex : Nat
  fde : Option Nat
  deriving DecidableEq, Repr

inductive Page where
  | regular (entries : List RegularEntry)
  | compressed (entries : List CompressedEntry) (encodings : List Encoding) (pad : Nat)
  deriving DecidableEq, Repr

/-- Header, entries, encodings and padding.  The headers have 8 and 12 bytes. -/
def Page.size : Page → Nat
  | regular entries => 8 + entries.length * 8
  | compressed entries encodings pad => 12 + encodings.length * 4 + entries.length * 4 + pad

def fdeOf (info : UnwindEntry) : Option Nat :=
  if encodingMeansUseDwarf arch info.encoding then info.fde else none

def regularEntry (info : UnwindEntry) : RegularEntry where
  func := info.func
  encoding := info.encoding
  fde := fdeOf arch info

def maxEntriesPerPage (pageSize : Nat) : Nat := (pageSize - 8) / 8

/-- The page, and the entries in front of it. -/
def makeRegularSecondLevelPage (pageSize : Nat) (ahead : List UnwindEntry) : Page × List UnwindEntry :=
  let entriesToAdd :=
    if maxEntriesPerPage pageSize < ahead.length then maxEntriesPerPage pageSize else ahead.length
  (.regular ((ahead.take entriesToAdd).reverse.map (regularEntry arch)), ahead.drop entriesToAdd)

/-! ## The first pass -/

variable (common : CommonEncodings arch)

structure FirstPass where
  entryCount : Nat := 0
  pageSpecificEncodings : List Encoding := []
  canDo : Bool := true
  deriving DecidableEq, Repr

/-- A unique pseudo encoding for dwarf, so that it gets a slot of its own. -/
def pageEncoding (index : Nat) (info : UnwindEntry) : Encoding :=
  if encodingMeansUseDwarf arch info.encoding then info.encoding + BitVec.ofNat 32 index else info.encoding

def placeEncoding (index : Nat) (info : UnwindEntry) (pass : FirstPass) : FirstPass :=
  if info.encoding ∈ common.table then pass
  else if pageEncoding arch index info ∈ pass.pageSpecificEncodings then pass
  else if common.table.length + pass.pageSpecificEncodings.length ≤ 255 then
    { pass with pageSpecificEncodings := pass.pageSpecificEncodings ++ [pageEncoding arch index info] }
  else { pass with canDo := false }

def funcOffsetWithInPage (lastEntryAddress : BitVec 64) (info : UnwindEntry) : BitVec 32 :=
  (lastEntryAddress - info.funcTentAddress).setWidth 32

def checkOffset (lastEntryAddress : BitVec 64) (info : UnwindEntry) (pass : FirstPass) : FirstPass :=
  if 0x00FFFF00 < (funcOffsetWithInPage lastEntryAddress info).toNat then { pass with canDo := false } else pass

def checkRoom (space4 : Nat) (pass : FirstPass) : FirstPass :=
  if space4 < pass.pageSpecificEncodings.length + pass.entryCount then
    { pass with canDo := false, entryCount := pass.entryCount - 1 }
  else pass

def countEntry (pass : FirstPass) : FirstPass :=
  if pass.canDo then { pass with entryCount := pass.entryCount + 1 } else pass

/-- One turn of the loop. -/
def addEntry (lastEntryAddress : BitVec 64) (space4 index : Nat) (info : UnwindEntry) (pass : FirstPass) :
    FirstPass :=
  countEntry (checkRoom space4 (checkOffset lastEntryAddress info (placeEncoding arch common index info pass)))

/-- The loop, with what is left in front. -/
def firstPass (lastEntryAddress : BitVec 64) (space4 : Nat) :
    List UnwindEntry → FirstPass → FirstPass × List UnwindEntry
  | [], pass => (pass, [])
  | info :: before, pass =>
    let pass := addEntry arch common lastEntryAddress space4 before.length info pass
    if pass.canDo then firstPass lastEntryAddress space4 before pass else (pass, before)

/-! ## The second pass -/

/-- Entries with their positions. -/
def positioned : List UnwindEntry → List (Nat × UnwindEntry)
  | [] => []
  | info :: before => (before.length, info) :: positioned before

/-- Page specific encodings are numbered behind the common ones; the index is a byte. -/
def encodingIndex (encodings : List Encoding) (entry : Nat × UnwindEntry) : Nat :=
  if encodingMeansUseDwarf arch entry.2.encoding then
    (common.table.length + encodings.idxOf (pageEncoding arch entry.1 entry.2)) % 256
  else if entry.2.encoding ∈ common.table then common.table.idxOf entry.2.encoding % 256
  else (common.table.length + encodings.idxOf entry.2.encoding) % 256

def compressedEntry (encodings : List Encoding) (entry : Nat × UnwindEntry) : CompressedEntry where
  func := entry.2.func
  encodingIndex := encodingIndex arch common encodings entry
  fde := fdeOf arch entry.2

/-- `compressPageUsed`. -/
def FirstPass.used (pass : FirstPass) : Nat := 12 + pass.pageSpecificEncodings.length * 4 + pass.entryCount * 4

/-- The page that ends with `info`, and the entries in front of it. -/
def makeCompressedSecondLevelPage (pageSize : Nat) (info : UnwindEntry) (before : List UnwindEntry) :
    Page × List UnwindEntry :=
  let ahead := info :: before
  let (pass, left) := firstPass arch common info.funcTentAddress ((pageSize - 12) / 4) ahead {}
  if pass.used < pageSize - 4 ∧ left ≠ [] ∧ pass.entryCount < maxEntriesPerPage pageSize then
    makeRegularSecondLevelPage arch pageSize ahead
  else
    let entries := ((positioned ahead).take pass.entryCount).reverse
    let pad := if pass.used = pageSize - 4 then 4 else 0
    let shown := entries.map (compressedEntry arch common pass.pageSpecificEncodings)
    (.compressed shown pass.pageSpecificEncodings pad, ahead.drop pass.entryCount)

/-! ## All pages -/

/-- The pages so far, the first of them first.  `pageEnd` is an offset in `_pageAlignedPages`. -/
structure Building where
  ahead : List UnwindEntry
  pageEnd : Int
  pageSize : Nat
  pages : List Page
  deriving DecidableEq, Repr

/-- The number of pages that the buffer has, by the count of entries. -/
def pageCount (entries : Nat) : Nat := (entries - 1) / maxEntriesPerPage 4096 + 2

def maxLastPageSize (ehFrameSize : Nat) : Nat :=
  let room := 4096 - ehFrameSize % 4096
  if room < 128 then 4096 else room

/-- `&_pageAlignedPages[pageCount*4096]` multiplies as `unsigned int`. -/
def startBuilding (uniqueEntries : List UnwindEntry) (ehFrameSize : Nat) : Building where
  ahead := uniqueEntries.reverse
  pageEnd := (pageCount uniqueEntries.length * 4096 % 2 ^ 32 : Nat)
  pageSize := maxLastPageSize ehFrameSize
  pages := []

/-- One turn of the loop.  The first page may be of odd size, and the next ends on a boundary then. -/
def buildPage (building : Building) : Option Building :=
  match building.ahead with
  | [] => none
  | info :: before =>
    let (page, left) := makeCompressedSecondLevelPage arch common building.pageSize info before
    let pageEnd := building.pageEnd - page.size
    if building.pageSize ≠ 4096 ∧ left ≠ [] then
      some { ahead := left, pageEnd := pageEnd / 4096 * 4096, pageSize := 4096, pages := page :: building.pages }
    else some { building with ahead := left, pageEnd, pages := page :: building.pages }

end Cctools.Unwind
