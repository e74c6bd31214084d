/-
# Cctools.Archive.TableOfContents -- ld opens the table of contents of an archive

The first member's name says which form the table has: pairs of 32-bit or of 64-bit
numbers, a string index and the offset of a member.  The hash table is filled from
the back, so that of two entries with one name the earlier one stays.
-/
import Cctools.Archive.Members

namespace Cctools.Archive

set_option autoImplicit false

open Cctools.Theory

/-! ## Names -/

def cString (bytes : List UInt8) : List UInt8 := bytes.takeWhile (· ≠ 0)

def ascii (s : String) : List UInt8 := s.toList.map fun c => UInt8.ofNat c.toNat

/-- `Entry::getName` into a buffer of 256.  A longer name stops ld: `none`. -/
def getName (archive : List UInt8) (header : Nat) : Option (List UInt8) :=
  if hasLongName archive header then
    if getLongNameSpace archive header < 256 then
      some (cString ((archive.drop (header + sizeofArHdr)).take (getLongNameSpace archive header)))
    else none
  else some ((cString ((arName archive header).take 16)).takeWhile (· ≠ 32))

inductive TocForm where
  | symdef
  | symdef64
  deriving DecidableEq, Repr

/-- The comparisons with the first member's name in `File<A>::File`. -/
def tocForm (archive : List UInt8) : Option TocForm :=
  match getName archive 8 with
  | none => none
  | some name =>
    if name = ascii "__.SYMDEF SORTED" || name = ascii "__.SYMDEF" then some .symdef
    else if name = ascii "__.SYMDEF_64 SORTED" || name = ascii "__.SYMDEF_64" then some .symdef64
    else none

/-! ## The table -/

/-- The size of the two members of `struct ranlib` and `struct ranlib_64`, and of the lengths. -/
def TocForm.word : TocForm → Nat
  | .symdef => 4
  | .symdef64 => 8

/-- `E::get32` or `E::get64` at an offset in the file. -/
def TocForm.get (form : TocForm) (archive : List UInt8) (offset : Nat) : Nat :=
  readLe form.word (archive.drop offset)

structure Toc where
  tableOfContents : Nat
  tableOfContentCount : Nat
  tableOfContentStrings : Nat

inductive MalformedArchive where
  /-- "malformed archive, perhaps wrong architecture" -/
  | wrongArchitecture
  /-- "malformed archive TOC entry for %s, offset %d is beyond end of file %lld" -/
  | beyondEnd (name : List UInt8) (offset length : Nat)
  /-- Not an error: memory outside of the mapped file is read. -/
  | readsOutside

section Toc

variable (form : TocForm) (base : Nat) (archive : List UInt8)

def ranlibArrayLen : Nat := form.get archive (content archive 8)

/-- The fields as `File<A>::File` sets them: the table as an offset in the file, the strings
as an address.  The sum for the strings has the width of the length. -/
def toc : Toc where
  tableOfContents := content archive 8 + form.word
  tableOfContentCount := ranlibArrayLen form archive / (2 * form.word) % 2 ^ 32
  tableOfContentStrings :=
    match form with
    | .symdef => base + content archive 8 + (ranlibArrayLen form archive + 8) % 2 ^ 32
    | .symdef64 => (base + content archive 8 + ranlibArrayLen form archive + 16) % 2 ^ 64

/-- With `struct ranlib_64` too it is `_tableOfContents` that is looked at, and that is `NULL` then. -/
def tocPastEnd : Bool :=
  let toc := toc form base archive
  (match form with
    | .symdef => base + archive.length < base + toc.tableOfContents + 8 * toc.tableOfContentCount
    | .symdef64 => base + archive.length < 8 * toc.tableOfContentCount) ||
    base + archive.length < toc.tableOfContentStrings

/-- `ran_strx` of an entry. -/
def ranStrx (i : Nat) : Nat :=
  form.get archive ((toc form base archive).tableOfContents + 2 * form.word * i)

/-- `ran_off` of an entry. -/
def ranOff (i : Nat) : Nat :=
  form.get archive ((toc form base archive).tableOfContents + 2 * form.word * i + form.word)

/-- The name of an entry, if the entry and its name lie in the file. -/
def entryName (i : Nat) : Option (List UInt8) :=
  let toc := toc form base archive
  let address := (toc.tableOfContentStrings + ranStrx form base archive i) % 2 ^ 64
  let behind := archive.drop (address - base)
  if toc.tableOfContents + 2 * form.word * (i + 1) ≤ archive.length ∧ base ≤ address ∧ 0 ∈ behind then
    some (cString behind)
  else none

abbrev NameToOffsetMap := List UInt8 → Option Nat

def NameToOffsetMap.set (map : NameToOffsetMap) (name : List UInt8) (offset : Nat) : NameToOffsetMap :=
  fun other => if other = name then some offset else map other

/-- The loop of `buildHashTable` and of `buildHashTable64`, with `n` entries to come. -/
def addEntries : Nat → NameToOffsetMap → Except MalformedArchive NameToOffsetMap
  | 0, map => .ok map
  | i + 1, map =>
    match entryName form base archive i with
    | none => .error .readsOutside
    | some name =>
      if archive.length < ranOff form base archive i then
        .error (.beyondEnd name (ranOff form base archive i) archive.length)
      else addEntries i (map.set name (ranOff form base archive i))

/-- The index is an `int`: above `2 ^ 31` entries it starts negative. -/
def buildHashTable : Except MalformedArchive NameToOffsetMap :=
  if 2 ^ 31 < (toc form base archive).tableOfContentCount then .ok fun _ => none
  else addEntries form base archive (toc form base archive).tableOfContentCount fun _ => none

/-- The table of contents in `File<A>::File`. -/
def openTableOfContents : Except MalformedArchive NameToOffsetMap :=
  if archive.length < content archive 8 + form.word then .error .readsOutside
  else if tocPastEnd form base archive then .error .wrongArchitecture
  else buildHashTable form base archive

/-! ## What a lookup finds -/

/-- `ran_off` of the first of `n` entries with a name. -/
def firstOffset (n : Nat) (name : List UInt8) : Option Nat :=
  ((List.range n).find? fun i => entryName form base archive i = some name).map (ranOff form base archive)

theorem addEntries_finds {n : Nat} {map result : NameToOffsetMap}
    (added : addEntries form base archive n map = .ok result) (name : List UInt8) :
    result name = (firstOffset form base archive n name).or (map name) := by
  induction n generalizing map with
  | zero =>
    cases added
    simp [firstOffset]
  | succ i ih =>
    rw [addEntries] at added
    split at added
    · cases added
    · rename_i here isName
      split at added
      · cases added
      · rw [ih added, firstOffset, firstOffset, List.range_succ, List.find?_append]
        cases earlier : (List.range i).find? fun i => entryName form base archive i = some name with
        | some j => simp
        | none =>
          by_cases same : here = name
          · simp [NameToOffsetMap.set, isName, same]
          · simp [NameToOffsetMap.set, isName, same, Ne.symm same]

theorem addEntries_ok (n : Nat) (map : NameToOffsetMap) :
    (∃ result, addEntries form base archive n map = .ok result) ↔
      ∀ i < n, (entryName form base archive i).isSome = true ∧ ranOff form base archive i ≤ archive.length := by
  induction n generalizing map with
  | zero => simp [addEntries]
  | succ i ih =>
    rw [addEntries, Nat.forall_lt_succ_right]
    split
    · rename_i noName
      simp [noName]
    · rename_i name isName
      split
      · rename_i beyond
        constructor
        · rintro ⟨result, failed⟩
          cases failed
        · intro within
          omega
      · rename_i here
        rw [ih]
        exact ⟨fun within => ⟨within, by simp [isName], by omega⟩, And.left⟩

/-- The table of contents lies in the file with its names, and so does every member it points at. -/
structure TocInFile : Prop where
  length : content archive 8 + form.word ≤ archive.length
  ends : tocPastEnd form base archive = false
  count : (toc form base archive).tableOfContentCount ≤ 2 ^ 31
  entries : ∀ i < (toc form base archive).tableOfContentCount,
    (entryName form base archive i).isSome = true ∧ ranOff form base archive i ≤ archive.length

/-- Every entry has a name in the file, and every name is looked up to the first entry that has it. -/
def FindsFirst : Prop :=
  ∃ table, openTableOfContents form base archive = .ok table ∧
    (∀ i < (toc form base archive).tableOfContentCount, (entryName form base archive i).isSome = true) ∧
    ∀ name, table name = firstOffset form base archive (toc form base archive).tableOfContentCount name

theorem findsFirst_iff : FindsFirst form base archive ↔ TocInFile form base archive := by
  constructor
  · rintro ⟨table, opened, named, first⟩
    rw [openTableOfContents] at opened
    split at opened
    · cases opened
    · rename_i length
      split at opened
      · cases opened
      · rename_i ends
        rw [buildHashTable] at opened
        split at opened
        · rename_i many
          cases opened
          obtain ⟨name, isName⟩ := Option.isSome_iff_exists.mp (named 0 (by omega))
          have found := first name
          have some_first : (firstOffset form base archive (toc form base archive).tableOfContentCount name).isSome := by
            rw [firstOffset, Option.isSome_map, List.find?_isSome]
            exact ⟨0, List.mem_range.mpr (by omega), by simp [isName]⟩
          rw [← found] at some_first
          cases some_first
        · exact ⟨by omega, by simpa using ends, by omega, (addEntries_ok form base archive _ _).mp ⟨table, opened⟩⟩
  · intro inFile
    obtain ⟨table, added⟩ := (addEntries_ok form base archive _ fun _ => none).mpr inFile.entries
    refine ⟨table, ?_, fun i below => (inFile.entries i below).1, ?_⟩
    · rw [openTableOfContents, if_neg (Nat.not_lt.mpr inFile.length), inFile.ends, if_neg Bool.false_ne_true,
        buildHashTable, if_neg (Nat.not_lt.mpr inFile.count)]
      exact added
    · intro name
      rw [addEntries_finds form base archive added name, Option.or_none]

end Toc

end Cctools.Archive
