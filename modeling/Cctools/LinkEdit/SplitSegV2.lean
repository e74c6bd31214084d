/-
# Cctools.LinkEdit.SplitSegV2 -- split segment information, version 2

`SplitSegInfoV2Atom::encode` of `ld/LinkEdit.hpp`: the records are sorted into nested maps, by the
two sections, the offset of the target and the kind, and the maps are written in order.  The reader
follows the grammar that the class gives:

    Whole         :== <count> FromToSection+
    FromToSection :== <from-sect-index> <to-sect-index> <count> ToOffset+
    ToOffset      :== <to-sect-offset-delta> <count> FromOffset+
    FromOffset    :== <kind> <count> <from-sect-offset-delta>

What it finds is the list of records, each as often as it was given (`decode_encode`).
-/
import Cctools.LinkEdit.ByteStream
import Cctools.Theory.Counted
import Cctools.Theory.OrderedMap

namespace Cctools.LinkEdit.SplitSegV2

set_option autoImplicit false

open Cctools.Theory

/-! ## Records -/

/-- `SplitSegInfoV2Entry`. -/
structure SplitSegInfoV2Entry where
  fixupSectionOffset : BitVec 64
  targetSectionOffset : BitVec 64
  fixupSectionIndex : BitVec 8
  targetSectionIndex : BitVec 8
  referenceKind : BitVec 8
  deriving DecidableEq, Repr

/-- `_splitSegV2Infos`: the size of a vector is a 64-bit number. -/
structure SplitSegV2Infos where
  entries : List SplitSegInfoV2Entry
  sized : entries.length < 2 ^ 64

instance bitVecLinearOrder {width : Nat} : LinearOrder (BitVec width) where
  le_refl := BitVec.le_refl
  le_trans := fun _ _ _ => BitVec.le_trans
  le_antisymm := fun _ _ => BitVec.le_antisymm
  le_total := BitVec.le_total
  lt_iff_le_not_ge := by
    intro a b
    simp only [BitVec.lt_def, BitVec.le_def]
    omega
  toDecidableLE := inferInstance

/-- `fixupSectionIndex << 16 | targetSectionIndex`. -/
abbrev SectionIndexes := BitVec 32

abbrev FromOffsetMap := OrderedMap (BitVec 8) (List (BitVec 64))
abbrev ToOffsetMap := OrderedMap (BitVec 64) FromOffsetMap
abbrev WholeMap := OrderedMap SectionIndexes ToOffsetMap

namespace SplitSegInfoV2Entry

def indexes (entry : SplitSegInfoV2Entry) : SectionIndexes :=
  entry.fixupSectionIndex.setWidth 32 <<< 16 ||| entry.targetSectionIndex.setWidth 32

end SplitSegInfoV2Entry

def fromSectionIndex (index : SectionIndexes) : BitVec 8 := (index >>> 16).setWidth 8

def toSectionIndex (index : SectionIndexes) : BitVec 8 := (index &&& 0xFFFF).setWidth 8

/-! ## Sorting into maps -/

def addEntry (whole : WholeMap) (entry : SplitSegInfoV2Entry) : WholeMap :=
  whole.update entry.indexes [] fun toOffsets =>
    toOffsets.update entry.targetSectionOffset [] fun fromOffsets =>
      fromOffsets.update entry.referenceKind [] fun offsets => offsets ++ [entry.fixupSectionOffset]

def wholeMap (infos : SplitSegV2Infos) : WholeMap := infos.entries.foldl addEntry []

/-! ## Writing -/

def appendCounted {σ α : Type} (write : σ → α → List UInt8) (next : σ → α → σ) (state : σ) (items : List α) :
    List UInt8 :=
  appendUleb128 (BitVec.ofNat 64 items.length) ++ writeAll write next state items

/-- `std::sort(fromOffsets)`. -/
def sortOffsets (offsets : List (BitVec 64)) : List (BitVec 64) := offsets.mergeSort fun a b => decide (a ≤ b)

def writeFromOffsetDelta (lastFromOffset offset : BitVec 64) : List UInt8 := appendUleb128 (offset - lastFromOffset)

def writeFromOffset (_ : Unit) (kindAndOffsets : BitVec 8 × List (BitVec 64)) : List UInt8 :=
  appendUleb128 (kindAndOffsets.1.setWidth 64) ++
    appendCounted writeFromOffsetDelta (fun _ offset => offset) 0 (sortOffsets kindAndOffsets.2)

def writeToOffset (lastToOffset : BitVec 64) (fromToOffsets : BitVec 64 × FromOffsetMap) : List UInt8 :=
  appendUleb128 (fromToOffsets.1 - lastToOffset) ++
    appendCounted writeFromOffset (fun state _ => state) () fromToOffsets.2

def writeFromToSection (_ : Unit) (fromToSection : SectionIndexes × ToOffsetMap) : List UInt8 :=
  appendUleb128 ((fromSectionIndex fromToSection.1).setWidth 64) ++
    appendUleb128 ((toSectionIndex fromToSection.1).setWidth 64) ++
    appendCounted writeToOffset (fun _ entry => entry.1) 0 fromToSection.2

/-- `DYLD_CACHE_ADJ_V2_FORMAT`. -/
def formatV2 : UInt8 := 0x7F

/-- The stream, with `sizeof(pint_t)` for `pointerSize`. -/
def encode (pointerSize : Nat) (infos : SplitSegV2Infos) : List UInt8 :=
  padToSize pointerSize
    (formatV2 :: appendCounted writeFromToSection (fun state _ => state) () (wholeMap infos) ++ [0])

/-! ## Reading -/

section Reading

variable {σ γ : Type}

/-- A number by itself. -/
def readNumber (bytes : List UInt8) : Option (BitVec 64 × List UInt8) :=
  match readUleb128 bytes with
  | .ok found => some found
  | .error _ => none

def readCounted (read : ItemReader σ UInt8 γ) (state : σ) (bytes : List UInt8) : Option (List γ × List UInt8) :=
  match readNumber bytes with
  | none => none
  | some (count, rest) => readTimes read count.toNat state rest

end Reading

abbrev FromOffset := BitVec 8 × List (BitVec 64)
abbrev ToOffset := BitVec 64 × List FromOffset

/-- `FromToSection`, as the reader finds it. -/
structure FromToSection where
  fromIndex : BitVec 8
  toIndex : BitVec 8
  toOffsets : List ToOffset
  deriving DecidableEq, Repr

def readFromOffsetDelta : ItemReader (BitVec 64) UInt8 (BitVec 64) := fun last bytes =>
  (readNumber bytes).map fun found => ((last + found.1, last + found.1), found.2)

def readFromOffset : ItemReader Unit UInt8 FromOffset := fun _ bytes => do
  let (kind, rest) ← readNumber bytes
  let (offsets, rest) ← readCounted readFromOffsetDelta 0 rest
  some (((kind.setWidth 8, offsets), ()), rest)

def readToOffset : ItemReader (BitVec 64) UInt8 ToOffset := fun last bytes => do
  let (delta, rest) ← readNumber bytes
  let (fromOffsets, rest) ← readCounted readFromOffset () rest
  some (((last + delta, fromOffsets), last + delta), rest)

def readFromToSection : ItemReader Unit UInt8 FromToSection := fun _ bytes => do
  let (fromIndex, rest) ← readNumber bytes
  let (toIndex, rest) ← readNumber rest
  let (toOffsets, rest) ← readCounted readToOffset 0 rest
  some ((⟨fromIndex.setWidth 8, toIndex.setWidth 8, toOffsets⟩, ()), rest)

/-- The records of a section pair. -/
def FromToSection.entries (sections : FromToSection) : List SplitSegInfoV2Entry :=
  sections.toOffsets.flatMap fun toOffset =>
    toOffset.2.flatMap fun fromOffset =>
      fromOffset.2.map fun offset =>
        { fixupSectionOffset := offset
          targetSectionOffset := toOffset.1
          fixupSectionIndex := sections.fromIndex
          targetSectionIndex := sections.toIndex
          referenceKind := fromOffset.1 }

/-- The records of a whole stream, and what is behind them. -/
def decode : List UInt8 → Option (List SplitSegInfoV2Entry × List UInt8)
  | [] => none
  | format :: bytes =>
    if format = formatV2 then
      (readCounted readFromToSection () bytes).map fun found => (found.1.flatMap FromToSection.entries, found.2)
    else none

/-! ## Reading what was written -/

theorem readNumber_append (value : BitVec 64) (rest : List UInt8) :
    readNumber (appendUleb128 value ++ rest) = some (value, rest) := by
  rw [readNumber, readUleb128_append]

theorem readCounted_append {σ α γ : Type} {read : ItemReader σ UInt8 γ} {write : σ → α → List UInt8}
    {next : σ → α → σ} {seen : α → γ} {items : List α} (sized : items.length < 2 ^ 64)
    (undoes : ∀ item ∈ items, Undoes read write next seen item) (state : σ) (rest : List UInt8) :
    readCounted read state (appendCounted write next state items ++ rest) = some (items.map seen, rest) := by
  rw [readCounted, appendCounted, List.append_assoc, readNumber_append]
  dsimp only
  rw [BitVec.toNat_ofNat, Nat.mod_eq_of_lt sized, readTimes_writeAll undoes]

/-- The maps of the levels have a size, and no key twice. -/
structure Level {κ ν : Type} [LinearOrder κ] (size : Nat) (inner : ν → Prop) (map : OrderedMap κ ν) : Prop where
  sorted : map.keys.Pairwise (· < ·)
  sized : map.length ≤ size
  values : ∀ entry ∈ map, inner entry.2

abbrev FromLevel (size : Nat) : FromOffsetMap → Prop := Level size fun offsets => offsets.length ≤ size
abbrev ToLevel (size : Nat) : ToOffsetMap → Prop := Level size (FromLevel size)
abbrev WholeLevel (size : Nat) : WholeMap → Prop := Level size (ToLevel size)

def seenFrom (entry : BitVec 8 × List (BitVec 64)) : FromOffset := (entry.1, sortOffsets entry.2)

def seenTo (entry : BitVec 64 × FromOffsetMap) : ToOffset := (entry.1, entry.2.map seenFrom)

def seenSections (entry : SectionIndexes × ToOffsetMap) : FromToSection where
  fromIndex := fromSectionIndex entry.1
  toIndex := toSectionIndex entry.1
  toOffsets := entry.2.map seenTo

theorem setWidth_byte (byte : BitVec 8) : (byte.setWidth 64).setWidth 8 = byte := by
  rw [BitVec.setWidth_setWidth_of_le _ (by decide), BitVec.setWidth_eq]

theorem undoes_fromOffsetDelta (offset : BitVec 64) :
    Undoes readFromOffsetDelta writeFromOffsetDelta (fun _ offset => offset) id offset := by
  intro last rest
  have sum : last + (offset - last) = offset := by rw [BitVec.add_comm, BitVec.sub_add_cancel]
  rw [readFromOffsetDelta, writeFromOffsetDelta, readNumber_append]
  simp only [Option.map_some, sum, id]

variable {size : Nat}

theorem undoes_fromOffset (small : size < 2 ^ 64) {entry : BitVec 8 × List (BitVec 64)}
    (sized : entry.2.length ≤ size) :
    Undoes readFromOffset writeFromOffset (fun state _ => state) seenFrom entry := by
  intro state rest
  have length : (sortOffsets entry.2).length < 2 ^ 64 := by
    rw [sortOffsets, List.length_mergeSort]
    omega
  rw [readFromOffset, writeFromOffset, List.append_assoc, readNumber_append]
  simp only [Option.bind_eq_bind, Option.bind_some]
  rw [readCounted_append length fun offset _ => undoes_fromOffsetDelta offset]
  simp only [Option.bind_some, List.map_id, setWidth_byte, seenFrom]

theorem undoes_toOffset (small : size < 2 ^ 64) {entry : BitVec 64 × FromOffsetMap}
    (level : FromLevel size entry.2) :
    Undoes readToOffset writeToOffset (fun _ entry => entry.1) seenTo entry := by
  intro last rest
  have sum : last + (entry.1 - last) = entry.1 := by rw [BitVec.add_comm, BitVec.sub_add_cancel]
  rw [readToOffset, writeToOffset, List.append_assoc, readNumber_append]
  simp only [Option.bind_eq_bind, Option.bind_some]
  rw [readCounted_append (lt_of_le_of_lt level.sized small) fun inner member =>
    undoes_fromOffset small (level.values inner member)]
  simp only [Option.bind_some, sum, seenTo]

theorem undoes_fromToSection (small : size < 2 ^ 64) {entry : SectionIndexes × ToOffsetMap}
    (level : ToLevel size entry.2) :
    Undoes readFromToSection writeFromToSection (fun state _ => state) seenSections entry := by
  intro state rest
  rw [readFromToSection, writeFromToSection, List.append_assoc, List.append_assoc, readNumber_append]
  simp only [Option.bind_eq_bind, Option.bind_some]
  rw [readNumber_append]
  simp only [Option.bind_some]
  rw [readCounted_append (lt_of_le_of_lt level.sized small) fun inner member =>
    undoes_toOffset small (level.values inner member)]
  simp only [Option.bind_some, setWidth_byte, seenSections]

/-! ## The maps hold the records -/

/-- The records of a map, by the keys on the way to them. -/
def fromRecords (index : SectionIndexes) (toOffset : BitVec 64) (kind : BitVec 8) (offsets : List (BitVec 64)) :
    List SplitSegInfoV2Entry :=
  offsets.map fun offset =>
    { fixupSectionOffset := offset
      targetSectionOffset := toOffset
      fixupSectionIndex := fromSectionIndex index
      targetSectionIndex := toSectionIndex index
      referenceKind := kind }

def toRecords (index : SectionIndexes) (toOffset : BitVec 64) (fromOffsets : FromOffsetMap) :
    List SplitSegInfoV2Entry :=
  fromOffsets.flatMap fun entry => fromRecords index toOffset entry.1 entry.2

def sectionRecords (index : SectionIndexes) (toOffsets : ToOffsetMap) : List SplitSegInfoV2Entry :=
  toOffsets.flatMap fun entry => toRecords index entry.1 entry.2

def wholeRecords (whole : WholeMap) : List SplitSegInfoV2Entry :=
  whole.flatMap fun entry => sectionRecords entry.1 entry.2

theorem toNat_indexes (entry : SplitSegInfoV2Entry) :
    entry.indexes.toNat = entry.fixupSectionIndex.toNat * 65536 + entry.targetSectionIndex.toNat := by
  have low := entry.targetSectionIndex.isLt
  have high := entry.fixupSectionIndex.isLt
  have shifted : entry.fixupSectionIndex.toNat <<< 16 = entry.fixupSectionIndex.toNat * 65536 := Nat.shiftLeft_eq _ _
  simp only [SplitSegInfoV2Entry.indexes, BitVec.toNat_or, BitVec.toNat_shiftLeft, BitVec.toNat_setWidth]
  rw [Nat.mod_eq_of_lt (by omega : entry.fixupSectionIndex.toNat < 2 ^ 32), Nat.mod_eq_of_lt (by omega),
    Nat.mod_eq_of_lt (by omega), ← Nat.shiftLeft_add_eq_or_of_lt (by omega), shifted]

theorem fromSectionIndex_indexes (entry : SplitSegInfoV2Entry) :
    fromSectionIndex entry.indexes = entry.fixupSectionIndex := by
  have low := entry.targetSectionIndex.isLt
  have high := entry.fixupSectionIndex.isLt
  apply BitVec.eq_of_toNat_eq
  rw [fromSectionIndex, BitVec.toNat_setWidth, BitVec.toNat_ushiftRight, toNat_indexes, Nat.shiftRight_eq_div_pow]
  omega

theorem toSectionIndex_indexes (entry : SplitSegInfoV2Entry) :
    toSectionIndex entry.indexes = entry.targetSectionIndex := by
  have low := entry.targetSectionIndex.isLt
  have mask : (0xFFFF : BitVec 32).toNat = 2 ^ 16 - 1 := rfl
  apply BitVec.eq_of_toNat_eq
  rw [toSectionIndex, BitVec.toNat_setWidth, BitVec.toNat_and, toNat_indexes, mask, Nat.and_two_pow_sub_one_eq_mod]
  omega

/-- A value of a map is what an entry has, or the empty one. -/
theorem Level.get {κ ν : Type} [LinearOrder κ] {inner : ν → Prop} {map : OrderedMap κ ν}
    (level : Level size inner map) {empty : ν} (none : inner empty) (k : κ) : inner ((map.get? k).getD empty) := by
  cases found : map.get? k with
  | none => exact none
  | some value => exact level.values _ (OrderedMap.mem_of_get? found)

theorem Level.update {κ ν : Type} [LinearOrder κ] {inner outer : ν → Prop} {map : OrderedMap κ ν}
    (level : Level size inner map) {empty : ν} {change : ν → ν} (none : inner empty)
    (grows : ∀ value, inner value → outer value) (changes : ∀ value, inner value → outer (change value)) (k : κ) :
    Level (size + 1) outer (map.update k empty change) where
  sorted := OrderedMap.sorted_set _ level.sorted
  sized := le_trans (OrderedMap.length_set_le _) (Nat.succ_le_succ level.sized)
  values := by
    intro entry member
    rcases OrderedMap.mem_set member with rfl | old
    · exact changes _ (level.get none k)
    · exact grows _ (level.values entry old)

theorem Level.empty {κ ν : Type} [LinearOrder κ] (size : Nat) (inner : ν → Prop) :
    Level size inner ([] : OrderedMap κ ν) where
  sorted := List.Pairwise.nil
  sized := Nat.zero_le _
  values := by simp

theorem Level.grow {κ ν : Type} [LinearOrder κ] {inner outer : ν → Prop} {map : OrderedMap κ ν}
    (level : Level size inner map) (grows : ∀ value, inner value → outer value) : Level (size + 1) outer map where
  sorted := level.sorted
  sized := Nat.le_succ_of_le level.sized
  values := fun entry member => grows _ (level.values entry member)

theorem fromLevel_grow (froms : FromOffsetMap) (level : FromLevel size froms) :
    FromLevel (size + 1) froms :=
  level.grow fun _ => Nat.le_succ_of_le

theorem toLevel_grow (tos : ToOffsetMap) (level : ToLevel size tos) : ToLevel (size + 1) tos :=
  level.grow fromLevel_grow

theorem fromLevel_add (kind : BitVec 8) (offset : BitVec 64) (froms : FromOffsetMap)
    (level : FromLevel size froms) :
    FromLevel (size + 1) (froms.update kind [] fun offsets => offsets ++ [offset]) := by
  refine level.update (Nat.zero_le _) (fun _ => Nat.le_succ_of_le) (fun offsets short => ?_) kind
  rw [List.length_append, List.length_singleton]
  exact Nat.succ_le_succ short

variable {whole : WholeMap}

/-- **One record more** in the maps. -/
theorem wholeLevel_addEntry (level : WholeLevel size whole)
    (entry : SplitSegInfoV2Entry) : WholeLevel (size + 1) (addEntry whole entry) := by
  refine level.update (Level.empty _ _) toLevel_grow (fun tos inner => ?_) _
  exact inner.update (Level.empty _ _) fromLevel_grow (fun froms => fromLevel_add _ _ froms) _

theorem fromRecords_add (entry : SplitSegInfoV2Entry) (offsets : List (BitVec 64)) :
    (fromRecords entry.indexes entry.targetSectionOffset entry.referenceKind
      (offsets ++ [entry.fixupSectionOffset])).Perm
      (entry :: fromRecords entry.indexes entry.targetSectionOffset entry.referenceKind offsets) := by
  have last : fromRecords entry.indexes entry.targetSectionOffset entry.referenceKind [entry.fixupSectionOffset] =
      [entry] := by
    simp only [fromRecords, fromSectionIndex_indexes, toSectionIndex_indexes, List.map_cons, List.map_nil]
  rw [fromRecords, List.map_append]
  refine (List.Perm.append_left _ (List.Perm.of_eq last)).trans ?_
  exact List.perm_append_singleton _ _

theorem wholeRecords_addEntry (level : WholeLevel size whole)
    (entry : SplitSegInfoV2Entry) : (wholeRecords (addEntry whole entry)).Perm (entry :: wholeRecords whole) := by
  have toLevel := level.get (Level.empty size (FromLevel size)) entry.indexes
  have fromLevel := toLevel.get (Level.empty size fun offsets : List (BitVec 64) => offsets.length ≤ size)
    entry.targetSectionOffset
  refine OrderedMap.flatMap_update_perm level.sorted rfl ?_
  refine OrderedMap.flatMap_update_perm toLevel.sorted rfl ?_
  refine OrderedMap.flatMap_update_perm fromLevel.sorted rfl ?_
  exact fromRecords_add entry _

/-- **All records** are in the maps. -/
theorem foldl_addEntry (entries : List SplitSegInfoV2Entry) (level : WholeLevel size whole) :
    WholeLevel (size + entries.length) (entries.foldl addEntry whole) ∧
      (wholeRecords (entries.foldl addEntry whole)).Perm (wholeRecords whole ++ entries) := by
  induction entries generalizing size whole with
  | nil => exact ⟨level, by simp⟩
  | cons entry entries ih =>
    obtain ⟨after, same⟩ := ih (wholeLevel_addEntry level entry)
    refine ⟨by rwa [List.length_cons, ← Nat.add_assoc, Nat.add_right_comm], same.trans ?_⟩
    refine ((wholeRecords_addEntry level entry).append_right entries).trans ?_
    exact List.perm_middle.symm

/-! ## The round trip -/

/-- What is seen of a section pair has its records, with the offsets sorted. -/
theorem entries_seenSections (entry : SectionIndexes × ToOffsetMap) :
    (seenSections entry).entries.Perm (sectionRecords entry.1 entry.2) := by
  rw [FromToSection.entries, seenSections, List.flatMap_map, sectionRecords]
  refine List.Perm.flatMap_left _ fun toOffset _ => ?_
  rw [seenTo, List.flatMap_map, toRecords]
  refine List.Perm.flatMap_left _ fun fromOffset _ => ?_
  exact (List.mergeSort_perm _ _).map _

/-- What the reader finds. -/
def foundEntries (infos : SplitSegV2Infos) : List SplitSegInfoV2Entry :=
  ((wholeMap infos).map seenSections).flatMap FromToSection.entries

theorem foundEntries_perm (infos : SplitSegV2Infos) : (foundEntries infos).Perm infos.entries := by
  obtain ⟨-, records⟩ := foldl_addEntry infos.entries (Level.empty 0 (ToLevel 0))
  rw [foundEntries, List.flatMap_map]
  exact (List.Perm.flatMap_left _ fun entry _ => entries_seenSections entry).trans records

theorem decode_encode_found (pointerSize : Nat) (infos : SplitSegV2Infos) :
    ∃ count, decode (encode pointerSize infos) = some (foundEntries infos, List.replicate count 0) := by
  obtain ⟨level, -⟩ := foldl_addEntry infos.entries (Level.empty 0 (ToLevel 0))
  rw [Nat.zero_add] at level
  obtain ⟨count, padded⟩ := padToSize_eq pointerSize
    (formatV2 :: appendCounted writeFromToSection (fun state _ => state) () (wholeMap infos) ++ [0])
  refine ⟨count + 1, ?_⟩
  have read := readCounted_append (lt_of_le_of_lt level.sized infos.sized)
    (fun entry member => undoes_fromToSection infos.sized (level.values entry member)) ()
    ([0] ++ List.replicate count 0)
  rw [encode, padded, List.cons_append, List.cons_append, decode, if_pos rfl, List.append_assoc, wholeMap, read]
  rfl

/-- **Round trip.**  The reader finds every record as often as it was given, and behind them only
the padding. -/
theorem decode_encode (pointerSize : Nat) (infos : SplitSegV2Infos) :
    ∃ records count, decode (encode pointerSize infos) = some (records, List.replicate count 0) ∧
      records.Perm infos.entries := by
  obtain ⟨count, found⟩ := decode_encode_found pointerSize infos
  exact ⟨foundEntries infos, count, found, foundEntries_perm infos⟩

/-- A record that is given twice. -/
def repeated : SplitSegV2Infos where
  entries := List.replicate 2 ⟨8, 16, 1, 2, 3⟩
  sized := by decide

theorem repeated_foundTwice :
    ¬ ∃ records rest, decode (encode 8 repeated) = some (records, rest) ∧ records.Nodup := by
  rintro ⟨records, rest, found, nodup⟩
  obtain ⟨count, same⟩ := decode_encode_found 8 repeated
  obtain ⟨rfl, -⟩ := Prod.mk.inj (Option.some.inj (same.symm.trans found))
  exact absurd ((foundEntries_perm repeated).nodup_iff.mp nodup) (by decide)

end Cctools.LinkEdit.SplitSegV2
