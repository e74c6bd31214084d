/-
# Cctools.Resolver.ContentTable -- slots for contents

`addByContent` puts an atom into the slot of the atom that its table takes for equal.  Each
kind of content has a table of its own, whose equality trusts the atom on its left: two bytes
less than that one's size are compared of UTF-16 strings, whatever the size of the other.

`addAll_coalesced_iff` says for which atoms only equal contents share a slot.  The order in
which a `std::unordered_map` looks at the atoms of one hash is left open (`HashTable`), so the
condition is on pairs of atoms of one hash.  `empty_string_merged` is a pair that has one hash
under the hash that the parser computes.
-/
import Mathlib.Data.List.Induction
import Mathlib.Logic.Function.Basic
import Mathlib.Algebra.GroupWithZero.Nat

namespace Cctools.Resolver.ByContent

set_option autoImplicit false

/-! ## Contents -/

inductive SectionType
  | cString
  | nonStdCString
  | utf16Strings
  | literal4
  | literal8
  | literal16
  deriving DecidableEq, Repr

structure ContentAtom where
  type : SectionType
  segmentName : String
  sectionName : String
  /-- The memory from the content on. -/
  rawContentPointer : List UInt8
  size : Nat
  powerOf2 : Nat
  modulus : Nat
  inside : size ≤ rawContentPointer.length

namespace ContentAtom

def content (atom : ContentAtom) : List UInt8 := atom.rawContentPointer.take atom.size

theorem content_length (atom : ContentAtom) : atom.content.length = atom.size := by
  rw [content, List.length_take, Nat.min_eq_left atom.inside]

def trailingZeros (atom : ContentAtom) : Nat :=
  if atom.modulus = 0 then atom.powerOf2 % 256 else ((List.range 16).find? atom.modulus.testBit).getD 16

end ContentAtom

/-! ## Hashes -/

/-- A `char` is signed, so a byte from 128 on counts as less than none. -/
def hashChars : Nat → List UInt8 → Nat
  | hash, [] => hash
  | hash, byte :: rest =>
    if byte = 0 then hash
    else
      let extended := if byte < 128 then byte.toNat else 2 ^ 64 - 256 + byte.toNat
      hashChars ((hash * 33 + extended) % 2 ^ 64) rest

def hashBytes (content : List UInt8) : Nat :=
  content.foldl (fun hash byte => (hash * 33 + byte.toNat) % 2 ^ 64) 5381

def hashWords : Nat → Nat → List UInt8 → Nat
  | count + 1, hash, low :: high :: rest =>
    hashWords count ((hash * 33 + (low.toNat + 256 * high.toNat)) % 2 ^ 64) rest
  | _, hash, _ => hash

def littleEndian (bytes : List UInt8) : Nat := bytes.foldr (fun byte rest => byte.toNat + 256 * rest) 0

/-- What the sections of an object file compute. -/
def contentHash : SectionType → List UInt8 → Nat
  | .cString, content | .nonStdCString, content => hashChars 5381 content
  | .utf16Strings, content => hashWords (content.length / 2 - 1) 5381 content
  | .literal4, content => littleEndian (content.take 4)
  | .literal8, content => littleEndian (content.take 8)
  | .literal16, content => hashBytes (content.take 16)

/-! ## Equality -/

/-- `strcmp(left, right) == 0`. -/
def strcmpEqual (left right : List UInt8) : Bool := left.takeWhile (· ≠ 0) = right.takeWhile (· ≠ 0)

/-- `memcmp(left, right, amount) == 0`. -/
def memcmpEqual (left right : List UInt8) (amount : Nat) : Bool := left.take amount = right.take amount

structure TableName where
  type : SectionType
  /-- Only of a cstring section that is not the standard one. -/
  segsect : String
  deriving DecidableEq, Repr

def ContentAtom.tableName (atom : ContentAtom) : TableName where
  type := atom.type
  segsect := if atom.type = .nonStdCString then atom.segmentName ++ "/" ++ atom.sectionName else ""

section Equality

variable {Address : Type} [DecidableEq Address] (atom : Address → ContentAtom)

def CStringHashFuncs.equal (left right : Address) : Bool :=
  strcmpEqual (atom left).rawContentPointer (atom right).rawContentPointer

/-- `left->size()-2`, as an `unsigned int`. -/
def utf16Amount (left : ContentAtom) : Nat := (left.size + 2 ^ 64 - 2) % 2 ^ 32

def UTF16StringHashFuncs.equal (left right : Address) : Bool :=
  left = right ||
    memcmpEqual (atom left).rawContentPointer (atom right).rawContentPointer (utf16Amount (atom left))

def ContentFuncs.equal (left right : Address) : Bool :=
  memcmpEqual (atom left).rawContentPointer (atom right).rawContentPointer (atom left).size

/-- The equality of the table that the atom on the left goes to. -/
def equalTo (left right : Address) : Bool :=
  match (atom left).type with
  | .cString | .nonStdCString => CStringHashFuncs.equal atom left right
  | .utf16Strings => UTF16StringHashFuncs.equal atom left right
  | .literal4 | .literal8 | .literal16 => ContentFuncs.equal atom left right

/-- What the equality looks at in an atom when sizes agree. -/
def ContentAtom.looked (atom : ContentAtom) : List UInt8 :=
  match atom.type with
  | .cString | .nonStdCString => atom.rawContentPointer.takeWhile (· ≠ 0)
  | .utf16Strings => atom.rawContentPointer.take (utf16Amount atom)
  | .literal4 | .literal8 | .literal16 => atom.rawContentPointer.take atom.size

variable {atom}

theorem equalTo_iff {left right : Address} (sameType : (atom left).type = (atom right).type)
    (sameSize : (atom left).size = (atom right).size) :
    equalTo atom left right = true ↔ (atom left).looked = (atom right).looked := by
  rw [equalTo, ContentAtom.looked, ContentAtom.looked, ← sameType]
  cases (atom left).type with
  | cString | nonStdCString => exact decide_eq_true_iff
  | utf16Strings =>
    simp only [UTF16StringHashFuncs.equal, memcmpEqual, utf16Amount, sameSize, Bool.or_eq_true,
      decide_eq_true_eq, or_iff_right_iff_imp]
    rintro rfl
    rfl
  | literal4 | literal8 | literal16 =>
    simp only [ContentFuncs.equal, memcmpEqual, sameSize, decide_eq_true_eq]

variable (atom) in
/-- One content in one table.  That the memory is the same too says more only of a string of no
bytes, of which `size() - 2` bytes are looked at. -/
structure Same (first second : Address) : Prop where
  table : (atom first).tableName = (atom second).tableName
  content : (atom first).content = (atom second).content
  looked : (atom first).looked = (atom second).looked

omit [DecidableEq Address] in
theorem Same.refl (a : Address) : Same atom a a := ⟨rfl, rfl, rfl⟩

omit [DecidableEq Address] in
theorem Same.symm {a b : Address} (same : Same atom a b) : Same atom b a :=
  ⟨same.table.symm, same.content.symm, same.looked.symm⟩

omit [DecidableEq Address] in
theorem Same.trans {a b c : Address} (first : Same atom a b) (second : Same atom b c) : Same atom a c :=
  ⟨first.table.trans second.table, first.content.trans second.content, first.looked.trans second.looked⟩

/-- Of equal contents either order says whether they are the same. -/
theorem equalTo_iff_same {left right : Address} (table : (atom left).tableName = (atom right).tableName)
    (content : (atom left).content = (atom right).content) :
    equalTo atom left right = true ↔ Same atom left right := by
  have sameSize : (atom left).size = (atom right).size := by
    rw [← ContentAtom.content_length, ← ContentAtom.content_length, content]
  rw [equalTo_iff (congrArg TableName.type table) sameSize]
  exact ⟨fun looked => ⟨table, content, looked⟩, Same.looked⟩

end Equality

/-! ## Tables -/

section Tables

variable {Address : Type} [DecidableEq Address] (atom : Address → ContentAtom)
variable {Hash : Type} [DecidableEq Hash] (hash : SectionType → List UInt8 → Hash)

def hashOf (a : Address) : Hash := hash (atom a).type (atom a).content

/-- Which side of the equality the key in the table is on. -/
inductive Side
  | left
  | right
  deriving DecidableEq, Repr

/-- The key may be found for the atom. -/
def candidate (side : Side) (newAtom key : Address) : Bool :=
  hashOf atom hash key = hashOf atom hash newAtom &&
    match side with
    | .left => equalTo atom key newAtom
    | .right => equalTo atom newAtom key

/-- What is said of a `std::unordered_map`: it finds a key that may be found when there is one. -/
structure HashTable where
  side : Side
  find : List (Address × Nat) → Address → Option (Address × Nat)
  find_some : ∀ {entries newAtom entry}, find entries newAtom = some entry →
    entry ∈ entries ∧ candidate atom hash side newAtom entry.1 = true
  find_none : ∀ {entries newAtom}, find entries newAtom = none →
    ∀ entry ∈ entries, candidate atom hash side newAtom entry.1 = false

/-- The first that is liked, or else the first. -/
def HashTable.preferring (side : Side) (liked : Address → Address → Bool) : HashTable atom hash where
  side := side
  find entries newAtom :=
    (entries.find? fun entry => candidate atom hash side newAtom entry.1 && liked newAtom entry.1).or
      (entries.find? fun entry => candidate atom hash side newAtom entry.1)
  find_some := by
    intro entries newAtom entry found
    obtain preferred | ⟨-, other⟩ := Option.or_eq_some_iff.mp found
    · have held := List.find?_some preferred
      exact ⟨List.mem_of_find?_eq_some preferred, (Bool.and_eq_true_iff.mp held).1⟩
    · have held := List.find?_some other
      exact ⟨List.mem_of_find?_eq_some other, held⟩
  find_none := by
    intro entries newAtom missed entry listed
    have none := List.find?_eq_none.mp (Option.or_eq_none_iff.mp missed).2 entry listed
    exact Bool.eq_false_iff.mpr none

variable {newAtom : Address} {side : Side}

theorem HashTable.preferring_find {liked : Address → Address → Bool}
    {entries : List (Address × Nat)} {entry : Address × Nat} (listed : entry ∈ entries)
    (found : candidate atom hash side newAtom entry.1 = true) (wanted : liked newAtom entry.1 = true) :
    ∃ other, (preferring atom hash side liked).find entries newAtom = some other ∧
      liked newAtom other.1 = true := by
  cases preferred : entries.find? fun entry =>
      candidate atom hash side newAtom entry.1 && liked newAtom entry.1 with
  | none =>
    have missed := List.find?_eq_none.mp preferred entry listed
    rw [found, wanted] at missed
    exact absurd rfl missed
  | some other =>
    have held := List.find?_some preferred
    refine ⟨other, ?_, (Bool.and_eq_true_iff.mp held).2⟩
    show Option.or _ _ = _
    rw [preferred]
    rfl

structure ContentTables (Address : Type) where
  tables : TableName → List (Address × Nat)
  indirectBindingTable : List Address
  /-- What `markCoalescedAway` was called for. -/
  coalescedAway : List Address

variable {atom hash} (lookup : HashTable atom hash)

/-- The slot, and the atom in it. -/
def findSlotForContent (state : ContentTables Address) (newAtom : Address) :
    (Nat × Option Address) × ContentTables Address :=
  let name := (atom newAtom).tableName
  match lookup.find (state.tables name) newAtom with
  | some entry => ((entry.2, state.indirectBindingTable[entry.2]?), state)
  | none =>
    let slot := state.indirectBindingTable.length
    ((slot, none),
      { state with
        tables := Function.update state.tables name (state.tables name ++ [(newAtom, slot)])
        indirectBindingTable := state.indirectBindingTable ++ [newAtom] })

def ContentTables.use (state : ContentTables Address) (slot : Nat) (newAtom : Address) :
    ContentTables Address :=
  { state with indirectBindingTable := state.indirectBindingTable.set slot newAtom }

def ContentTables.markCoalescedAway (state : ContentTables Address) (old : Address) :
    ContentTables Address :=
  { state with coalescedAway := state.coalescedAway ++ [old] }

/-- Whether the atom in the slot was replaced. -/
def addByContent (state : ContentTables Address) (newAtom : Address) : Bool × ContentTables Address :=
  let ((slot, existingAtom), state) := findSlotForContent lookup state newAtom
  match existingAtom with
  | none => (false, state.use slot newAtom)
  | some existing =>
    if (atom newAtom).trailingZeros > (atom existing).trailingZeros then
      (true, (state.use slot newAtom).markCoalescedAway existing)
    else if existing = newAtom then (false, state.use slot existing)
    else (false, (state.use slot existing).markCoalescedAway newAtom)

/-- The tables, and the slot that each atom so far was given. -/
structure Added (Address : Type) where
  state : ContentTables Address
  slots : List (Address × Nat)

def Added.add (added : Added Address) (newAtom : Address) : Added Address where
  state := (addByContent lookup added.state newAtom).2
  slots := added.slots ++ [(newAtom, (findSlotForContent lookup added.state newAtom).1.1)]

def Added.empty (Address : Type) : Added Address := ⟨⟨fun _ => [], [], []⟩, []⟩

def addAll (atoms : List Address) : Added Address := atoms.foldl (Added.add lookup) (.empty Address)

theorem addAll_append (atoms : List Address) (newAtom : Address) :
    addAll lookup (atoms ++ [newAtom]) = (addAll lookup atoms).add lookup newAtom := by
  rw [addAll, List.foldl_append]
  rfl

/-! ## What one call does -/

theorem findSlotForContent_cases (state : ContentTables Address) (newAtom : Address) :
    (∃ key slot, (key, slot) ∈ state.tables (atom newAtom).tableName ∧
      candidate atom hash lookup.side newAtom key = true ∧
      lookup.find (state.tables (atom newAtom).tableName) newAtom = some (key, slot) ∧
      findSlotForContent lookup state newAtom = ((slot, state.indirectBindingTable[slot]?), state)) ∨
    ((∀ entry ∈ state.tables (atom newAtom).tableName, candidate atom hash lookup.side newAtom entry.1 = false) ∧
      findSlotForContent lookup state newAtom = ((state.indirectBindingTable.length, none),
        { state with
          tables := Function.update state.tables (atom newAtom).tableName
            (state.tables (atom newAtom).tableName ++ [(newAtom, state.indirectBindingTable.length)])
          indirectBindingTable := state.indirectBindingTable ++ [newAtom] })) := by
  cases found : lookup.find (state.tables (atom newAtom).tableName) newAtom with
  | some entry =>
    obtain ⟨listed, isCandidate⟩ := lookup.find_some found
    exact .inl ⟨entry.1, entry.2, listed, isCandidate, rfl, by rw [findSlotForContent, found]⟩
  | none => exact .inr ⟨lookup.find_none found, by rw [findSlotForContent, found]⟩

/-- The tables are those that the slot was found in, and in the slot is the one of the two atoms
with the greater alignment. -/
theorem addByContent_slot {state found : ContentTables Address} {slot : Nat} {existingAtom : Option Address}
    (slotFound : findSlotForContent lookup state newAtom = ((slot, existingAtom), found)) :
    ∃ used, (addByContent lookup state newAtom).2.tables = found.tables ∧
      (addByContent lookup state newAtom).2.indirectBindingTable = found.indirectBindingTable.set slot used ∧
      (used = newAtom ∨ existingAtom = some used) ∧
      (atom newAtom).trailingZeros ≤ (atom used).trailingZeros ∧
      ∀ existing, existingAtom = some existing → (atom existing).trailingZeros ≤ (atom used).trailingZeros := by
  rw [addByContent, slotFound]
  cases existingAtom with
  | none => exact ⟨newAtom, rfl, rfl, .inl rfl, Nat.le_refl _, nofun⟩
  | some existing =>
    dsimp only
    split
    · rename_i greater
      refine ⟨newAtom, rfl, rfl, .inl rfl, Nat.le_refl _, ?_⟩
      rintro _ ⟨⟩
      exact Nat.le_of_lt greater
    · rename_i notGreater
      have kept : (atom newAtom).trailingZeros ≤ (atom existing).trailingZeros := Nat.not_lt.mp notGreater
      split
      · refine ⟨existing, rfl, rfl, .inr rfl, kept, ?_⟩
        rintro _ ⟨⟩
        exact Nat.le_refl _
      · refine ⟨existing, rfl, rfl, .inr rfl, kept, ?_⟩
        rintro _ ⟨⟩
        exact Nat.le_refl _

/-- The key that was found keeps its slot. -/
structure FoundKey (added : Added Address) (newAtom key : Address) (slot : Nat) : Prop where
  listed : (key, slot) ∈ added.state.tables (atom newAtom).tableName
  candidate : candidate atom hash lookup.side newAtom key = true
  found : lookup.find (added.state.tables (atom newAtom).tableName) newAtom = some (key, slot)
  slots : (added.add lookup newAtom).slots = added.slots ++ [(newAtom, slot)]
  tables : (added.add lookup newAtom).state.tables = added.state.tables
  used : ∃ used,
    (added.add lookup newAtom).state.indirectBindingTable = added.state.indirectBindingTable.set slot used ∧
      (used = newAtom ∨ added.state.indirectBindingTable[slot]? = some used) ∧
      (atom newAtom).trailingZeros ≤ (atom used).trailingZeros ∧
      ∀ existing, added.state.indirectBindingTable[slot]? = some existing →
        (atom existing).trailingZeros ≤ (atom used).trailingZeros

/-- The new atom is a key. -/
structure NewKey (added : Added Address) (newAtom : Address) : Prop where
  missed : ∀ entry ∈ added.state.tables (atom newAtom).tableName,
    candidate atom hash lookup.side newAtom entry.1 = false
  slots : (added.add lookup newAtom).slots =
    added.slots ++ [(newAtom, added.state.indirectBindingTable.length)]
  tables : (added.add lookup newAtom).state.tables =
    Function.update added.state.tables (atom newAtom).tableName
      (added.state.tables (atom newAtom).tableName ++ [(newAtom, added.state.indirectBindingTable.length)])
  table : (added.add lookup newAtom).state.indirectBindingTable = added.state.indirectBindingTable ++ [newAtom]

theorem Added.add_cases (added : Added Address) (newAtom : Address) :
    (∃ key slot, FoundKey lookup added newAtom key slot) ∨ NewKey lookup added newAtom := by
  obtain ⟨key, slot, listed, isCandidate, found, slotFound⟩ | ⟨missed, slotFound⟩ :=
    findSlotForContent_cases lookup added.state newAtom
  · obtain ⟨used, tables, table, fromWhere, greater, others⟩ := addByContent_slot lookup slotFound
    have slots : (added.add lookup newAtom).slots = added.slots ++ [(newAtom, slot)] := by
      rw [Added.add, slotFound]
    exact .inl ⟨key, slot, listed, isCandidate, found, slots, tables, used, table, fromWhere, greater, others⟩
  · obtain ⟨used, tables, table, fromWhere, -⟩ := addByContent_slot lookup slotFound
    obtain rfl : used = newAtom := fromWhere.resolve_right nofun
    refine .inr ⟨missed, by rw [Added.add, slotFound], tables, ?_⟩
    show (addByContent lookup added.state used).2.indirectBindingTable = _
    rw [table]
    simp

theorem Added.add_tables (added : Added Address) (newAtom : Address) {name : TableName}
    {key : Address × Nat} (listed : key ∈ added.state.tables name) :
    key ∈ (added.add lookup newAtom).state.tables name := by
  obtain ⟨_, _, step⟩ | step := added.add_cases lookup newAtom
  · rw [step.tables]
    exact listed
  · rw [step.tables]
    by_cases here : name = (atom newAtom).tableName
    · rw [here, Function.update_self]
      exact List.mem_append_left _ (here ▸ listed)
    · rw [Function.update_of_ne here]
      exact listed

/-- The keys of a table are the old ones and perhaps the new atom. -/
theorem NewKey.mem_tables {added : Added Address} (step : NewKey lookup added newAtom)
    {name : TableName} {key : Address × Nat} (listed : key ∈ (added.add lookup newAtom).state.tables name) :
    key ∈ added.state.tables name ∨
      name = (atom newAtom).tableName ∧ key = (newAtom, added.state.indirectBindingTable.length) := by
  rw [step.tables] at listed
  by_cases here : name = (atom newAtom).tableName
  · subst here
    rw [Function.update_self, List.mem_append, List.mem_singleton] at listed
    exact listed.imp_right fun new => ⟨rfl, new⟩
  · rw [Function.update_of_ne here] at listed
    exact .inl listed

/-! ## What holds of every run -/

variable (atom) in
/-- Every slot is that of one key, and has the atom of the greatest alignment in it. -/
structure Owned (run : Added Address) : Prop where
  /-- A key is an atom that was added, -/
  added : ∀ name, ∀ key ∈ run.state.tables name, key ∈ run.slots ∧ (atom key.1).tableName = name
  /-- its slot is there, -/
  inside : ∀ name, ∀ key ∈ run.state.tables name, key.2 < run.state.indirectBindingTable.length
  /-- and no other key has it. -/
  apart : ∀ {first second name other slot}, (first, slot) ∈ run.state.tables name →
    (second, slot) ∈ run.state.tables other → first = second
  keyed : ∀ given ∈ run.slots, ∃ key, (key, given.2) ∈ run.state.tables (atom given.1).tableName
  survivor : ∀ given ∈ run.slots, ∃ survivor,
    run.state.indirectBindingTable[given.2]? = some survivor ∧ (survivor, given.2) ∈ run.slots ∧
      (atom given.1).trailingZeros ≤ (atom survivor).trailingZeros

variable {run : Added Address}

omit [DecidableEq Address] in
theorem Owned.slot_lt (owned : Owned atom run) {given : Address × Nat}
    (member : given ∈ run.slots) : given.2 < run.state.indirectBindingTable.length := by
  obtain ⟨key, listed⟩ := owned.keyed given member
  exact owned.inside _ (key, given.2) listed

variable {newAtom key : Address}

theorem Owned.found (owned : Owned atom run) {slot : Nat}
    (step : FoundKey lookup run newAtom key slot) : Owned atom (run.add lookup newAtom) := by
  obtain ⟨used, table, fromWhere, greater, others⟩ := step.used
  have slotInside : slot < run.state.indirectBindingTable.length := owned.inside _ _ step.listed
  obtain ⟨keyAdded, -⟩ := owned.added _ _ step.listed
  have usedAdded : (used, slot) ∈ run.slots ++ [(newAtom, slot)] := by
    obtain rfl | existing := fromWhere
    · exact List.mem_append_right _ (List.mem_singleton_self _)
    · obtain ⟨survivor, inSlot, member, -⟩ := owned.survivor _ keyAdded
      obtain rfl := Option.some.inj (existing.symm.trans inSlot)
      exact List.mem_append_left _ member
  have inUse : (run.state.indirectBindingTable.set slot used)[slot]? = some used :=
    List.getElem?_set_self slotInside
  refine ⟨?_, ?_, ?_, ?_, ?_⟩
  · intro name other listed
    rw [step.tables] at listed
    rw [step.slots]
    exact (owned.added name other listed).imp_left (List.mem_append_left _)
  · intro name other listed
    rw [step.tables] at listed
    rw [table, List.length_set]
    exact owned.inside name other listed
  · intro first second name other common here there
    rw [step.tables] at here there
    exact owned.apart here there
  · intro given member
    rw [step.slots, List.mem_append, List.mem_singleton] at member
    rw [step.tables]
    obtain before | rfl := member
    · exact owned.keyed given before
    · exact ⟨key, step.listed⟩
  · intro given member
    rw [step.slots, List.mem_append, List.mem_singleton] at member
    rw [step.slots, table]
    obtain before | rfl := member
    · obtain ⟨survivor, inSlot, survivorAdded, less⟩ := owned.survivor given before
      by_cases same : given.2 = slot
      · rw [same] at inSlot ⊢
        exact ⟨used, inUse, usedAdded, Nat.le_trans less (others survivor inSlot)⟩
      · rw [List.getElem?_set_ne (Ne.symm same)]
        exact ⟨survivor, inSlot, List.mem_append_left _ survivorAdded, less⟩
    · exact ⟨used, inUse, usedAdded, greater⟩

theorem Owned.new (owned : Owned atom run)
    (step : NewKey lookup run newAtom) : Owned atom (run.add lookup newAtom) := by
  have newListed : (newAtom, run.state.indirectBindingTable.length) ∈
      (run.add lookup newAtom).state.tables (atom newAtom).tableName := by
    rw [step.tables, Function.update_self]
    exact List.mem_append_right _ (List.mem_singleton_self _)
  refine ⟨?_, ?_, ?_, ?_, ?_⟩
  · intro name key listed
    rw [step.slots]
    obtain old | ⟨rfl, rfl⟩ := step.mem_tables lookup listed
    · exact (owned.added name key old).imp_left (List.mem_append_left _)
    · exact ⟨List.mem_append_right _ (List.mem_singleton_self _), rfl⟩
  · intro name key listed
    rw [step.table, List.length_append, List.length_singleton]
    obtain old | ⟨-, rfl⟩ := step.mem_tables lookup listed
    · exact Nat.lt_succ_of_lt (owned.inside name key old)
    · exact Nat.lt_succ_self _
  · intro first second name other slot here there
    obtain oldHere | ⟨-, newHere⟩ := step.mem_tables lookup here <;>
      obtain oldThere | ⟨-, newThere⟩ := step.mem_tables lookup there
    · exact owned.apart oldHere oldThere
    · have := owned.inside name _ oldHere
      rw [(Prod.mk.inj newThere).2] at this
      exact absurd this (Nat.lt_irrefl _)
    · have := owned.inside other _ oldThere
      rw [(Prod.mk.inj newHere).2] at this
      exact absurd this (Nat.lt_irrefl _)
    · exact (Prod.mk.inj newHere).1.trans (Prod.mk.inj newThere).1.symm
  · intro given member
    rw [step.slots, List.mem_append, List.mem_singleton] at member
    obtain before | rfl := member
    · obtain ⟨key, listed⟩ := owned.keyed given before
      exact ⟨key, run.add_tables lookup newAtom listed⟩
    · exact ⟨newAtom, newListed⟩
  · intro given member
    rw [step.slots, List.mem_append, List.mem_singleton] at member
    rw [step.slots, step.table]
    obtain before | rfl := member
    · obtain ⟨survivor, inSlot, survivorAdded, less⟩ := owned.survivor given before
      rw [List.getElem?_append_left (owned.slot_lt before)]
      exact ⟨survivor, inSlot, List.mem_append_left _ survivorAdded, less⟩
    · exact ⟨newAtom, List.getElem?_concat_length, List.mem_append_right _ (List.mem_singleton_self _), Nat.le_refl _⟩

/-- **Whatever is merged, the atom that a slot keeps has the greatest alignment.** -/
theorem addAll_owned (atoms : List Address) : Owned atom (addAll lookup atoms) := by
  induction atoms using List.reverseRecOn with
  | nil => exact ⟨nofun, nofun, nofun, nofun, nofun⟩
  | append_singleton atoms newAtom owned =>
    rw [addAll_append]
    obtain ⟨key, slot, step⟩ | step := (addAll lookup atoms).add_cases lookup newAtom
    · exact owned.found lookup step
    · exact owned.new lookup step

/-! ## When only equal contents are merged -/

variable (atom) in
/-- One of these atoms with no other of its content before it. -/
def FirstOfContent (atoms : List Address) (a : Address) : Prop :=
  ∃ earlier later, atoms = earlier ++ a :: later ∧ ∀ other ∈ earlier, ¬Same atom other a

variable (atom hash) in
/-- No atom is of the hash of another content that came before and equal to it on either side. -/
def EqualityExact (atoms : List Address) : Prop :=
  ∀ before newAtom rest, atoms = before ++ newAtom :: rest → ∀ a, FirstOfContent atom before a →
    (atom a).tableName = (atom newAtom).tableName → hashOf atom hash a = hashOf atom hash newAtom →
    (equalTo atom a newAtom = true ∨ equalTo atom newAtom a = true) → (atom a).content = (atom newAtom).content

variable (atom) in
/-- Only equal contents share a slot, and the atom in it has the greatest alignment of them. -/
structure Coalesced (added : Added Address) : Prop where
  content : ∀ first ∈ added.slots, ∀ second ∈ added.slots, first.2 = second.2 →
    (atom first.1).content = (atom second.1).content
  survivor : ∀ given ∈ added.slots, ∃ survivor, added.state.indirectBindingTable[given.2]? = some survivor ∧
    (survivor, given.2) ∈ added.slots ∧
    ∀ other ∈ added.slots, other.2 = given.2 → (atom other.1).trailingZeros ≤ (atom survivor).trailingZeros

variable {atoms : List Address}

omit [DecidableEq Address] in
theorem FirstOfContent.append {a : Address} (first : FirstOfContent atom atoms a)
    (newAtom : Address) : FirstOfContent atom (atoms ++ [newAtom]) a := by
  obtain ⟨earlier, later, rfl, none⟩ := first
  exact ⟨earlier, later ++ [newAtom], by simp, none⟩

omit [DecidableEq Hash] in
theorem EqualityExact.init
    (isExact : EqualityExact atom hash (atoms ++ [newAtom])) : EqualityExact atom hash atoms := by
  rintro before other rest rfl
  exact isExact before other (rest ++ [newAtom]) (by simp)

theorem addAll_slots (atoms : List Address) : (addAll lookup atoms).slots.map Prod.fst = atoms := by
  induction atoms using List.reverseRecOn with
  | nil => rfl
  | append_singleton atoms newAtom ih =>
    rw [addAll_append, Added.add, List.map_append, ih]
    rfl

variable (atom) in
/-- Each atom has the slot of the first of its content. -/
structure Exact (atoms : List Address) (run : Added Address) : Prop where
  same : ∀ given ∈ run.slots, ∀ key, (key, given.2) ∈ run.state.tables (atom given.1).tableName →
    Same atom key given.1
  first : ∀ name, ∀ key ∈ run.state.tables name, FirstOfContent atom atoms key.1

/-- The two are of one hash and equal, whichever is on the left. -/
theorem candidate_of_same (same : Same atom key newAtom) :
    candidate atom hash side newAtom key = true := by
  have sameHash : hashOf atom hash key = hashOf atom hash newAtom := by
    rw [hashOf, hashOf, show (atom key).type = (atom newAtom).type from congrArg TableName.type same.table,
      same.content]
  refine Bool.and_eq_true_iff.mpr ⟨decide_eq_true sameHash, ?_⟩
  cases side with
  | left => exact (equalTo_iff_same same.table same.content).mpr same
  | right => exact (equalTo_iff_same same.table.symm same.content.symm).mpr same.symm

theorem candidate_cases (isCandidate : candidate atom hash side newAtom key = true) :
    hashOf atom hash key = hashOf atom hash newAtom ∧
      (equalTo atom key newAtom = true ∨ equalTo atom newAtom key = true) := by
  obtain ⟨sameHash, equal⟩ := Bool.and_eq_true_iff.mp isCandidate
  refine ⟨of_decide_eq_true sameHash, ?_⟩
  cases side with
  | left => exact .inl equal
  | right => exact .inr equal

theorem candidate_same (table : (atom key).tableName = (atom newAtom).tableName)
    (content : (atom key).content = (atom newAtom).content)
    (isCandidate : candidate atom hash side newAtom key = true) : Same atom key newAtom := by
  obtain equal | equal := (candidate_cases isCandidate).2
  · exact (equalTo_iff_same table content).mp equal
  · exact ((equalTo_iff_same table.symm content.symm).mp equal).symm

/-- **If equality is exact on the atoms, each is found at the first of its content.** -/
theorem addAll_exact (atoms : List Address) (isExact : EqualityExact atom hash atoms) :
    Exact atom atoms (addAll lookup atoms) := by
  induction atoms using List.reverseRecOn with
  | nil => exact ⟨nofun, nofun⟩
  | append_singleton atoms newAtom ih =>
    have before := ih isExact.init
    have owned := addAll_owned lookup atoms
    have ownedAfter := addAll_owned lookup (atoms ++ [newAtom])
    rw [addAll_append] at ownedAfter ⊢
    -- a key of an earlier atom is the same as it still
    have kept : ∀ given ∈ (addAll lookup atoms).slots, ∀ key,
        (key, given.2) ∈ ((addAll lookup atoms).add lookup newAtom).state.tables (atom given.1).tableName →
          Same atom key given.1 := by
      intro given member key listed
      obtain ⟨old, oldListed⟩ := owned.keyed given member
      obtain rfl := ownedAfter.apart (Added.add_tables lookup _ newAtom oldListed) listed
      exact before.same given member old oldListed
    obtain ⟨key, slot, step⟩ | step := (addAll lookup atoms).add_cases lookup newAtom
    · obtain ⟨-, table⟩ := owned.added _ _ step.listed
      obtain ⟨sameHash, equal⟩ := candidate_cases step.candidate
      have content := isExact atoms newAtom [] rfl key (before.first _ _ step.listed) table sameHash equal
      refine ⟨?_, ?_⟩
      · intro given member other listed
        rw [step.slots, List.mem_append, List.mem_singleton] at member
        obtain old | rfl := member
        · exact kept given old other listed
        · rw [step.tables] at listed
          obtain rfl := owned.apart step.listed listed
          exact candidate_same table content step.candidate
      · intro name other listed
        rw [step.tables] at listed
        exact (before.first name other listed).append newAtom
    · refine ⟨?_, ?_⟩
      · intro given member other listed
        rw [step.slots, List.mem_append, List.mem_singleton] at member
        obtain old | rfl := member
        · exact kept given old other listed
        · have ownKey : (newAtom, (addAll lookup atoms).state.indirectBindingTable.length) ∈
              ((addAll lookup atoms).add lookup newAtom).state.tables (atom newAtom).tableName := by
            rw [step.tables, Function.update_self]
            exact List.mem_append_right _ (List.mem_singleton_self _)
          obtain rfl := ownedAfter.apart ownKey listed
          exact Same.refl newAtom
      · intro name other listed
        obtain old | ⟨-, rfl⟩ := step.mem_tables lookup listed
        · exact (before.first name other old).append newAtom
        · refine ⟨atoms, [], rfl, ?_⟩
          intro earlier member same
          rw [← addAll_slots lookup atoms, List.mem_map] at member
          obtain ⟨given, givenMember, rfl⟩ := member
          obtain ⟨key, keyListed⟩ := owned.keyed given givenMember
          have keySame := (before.same given givenMember key keyListed).trans same
          rw [same.table] at keyListed
          exact absurd (candidate_of_same keySame) (Bool.eq_false_iff.mp (step.missed _ keyListed))

omit [DecidableEq Address] in
theorem Exact.coalesced (isExact : Exact atom atoms run) (owned : Owned atom run) : Coalesced atom run := by
  refine ⟨?_, ?_⟩
  · intro first firstMember second secondMember sameSlot
    obtain ⟨key, listed⟩ := owned.keyed first firstMember
    obtain ⟨other, otherListed⟩ := owned.keyed second secondMember
    obtain rfl : key = other := owned.apart (sameSlot ▸ listed) otherListed
    rw [← (isExact.same first firstMember key listed).content,
      (isExact.same second secondMember key otherListed).content]
  · intro given member
    obtain ⟨survivor, inSlot, added, -⟩ := owned.survivor given member
    refine ⟨survivor, inSlot, added, ?_⟩
    intro other otherMember sameSlot
    obtain ⟨same, inSameSlot, -, less⟩ := owned.survivor other otherMember
    rw [sameSlot, inSlot] at inSameSlot
    obtain rfl := Option.some.inj inSameSlot
    exact less

theorem addAll_mono (atoms more : List Address) :
    (∀ given ∈ (addAll lookup atoms).slots, given ∈ (addAll lookup (atoms ++ more)).slots) ∧
      ∀ name, ∀ key ∈ (addAll lookup atoms).state.tables name,
        key ∈ (addAll lookup (atoms ++ more)).state.tables name := by
  induction more using List.reverseRecOn with
  | nil => simp
  | append_singleton more newAtom ih =>
    rw [← List.append_assoc, addAll_append]
    exact ⟨fun given member => List.mem_append_left _ (ih.1 given member),
      fun name key listed => Added.add_tables lookup _ newAtom (ih.2 name key listed)⟩

/-- The first atom of its content is a key if only equal contents share a slot in the end. -/
theorem addAll_key {earlier more : List Address} {a : Address} (none : ∀ other ∈ earlier, ¬Same atom other a)
    (coalesced : Coalesced atom (addAll lookup (earlier ++ a :: more))) :
    ∃ slot, (a, slot) ∈ (addAll lookup (earlier ++ [a])).state.tables (atom a).tableName := by
  have owned := addAll_owned lookup earlier
  rw [List.append_cons] at coalesced
  obtain ⟨slotsKept, -⟩ := addAll_mono lookup (earlier ++ [a]) more
  rw [addAll_append] at slotsKept ⊢
  obtain ⟨key, slot, step⟩ | step := (addAll lookup earlier).add_cases lookup a
  · obtain ⟨keyAdded, table⟩ := owned.added _ _ step.listed
    have keyEarlier : key ∈ earlier := by
      rw [← addAll_slots lookup earlier]
      exact List.mem_map_of_mem keyAdded
    rw [step.slots] at slotsKept
    have content := coalesced.content (key, slot) (slotsKept _ (List.mem_append_left _ keyAdded)) (a, slot)
      (slotsKept _ (List.mem_append_right _ (List.mem_singleton_self _))) rfl
    exact absurd (candidate_same table content step.candidate) (none key keyEarlier)
  · refine ⟨(addAll lookup earlier).state.indirectBindingTable.length, ?_⟩
    rw [step.tables, Function.update_self]
    exact List.mem_append_right _ (List.mem_singleton_self _)

variable (atom) in
def otherContent (newAtom key : Address) : Bool := (atom key).content ≠ (atom newAtom).content

/-- A map that looks at another content first merges what is not equal. -/
theorem equalityExact_of_coalesced
    (coalesced : ∀ lookup : HashTable atom hash, Coalesced atom (addAll lookup atoms)) :
    EqualityExact atom hash atoms := by
  rintro before newAtom rest rfl a ⟨earlier, later, rfl, none⟩ table sameHash equal
  by_contra differ
  obtain ⟨side, isCandidate⟩ : ∃ side, candidate atom hash side newAtom a = true := by
    obtain equal | equal := equal
    · exact ⟨.left, Bool.and_eq_true_iff.mpr ⟨decide_eq_true sameHash, equal⟩⟩
    · exact ⟨.right, Bool.and_eq_true_iff.mpr ⟨decide_eq_true sameHash, equal⟩⟩
  let lookup := HashTable.preferring atom hash side (otherContent atom)
  have merged := coalesced lookup
  have whole : earlier ++ a :: later ++ newAtom :: rest = earlier ++ a :: (later ++ newAtom :: rest) := by simp
  obtain ⟨slot, isKey⟩ := addAll_key lookup none (whole ▸ merged)
  have listed := (addAll_mono lookup (earlier ++ [a]) later).2 _ _ isKey
  rw [List.append_assoc, List.singleton_append, table] at listed
  obtain ⟨slotsKept, -⟩ := addAll_mono lookup ((earlier ++ a :: later) ++ [newAtom]) rest
  rw [addAll_append, ← List.append_cons] at slotsKept
  have liked : otherContent atom newAtom a = true := decide_eq_true differ
  obtain ⟨⟨other, otherSlot⟩, found, otherLiked⟩ := HashTable.preferring_find atom hash listed isCandidate liked
  obtain ⟨key, keySlot, step⟩ | step := (addAll lookup (earlier ++ a :: later)).add_cases lookup newAtom
  · obtain ⟨rfl, rfl⟩ := Prod.mk.inj (Option.some.inj (found.symm.trans step.found))
    obtain ⟨keyAdded, -⟩ := (addAll_owned lookup (earlier ++ a :: later)).added _ _ step.listed
    rw [step.slots] at slotsKept
    have content := merged.content (other, otherSlot) (slotsKept _ (List.mem_append_left _ keyAdded))
      (newAtom, otherSlot) (slotsKept _ (List.mem_append_right _ (List.mem_singleton_self _))) rfl
    exact of_decide_eq_true otherLiked content
  · exact absurd isCandidate (Bool.eq_false_iff.mp (step.missed _ listed))

variable (atom hash) in
/-- **Only equal contents share a slot, however the maps look for keys, exactly when the
equality of the tables is exact on the atoms of one hash.** -/
theorem addAll_coalesced_iff (atoms : List Address) :
    (∀ lookup : HashTable atom hash, Coalesced atom (addAll lookup atoms)) ↔ EqualityExact atom hash atoms :=
  ⟨equalityExact_of_coalesced, fun isExact lookup =>
    (addAll_exact lookup atoms isExact).coalesced (addAll_owned lookup atoms)⟩

/-! ## Strings that end with their zero -/

/-- No UTF-16 string, and what the parser makes of the other kinds. -/
def ContentAtom.Plain (atom : ContentAtom) : Prop :=
  match atom.type with
  | .cString | .nonStdCString => ∃ text, atom.content = text ++ [0] ∧ 0 ∉ text
  | .utf16Strings => False
  | .literal4 => atom.size = 4
  | .literal8 => atom.size = 8
  | .literal16 => atom.size = 16

theorem takeWhile_of_content {atom : ContentAtom} {text : List UInt8} (ends : atom.content = text ++ [0])
    (noZero : 0 ∉ text) : atom.rawContentPointer.takeWhile (· ≠ 0) = text := by
  have whole : atom.rawContentPointer = text ++ 0 :: atom.rawContentPointer.drop atom.size := by
    rw [List.append_cons, ← ends, ContentAtom.content, List.take_append_drop]
  have passes : ∀ byte ∈ text, decide (byte ≠ 0) = true := by
    intro byte member
    refine decide_eq_true ?_
    rintro rfl
    exact noZero member
  rw [whole, List.takeWhile_append_of_pos passes]
  simp

theorem equalTo_plain {left right : Address} (leftPlain : (atom left).Plain) (rightPlain : (atom right).Plain)
    (sameType : (atom left).type = (atom right).type) (equal : equalTo atom left right = true) :
    (atom left).content = (atom right).content := by
  rw [ContentAtom.Plain] at leftPlain rightPlain
  rw [equalTo] at equal
  rw [← sameType] at rightPlain
  cases type : (atom left).type with
  | cString | nonStdCString =>
    rw [type] at leftPlain rightPlain equal
    obtain ⟨text, ends, noZero⟩ := leftPlain
    obtain ⟨other, otherEnds, otherNoZero⟩ := rightPlain
    have same := of_decide_eq_true equal
    rw [takeWhile_of_content ends noZero, takeWhile_of_content otherEnds otherNoZero] at same
    rw [ends, otherEnds, same]
  | utf16Strings =>
    rw [type] at leftPlain
    exact leftPlain.elim
  | literal4 | literal8 | literal16 =>
    rw [type] at leftPlain rightPlain equal
    have same := of_decide_eq_true equal
    have size : (atom left).size = (atom right).size := leftPlain.trans rightPlain.symm
    rw [ContentAtom.content, ContentAtom.content, same, size]

/-- **Of cstrings and literals, only equal contents share a slot, whatever the hash.** -/
theorem addAll_coalesced_of_plain (atoms : List Address) (plain : ∀ a ∈ atoms, (atom a).Plain) :
    Coalesced atom (addAll lookup atoms) := by
  refine (addAll_exact lookup atoms ?_).coalesced (addAll_owned lookup atoms)
  rintro before newAtom rest rfl a ⟨earlier, later, rfl, -⟩ table - equal
  have sameType := congrArg TableName.type table
  have aPlain : (atom a).Plain := plain a (by simp)
  have newPlain : (atom newAtom).Plain := plain newAtom (by simp)
  obtain equal | equal := equal
  · exact equalTo_plain aPlain newPlain sameType equal
  · exact (equalTo_plain newPlain aPlain sameType.symm equal).symm

end Tables

/-- The string `a`, or `b`. -/
def letter (second : Bool) : ContentAtom where
  type := .cString
  segmentName := "__TEXT"
  sectionName := "__cstring"
  rawContentPointer := if second then [98, 0] else [97, 0]
  size := 2
  powerOf2 := 0
  modulus := 0
  inside := by cases second <;> decide

theorem addAll_coalesced_of_plain_letters :
    Coalesced letter (addAll (HashTable.preferring letter contentHash .left fun _ _ => true) [true, false]) := by
  apply addAll_coalesced_of_plain
  intro second _
  cases second with
  | true => exact ⟨[98], by decide, by decide⟩
  | false => exact ⟨[97], by decide, by decide⟩

/-! ## An empty string -/

/-- The empty string in UTF-16, and one of eleven words of the same hash. -/
def emptyOrNot (empty : Bool) : ContentAtom where
  type := .utf16Strings
  segmentName := "__TEXT"
  sectionName := "__ustring"
  rawContentPointer :=
    if empty then [0, 0]
    else [18, 12, 32, 0, 15, 0, 14, 0, 23, 0, 20, 0, 31, 0, 15, 0, 16, 0, 29, 0, 11, 0, 0, 0]
  size := if empty then 2 else 24
  powerOf2 := 1
  modulus := 0
  inside := by cases empty <;> decide

/-- No byte is compared of the empty string, so with the hash of the other it has its slot. -/
theorem empty_string_merged : ∃ lookup : HashTable emptyOrNot contentHash,
    ¬Coalesced emptyOrNot (addAll lookup [false, true]) := by
  refine ⟨HashTable.preferring emptyOrNot contentHash .right fun _ _ => true, fun coalesced => ?_⟩
  have slots : (addAll (HashTable.preferring emptyOrNot contentHash .right fun _ _ => true) [false, true]).slots =
      [(false, 0), (true, 0)] := by decide
  have same := coalesced.content (false, 0) (by rw [slots]; decide) (true, 0) (by rw [slots]; decide) rfl
  exact absurd same (by decide)

end Cctools.Resolver.ByContent
