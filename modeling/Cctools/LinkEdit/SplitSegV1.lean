/-
# Cctools.LinkEdit.SplitSegV1 -- split segment information, version 1

`addSplitSegInfo`, `uleb128EncodeAddresses` and `encode` of `SplitSegInfoV1Atom` in `ld/LinkEdit.hpp`.
The addresses of the entries are put in groups by the kind of fixup and, for the high halves of arm
addresses, by four more bits; a group is its number, the differences of its sorted addresses from the
base address on, and a zero.  Differences are of pointers: 32-bit ones wrap at 32 bits.

A difference of zero would end the group, and is what `encode` throws for (`encode_spec`).
-/
import Cctools.LinkEdit.Deltas
import Cctools.Theory.Transducer

namespace Cctools.LinkEdit.SplitSegV1

set_option autoImplicit false

open Cctools.Theory Cctools.LinkEdit.Deltas

/-! ## Groups -/

inductive Arch where
  | x86_64
  | x86
  | arm
  | arm64
  | arm64_32
  deriving DecidableEq, Repr

/-- The bits of `pint_t`. -/
def Arch.pointerBits : Arch → Nat
  | x86_64 | arm64 => 64
  | x86 | arm | arm64_32 => 32

/-- `ld::Fixup::Kind`, as far as `addSplitSegInfo` tells one from another. -/
inductive Kind where
  | storeX86PCRel32
  | storeX86PCRel32_1
  | storeX86PCRel32_2
  | storeX86PCRel32_4
  | storeX86PCRel32GOTLoad
  | storeX86PCRel32GOTLoadNowLEA
  | storeX86PCRel32GOT
  | storeX86PCRel32TLVLoad
  | storeX86PCRel32TLVLoadNowLEA
  | storeLittleEndian32
  | storeLittleEndian64
  | storeLittleEndianAuth64
  | storeTargetAddressLittleEndian32
  | storeTargetAddressLittleEndian64
  | storeTargetAddressLittleEndianAuth64
  | storeTargetAddressX86PCRel32
  | storeTargetAddressX86PCRel32GOTLoad
  | storeTargetAddressX86PCRel32GOTLoadNowLEA
  | storeTargetAddressX86PCRel32TLVLoad
  | storeTargetAddressX86PCRel32TLVLoadNowLEA
  | storeARMLow16
  | storeThumbLow16
  | storeARMHigh16
  | storeThumbHigh16
  | storeARM64Page21
  | storeARM64GOTLoadPage21
  | storeARM64GOTLeaPage21
  | storeARM64TLVPLoadPage21
  | storeTargetAddressARM64Page21
  | storeTargetAddressARM64GOTLoadPage21
  | storeTargetAddressARM64GOTLeaPage21
  | storeARM64PCRelToGOT
  | other
  deriving DecidableEq, Repr

/-- `SplitSegInfoEntry`. -/
structure SplitSegInfoEntry where
  fixupAddress : BitVec 64
  kind : Kind
  extra : BitVec 32
  deriving DecidableEq, Repr

/-- Where `addSplitSegInfo` puts an address: in a group, by its number, or nowhere. -/
inductive Place where
  | group (number : Nat)
  | warning
  | assertion
  deriving DecidableEq, Repr

namespace Place

def pointer32 : Place := group 1

def pointer64 : Place := group 2

def adrp : Place := group 3

def thumbLo16 : Place := group 5

def armLo16 : Place := group 6

/-- `assert(extra < 16)`. -/
def hi16 (first : Nat) (extra : BitVec 32) : Place :=
  if extra.toNat < 16 then group (first + extra.toNat) else assertion

def thumbHi16 : BitVec 32 → Place := hi16 16

def armHi16 : BitVec 32 → Place := hi16 32

end Place

open Kind in
def addSplitSegInfo : Arch → Kind → BitVec 32 → Place
  | .x86_64, kind, _ =>
    match kind with
    | storeX86PCRel32 | storeX86PCRel32_1 | storeX86PCRel32_2 | storeX86PCRel32_4 | storeX86PCRel32GOTLoad
    | storeX86PCRel32GOTLoadNowLEA | storeX86PCRel32GOT | storeLittleEndian32 | storeTargetAddressLittleEndian32
    | storeTargetAddressX86PCRel32 | storeTargetAddressX86PCRel32GOTLoad
    | storeTargetAddressX86PCRel32GOTLoadNowLEA | storeTargetAddressX86PCRel32TLVLoad
    | storeTargetAddressX86PCRel32TLVLoadNowLEA => .pointer32
    | storeLittleEndian64 | storeTargetAddressLittleEndian64 => .pointer64
    | storeLittleEndianAuth64 | storeTargetAddressLittleEndianAuth64 => .assertion
    | _ => .warning
  | .x86, kind, _ =>
    match kind with
    | storeLittleEndian32 | storeTargetAddressLittleEndian32 | storeX86PCRel32TLVLoad
    | storeX86PCRel32TLVLoadNowLEA => .pointer32
    | _ => .warning
  | .arm, kind, extra =>
    match kind with
    | storeLittleEndian32 => .pointer32
    | storeARMLow16 => .armLo16
    | storeThumbLow16 => .thumbLo16
    | storeARMHigh16 => .armHi16 extra
    | storeThumbHigh16 => .thumbHi16 extra
    | _ => .warning
  | .arm64, kind, _ | .arm64_32, kind, _ =>
    match kind with
    | storeARM64Page21 | storeARM64GOTLoadPage21 | storeARM64GOTLeaPage21 | storeARM64TLVPLoadPage21
    | storeTargetAddressARM64Page21 | storeTargetAddressARM64GOTLoadPage21
    | storeTargetAddressARM64GOTLeaPage21 => .adrp
    | storeLittleEndian32 | storeARM64PCRelToGOT => .pointer32
    | storeLittleEndian64 | storeTargetAddressLittleEndian64 => .pointer64
    | _ => .warning

/-- The groups, in the order they are written in. -/
def groups : List Nat :=
  [1, 2, 3, 5, 6] ++ (List.range 16).map (16 + ·) ++ (List.range 16).map (32 + ·)

/-! ## Encoding -/

inductive Failure where
  | doubleInfo
  | assertion
  deriving DecidableEq, Repr

def Failure.text : Failure → String
  | doubleInfo => "double split seg info for same address"
  | assertion => "assertion failed"

section Encode

variable (arch : Arch) (baseAddress : BitVec 64) (infos : List SplitSegInfoEntry)

def placeOf (info : SplitSegInfoEntry) : Place := addSplitSegInfo arch info.kind info.extra

/-- The vector of a group. -/
def locations (group : Nat) : List (BitVec 64) :=
  (infos.filter fun info => placeOf arch info = .group group).map (·.fixupAddress)

/-- `std::sort`. -/
def sortedLocations (group : Nat) : List (BitVec 64) :=
  (locations arch infos group).mergeSort fun a b => decide (a.toNat ≤ b.toNat)

/-- `uleb128EncodeAddresses`, from `addr` on. -/
def uleb128EncodeAddresses {bits : Nat} : BitVec bits → List (BitVec 64) → Except Failure (List UInt8)
  | _, [] => .ok []
  | addr, location :: locations =>
    let nextAddr := location.setWidth bits
    if delta addr nextAddr = 0 then .error .doubleInfo
    else (uleb128EncodeAddresses nextAddr locations).map (appendUleb128 (delta addr nextAddr) ++ ·)

def encodeGroup (group : Nat) : Except Failure (List UInt8) :=
  if locations arch infos group = [] then .ok []
  else
    (uleb128EncodeAddresses (baseAddress.setWidth arch.pointerBits) (sortedLocations arch infos group)).map
      fun deltas => UInt8.ofNat group :: deltas ++ [0]

def encode : Except Failure (List UInt8) :=
  if infos.any fun info => placeOf arch info = .assertion then .error .assertion
  else
    (groups.mapM (encodeGroup arch baseAddress infos)).map fun written =>
      padToSize (arch.pointerBits / 8) (written.flatten ++ [0])

end Encode

/-! ## Decoding -/

/-- A group with its addresses; a zero ends the stream. -/
def readGroup {bits : Nat} (base : BitVec bits) : EndReader Unit UInt8 (Nat × List (BitVec bits)) := fun _ bytes =>
  match bytes with
  | [] => none
  | kind :: rest =>
    if kind = 0 then some (none, rest)
    else
      (readUntil readDelta (rest.length + 1) base rest).map fun found =>
        (some ((kind.toNat, found.1), ()), found.2)

def decode {bits : Nat} (base : BitVec bits) (bytes : List UInt8) :
    Option (List (Nat × List (BitVec bits)) × List UInt8) :=
  readUntil (readGroup base) (bytes.length + 1) () bytes

/-! ## The addresses of a group -/

/-- **Encoding addresses** throws exactly where one repeats the pointer in front of it. -/
theorem uleb128EncodeAddresses_spec {bits : Nat} (small : bits ≤ 64) (addr : BitVec bits) (locations : List (BitVec 64)) :
    Settles (uleb128EncodeAddresses addr locations) (Moves addr (locations.map (·.setWidth bits)))
      (writeAll writeDelta (fun _ nextAddr => nextAddr) addr (locations.map (·.setWidth bits))) .doubleInfo := by
  induction locations generalizing addr with
  | nil => exact ⟨trivial, rfl⟩
  | cons location locations ih =>
    have later := ih (location.setWidth bits)
    rw [uleb128EncodeAddresses]
    by_cases zero : delta addr (location.setWidth bits) = 0
    · rw [if_pos zero]
      exact ⟨rfl, fun moves => moves.1 ((delta_eq_zero_iff small).mp zero)⟩
    · rw [if_neg zero]
      have here := fun same => zero ((delta_eq_zero_iff small).mpr same)
      cases done : uleb128EncodeAddresses (location.setWidth bits) locations with
      | error failure =>
        rw [done] at later
        exact ⟨later.1, fun moves => later.2 moves.2⟩
      | ok deltas =>
        rw [done] at later
        exact ⟨⟨here, later.1⟩, by rw [later.2]; rfl⟩

/-! ## All groups -/

section Whole

variable (arch : Arch) (baseAddress : BitVec 64) (infos : List SplitSegInfoEntry)

theorem Arch.pointerBits_le : arch.pointerBits ≤ 64 := by cases arch <;> decide

def base : BitVec arch.pointerBits := baseAddress.setWidth arch.pointerBits

/-- The sorted addresses of a group, as pointers. -/
def pointers (group : Nat) : List (BitVec arch.pointerBits) :=
  (sortedLocations arch infos group).map (·.setWidth arch.pointerBits)

/-- **The addresses of a group can be told apart**: none is as a pointer the one in front of it in
sorted order, and the first is not the base address. -/
def Distinct (group : Nat) : Prop :=
  (base arch baseAddress :: pointers arch infos group).IsChain (· ≠ ·)

def writeGroup (_ : Unit) (group : Nat) : List UInt8 :=
  UInt8.ofNat group ::
    (writeAll writeDelta (fun _ nextAddr => nextAddr) (base arch baseAddress) (pointers arch infos group) ++ [0])

/-- The groups that are not empty. -/
def filled : List Nat := groups.filter fun group => locations arch infos group ≠ []

variable {arch baseAddress infos}

theorem sortedLocations_of_sorted {group : Nat}
    (sorted : (locations arch infos group).Pairwise fun a b => decide (a.toNat ≤ b.toNat) = true) :
    sortedLocations arch infos group = locations arch infos group :=
  List.mergeSort_of_pairwise sorted

theorem encodeGroup_spec (group : Nat) :
    Settles (encodeGroup arch baseAddress infos group) (Distinct arch baseAddress infos group)
      (if locations arch infos group = [] then [] else writeGroup arch baseAddress infos () group) .doubleInfo := by
  have spec := uleb128EncodeAddresses_spec arch.pointerBits_le (base arch baseAddress)
    (sortedLocations arch infos group)
  rw [moves_iff] at spec
  rw [encodeGroup]
  by_cases none : locations arch infos group = []
  · have sorted : sortedLocations arch infos group = [] := by rw [sortedLocations, none, List.mergeSort_nil]
    rw [if_pos none]
    refine ⟨?_, (if_pos none).symm⟩
    rw [Distinct, pointers, sorted]
    exact List.isChain_singleton _
  · rw [if_neg none]
    cases done : uleb128EncodeAddresses (base arch baseAddress) (sortedLocations arch infos group) with
    | error failure =>
      rw [done] at spec
      rw [base] at done
      rw [done]
      exact spec
    | ok deltas =>
      rw [done] at spec
      rw [base] at done
      rw [done]
      refine ⟨spec.1, ?_⟩
      rw [if_neg none, spec.2]
      rfl

theorem writeAll_filter {α β : Type} (write : Unit → α → List β) (keep : α → Bool) (items : List α) :
    writeAll write (fun state _ => state) () (items.filter keep) =
      (items.map fun item => if keep item then write () item else []).flatten := by
  induction items with
  | nil => rfl
  | cons item items ih =>
    rw [List.filter_cons, List.map_cons, List.flatten_cons]
    split
    · rw [writeAll, ih]
    · rw [ih, List.nil_append]

theorem number_of_mem {group : Nat} (member : group ∈ groups) : group ≠ 0 ∧ group < 256 := by
  revert member
  revert group
  decide

/-- **A group** is read back. -/
theorem readGroup_writeGroup {group : Nat} (member : group ∈ groups)
    (distinct : Distinct arch baseAddress infos group) (rest : List UInt8) :
    readGroup (base arch baseAddress) () (writeGroup arch baseAddress infos () group ++ rest) =
      some (some ((group, pointers arch infos group), ()), rest) := by
  obtain ⟨nonzero, small⟩ := number_of_mem member
  have byte : (UInt8.ofNat group).toNat = group := by simp; omega
  have notEnd : UInt8.ofNat group ≠ 0 := fun zero => nonzero (by rw [← byte, zero]; rfl)
  rw [writeGroup, List.cons_append, List.append_assoc, readGroup, if_neg notEnd,
    readUntil_deltas arch.pointerBits_le (moves_iff.mpr distinct), byte]
  rfl

theorem decode_writeAll (distinct : ∀ group ∈ groups, Distinct arch baseAddress infos group) (rest : List UInt8) :
    decode (base arch baseAddress)
      (writeAll (writeGroup arch baseAddress infos) (fun state _ => state) () (filled arch infos) ++ ([0] ++ rest)) =
      some ((filled arch infos).map fun group => (group, pointers arch infos group), rest) := by
  have enough : (filled arch infos).length ≤
      (writeAll (writeGroup arch baseAddress infos) (fun state _ => state) () (filled arch infos)).length :=
    length_writeAll (fun _ group => List.cons_ne_nil _ _) () _
  have along : Along (fun _ group => group ∈ groups) (fun state _ => state) () (filled arch infos) :=
    along_of_forall (fun group member _ => List.mem_of_mem_filter member) ()
  exact readUntil_writeAll (fun _ group rest member => readGroup_writeGroup member (distinct group member) rest)
    (fun _ _ => rfl) along (by rw [List.length_append]; omega) rest

/-- The bytes of all groups. -/
def allGroups (arch : Arch) (baseAddress : BitVec 64) (infos : List SplitSegInfoEntry) : List UInt8 :=
  writeAll (writeGroup arch baseAddress infos) (fun state _ => state) () (filled arch infos)

theorem encodeGroups_spec :
    Settles ((groups.mapM (encodeGroup arch baseAddress infos)).map List.flatten)
      (∀ group ∈ groups, Distinct arch baseAddress infos group) (allGroups arch baseAddress infos) .doubleInfo := by
  have spec := settles_mapM (@encodeGroup_spec arch baseAddress infos) groups
  cases done : groups.mapM (encodeGroup arch baseAddress infos) with
  | error failure =>
    rw [done] at spec
    exact spec
  | ok written =>
    rw [done] at spec
    obtain ⟨distinct, rfl⟩ := spec
    refine ⟨distinct, ?_⟩
    rw [allGroups, filled, writeAll_filter]
    simp only [ite_not, decide_not, Bool.not_eq_true', decide_eq_false_iff_not]

theorem encode_placed (placed : ∀ info ∈ infos, placeOf arch info ≠ .assertion) :
    Settles (encode arch baseAddress infos) (∀ group ∈ groups, Distinct arch baseAddress infos group)
      (padToSize (arch.pointerBits / 8) (allGroups arch baseAddress infos ++ [0])) .doubleInfo := by
  have spec := @encodeGroups_spec arch baseAddress infos
  rw [encode, if_neg (by simpa using placed)]
  cases done : groups.mapM (encodeGroup arch baseAddress infos) with
  | error failure =>
    rw [done] at spec
    exact spec
  | ok written =>
    rw [done] at spec
    exact ⟨spec.1, by rw [← spec.2]⟩

/-- **Round trip.**  The stream decodes to the groups that are not empty, each with its sorted
addresses, and padding; and `encode` throws exactly when the addresses of a group cannot be told apart. -/
theorem encode_spec (arch : Arch) (baseAddress : BitVec 64) (infos : List SplitSegInfoEntry) :
    match encode arch baseAddress infos with
    | .ok bytes =>
      (∀ group ∈ groups, Distinct arch baseAddress infos group) ∧ ∃ count, decode (base arch baseAddress) bytes =
        some ((filled arch infos).map fun group => (group, pointers arch infos group), List.replicate count 0)
    | .error .doubleInfo => ∃ group ∈ groups, ¬ Distinct arch baseAddress infos group
    | .error .assertion => ∃ info ∈ infos, placeOf arch info = .assertion := by
  by_cases failed : infos.any fun info => placeOf arch info = .assertion
  · rw [encode, if_pos failed]
    simpa using failed
  · have spec := @encode_placed arch baseAddress infos (by simpa using failed)
    cases done : encode arch baseAddress infos with
    | error failure =>
      rw [done] at spec
      obtain ⟨rfl, clash⟩ := spec
      simpa using clash
    | ok bytes =>
      rw [done] at spec
      obtain ⟨distinct, rfl⟩ := spec
      obtain ⟨count, padded⟩ := padToSize_eq (arch.pointerBits / 8) (allGroups arch baseAddress infos ++ [0])
      refine ⟨distinct, count, ?_⟩
      rw [padded, List.append_assoc]
      exact decode_writeAll distinct _

end Whole

/-- An address in front of the base address, and the base address itself. -/
def belowBase : List SplitSegInfoEntry :=
  [⟨0x800, .storeLittleEndian64, 0⟩, ⟨0x1000, .storeLittleEndian64, 0⟩]

theorem belowBase_sorted : ∀ group ∈ groups,
    (locations .x86_64 belowBase group).Pairwise fun a b => decide (a.toNat ≤ b.toNat) = true := by
  decide

theorem belowBase_encodes :
    (∃ info ∈ belowBase, info.fixupAddress = 0x1000) ∧ encode .x86_64 0x1000 belowBase ≠ .error .doubleInfo := by
  refine ⟨⟨_, List.mem_cons_of_mem _ List.mem_cons_self, rfl⟩, fun thrown => ?_⟩
  have placed : ∀ info ∈ belowBase, placeOf .x86_64 info ≠ .assertion := by decide
  have distinct : ∀ group ∈ groups, Distinct .x86_64 0x1000 belowBase group := by
    intro group member
    rw [Distinct, pointers, sortedLocations_of_sorted (belowBase_sorted group member)]
    revert member
    revert group
    decide
  have spec := @encode_placed .x86_64 0x1000 belowBase placed
  rw [thrown] at spec
  exact spec.2 distinct

end Cctools.LinkEdit.SplitSegV1
