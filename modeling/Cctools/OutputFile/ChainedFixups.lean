/-
# Cctools.OutputFile.ChainedFixups -- linking the chains of a segment

The last part of `OutputFile::writeAtoms` for an image that is loaded by dyld or
the kernel.  `setFixup64`, `setFixup64e` and `setFixup32` have written every
pointer with `next` 0 and `ChainedInfoAtom::encode` the first offset of every
page; here each fixup of a page is linked to the following one.  The five bits of
a 32-bit pointer do not always reach: then non-pointers between the two are put
into the chain with a bias that tells them from pointers, or the chain ends and
the page has another start, in the overflow area behind the table of starts.

The other half is the reader: `page_start` as otool's `get_dyld_chained_fixups`
takes it apart, and the step from one pointer of a chain to the next.

A segment is a memory of bits from its first byte on.  The table of starts is
addressed by its 16-bit entries; the area it may use is what the assertion about
`maxOverFlowCount` allows.
-/
import Cctools.Theory.BitMemory
import Mathlib.Data.List.Basic
import Mathlib.Algebra.GroupWithZero.Nat

namespace Cctools.OutputFile

set_option autoImplicit false

open Cctools.Theory.BitMemory

/-! ## Formats and pages -/

/-- The formats `chainedPointerFormat` chooses from. -/
inductive PointerFormat where
  | arm64e
  | arm64eKernel
  | arm64eUserland
  | arm64eUserland24
  | arm64eFirmware
  | ptr64
  | ptr64Offset
  | ptr32
  | ptr32Firmware
  deriving DecidableEq, Repr

namespace PointerFormat

/-- The first bit of `next` in a pointer. -/
def nextStart : PointerFormat → Nat
  | .ptr32 | .ptr32Firmware => 26
  | _ => 51

def nextWidth : PointerFormat → Nat
  | .ptr32 => 5
  | .ptr32Firmware => 6
  | .ptr64 | .ptr64Offset => 12
  | _ => 11

def stride : PointerFormat → Nat
  | .arm64e | .arm64eUserland | .arm64eUserland24 => 8
  | _ => 4

end PointerFormat

/-- The fixups of a page, as `buildChainedFixupInfo` leaves them: sorted, and aligned, since an
unaligned pointer ends the link. -/
structure FixupPage (pointerFormat : PointerFormat) (pageSize : Nat) where
  fixupOffsets : List Nat
  sorted : fixupOffsets.Pairwise (· < ·)
  aligned : ∀ offset ∈ fixupOffsets, pointerFormat.stride ∣ offset
  inside : ∀ offset ∈ fixupOffsets, offset < pageSize

structure FixupSegment where
  pointerFormat : PointerFormat
  pageSize : Nat
  pages : List (FixupPage pointerFormat pageSize)
  whole : 4 ∣ pageSize

structure ChainOptions where
  sharedRegionEligible : Bool
  stealPointersFixupChains : Bool
  maxRebase : Nat
  deriving DecidableEq, Repr

/-! ## Stealing non-pointers -/

section Hops

variable (between : Bits → Nat → Option Nat)

/-- The first loop over the farthest locations: whether they lead to the zone from which `next`
reaches.  `between` counts the words that a hop leaps over. -/
def hopsReach (bits : Bits) (endZone p : Nat) : Bool :=
  if endZone ≤ p then true
  else
    match between bits p with
    | none => false
    | some k => hopsReach bits endZone (p + 4 * (k + 1))
termination_by endZone - p
decreasing_by omega

/-- The second loop and what follows it: every location up to the zone becomes a link. -/
def hopsWith (coopt : Bits → Nat → Nat → Except String Bits) (bits : Bits)
    (endZone finalLoc curLoc : Nat) : Except String Bits :=
  if curLoc < endZone then
    match between bits curLoc with
    | none => .error "null pointer"
    | some k =>
      (coopt bits curLoc (k + 1)).bind fun bits =>
        hopsWith coopt bits endZone finalLoc (curLoc + 4 * (k + 1))
  else coopt bits curLoc ((finalLoc - curLoc) / 4)
termination_by endZone - curLoc
decreasing_by omega

end Hops

/-- How far a non-pointer may be from 0 to be told from a pointer. -/
def ChainOptions.range (options : ChainOptions) : Nat := (2 ^ 26 - options.maxRebase) / 2

def ChainOptions.bias (options : ChainOptions) : Nat := (2 ^ 26 + options.maxRebase) / 2

section Steal

variable (options : ChainOptions)

def chainable (value : BitVec 32) : Bool :=
  value.toInt < options.range && -(options.range : Int) < value.toInt

/-- `farthestChainableLocation`, at most 31 words away, as the number of words before it. -/
def wordsBetween (bits : Bits) (start : Nat) : Option Nat :=
  (List.range 31).reverse.find? fun k => chainable options (get bits (8 * (start + 4 * (k + 1))) 32)

def chainPossible (bits : Bits) (endZone p : Nat) : Bool :=
  hopsReach (wordsBetween options) bits endZone p

/-- A non-pointer as a link of the chain. -/
def coopt (bits : Bits) (loc steps : Nat) : Except String Bits :=
  let value := get bits (8 * loc) 32
  let bits := set bits (8 * loc + 31) (0 : BitVec 1)
  let bits := set bits (8 * loc + 26) (BitVec.ofNat 5 steps)
  let bits := set bits (8 * loc) ((value + BitVec.ofNat 32 options.bias).setWidth 26)
  if (get bits (8 * loc + 26) 5).toNat = steps then .ok bits
  else .error "assertion failed: prevLoc->next == steps"

/-- The chain from one pointer to the next, with the links between them. -/
def steal (bits : Bits) (prevLoc finalLoc : Nat) : Except String Bits :=
  match wordsBetween options bits prevLoc with
  | none => .error "null pointer"
  | some k =>
    hopsWith (wordsBetween options) (coopt options)
      (set bits (8 * prevLoc + 26) (BitVec.ofNat 5 (k + 1))) (finalLoc - 124) finalLoc
      (prevLoc + 4 * (k + 1))

end Steal

/-! ## Linking -/

section Link

variable (options : ChainOptions)

/-- `next` of a 64-bit pointer. -/
def linkNext (format : PointerFormat) (bits : Bits) (prevLoc loc : Nat) : Except String Bits :=
  let delta := loc - prevLoc
  let bits := set bits (8 * prevLoc + format.nextStart)
    (BitVec.ofNat format.nextWidth (delta / format.stride))
  if (get bits (8 * prevLoc + format.nextStart) format.nextWidth).toNat * format.stride = delta then
    .ok bits
  else .error "assertion failed: next out of range"

/-- Links a 32-bit pointer; `some` is the start of a new chain. -/
def chain32bitPointers (bits : Bits) (pageBufferStart prevOffset offset : Nat) :
    Except String (Bits × Option Nat) :=
  let prevLoc := pageBufferStart + prevOffset
  let finalLoc := pageBufferStart + offset
  if finalLoc - prevLoc < 127 then
    .ok (set bits (8 * prevLoc + 26) (BitVec.ofNat 5 ((finalLoc - prevLoc) / 4)), none)
  else if options.stealPointersFixupChains then
    if 2 ^ 26 ≤ options.maxRebase then
      .error "assertion failed: _chainedFixupBinds.maxRebase() < maxTargetOffset"
    else if chainPossible options bits (finalLoc - 124) prevLoc then
      (steal options bits prevLoc finalLoc).map fun bits => (bits, none)
    else .ok (bits, some offset)
  else .ok (bits, some offset)

def linkPair (format : PointerFormat) (bits : Bits) (pageBufferStart prevOffset offset : Nat) :
    Except String (Bits × Option Nat) :=
  match format with
  | .ptr32 => chain32bitPointers options bits pageBufferStart prevOffset offset
  | .ptr32Firmware => .error "assertion failed: unknown pointer format"
  | _ => (linkNext format bits (pageBufferStart + prevOffset) (pageBufferStart + offset)).map
      fun bits => (bits, none)

/-- The fixups of a page, with its `chainOverflows`. -/
def linkPage (format : PointerFormat) (pageBufferStart : Nat) :
    Bits → List Nat → Except String (Bits × List Nat)
  | bits, first :: second :: rest =>
    (linkPair options format bits pageBufferStart first second).bind fun linked =>
      (linkPage format pageBufferStart linked.1 (second :: rest)).map fun others =>
        (others.1, linked.2.toList ++ others.2)
  | bits, _ => .ok (bits, [])

end Link

/-! ## The table of starts -/

abbrev StartsTable := Nat → BitVec 16

def ptrStartNone : BitVec 16 := 0xFFFF
def ptrStartMulti : BitVec 16 := 0x8000
def ptrStartLast : BitVec 16 := 0x8000

def FixupSegment.pageStart (segment : FixupSegment) : StartsTable := fun i =>
  match segment.pages[i]? with
  | none => 0
  | some page =>
    match page.fixupOffsets with
    | [] => ptrStartNone
    | first :: _ => BitVec.ofNat 16 first

def ChainOptions.startBytesPerPage (options : ChainOptions) : PointerFormat → Nat
  | .ptr32 =>
    if options.sharedRegionEligible then 256
    else if options.stealPointersFixupChains then 40
    else 256
  | _ => 2

/-- Entries behind the table, from the `size` and the 16-bit `page_count` that were written. -/
def maxOverFlowCount (options : ChainOptions) (segment : FixupSegment) : Nat :=
  let size := (22 + segment.pages.length * options.startBytesPerPage segment.pointerFormat) % 2 ^ 32
  let pageCount := segment.pages.length % 2 ^ 16
  (size + 2 ^ 64 - (22 + 2 * pageCount)) % 2 ^ 64 / 2 % 2 ^ 32

/-- The loop over the `chainOverflows` of a page, `back` the last of them; the first of them moves
the start that is already in the table. -/
def recordOverflows (pageIndex back : Nat) : StartsTable → Nat → List Nat → StartsTable × Nat
  | pageStart, slot, [] => (pageStart, slot)
  | pageStart, slot, extraStart :: rest =>
    let moved :=
      if pageStart pageIndex &&& ptrStartMulti = 0 then
        (Function.update (Function.update pageStart pageIndex (ptrStartMulti ||| BitVec.ofNat 16 slot))
          slot (pageStart pageIndex), slot + 1)
      else (pageStart, slot)
    let entry := if extraStart = back then BitVec.ofNat 16 extraStart ||| ptrStartLast
      else BitVec.ofNat 16 extraStart
    recordOverflows pageIndex back (Function.update moved.1 moved.2 entry) (moved.2 + 1) rest

structure LinkState where
  bits : Bits
  pageStart : StartsTable
  nextOverflowSlot : Nat

section Segment

variable (options : ChainOptions) (segment : FixupSegment)

def recordPage (state : LinkState) (pageIndex : Nat) (linked : Bits × List Nat) :
    Except String LinkState :=
  match linked.2.getLast? with
  | none => .ok { state with bits := linked.1 }
  | some back =>
    let recorded := recordOverflows pageIndex back state.pageStart state.nextOverflowSlot linked.2
    if recorded.2 ≤ maxOverFlowCount options segment then .ok ⟨linked.1, recorded.1, recorded.2⟩
    else .error "assertion failed: nextOverflowSlot <= maxOverFlowCount"

def linkPages : LinkState → Nat → List (FixupPage segment.pointerFormat segment.pageSize) →
    Except String LinkState
  | state, _, [] => .ok state
  | state, pageIndex, page :: rest =>
    (linkPage options segment.pointerFormat (pageIndex * segment.pageSize) state.bits
        page.fixupOffsets).bind fun linked =>
      (recordPage options segment state pageIndex linked).bind fun state =>
        linkPages state (pageIndex + 1) rest

/-- The chains of a segment, from its content and the starts that `encode` wrote. -/
def linkSegment (bits : Bits) : Except String LinkState :=
  linkPages options segment ⟨bits, segment.pageStart, segment.pages.length⟩ 0 segment.pages

end Segment

/-! ## Reading -/

/-- The loop over the overflow area; `none` when no entry so far was the last. -/
def overflowStarts (pageStart : StartsTable) : Nat → Nat → Option (List Nat)
  | 0, _ => none
  | fuel + 1, overflowIndex =>
    let start := pageStart overflowIndex
    if start &&& ptrStartLast ≠ 0 then some [(start &&& ~~~ptrStartLast).toNat]
    else (overflowStarts pageStart fuel (overflowIndex + 1)).map
      ((start &&& ~~~ptrStartLast).toNat :: ·)

/-- The starts of the chains of a page. -/
def pageStarts (pageStart : StartsTable) (fuel pageIndex : Nat) : Option (List Nat) :=
  let offsetInPage := pageStart pageIndex
  if offsetInPage = ptrStartNone then some []
  else if offsetInPage &&& ptrStartMulti ≠ 0 then
    overflowStarts pageStart fuel (offsetInPage &&& ~~~ptrStartMulti).toNat
  else some [offsetInPage.toNat]

/-- Where a pointer of a chain leads. -/
def PointerFormat.next (format : PointerFormat) (bits : Bits) (loc : Nat) : Option Nat :=
  let next := get bits (8 * loc + format.nextStart) format.nextWidth
  if next = 0 then none else some (loc + next.toNat * format.stride)

/-- A word of a 32-bit chain that is not a pointer, and what it stands for: the rule that
`fixup-chains.h` gives for `max_valid_pointer`. -/
def nonPointer (maxValidPointer : BitVec 32) (bits : Bits) (loc : Nat) : Option (BitVec 32) :=
  let target := get bits (8 * loc) 26
  if get bits (8 * loc + 31) 1 = 0 ∧ maxValidPointer.toNat < target.toNat then
    some (target.setWidth 32 - BitVec.ofNat 32 ((2 ^ 26 + maxValidPointer.toNat) / 2))
  else none

end Cctools.OutputFile
