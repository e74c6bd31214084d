/-
# Cctools.LinkEdit.ThreadedPointers -- the word of a threaded pointer

The packing of `applyBind` in `OutputFile::writeAtoms`: a rebase keeps its target,
a bind its ordinal, either may carry the discriminator, address diversity and key
of an authenticated pointer, and bits 51 to 61 say how far away the next pointer
of the chain is.

`threadedWalk_pointer` is the round trip through the walker of
`get_dyld_bind_info`.  The walker lists binds: of a rebase it takes the kind and
the delta and goes on, so nothing else of a rebase is decoded.
-/
import Cctools.LinkEdit.Threaded
import Cctools.Otool.DyldBindInfo
import Cctools.Theory.BitField

namespace Cctools.LinkEdit

set_option autoImplicit false

open Cctools.Theory
open Cctools.Otool

/-! ## Packing -/

inductive PtrauthKey where
  | asia
  | asib
  | asda
  | asdb
  deriving DecidableEq, Repr

def PtrauthKey.code : PtrauthKey → BitVec 2
  | .asia => 0
  | .asib => 1
  | .asda => 2
  | .asdb => 3

structure AuthData where
  discriminator : BitVec 16
  hasAddressDiversity : Bool
  key : PtrauthKey
  deriving DecidableEq, Repr

/-- `accumulator |= …`, field by field. -/
def AuthData.pack (authData : AuthData) (accumulator : BitVec 64) : BitVec 64 :=
  accumulator ||| authData.discriminator.setWidth 64 <<< 32 |||
    (BitVec.ofBool authData.hasAddressDiversity).setWidth 64 <<< 48 |||
    authData.key.code.setWidth 64 <<< 49 ||| (1 : BitVec 64) <<< 63

/-- The low 32 bits of an authenticated pointer are its target; the assertion checks that
the rest is clear. -/
def AuthData.accumulate (authData : AuthData) (accumulator : BitVec 64) :
    Except String (BitVec 64) :=
  if accumulator &&& 0xFFFFFFFF00000000 ≠ 0 then
    .error "assertion failed: (accumulator & 0xFFFFFFFF00000000ULL) == 0"
  else .ok (authData.pack accumulator)

/-- The entry of `_authenticatedFixupData` for a location, with its target. -/
abbrev AuthFixup := Option (AuthData × BitVec 64)

/-- A rebase: `value` is what the location holds. -/
def packRebase (baseAddress : BitVec 64) (auth : AuthFixup) (value : BitVec 64) :
    Except String (BitVec 64) :=
  match auth with
  | some (authData, target) =>
    if value ≠ 0 then .error "assertion failed: value == 0"
    else if target < baseAddress then .error "assertion failed: accumulator >= baseAddress"
    else authData.accumulate (target - baseAddress)
  | none =>
    let top8Bits := value &&& 0xFF00000000000000
    let bottom43Bits := value &&& 0x000007FFFFFFFFFF
    if value &&& ~~~0xFF0003FFFFFFFFFF ≠ 0 ∧
        value &&& ~~~0xFF0003FFFFFFFFFF ≠ ~~~0xFF0003FFFFFFFFFF then
      .error "assertion failed: sign-extended bottom 43-bits"
    else .ok (top8Bits >>> 13 ||| bottom43Bits)

def weakLookup : BitVec 32 := -3

/-- What a bind keeps of the location: nothing, or what authenticates it. -/
def bindContent (bind : BindingInfo) (auth : AuthFixup) (value : BitVec 64) :
    Except String (BitVec 64) :=
  match auth with
  | some (authData, target) =>
    if value ≠ 0 then .error "assertion failed: value == 0"
    else authData.accumulate (if bind.libraryOrdinal = weakLookup then 0 else target)
  | none => .ok 0

/-- A bind: the ordinal in bits 0 to 15, and bit 62 set. -/
def packBind (bind : BindingInfo) (threadedBindOrdinal : BitVec 16) (auth : AuthFixup)
    (value : BitVec 64) : Except String (BitVec 64) :=
  (bindContent bind auth value).map fun value =>
    value &&& (0xFFFFFFFFFFFF0000 : BitVec 64) ||| threadedBindOrdinal.setWidth 64 |||
      (1 : BitVec 64) <<< 62

/-- The word `applyBind` writes, `delta` in units of 8 bytes. -/
def packPointer (baseAddress : BitVec 64) (fixup : ThreadedFixup) (auth : AuthFixup)
    (value delta : BitVec 64) : Except String (BitVec 64) :=
  (match fixup with
    | .rebase _ => packRebase baseAddress auth value
    | .bind bind ordinal => packBind bind ordinal auth value).map (· ||| delta <<< 51)

def ThreadedFixup.isBind : ThreadedFixup → Bool
  | .rebase _ => false
  | .bind _ _ => true

/-! ## As fields -/

section Fields

open BitField

/-- Bits that no kind of pointer uses for itself are clear in it. -/
structure Packed (value : BitVec 64) (bind : Bool) (auth : AuthFixup) : Prop where
  delta : value.extractLsb' 51 11 = 0#11
  kind : value.extractLsb' 62 1 = BitVec.ofBool bind
  flag : value.extractLsb' 63 1 = BitVec.ofBool auth.isSome
  discriminator : ∀ entry ∈ auth, value.extractLsb' 32 16 = entry.1.discriminator
  diversity : ∀ entry ∈ auth, value.extractLsb' 48 1 = BitVec.ofBool entry.1.hasAddressDiversity
  key : ∀ entry ∈ auth, value.extractLsb' 49 2 = entry.1.key.code

theorem low_eq_put {x : BitVec 64} (clear : x &&& 0xFFFFFFFF00000000 = 0) :
    x = put 64 0 (x.extractLsb' 0 32) := by
  apply eq_put
  intro i inside outside
  have bit := congrArg (fun y => y.getLsbD i) clear
  have mask : (0xFFFFFFFF00000000 : BitVec 64) = put 64 32 (BitVec.allOnes 32) := by decide
  simp only [mask, BitVec.getLsbD_and, getLsbD_put, BitVec.getLsbD_allOnes] at bit
  simpa [inside, show 32 ≤ i by omega, show i - 32 < 32 by omega] using bit

theorem AuthData.pack_eq (authData : AuthData) (accumulator : BitVec 64) :
    authData.pack accumulator = accumulator ||| put 64 32 authData.discriminator |||
      put 64 48 (BitVec.ofBool authData.hasAddressDiversity) ||| put 64 49 authData.key.code |||
      put 64 63 (1 : BitVec 1) := by
  rfl

/-- The fields of an authenticated pointer, before the kind and the delta. -/
theorem AuthData.accumulate_packed {authData : AuthData} {target accumulator value : BitVec 64}
    (packs : authData.accumulate accumulator = .ok value) :
    Packed value false (some (authData, target)) := by
  unfold AuthData.accumulate at packs
  split at packs
  · cases packs
  · rename_i clear
    cases packs
    rw [AuthData.pack_eq, low_eq_put (not_not.1 clear)]
    constructor
    · simp (disch := omega) only [BitVec.extractLsb'_or, extract_put_above, extract_put_below,
        BitVec.or_zero]
    · simp (disch := omega) only [BitVec.extractLsb'_or, extract_put_above, extract_put_below,
        BitVec.or_zero]
      rfl
    · simp (disch := omega) only [BitVec.extractLsb'_or, extract_put, extract_put_above,
        BitVec.zero_or]
      rfl
    · rintro entry ⟨⟩
      simp (disch := omega) only [BitVec.extractLsb'_or, extract_put, extract_put_above,
        extract_put_below, BitVec.or_zero, BitVec.zero_or]
    · rintro entry ⟨⟩
      simp (disch := omega) only [BitVec.extractLsb'_or, extract_put, extract_put_above,
        extract_put_below, BitVec.or_zero, BitVec.zero_or]
    · rintro entry ⟨⟩
      simp (disch := omega) only [BitVec.extractLsb'_or, extract_put, extract_put_above,
        extract_put_below, BitVec.or_zero, BitVec.zero_or]

variable {auth : AuthFixup}

/-- A pointer that is not authenticated keeps its top byte in bits 43 to 50. -/
theorem packRebase_packed {baseAddress value packed : BitVec 64}
    (packs : packRebase baseAddress auth value = .ok packed) : Packed packed false auth := by
  unfold packRebase at packs
  split at packs
  · split at packs
    · cases packs
    · split at packs
      · cases packs
      · exact AuthData.accumulate_packed packs
  · split at packs
    · cases packs
    · cases packs
      have top : value &&& 0xFF00000000000000 = put 64 56 (value.extractLsb' 56 8) := by
        rw [← and_mask]
        rfl
      have bottom : value &&& 0x000007FFFFFFFFFF = put 64 0 (value.extractLsb' 0 43) := by
        rw [← and_mask]
        rfl
      have moved : put 64 56 (value.extractLsb' 56 8) >>> 13 = put 64 43 (value.extractLsb' 56 8) :=
        put_shiftRight _ (by omega) (by omega)
      simp only [top, bottom, moved]
      constructor
      · simp (disch := omega) only [BitVec.extractLsb'_or, extract_put_above, BitVec.or_zero]
      · simp (disch := omega) only [BitVec.extractLsb'_or, extract_put_above, BitVec.or_zero]
        rfl
      · simp (disch := omega) only [BitVec.extractLsb'_or, extract_put_above, BitVec.or_zero]
        rfl
      all_goals simp

/-- The ordinal replaces the low 16 bits, and bit 62 says that it is one. -/
theorem packBind_packed {bind : BindingInfo} {ordinal : BitVec 16}
    {value packed : BitVec 64} (packs : packBind bind ordinal auth value = .ok packed) :
    Packed packed true auth ∧ packed.extractLsb' 0 16 = ordinal := by
  obtain ⟨plain, made, rfl⟩ := ok_of_map packs
  have fields : Packed plain false auth := by
    unfold bindContent at made
    split at made
    · split at made
      · cases made
      · exact AuthData.accumulate_packed made
    · cases made
      constructor <;> first | rfl | simp
  have high : plain &&& (0xFFFFFFFFFFFF0000 : BitVec 64) = put 64 16 (plain.extractLsb' 16 48) := by
    rw [← and_mask]
    rfl
  have word : plain &&& (0xFFFFFFFFFFFF0000 : BitVec 64) ||| ordinal.setWidth 64 |||
      (1 : BitVec 64) <<< 62 =
      put 64 16 (plain.extractLsb' 16 48) ||| put 64 0 ordinal ||| put 64 62 (1 : BitVec 1) := by
    rw [high, put_zero]
    rfl
  have kept : ∀ lo m, 16 ≤ lo → lo + m ≤ 64 →
      (put 64 16 (plain.extractLsb' 16 48)).extractLsb' lo m = plain.extractLsb' lo m := by
    intro lo m above fits
    rw [extract_put_inside _ above fits, extract_extract _ (by omega), Nat.add_sub_of_le above]
  rw [word]
  refine ⟨⟨?_, ?_, ?_, ?_, ?_, ?_⟩, ?_⟩
  · simp (disch := omega) only [BitVec.extractLsb'_or, kept, extract_put_above, extract_put_below,
      BitVec.or_zero, fields.delta]
  · simp (disch := omega) only [BitVec.extractLsb'_or, kept, extract_put_above, extract_put,
      BitVec.or_zero, fields.kind]
    rfl
  · simp (disch := omega) only [BitVec.extractLsb'_or, kept, extract_put_above, BitVec.or_zero,
      fields.flag]
  · intro entry member
    simp (disch := omega) only [BitVec.extractLsb'_or, kept, extract_put_above, extract_put_below,
      BitVec.or_zero, fields.discriminator entry member]
  · intro entry member
    simp (disch := omega) only [BitVec.extractLsb'_or, kept, extract_put_above, extract_put_below,
      BitVec.or_zero, fields.diversity entry member]
  · intro entry member
    simp (disch := omega) only [BitVec.extractLsb'_or, kept, extract_put_above, extract_put_below,
      BitVec.or_zero, fields.key entry member]
  · simp (disch := omega) only [BitVec.extractLsb'_or, extract_put, extract_put_below,
      BitVec.or_zero, BitVec.zero_or]

theorem packPointer_packed {baseAddress value delta word : BitVec 64} {fixup : ThreadedFixup}
    (small : delta.toNat < 2048)
    (packs : packPointer baseAddress fixup auth value delta = .ok word) :
    ∃ packed, Packed packed fixup.isBind auth ∧ word = packed ||| put 64 51 (delta.setWidth 11) ∧
      ∀ bind ordinal, fixup = .bind bind ordinal → word.extractLsb' 0 16 = ordinal := by
  obtain ⟨packed, made, rfl⟩ := ok_of_map packs
  have whole : delta <<< 51 = put 64 51 (delta.setWidth 11) := by
    have back : (delta.setWidth 11).setWidth 64 = delta := by
      apply BitVec.eq_of_toNat_eq
      simp only [BitVec.toNat_setWidth]
      omega
    rw [put, back]
  refine ⟨packed, ?_, by rw [whole], ?_⟩
  · cases fixup with
    | rebase info => exact packRebase_packed made
    | bind bind ordinal => exact (packBind_packed made).1
  · rintro bind ordinal rfl
    rw [whole, BitVec.extractLsb'_or, extract_put_below _ (by omega), BitVec.or_zero,
      (packBind_packed made).2]

/-! ## Unpacking -/

theorem threadedDelta_eq (value : BitVec 64) :
    threadedDelta value = (value.extractLsb' 51 11).setWidth 64 := by
  have mask : (0x3FF8000000000000 : BitVec 64) = put 64 51 (BitVec.allOnes 11) := by decide
  rw [threadedDelta, mask, and_mask, put_shiftRight _ le_rfl (by omega), Nat.sub_self, put_zero]

theorem bit_eq_zero_iff (value : BitVec 64) {position : Nat} (inside : position + 1 ≤ 64) :
    value &&& put 64 position (BitVec.allOnes 1) = 0 ↔ value.extractLsb' position 1 = 0 := by
  rw [and_mask, put_eq_zero_iff _ inside]

theorem isRebase_eq (value : BitVec 64) {bind : Bool}
    (kind : value.extractLsb' 62 1 = BitVec.ofBool bind) : isRebase value = !bind := by
  have mask : (0x4000000000000000 : BitVec 64) = put 64 62 (BitVec.allOnes 1) := by decide
  simp only [isRebase, mask, bit_eq_zero_iff value (show 62 + 1 ≤ 64 by omega), kind]
  cases bind <;> decide

theorem hasAuth_iff (value : BitVec 64) {flag : Bool} (auth : value.extractLsb' 63 1 = BitVec.ofBool flag) :
    value &&& 0x8000000000000000 ≠ 0 ↔ flag = true := by
  have mask : (0x8000000000000000 : BitVec 64) = put 64 63 (BitVec.allOnes 1) := by decide
  rw [ne_eq, mask, bit_eq_zero_iff value (show 63 + 1 ≤ 64 by omega), auth]
  cases flag <;> decide

theorem addrDiv_iff (value : BitVec 64) {flag : Bool}
    (diversity : value.extractLsb' 48 1 = BitVec.ofBool flag) :
    (value >>> 48) &&& 1 ≠ 0 ↔ flag = true := by
  have mask : (1 : BitVec 64) = put 64 0 (BitVec.allOnes 1) := by decide
  have moved : (value >>> 48).extractLsb' 0 1 = value.extractLsb' 48 1 := by
    rw [← BitVec.setWidth_eq_extractLsb' (by omega), BitVec.setWidth_ushiftRight_eq_extractLsb]
  rw [ne_eq, mask, bit_eq_zero_iff _ (show 0 + 1 ≤ 64 by omega), moved, diversity]
  cases flag <;> decide

theorem authKey_eq (value : BitVec 64) {key : PtrauthKey} (code : value.extractLsb' 49 2 = key.code) :
    (value >>> 49) &&& 2 = (key.code &&& 2).setWidth 64 := by
  have mask : (2 : BitVec 64) = put 64 1 (BitVec.allOnes 1) := by decide
  have moved : (value >>> 49).extractLsb' 1 1 = key.code.extractLsb' 1 1 := by
    have low : (value >>> 49).extractLsb' 0 2 = value.extractLsb' 49 2 := by
      rw [← BitVec.setWidth_eq_extractLsb' (by omega), BitVec.setWidth_ushiftRight_eq_extractLsb]
    rw [← code, ← low, extract_extract _ (by omega)]
  rw [mask, and_mask, moved]
  cases key <;> decide

end Fields

/-! ## The walker -/

/-- The bind that the walker lists carries what was packed; of the key, the even ones. -/
structure Authenticates (auth : AuthFixup) (info : DyldBindInfo) : Prop where
  flag : info.hasAuth = auth.isSome
  discriminator : ∀ entry ∈ auth, info.authDiversity = entry.1.discriminator
  diversity : ∀ entry ∈ auth, info.authAddrDiv = entry.1.hasAddressDiversity
  key : ∀ entry ∈ auth, entry.1.key = .asia ∨ entry.1.key = .asda →
    info.authKey = UInt8.ofNat entry.1.key.code.toNat

section Walker

open BitField

variable {baseAddress value delta word : BitVec 64} {fixup : ThreadedFixup} {auth : AuthFixup}

theorem packPointer_decodes (small : delta.toNat < 2048)
    (packs : packPointer baseAddress fixup auth value delta = .ok word) :
    threadedDelta word = delta ∧ isRebase word = !fixup.isBind ∧
      ∀ bind ordinal, fixup = .bind bind ordinal → threadedOrdinal word = ordinal := by
  obtain ⟨packed, fields, shape, ordinal⟩ := packPointer_packed small packs
  refine ⟨?_, ?_, ?_⟩
  · rw [threadedDelta_eq, shape, BitVec.extractLsb'_or, fields.delta, extract_put _ (by omega)]
    apply BitVec.eq_of_toNat_eq
    simp only [BitVec.zero_or, BitVec.toNat_setWidth]
    omega
  · apply isRebase_eq
    rw [shape, BitVec.extractLsb'_or, extract_put_above _ (by omega), BitVec.or_zero, fields.kind]
  · intro bind own same
    rw [← ordinal bind own same, threadedOrdinal, BitVec.setWidth_eq_extractLsb' (by omega)]

theorem threadedRecord_authenticates (small : delta.toNat < 2048)
    (packs : packPointer baseAddress fixup auth value delta = .ok word) (locals : Locals)
    (data : ThreadedBindData) : Authenticates auth (threadedRecord locals word data) := by
  obtain ⟨packed, fields, shape, -⟩ := packPointer_packed small packs
  have flag : word.extractLsb' 63 1 = BitVec.ofBool auth.isSome := by
    rw [shape, BitVec.extractLsb'_or, extract_put_above _ (by omega), BitVec.or_zero, fields.flag]
  have below : ∀ lo m, lo + m ≤ 51 → word.extractLsb' lo m = packed.extractLsb' lo m := by
    intro lo m under
    rw [shape, BitVec.extractLsb'_or, extract_put_below _ under, BitVec.or_zero]
  have has := hasAuth_iff word flag
  constructor
  · simp only [threadedRecord, has]
    cases auth <;> rfl
  · intro entry member
    have set : word &&& 0x8000000000000000 ≠ 0 := has.2 (by rw [member]; rfl)
    simp only [threadedRecord, if_pos set, BitVec.setWidth_ushiftRight_eq_extractLsb]
    rw [below 32 16 (by omega), fields.discriminator entry member]
  · intro entry member
    have set : word &&& 0x8000000000000000 ≠ 0 := has.2 (by rw [member]; rfl)
    have div := addrDiv_iff word ((below 48 1 (by omega)).trans (fields.diversity entry member))
    have decided : decide ((word >>> 48) &&& 1 ≠ 0) = entry.1.hasAddressDiversity := by
      rw [Bool.eq_iff_iff, decide_eq_true_iff]
      exact div
    simp only [threadedRecord, decide_eq_true set, decided, Bool.true_and]
  · intro entry member even
    have set : word &&& 0x8000000000000000 ≠ 0 := has.2 (by rw [member]; rfl)
    have key := authKey_eq word ((below 49 2 (by omega)).trans (fields.key entry member))
    simp only [threadedRecord, if_pos set, key]
    rcases even with same | same <;> rw [same] <;> decide

theorem threadedWalk_first (env : Env) (seg : SegmentCommand) (pageStart : BitVec 64) (fuel : Nat)
    (locals : Locals) : (threadedWalk env seg pageStart (fuel + 1) locals).2.2.head? =
      some (seg.vmaddr + locals.segOffset, env.object (seg.fileoff + locals.segOffset)) := by
  simp only [threadedWalk]
  repeat' split
  all_goals rfl

/-- A bind whose ordinal names a good entry of the table is the first one listed. -/
theorem threadedWalk_bind {env : Env} {seg : SegmentCommand} {pageStart : BitVec 64} {fuel : Nat}
    {locals : Locals} {data : ThreadedBindData}
    (bound : isRebase (env.object (seg.fileoff + locals.segOffset)) = false)
    (counted : (threadedOrdinal (env.object (seg.fileoff + locals.segOffset))).setWidth 64 <
      locals.ordinalTableCount)
    (entry : locals.ordinalTable[(threadedOrdinal
      (env.object (seg.fileoff + locals.segOffset))).toNat]? = some data)
    (valid : validateOrdinal env data.libraryOrdinal = none) :
    (threadedWalk env seg pageStart (fuel + 1) locals).2.1.head? =
      some (threadedRecord locals (env.object (seg.fileoff + locals.segOffset)) data) := by
  have index : ((threadedOrdinal (env.object (seg.fileoff + locals.segOffset))).setWidth
      64).toNat = (threadedOrdinal (env.object (seg.fileoff + locals.segOffset))).toNat := by
    rw [BitVec.toNat_setWidth]
    omega
  simp only [threadedWalk, bound, if_neg (BitVec.not_le.2 counted), index, entry, valid,
    Bool.false_eq_true, if_false, Option.isSome_none]
  repeat' split
  all_goals rfl

/-- **A threaded pointer through the walker**: whatever ld packs, the walker takes the same
delta and the same kind, and lists a bind with the same ordinal and authentication.  The
writer ends a chain rather than store a delta of 2048 or more. -/
theorem threadedWalk_pointer {env : Env} {seg : SegmentCommand} {pageStart : BitVec 64} {fuel : Nat}
    {locals : Locals} (small : delta.toNat < 2048)
    (packs : packPointer baseAddress fixup auth value delta = .ok word)
    (here : env.object (seg.fileoff + locals.segOffset) = word) :
    threadedDelta word = delta ∧ isRebase word = !fixup.isBind ∧
      (threadedWalk env seg pageStart (fuel + 1) locals).2.2.head? =
        some (seg.vmaddr + locals.segOffset, word) ∧
      ∀ bind ordinal, fixup = .bind bind ordinal → threadedOrdinal word = ordinal ∧
        ∀ data, ordinal.setWidth 64 < locals.ordinalTableCount →
          locals.ordinalTable[ordinal.toNat]? = some data →
          validateOrdinal env data.libraryOrdinal = none →
          ∃ info, (threadedWalk env seg pageStart (fuel + 1) locals).2.1.head? = some info ∧
            info.address = locals.segStartAddr + locals.segOffset ∧
            info.symbolName = data.symbolName ∧ info.libOrdinal = data.libraryOrdinal ∧
            Authenticates auth info := by
  obtain ⟨next, kind, ordinals⟩ := packPointer_decodes small packs
  refine ⟨next, kind, ?_, ?_⟩
  · rw [threadedWalk_first, here]
  · rintro bind ordinal rfl
    refine ⟨ordinals bind ordinal rfl, ?_⟩
    intro data counted entry valid
    have listed := @threadedWalk_bind env seg pageStart fuel locals data (by rw [here, kind]; rfl)
      (by rw [here, ordinals bind ordinal rfl]; exact counted)
      (by rw [here, ordinals bind ordinal rfl]; exact entry) valid
    rw [here] at listed
    exact ⟨_, listed, rfl, rfl, rfl, threadedRecord_authenticates small packs locals data⟩

end Walker

/-! ## One pointer -/

/-- A page of an image with one threaded pointer in it. -/
def onePointer (word : BitVec 64) : Env :=
  { ptr := .p8, segs := [⟨0x4000, 0x4000, 0⟩], ndylibs := 1, object := fun _ => word,
    objectSize := 0x4000 }

/-- A table of one entry, at the start of the segment. -/
def oneEntry : Locals :=
  { segIndex := some 0, segStartAddr := 0x4000, ordinalTableIndex := 1, ordinalTableCount := 1,
    ordinalTable := [⟨some ⟨[0x61], CString.nulFree_a⟩, 0, 1, 0, 1⟩] }

def authBind : ThreadedFixup :=
  .bind ⟨.pointer, .none, 1, ⟨[0x61], CString.nulFree_a⟩, 0x4000, 0⟩ 0

theorem threadedWalk_pointer_asda :
    ∃ word, packPointer 0 authBind (some (⟨0x1234, true, .asda⟩, 0)) 0 5 = .ok word ∧
      threadedDelta word = 5 ∧ isRebase word = false ∧
      ∃ info, (threadedWalk (onePointer word) ⟨0x4000, 0x4000, 0⟩ 0x4000 1 oneEntry).2.1.head? =
          some info ∧ Authenticates (some (⟨0x1234, true, .asda⟩, 0)) info := by
  obtain ⟨word, packs⟩ : ∃ word, packPointer 0 authBind (some (⟨0x1234, true, .asda⟩, 0)) 0 5 =
      .ok word := ⟨_, rfl⟩
  obtain ⟨delta, kind, -, bind⟩ := @threadedWalk_pointer 0 0 5 word authBind _ (onePointer word)
    ⟨0x4000, 0x4000, 0⟩ 0x4000 0 oneEntry (by decide) packs rfl
  obtain ⟨-, listed⟩ := bind _ 0 rfl
  obtain ⟨info, first, -, -, -, auth⟩ := listed _ (by decide) rfl rfl
  exact ⟨word, packs, delta, kind, info, first, auth⟩

/-- The walker drops the low bit of a key, and lists no rebase at all. -/
theorem threadedWalk_forgets :
    (∃ word, packPointer 0 authBind (some (⟨0x1234, true, .asib⟩, 0)) 0 0 = .ok word ∧
      (threadedWalk (onePointer word) ⟨0x4000, 0x4000, 0⟩ 0x4000 1 oneEntry).2.1.map
        (fun info => info.authKey) = [0] ∧ PtrauthKey.asib.code = 1) ∧
    ∃ word, packPointer 0x4000 (.rebase ⟨.pointer, 0x4000⟩)
        (some (⟨0x1234, true, .asia⟩, 0x4010)) 0 0 = .ok word ∧
      (threadedWalk (onePointer word) ⟨0x4000, 0x4000, 0⟩ 0x4000 1 oneEntry).2 =
        ([], [(0x4000, word)]) := by
  refine ⟨⟨_, rfl, ?_, rfl⟩, _, rfl, ?_⟩
  · decide
  · decide

end Cctools.LinkEdit
