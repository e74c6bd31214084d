/-
# Cctools.LinkEdit.Rebase -- `RebaseInfoAtom::encodeV1`

The rebase encoder turns the sorted records into a list of `rebase_tmp`
entries, rewrites that list in four peephole passes and writes it as bytes.
The list ends where the source has its `REBASE_OPCODE_DONE` entry; the passes
never read past it, because each look-ahead is guarded by the entry before it.

The passes rewrite in place with `dst` behind `src`, so reading the old list
and building the new one is the same computation.  An inner `while` that keeps
adding to `*dst` is the `pending` argument below.
-/
import Cctools.LinkEdit.Segments
import Mathlib.Data.List.Sort

namespace Cctools.LinkEdit

set_option autoImplicit false

/-- `sizeof(pint_t)` of the output architecture. -/
inductive PointerSize where
  | p4
  | p8
  deriving DecidableEq, Repr

namespace PointerSize

def bytes : PointerSize → Nat
  | .p4 => 4
  | .p8 => 8

def word (size : PointerSize) : BitVec 64 := BitVec.ofNat 64 size.bytes

end PointerSize

/-! ## Records -/

inductive RebaseType where
  | pointer
  | textAbsolute32
  | textPcrel32
  deriving DecidableEq, Repr

def RebaseType.code : RebaseType → UInt8
  | .pointer => 1
  | .textAbsolute32 => 2
  | .textPcrel32 => 3

structure RebaseInfo where
  type : RebaseType
  address : BitVec 64
  deriving DecidableEq, Repr

/-- `operator<`: by type, then by address. -/
def RebaseInfo.lt (a b : RebaseInfo) : Bool :=
  if a.type ≠ b.type then decide (a.type.code < b.type.code) else decide (a.address < b.address)

def RebaseInfo.sort (info : List RebaseInfo) : List RebaseInfo :=
  info.insertionSort fun a b => !(b.lt a)

/-! ## The intermediate entries -/

inductive RebaseOpcode where
  | setTypeImm
  | setSegmentAndOffsetUleb
  | addAddrUleb
  | addAddrImmScaled
  | doRebaseImmTimes
  | doRebaseUlebTimes
  | doRebaseAddAddrUleb
  | doRebaseUlebTimesSkippingUleb
  deriving DecidableEq, Repr

def RebaseOpcode.code : RebaseOpcode → UInt8
  | .setTypeImm => 0x10
  | .setSegmentAndOffsetUleb => 0x20
  | .addAddrUleb => 0x30
  | .addAddrImmScaled => 0x40
  | .doRebaseImmTimes => 0x50
  | .doRebaseUlebTimes => 0x60
  | .doRebaseAddAddrUleb => 0x70
  | .doRebaseUlebTimesSkippingUleb => 0x80

structure RebaseTmp where
  opcode : RebaseOpcode
  operand1 : BitVec 64
  operand2 : BitVec 64 := 0
  deriving DecidableEq, Repr

/-- The variables the conversion loop carries from record to record; `type`
starts as 0, which is no record's type. -/
structure RebaseCursor where
  curSegStart : BitVec 64 := 0
  curSegEnd : BitVec 64 := 0
  curSegIndex : Nat := 0
  type : Option RebaseType := none
  address : BitVec 64 := -1
  deriving DecidableEq, Repr

section Encode

variable (find : BitVec 64 → Option SegmentRange) (ptr : PointerSize)

/-- The `SET_TYPE` part of one iteration. -/
def RebaseCursor.setType (cursor : RebaseCursor) (it : RebaseInfo) : RebaseCursor × List RebaseTmp :=
  if cursor.type ≠ some it.type then
    ({ cursor with type := some it.type }, [⟨.setTypeImm, it.type.code.toNat, 0⟩])
  else (cursor, [])

/-- The address part of one iteration. -/
def RebaseCursor.setAddress (cursor : RebaseCursor) (it : RebaseInfo) :
    Except String (RebaseCursor × List RebaseTmp) :=
  if cursor.address ≠ it.address then
    if it.address < cursor.curSegStart ∨ cursor.curSegEnd ≤ it.address then
      match find it.address with
      | none => .error "binding address outside range of any segment"
      | some range =>
        .ok ({ cursor with
                curSegStart := range.start
                curSegEnd := range.finish
                curSegIndex := range.index
                address := it.address },
          [⟨.setSegmentAndOffsetUleb, BitVec.ofNat 64 range.index, it.address - range.start⟩])
    else .ok ({ cursor with address := it.address }, [⟨.addAddrUleb, it.address - cursor.address, 0⟩])
  else .ok (cursor, [])

/-- `address += sizeof(pint_t); if (address >= curSegEnd) address = 0;` -/
def RebaseCursor.advance (cursor : RebaseCursor) : RebaseCursor :=
  let address := cursor.address + ptr.word
  { cursor with address := if cursor.curSegEnd ≤ address then 0 else address }

def rebaseMid : RebaseCursor → List RebaseInfo → Except String (List RebaseTmp)
  | _, [] => .ok []
  | cursor, it :: rest => do
      let typed := cursor.setType it
      let placed ← typed.1.setAddress find it
      let mid ← rebaseMid (placed.1.advance ptr) rest
      return typed.2 ++ placed.2 ++ ⟨.doRebaseUlebTimes, 1, 0⟩ :: mid

/-! ## The passes -/

/-- Phase 1, compress packed runs of pointers. -/
def rebaseCompress : Option RebaseTmp → List RebaseTmp → List RebaseTmp
  | pending, [] => pending.toList
  | pending, src :: rest =>
    let fresh :=
      if src.opcode = .doRebaseUlebTimes ∧ src.operand1 = 1 then rebaseCompress (some src) rest
      else src :: rebaseCompress none rest
    match pending with
    | some dst =>
      if src.opcode = .doRebaseUlebTimes then
        rebaseCompress (some { dst with operand1 := dst.operand1 + src.operand1 }) rest
      else dst :: fresh
    | none => fresh

/-- Phase 2, combine rebase/add pairs. -/
def rebaseCombine : List RebaseTmp → List RebaseTmp
  | src :: next :: rest =>
    if src.opcode = .doRebaseUlebTimes ∧ src.operand1 = 1 ∧ next.opcode = .addAddrUleb then
      ⟨.doRebaseAddAddrUleb, next.operand1, src.operand2⟩ :: rebaseCombine rest
    else src :: rebaseCombine (next :: rest)
  | mid => mid

/-- At least three `DO_REBASE_ADD_ADDR_ULEB` entries in a row with one delta. -/
def rebaseRunStarts (src : RebaseTmp) (rest : List RebaseTmp) : Bool :=
  match rest with
  | one :: two :: _ =>
    src.opcode = .doRebaseAddAddrUleb && one.opcode = .doRebaseAddAddrUleb &&
      two.opcode = .doRebaseAddAddrUleb && one.operand1 = src.operand1 &&
      two.operand1 = src.operand1
  | _ => false

/-- Phase 3, compress runs of `DO_REBASE_ADD_ADDR_ULEB` with the same delta. -/
def rebaseSkip : Option RebaseTmp → List RebaseTmp → List RebaseTmp
  | pending, [] => pending.toList
  | pending, src :: rest =>
    let fresh :=
      if rebaseRunStarts src rest then
        rebaseSkip (some ⟨.doRebaseUlebTimesSkippingUleb, 1, src.operand1⟩) rest
      else src :: rebaseSkip none rest
    match pending with
    | some dst =>
      if src.opcode = .doRebaseAddAddrUleb ∧ src.operand1 = dst.operand2 then
        rebaseSkip (some { dst with operand1 := dst.operand1 + 1 }) rest
      else dst :: fresh
    | none => fresh

/-- Phase 4, use immediate encodings. -/
def rebaseImmediate (p : RebaseTmp) : RebaseTmp :=
  if p.opcode = .addAddrUleb ∧ p.operand1.toNat < 15 * ptr.bytes ∧
      p.operand1.toNat % ptr.bytes = 0 then
    { p with opcode := .addAddrImmScaled, operand1 := BitVec.ofNat 64 (p.operand1.toNat / ptr.bytes) }
  else if p.opcode = .doRebaseUlebTimes ∧ p.operand1.toNat < 15 then
    { p with opcode := .doRebaseImmTimes }
  else p

def rebaseOptimize (mid : List RebaseTmp) : List RebaseTmp :=
  (rebaseSkip none (rebaseCombine (rebaseCompress none mid))).map (rebaseImmediate ptr)

/-! ## The bytes -/

/-- `append_byte(opcode | operand1)`. -/
def rebaseOpcodeByte (opcode : RebaseOpcode) (operand : BitVec 64) : UInt8 :=
  opcode.code ||| UInt8.ofNat operand.toNat

def RebaseTmp.encode (it : RebaseTmp) : List UInt8 :=
  match it.opcode with
  | .setTypeImm => [rebaseOpcodeByte .setTypeImm it.operand1]
  | .setSegmentAndOffsetUleb =>
    rebaseOpcodeByte .setSegmentAndOffsetUleb it.operand1 :: appendUleb128 it.operand2
  | .addAddrUleb => RebaseOpcode.addAddrUleb.code :: appendUleb128 it.operand1
  | .addAddrImmScaled => [rebaseOpcodeByte .addAddrImmScaled it.operand1]
  | .doRebaseImmTimes => [rebaseOpcodeByte .doRebaseImmTimes it.operand1]
  | .doRebaseUlebTimes => RebaseOpcode.doRebaseUlebTimes.code :: appendUleb128 it.operand1
  | .doRebaseAddAddrUleb => RebaseOpcode.doRebaseAddAddrUleb.code :: appendUleb128 it.operand1
  | .doRebaseUlebTimesSkippingUleb =>
    RebaseOpcode.doRebaseUlebTimesSkippingUleb.code ::
      (appendUleb128 it.operand1 ++ appendUleb128 it.operand2)

def rebaseBytes (mid : List RebaseTmp) : List UInt8 :=
  padToSize ptr.bytes (mid.flatMap RebaseTmp.encode)

/-- `RebaseInfoAtom<A>::encodeV1`, after the sort of `encode`. -/
def rebaseEncodeV1 (info : List RebaseInfo) : Except String (List UInt8) := do
  let mid ← rebaseMid find ptr {} (RebaseInfo.sort info)
  return rebaseBytes ptr (rebaseOptimize ptr mid)

end Encode

end Cctools.LinkEdit
