/-
# Cctools.LinkEdit.Threaded -- `BindingInfoAtom::encodeV2`

With linked-list opcodes the stream is a table of binds followed by the places
where chains of pointers start.  A record makes a new table entry only when its
library, symbol, type or addend differs from the record before it; its
`_threadedBindOrdinal` is the index of the entry it shares.  Addresses do not
appear in the table: every rebase and bind is a pointer of some chain, and a
chain starts at the first fixup of a segment and of each of its 4 KiB pages.

An `assert` that fails ends the link, like a `throw`.
-/
import Cctools.LinkEdit.BindMachine

namespace Cctools.LinkEdit

set_option autoImplicit false

/-! ## The table -/

namespace BindCursor

/-- Unlike `encodeV1`, this loop picks the immediate form itself. -/
def setOrdinalV2 (cursor : BindCursor) (it : BindingInfo) : BindCursor × List BindingTmp :=
  if cursor.ordinal ≠ it.libraryOrdinal then
    let opcode := if it.libraryOrdinal.toInt ≤ 0 then BindOpcode.setDylibSpecialImm
      else if it.libraryOrdinal.toInt ≤ 15 then .setDylibOrdinalImm
      else .setDylibOrdinalUleb
    ({ cursor with ordinal := it.libraryOrdinal },
      [{ opcode := opcode, operand1 := it.libraryOrdinal.signExtend 64 }])
  else (cursor, [])

def setTypeV2 (cursor : BindCursor) (it : BindingInfo) :
    Except String (BindCursor × List BindingTmp) :=
  if cursor.type ≠ it.type ∧ it.type ≠ .pointer then
    .error "unsupported bind type with linked list opcodes"
  else .ok (cursor.setType it)

/-- The segment is looked up, and nothing is written. -/
def enterSegment (find : BitVec 64 → Option SegmentRange) (cursor : BindCursor)
    (it : BindingInfo) : Except String BindCursor :=
  if cursor.address ≠ it.address then
    if it.address < cursor.curSegStart ∨ cursor.curSegEnd ≤ it.address then
      match find it.address with
      | none => .error "binding address outside range of any segment"
      | some range =>
        .ok { cursor with
          curSegStart := range.start
          curSegEnd := range.finish
          curSegIndex := range.index
          address := it.address }
    else .ok { cursor with address := it.address }
  else .ok cursor

end BindCursor

section Encode

variable (find : BitVec 64 → Option SegmentRange) (ptr : PointerSize)

/-- One iteration of the first loop.  `madeChange` is that something was written. -/
def tableRecord (numBinds : BitVec 64) (cursor : BindCursor) (it : BindingInfo) :
    Except String (BitVec 64 × BindCursor × List BindingTmp) := do
  let ordinal := cursor.setOrdinalV2 it
  let symbol := ordinal.1.setSymbol it
  let type ← symbol.1.setTypeV2 it
  let place ← type.1.enterSegment find it
  let addend := place.setAddend it
  let written := ordinal.2 ++ symbol.2 ++ type.2 ++ addend.2
  if written.isEmpty then return (numBinds, addend.1, [])
  else return (numBinds + 1, addend.1, written ++ [{ opcode := .doBind, operand1 := 0 }])

/-- What the first loop leaves; `bindInfo` pairs each record with its
`_threadedBindOrdinal`, a `uint16_t`. -/
structure BindTable where
  numBinds : BitVec 64
  mid : List BindingTmp
  bindInfo : List (BindingInfo × BitVec 16)
  deriving DecidableEq, Repr

def bindTable : BitVec 64 → BindCursor → List BindingInfo → Except String BindTable
  | numBinds, _, [] => .ok ⟨numBinds, [], []⟩
  | numBinds, cursor, it :: rest => do
      let one ← tableRecord find numBinds cursor it
      let more ← bindTable one.1 one.2.1 rest
      return ⟨more.numBinds, one.2.2 ++ more.mid, (it, one.1.setWidth 16) :: more.bindInfo⟩

/-! ## The starts -/

inductive ThreadedFixup where
  | rebase (info : RebaseInfo)
  | bind (info : BindingInfo) (threadedBindOrdinal : BitVec 16)
  deriving DecidableEq, Repr

namespace ThreadedFixup

def address : ThreadedFixup → BitVec 64
  | .rebase info => info.address
  | .bind info _ => info.address

/-- `threadedRebaseBindIndices`: an index stands for the fixup it selects. -/
def sort (fixups : List ThreadedFixup) : List ThreadedFixup :=
  fixups.insertionSort fun a b => !decide (b.address < a.address)

end ThreadedFixup

/-- The page of an address, from the start of its segment. -/
def pageIndex (segStart address : BitVec 64) : BitVec 64 := (address - segStart) / 4096

/-- The second loop, from the cached segment and `prevPageIndex` on. -/
def threadedStarts : SegmentRange → BitVec 64 → List ThreadedFixup →
    Except String (List BindingTmp)
  | _, _, [] => .ok []
  | current, prevPageIndex, fixup :: rest => do
      let address := fixup.address
      if address &&& 7 ≠ 0 then .error "assertion failed: (address & 7) == 0"
      else
        let segment ← if address < current.start ∨ current.finish ≤ address then
            match find address with
            | none => .error "binding address outside range of any segment"
            | some range => .ok (range, true)
          else .ok (current, false)
        let page := pageIndex segment.1.start address
        let more ← threadedStarts segment.1 page rest
        if segment.2 ∨ page ≠ prevPageIndex then
          return { opcode := .setSegmentAndOffsetUleb, operand1 := BitVec.ofNat 64 segment.1.index,
                   operand2 := address - segment.1.start } ::
            { opcode := .threadedApply, operand1 := 0 } :: more
        else return more

/-! ## The stream -/

/-- The bytes, `_bindingInfo` and `_threadedRebaseBindIndices` after the call. -/
structure ThreadedInfo where
  bytes : List UInt8
  bindInfo : List (BindingInfo × BitVec 16)
  fixups : List ThreadedFixup
  deriving DecidableEq, Repr

/-- The total number of binds, pushed first so that dyld can allocate the table. -/
def tableSizeEntry (numBinds : BitVec 64) : BindingTmp :=
  { opcode := .threadedSetBindOrdinalTableSizeUleb, operand1 := numBinds + 1 }

/-- `BindingInfoAtom<A>::encodeV2`. -/
def bindEncodeV2 (info : List BindingInfo) (rebaseInfo : List RebaseInfo) :
    Except String ThreadedInfo := do
  let table ← bindTable find (-1) {} (BindingInfo.sort info)
  let count := table.numBinds.toNat
  if 0x10000 < table.numBinds ∧ table.numBinds ≠ -1 then
    .error s!"too many binds ({count}).  The limit is 65536"
  else
    let fixups := ThreadedFixup.sort (rebaseInfo.map .rebase ++
      table.bindInfo.map fun bind => .bind bind.1 bind.2)
    if ¬ (fixups.map ThreadedFixup.address).Nodup then
      .error "assertion failed: addressA != addressB"
    else
      let starts ← threadedStarts find ⟨0, 0, 0⟩ 0 fixups
      let mid := tableSizeEntry table.numBinds :: (table.mid ++ starts)
      return {
        bytes := padToSize ptr.bytes (mid.flatMap BindingTmp.encode ++ [0])
        bindInfo := table.bindInfo
        fixups := fixups }

end Encode

end Cctools.LinkEdit
