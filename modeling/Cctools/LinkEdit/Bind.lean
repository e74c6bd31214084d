/-
# Cctools.LinkEdit.Bind -- `BindingInfoAtom::encodeV1` and `WeakBindingInfoAtom::encode`

Both encoders walk their sorted records with the same running variables, emit
`binding_tmp` entries only for what changes, rewrite the list in two peephole
passes and a pass of immediates, and write it with the same `switch`.  The weak
encoder leaves out the library ordinal, and an override record of it writes its
symbol and nothing else.

As in `LinkEdit.Rebase`, the terminating entry is the end of the list.  ld keeps
one copy of each symbol name, so the comparisons of `const char*` are
comparisons of `CString`.
-/
import Cctools.LinkEdit.Rebase

namespace Cctools.LinkEdit

set_option autoImplicit false

/-! ## Records -/

inductive BindType where
  | overrideOfWeakdefInDylib
  | pointer
  | textAbsolute32
  | textPcrel32
  deriving DecidableEq, Repr

def BindType.code : BindType → UInt8
  | .overrideOfWeakdefInDylib => 0
  | .pointer => 1
  | .textAbsolute32 => 2
  | .textPcrel32 => 3

/-- The two constructors of `BindingInfo` set at most one flag. -/
inductive BindFlags where
  | none
  | weakImport
  | nonWeakDefinition
  deriving DecidableEq, Repr

def BindFlags.code : BindFlags → UInt8
  | .none => 0
  | .weakImport => 1
  | .nonWeakDefinition => 8

structure BindingInfo where
  type : BindType
  flags : BindFlags
  libraryOrdinal : BitVec 32
  symbolName : CString
  address : BitVec 64
  addend : BitVec 64
  deriving DecidableEq, Repr

namespace BindingInfo

/-- `operator<`: by library, symbol, type, flags (the larger first), then address. -/
def lt (a b : BindingInfo) : Bool :=
  if a.libraryOrdinal ≠ b.libraryOrdinal then a.libraryOrdinal.slt b.libraryOrdinal
  else if a.symbolName ≠ b.symbolName then a.symbolName.strcmpLt b.symbolName
  else if a.type ≠ b.type then decide (a.type.code < b.type.code)
  else if a.flags ≠ b.flags then decide (b.flags.code ≤ a.flags.code)
  else decide (a.address < b.address)

def sort (info : List BindingInfo) : List BindingInfo := info.insertionSort fun a b => !(b.lt a)

/-- `WeakBindingSorter`: by symbol, type, address. -/
def weakLt (left right : BindingInfo) : Bool :=
  if left.symbolName ≠ right.symbolName then left.symbolName.strcmpLt right.symbolName
  else if left.type ≠ right.type then decide (left.type.code < right.type.code)
  else decide (left.address < right.address)

def weakSort (info : List BindingInfo) : List BindingInfo :=
  info.insertionSort fun a b => !(b.weakLt a)

end BindingInfo

/-! ## The intermediate entries -/

inductive BindOpcode where
  | setDylibOrdinalImm
  | setDylibOrdinalUleb
  | setDylibSpecialImm
  | setSymbolTrailingFlagsImm
  | setTypeImm
  | setAddendSleb
  | setSegmentAndOffsetUleb
  | addAddrUleb
  | doBind
  | doBindAddAddrUleb
  | doBindAddAddrImmScaled
  | doBindUlebTimesSkippingUleb
  | threadedSetBindOrdinalTableSizeUleb
  | threadedApply
  deriving DecidableEq, Repr

/-- The opcode byte; the threaded ones already hold their sub-opcode. -/
def BindOpcode.code : BindOpcode → UInt8
  | .setDylibOrdinalImm => 0x10
  | .setDylibOrdinalUleb => 0x20
  | .setDylibSpecialImm => 0x30
  | .setSymbolTrailingFlagsImm => 0x40
  | .setTypeImm => 0x50
  | .setAddendSleb => 0x60
  | .setSegmentAndOffsetUleb => 0x70
  | .addAddrUleb => 0x80
  | .doBind => 0x90
  | .doBindAddAddrUleb => 0xA0
  | .doBindAddAddrImmScaled => 0xB0
  | .doBindUlebTimesSkippingUleb => 0xC0
  | .threadedSetBindOrdinalTableSizeUleb => 0xD0
  | .threadedApply => 0xD1

structure BindingTmp where
  opcode : BindOpcode
  operand1 : BitVec 64
  operand2 : BitVec 64 := 0
  name : CString := .empty
  deriving DecidableEq, Repr

/-- The running variables.  `ordinal` starts as `0x80000000`, `type` as 0. -/
structure BindCursor where
  curSegStart : BitVec 64 := 0
  curSegEnd : BitVec 64 := 0
  curSegIndex : Nat := 0
  ordinal : BitVec 32 := 0x80000000
  symbolName : Option CString := none
  type : BindType := .overrideOfWeakdefInDylib
  address : BitVec 64 := -1
  addend : BitVec 64 := 0
  deriving DecidableEq, Repr

section Encode

variable (find : BitVec 64 → Option SegmentRange) (ptr : PointerSize)

namespace BindCursor

def setOrdinal (cursor : BindCursor) (it : BindingInfo) : BindCursor × List BindingTmp :=
  if cursor.ordinal ≠ it.libraryOrdinal then
    let opcode := if it.libraryOrdinal.toInt ≤ 0 then BindOpcode.setDylibSpecialImm
      else .setDylibOrdinalUleb
    ({ cursor with ordinal := it.libraryOrdinal },
      [{ opcode := opcode, operand1 := it.libraryOrdinal.signExtend 64 }])
  else (cursor, [])

def setSymbol (cursor : BindCursor) (it : BindingInfo) : BindCursor × List BindingTmp :=
  if cursor.symbolName ≠ some it.symbolName then
    ({ cursor with symbolName := some it.symbolName },
      [{ opcode := .setSymbolTrailingFlagsImm, operand1 := it.flags.code.toNat,
         name := it.symbolName }])
  else (cursor, [])

def setType (cursor : BindCursor) (it : BindingInfo) : BindCursor × List BindingTmp :=
  if cursor.type ≠ it.type then
    ({ cursor with type := it.type }, [{ opcode := .setTypeImm, operand1 := it.type.code.toNat }])
  else (cursor, [])

def setAddress (cursor : BindCursor) (it : BindingInfo) :
    Except String (BindCursor × List BindingTmp) :=
  if cursor.address ≠ it.address then
    if it.address < cursor.curSegStart ∨ cursor.curSegEnd ≤ it.address then
      match find it.address with
      | none => .error "binding address outside range of any segment"
      | some range =>
        .ok ({ cursor with
                curSegStart := range.start
                curSegEnd := range.finish
                curSegIndex := range.index
                address := it.address },
          [{ opcode := .setSegmentAndOffsetUleb, operand1 := BitVec.ofNat 64 range.index,
             operand2 := it.address - range.start }])
    else
      .ok ({ cursor with address := it.address },
        [{ opcode := .addAddrUleb, operand1 := it.address - cursor.address }])
  else .ok (cursor, [])

def setAddend (cursor : BindCursor) (it : BindingInfo) : BindCursor × List BindingTmp :=
  if cursor.addend ≠ it.addend then
    ({ cursor with addend := it.addend }, [{ opcode := .setAddendSleb, operand1 := it.addend }])
  else (cursor, [])

/-- `address += sizeof(pint_t)`; unlike the rebase loop, without a look at `curSegEnd`. -/
def advance (cursor : BindCursor) : BindCursor :=
  { cursor with address := cursor.address + ptr.word }

end BindCursor

/-- One iteration of the loop of `BindingInfoAtom::encodeV1`. -/
def bindRecord (cursor : BindCursor) (it : BindingInfo) :
    Except String (BindCursor × List BindingTmp) := do
  let ordinal := cursor.setOrdinal it
  let symbol := ordinal.1.setSymbol it
  let type := symbol.1.setType it
  let place ← type.1.setAddress find it
  let addend := place.1.setAddend it
  return (addend.1.advance ptr,
    ordinal.2 ++ symbol.2 ++ type.2 ++ place.2 ++ addend.2 ++ [{ opcode := .doBind, operand1 := 0 }])

/-- One iteration of the loop of `WeakBindingInfoAtom::encode`. -/
def weakRecord (cursor : BindCursor) (it : BindingInfo) :
    Except String (BindCursor × List BindingTmp) := do
  let symbol := cursor.setSymbol it
  if it.type ≠ .overrideOfWeakdefInDylib then
    let type := symbol.1.setType it
    let place ← type.1.setAddress find it
    let addend := place.1.setAddend it
    return (addend.1.advance ptr,
      symbol.2 ++ type.2 ++ place.2 ++ addend.2 ++ [{ opcode := .doBind, operand1 := 0 }])
  else return symbol

/-- The loop over the records, for either iteration. -/
def bindMid (record : BindCursor → BindingInfo → Except String (BindCursor × List BindingTmp)) :
    BindCursor → List BindingInfo → Except String (List BindingTmp)
  | _, [] => .ok []
  | cursor, it :: rest => do
      let one ← record cursor it
      let mid ← bindMid record one.1 rest
      return one.2 ++ mid

/-! ## The passes -/

/-- Phase 1, combine bind/add pairs. -/
def bindCombine : List BindingTmp → List BindingTmp
  | src :: next :: rest =>
    if src.opcode = .doBind ∧ next.opcode = .addAddrUleb then
      { src with opcode := .doBindAddAddrUleb, operand1 := next.operand1 } :: bindCombine rest
    else src :: bindCombine (next :: rest)
  | mid => mid

/-- At least two `DO_BIND_ADD_ADDR_ULEB` entries in a row with one delta. -/
def bindRunStarts (src : BindingTmp) (rest : List BindingTmp) : Bool :=
  match rest with
  | one :: _ =>
    src.opcode = .doBindAddAddrUleb && one.opcode = .doBindAddAddrUleb &&
      one.operand1 = src.operand1
  | [] => false

/-- Phase 2, compress runs of `DO_BIND_ADD_ADDR_ULEB` with the same delta. -/
def bindSkip : Option BindingTmp → List BindingTmp → List BindingTmp
  | pending, [] => pending.toList
  | pending, src :: rest =>
    let fresh :=
      if bindRunStarts src rest then
        bindSkip (some { src with
          opcode := .doBindUlebTimesSkippingUleb
          operand1 := 1
          operand2 := src.operand1 }) rest
      else src :: bindSkip none rest
    match pending with
    | some dst =>
      if src.opcode = .doBindAddAddrUleb ∧ src.operand1 = dst.operand2 then
        bindSkip (some { dst with operand1 := dst.operand1 + 1 }) rest
      else dst :: fresh
    | none => fresh

/-- The part of phase 3 that both encoders have. -/
def bindScale (p : BindingTmp) : Option BindingTmp :=
  if p.opcode = .doBindAddAddrUleb ∧ p.operand1.toNat < 15 * ptr.bytes ∧
      p.operand1.toNat % ptr.bytes = 0 then
    some { p with opcode := .doBindAddAddrImmScaled,
                  operand1 := BitVec.ofNat 64 (p.operand1.toNat / ptr.bytes) }
  else none

/-- Phase 3 of `BindingInfoAtom::encodeV1`. -/
def bindImmediate (p : BindingTmp) : BindingTmp :=
  match bindScale ptr p with
  | some scaled => scaled
  | none =>
    if p.opcode = .setDylibOrdinalUleb ∧ p.operand1.toNat ≤ 15 then
      { p with opcode := .setDylibOrdinalImm }
    else p

/-- Phase 3 of `WeakBindingInfoAtom::encode`. -/
def weakImmediate (p : BindingTmp) : BindingTmp := (bindScale ptr p).getD p

def bindOptimize (immediate : BindingTmp → BindingTmp) (mid : List BindingTmp) :
    List BindingTmp :=
  (bindSkip none (bindCombine mid)).map immediate

/-! ## The bytes -/

/-- `append_byte(opcode | operand)`. -/
def bindOpcodeByte (opcode : BindOpcode) (operand : BitVec 64) : UInt8 :=
  opcode.code ||| UInt8.ofNat operand.toNat

/-- The `switch` that writes an entry. -/
def BindingTmp.encode (it : BindingTmp) : List UInt8 :=
  match it.opcode with
  | .setDylibOrdinalImm => [bindOpcodeByte .setDylibOrdinalImm it.operand1]
  | .setDylibOrdinalUleb => BindOpcode.setDylibOrdinalUleb.code :: appendUleb128 it.operand1
  | .setDylibSpecialImm => [bindOpcodeByte .setDylibSpecialImm (it.operand1 &&& 0x0F)]
  | .setSymbolTrailingFlagsImm =>
    bindOpcodeByte .setSymbolTrailingFlagsImm it.operand1 :: appendString it.name
  | .setTypeImm => [bindOpcodeByte .setTypeImm it.operand1]
  | .setAddendSleb => BindOpcode.setAddendSleb.code :: appendSleb128 it.operand1
  | .setSegmentAndOffsetUleb =>
    bindOpcodeByte .setSegmentAndOffsetUleb it.operand1 :: appendUleb128 it.operand2
  | .addAddrUleb => BindOpcode.addAddrUleb.code :: appendUleb128 it.operand1
  | .doBind => [BindOpcode.doBind.code]
  | .doBindAddAddrUleb => BindOpcode.doBindAddAddrUleb.code :: appendUleb128 it.operand1
  | .doBindAddAddrImmScaled => [bindOpcodeByte .doBindAddAddrImmScaled it.operand1]
  | .doBindUlebTimesSkippingUleb =>
    BindOpcode.doBindUlebTimesSkippingUleb.code ::
      (appendUleb128 it.operand1 ++ appendUleb128 it.operand2)
  | .threadedSetBindOrdinalTableSizeUleb =>
    BindOpcode.threadedSetBindOrdinalTableSizeUleb.code :: appendUleb128 it.operand1
  | .threadedApply => [BindOpcode.threadedApply.code]

/-- `BindingInfoAtom<A>::encodeV1`. -/
def bindEncodeV1 (info : List BindingInfo) : Except String (List UInt8) := do
  let mid ← bindMid (bindRecord find ptr) {} (BindingInfo.sort info)
  return padToSize ptr.bytes ((bindOptimize (bindImmediate ptr) mid).flatMap BindingTmp.encode)

/-- `WeakBindingInfoAtom<A>::encode`: its `switch` also writes the terminating entry. -/
def weakBindEncode (info : List BindingInfo) : Except String (List UInt8) :=
  if info.isEmpty then .ok []
  else do
    let mid ← bindMid (weakRecord find ptr) {} (BindingInfo.weakSort info)
    return padToSize ptr.bytes
      ((bindOptimize (weakImmediate ptr) mid).flatMap BindingTmp.encode ++ [0])

end Encode

end Cctools.LinkEdit
