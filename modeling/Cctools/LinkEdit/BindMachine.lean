/-
# Cctools.LinkEdit.BindMachine -- what `BIND_OPCODE_*` streams do

The variables and the transitions of the loop in `get_dyld_bind_info`, without
its validation: a state is (library ordinal, symbol, flags, type, addend,
segment index, segment offset), and each bind emits the state it happens in.
`Otool.DyldBindInfo` has the loop with every check; this machine is what a
stream means, and is what the passes of the encoders have to keep
(`bindOptimize_same`, `bindStates_bytes`).

The threaded opcodes leave the state alone here; `LinkEdit.Threaded` gives them
their meaning.
-/
import Cctools.LinkEdit.Bind
import Cctools.Theory.Transducer

namespace Cctools.LinkEdit

set_option autoImplicit false

open Cctools.Theory

structure BindState where
  libraryOrdinal : BitVec 32 := 0
  symbolName : Option CString := none
  flags : UInt8 := 0
  type : UInt8 := 0
  addend : BitVec 64 := 0
  segIndex : Option Nat := none
  segOffset : BitVec 64 := 0
  deriving DecidableEq, Repr

/-! ## One instruction -/

/-- `count` binds, `segOffset += stride` after each. -/
def bindTimes (stride : BitVec 64) : Nat → BindState → BindState × List BindState
  | 0, state => (state, [])
  | count + 1, state =>
    let after := bindTimes stride count { state with segOffset := state.segOffset + stride }
    (after.1, state :: after.2)

/-- The special ordinals are negative: `int8_t signExtended = BIND_OPCODE_MASK | immediate`. -/
def specialOrdinal (immediate : BitVec 64) : BitVec 32 :=
  if immediate &&& 0x0F = 0 then 0 else ((immediate.setWidth 8 &&& 0x0F) ||| 0xF0).signExtend 32

section Machine

variable (ptr : PointerSize)

def bindStep (state : BindState) (instr : BindingTmp) : BindState × List BindState :=
  match instr.opcode with
  | .setDylibOrdinalImm | .setDylibOrdinalUleb =>
    ({ state with libraryOrdinal := instr.operand1.setWidth 32 }, [])
  | .setDylibSpecialImm => ({ state with libraryOrdinal := specialOrdinal instr.operand1 }, [])
  | .setSymbolTrailingFlagsImm =>
    ({ state with symbolName := some instr.name, flags := UInt8.ofNat instr.operand1.toNat }, [])
  | .setTypeImm => ({ state with type := UInt8.ofNat instr.operand1.toNat }, [])
  | .setAddendSleb => ({ state with addend := instr.operand1 }, [])
  | .setSegmentAndOffsetUleb =>
    ({ state with segIndex := some instr.operand1.toNat, segOffset := instr.operand2 }, [])
  | .addAddrUleb => ({ state with segOffset := state.segOffset + instr.operand1 }, [])
  | .doBind => ({ state with segOffset := state.segOffset + ptr.word }, [state])
  | .doBindAddAddrUleb =>
    ({ state with segOffset := state.segOffset + (instr.operand1 + ptr.word) }, [state])
  | .doBindAddAddrImmScaled =>
    ({ state with segOffset := state.segOffset + (instr.operand1 * ptr.word + ptr.word) }, [state])
  | .doBindUlebTimesSkippingUleb =>
    bindTimes (instr.operand2 + ptr.word) instr.operand1.toNat state
  | .threadedSetBindOrdinalTableSizeUleb | .threadedApply => (state, [])

/-! ## Reading instructions -/

/-- Read an operand that must be there. -/
def readWord (p : List UInt8) : Option (BitVec 64 × List UInt8) := (readUleb128 p).toOption

/-- Read the opcode byte and its operands; the inner `none` is `BIND_OPCODE_DONE`. -/
def readBind (byte : UInt8) (p : List UInt8) : Option (Option BindingTmp × List UInt8) := do
  let immediate := BitVec.ofNat 64 (byte &&& 0x0F).toNat
  match (byte &&& 0xF0).toNat with
  | 0x00 => return (none, p)
  | 0x10 => return (some { opcode := .setDylibOrdinalImm, operand1 := immediate }, p)
  | 0x20 =>
    let (ordinal, p) ← readWord p
    return (some { opcode := .setDylibOrdinalUleb, operand1 := ordinal }, p)
  | 0x30 => return (some { opcode := .setDylibSpecialImm, operand1 := immediate }, p)
  | 0x40 =>
    let (name, p) ← readString p
    return (some { opcode := .setSymbolTrailingFlagsImm, operand1 := immediate, name := name }, p)
  | 0x50 => return (some { opcode := .setTypeImm, operand1 := immediate }, p)
  | 0x60 =>
    let (addend, p) ← readSleb128 p
    return (some { opcode := .setAddendSleb, operand1 := addend }, p)
  | 0x70 =>
    let (offset, p) ← readWord p
    return (some { opcode := .setSegmentAndOffsetUleb, operand1 := immediate,
                   operand2 := offset }, p)
  | 0x80 =>
    let (delta, p) ← readWord p
    return (some { opcode := .addAddrUleb, operand1 := delta }, p)
  | 0x90 => return (some { opcode := .doBind, operand1 := 0 }, p)
  | 0xA0 =>
    let (delta, p) ← readWord p
    return (some { opcode := .doBindAddAddrUleb, operand1 := delta }, p)
  | 0xB0 => return (some { opcode := .doBindAddAddrImmScaled, operand1 := immediate }, p)
  | 0xC0 =>
    let (count, p) ← readWord p
    let (skip, p) ← readWord p
    return (some { opcode := .doBindUlebTimesSkippingUleb, operand1 := count,
                   operand2 := skip }, p)
  | 0xD0 =>
    match immediate.toNat with
    | 0 =>
      let (size, p) ← readWord p
      return (some { opcode := .threadedSetBindOrdinalTableSizeUleb, operand1 := size }, p)
    | 1 => return (some { opcode := .threadedApply, operand1 := 0 }, p)
    | _ => none
  | _ => none

/-- The instructions of a stream, up to `BIND_OPCODE_DONE` or the end of the bytes. -/
def readBinds : Nat → List UInt8 → Option (List BindingTmp)
  | _, [] => some []
  | 0, _ :: _ => none
  | fuel + 1, byte :: p => do
      let (instr, p) ← readBind byte p
      match instr with
      | none => return []
      | some instr =>
        let more ← readBinds fuel p
        return instr :: more

/-- The instructions of a whole stream; each consumes a byte. -/
def bindInstructions (bytes : List UInt8) : Option (List BindingTmp) :=
  readBinds bytes.length bytes

/-- The states a stream binds in. -/
def bindStates (bytes : List UInt8) : Option (List BindState) :=
  (bindInstructions bytes).map fun program => (Transducer.run (bindStep ptr) {} program).2

end Machine

end Cctools.LinkEdit
