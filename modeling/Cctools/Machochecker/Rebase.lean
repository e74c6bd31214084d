/-
# Cctools.Machochecker.Rebase -- the `REBASE_OPCODE_*` interpreter

The loop that `MachOChecker<A>::addressIsRebaseSite` and `hasTextRelocInRange`
share.  Instead of comparing each rebased address with a target, the model
returns all of them, as (segment index, segment offset, type).

`machochecker.cpp` keeps `count` and `skip` in `uint32_t`; that width is the
`counter` argument, so that the same loop can also be run with variables as wide
as the ULEB128 operands themselves.
-/
import Cctools.LinkEdit.Rebase
import Cctools.Theory.Transducer

namespace Cctools.Machochecker

set_option autoImplicit false

open Cctools.LinkEdit
open Cctools.Theory

structure RebaseSite where
  segIndex : Nat
  segOffset : BitVec 64
  type : UInt8
  deriving DecidableEq, Repr

/-- The variables of the loop; a site is their value when it is rebased. -/
abbrev RebaseState := RebaseSite

/-! ## One instruction -/

/-- The counted inner loops: `segOffset += stride` after each rebase. -/
def rebaseTimes (stride : BitVec 64) : Nat → RebaseState → RebaseState × List RebaseSite
  | 0, state => (state, [])
  | count + 1, state =>
    let after := rebaseTimes stride count { state with segOffset := state.segOffset + stride }
    (after.1, state :: after.2)

/-- A `uint32_t` local assigned from a `uint64_t`, with the width as parameter. -/
def narrow (counter : Nat) (value : BitVec 64) : Nat := value.toNat % 2 ^ counter

section Interpreter

variable (counter : Nat) (ptr : PointerSize)

/-- The body of the `switch`, after the operands have been read. -/
def rebaseStep (state : RebaseState) (instr : RebaseTmp) : RebaseState × List RebaseSite :=
  match instr.opcode with
  | .setTypeImm => ({ state with type := UInt8.ofNat instr.operand1.toNat }, [])
  | .setSegmentAndOffsetUleb =>
    ({ state with segIndex := instr.operand1.toNat, segOffset := instr.operand2 }, [])
  | .addAddrUleb => ({ state with segOffset := state.segOffset + instr.operand1 }, [])
  | .addAddrImmScaled =>
    ({ state with segOffset := state.segOffset + instr.operand1 * ptr.word }, [])
  | .doRebaseImmTimes => rebaseTimes ptr.word instr.operand1.toNat state
  | .doRebaseUlebTimes => rebaseTimes ptr.word (narrow counter instr.operand1) state
  | .doRebaseAddAddrUleb =>
    ({ state with segOffset := state.segOffset + (instr.operand1 + ptr.word) }, [state])
  | .doRebaseUlebTimesSkippingUleb =>
    rebaseTimes (BitVec.ofNat 64 (narrow counter instr.operand2) + ptr.word)
      (narrow counter instr.operand1) state

/-! ## Reading instructions -/

def readOperand (p : List UInt8) : Except String (BitVec 64 × List UInt8) :=
  match readUleb128 p with
  | .ok read => .ok read
  | .error (.endOfInput, _) => .error "malformed uleb128"
  | .error (.tooBig, _) => .error "uleb128 too big"

/-- `segStartAddress`: its test lets `segIndex == fSegments.size()` through. -/
def checkSegIndex (segmentCount segIndex : Nat) : Except String Unit :=
  if segIndex > segmentCount then .error "segment index out of range" else .ok ()

/-- Read the opcode byte and its operands; `none` is `REBASE_OPCODE_DONE`. -/
def readRebase (segmentCount : Nat) (byte : UInt8) (p : List UInt8) :
    Except String (Option RebaseTmp × List UInt8) := do
  let immediate := BitVec.ofNat 64 (byte &&& 0x0F).toNat
  match (byte &&& 0xF0).toNat with
  | 0x00 => return (none, p)
  | 0x10 => return (some ⟨.setTypeImm, immediate, 0⟩, p)
  | 0x20 =>
    checkSegIndex segmentCount immediate.toNat
    let (offset, p) ← readOperand p
    return (some ⟨.setSegmentAndOffsetUleb, immediate, offset⟩, p)
  | 0x30 =>
    let (delta, p) ← readOperand p
    return (some ⟨.addAddrUleb, delta, 0⟩, p)
  | 0x40 => return (some ⟨.addAddrImmScaled, immediate, 0⟩, p)
  | 0x50 => return (some ⟨.doRebaseImmTimes, immediate, 0⟩, p)
  | 0x60 =>
    let (count, p) ← readOperand p
    return (some ⟨.doRebaseUlebTimes, count, 0⟩, p)
  | 0x70 =>
    let (delta, p) ← readOperand p
    return (some ⟨.doRebaseAddAddrUleb, delta, 0⟩, p)
  | 0x80 =>
    let (count, p) ← readOperand p
    let (skip, p) ← readOperand p
    return (some ⟨.doRebaseUlebTimesSkippingUleb, count, skip⟩, p)
  | _ => .error ("bad rebase opcode " ++ toString (p.headD 0).toNat)

/-- `while ( !done && (p < end) )`.  Each iteration consumes a byte, so as much
fuel as there are bytes is never used up early. -/
def rebaseLoop (segmentCount : Nat) : Nat → RebaseState → List UInt8 →
    Except String (List RebaseSite)
  | _, _, [] => .ok []
  | 0, _, _ :: _ => .error "out of fuel"
  | fuel + 1, state, byte :: p => do
      let (instr, p) ← readRebase segmentCount byte p
      match instr with
      | none => return []
      | some instr =>
        let after := rebaseStep counter ptr state instr
        let sites ← rebaseLoop segmentCount fuel after.1 p
        return after.2 ++ sites

def rebaseSites (segmentCount : Nat) (bytes : List UInt8) : Except String (List RebaseSite) :=
  rebaseLoop counter ptr segmentCount bytes.length ⟨0, 0, 0⟩ bytes

end Interpreter

end Cctools.Machochecker
