/-
# Cctools.Otool.DyldBindInfo -- `get_dyld_bind_info`

The loop that unpacks bind opcodes, with its checks and its error counter.  A
failed check does not stop it: it is counted, the segment is forgotten, and the
bind is still recorded, at address 0.  An operand whose segment is already
forgotten is not even read, so the bytes of it are taken for opcodes.

Both passes run the same loop; the second fills an array of the length that the
first one counted, and starts with the errors, the table and the chain format of
the first.  Left out are the segment, section and dylib names of a record, which
are labels looked up for printing.
-/
import Cctools.LinkEdit.SegmentCommands
import Cctools.LinkEdit.BindMachine
import Cctools.Otool.Leb128

namespace Cctools.Otool

set_option autoImplicit false

open Cctools.LinkEdit

/-- What the function is given besides the opcodes. -/
structure Env where
  ptr : PointerSize
  segs : List SegmentCommand
  ndylibs : Nat
  /-- The pointer at a file offset, in host byte order. -/
  object : BitVec 64 → BitVec 64
  objectSize : BitVec 64

structure DyldBindInfo where
  address : BitVec 64
  bindType : UInt8
  libOrdinal : BitVec 32
  addend : BitVec 64
  symbolName : Option CString
  weakImport : Bool
  pointerValue : BitVec 64 := 0
  hasAuth : Bool := false
  authDiversity : BitVec 16 := 0
  authAddrDiv : Bool := false
  authKey : UInt8 := 0
  deriving DecidableEq, Repr

structure ThreadedBindData where
  symbolName : Option CString
  addend : BitVec 64
  libraryOrdinal : BitVec 32
  flags : UInt8
  type : UInt8
  deriving DecidableEq, Repr

/-- The local variables; `segIndex` is `none` for `-1`. -/
structure Locals where
  type : UInt8 := 0
  segIndex : Option Nat := none
  segOffset : BitVec 64 := 0
  segStartAddr : BitVec 64 := 0
  symbolName : Option CString := none
  libraryOrdinalSet : Bool := false
  libraryOrdinal : BitVec 32 := 0
  addend : BitVec 64 := 0
  flags : UInt8 := 0
  weakImport : Bool := false
  ordinalTableIndex : BitVec 64 := -1
  ordinalTableCount : BitVec 64 := 0
  ordinalTable : List ThreadedBindData := []
  chained : Bool := false
  errorCount : Nat := 0
  deriving DecidableEq, Repr

/-! ## Checks -/

/-- `vmaddr + vmsize`, in the width of the load command's own fields. -/
def vmend (ptr : PointerSize) (seg : SegmentCommand) : BitVec 64 :=
  match ptr with
  | .p4 => ((seg.vmaddr + seg.vmsize).setWidth 32).setWidth 64
  | .p8 => seg.vmaddr + seg.vmsize

def checkSegAndOffset (env : Env) (segIndex : Option Nat) (segOffset : BitVec 64)
    (endInvalid : Bool) : Option String :=
  match segIndex with
  | none => some "missing preceding BIND_OPCODE_SET_SEGMENT_AND_OFFSET_ULEB"
  | some index =>
    match env.segs[index]? with
    | none => some "bad segIndex (too large)"
    | some seg =>
      let address := seg.vmaddr + segOffset
      if vmend env.ptr seg < address then some "bad segOffset, too large"
      else if endInvalid ∧ address = vmend env.ptr seg then some "bad segOffset, too large"
      else none

/-- The count to go on with, and the error.  The skip arrives as a `uint64_t`. -/
def checkCountAndSkip (env : Env) (count : Nat) (skip : BitVec 64) (segIndex : Option Nat)
    (segOffset : BitVec 64) : Nat × Option String :=
  match segIndex.bind fun index => env.segs[index]? with
  | none => (1, some "bad segIndex (too large)")
  | some seg =>
    let i := if 1 < count then (skip + env.ptr.word) * BitVec.ofNat 64 (count - 1) else 0
    let address := seg.vmaddr + segOffset
    if vmend env.ptr seg ≤ address then (1, some "bad segOffset, too large")
    else if vmend env.ptr seg ≤ address + i then (1, some "bad count and skip, too large")
    else (count, none)

def validateOrdinal (env : Env) (dylibOrdinal : BitVec 32) : Option String :=
  if dylibOrdinal.toInt < -3 then some "Unknown special ordinal"
  else if 0 < dylibOrdinal.toInt ∧ env.ndylibs < dylibOrdinal.toNat then
    some "dylibOrdinal out of range"
  else none

/-- The text of a failed read. -/
def errorOf {α : Type} (read : Except String α) : Option String :=
  match read with
  | .ok _ => none
  | .error error => some error

namespace Locals

/-- `errorCount++`, when there is an error. -/
def count (locals : Locals) (error : Option String) : Locals :=
  { locals with errorCount := locals.errorCount + if error.isSome then 1 else 0 }

def forgetSegment (locals : Locals) : Locals :=
  { locals with segIndex := none, segStartAddr := 0, segOffset := 0 }

/-- Count an error of a segment check, and forget the segment. -/
def onSegment (locals : Locals) (error : Option String) : Locals :=
  if error.isSome then (locals.count error).forgetSegment else locals

def checkPlace (env : Env) (locals : Locals) (endInvalid : Bool) : Locals :=
  locals.onSegment (checkSegAndOffset env locals.segIndex locals.segOffset endInvalid)

/-- The two tests that every bind opcode makes after its segment. -/
def checkBind (locals : Locals) : Locals :=
  let named := locals.count (if locals.symbolName.isNone then
    some "missing preceding BIND_OPCODE_SET_SYMBOL_TRAILING_FLAGS_IMM opcode" else none)
  named.count (if locals.libraryOrdinalSet then none else
    some "missing preceding BIND_OPCODE_SET_DYLIB_ORDINAL_* opcode")

def setOrdinal (env : Env) (locals : Locals) (ordinal : BitVec 32) : Locals :=
  let error := validateOrdinal env ordinal
  { locals.count error with libraryOrdinal := ordinal, libraryOrdinalSet := error.isNone }

end Locals

/-- "Symbol name not set". -/
def symbolNameNotSet : CString :=
  ⟨[0x53, 0x79, 0x6d, 0x62, 0x6f, 0x6c, 0x20, 0x6e, 0x61, 0x6d, 0x65, 0x20, 0x6e, 0x6f, 0x74,
    0x20, 0x73, 0x65, 0x74], by decide⟩

/-- The record of one bind. -/
def Locals.record (locals : Locals) : DyldBindInfo where
  address := locals.segStartAddr + locals.segOffset
  bindType := locals.type
  libOrdinal := if locals.libraryOrdinalSet then locals.libraryOrdinal else 0
  addend := locals.addend
  symbolName := some (locals.symbolName.getD symbolNameNotSet)
  weakImport := locals.weakImport

/-! ## Threaded pointers -/

def isRebase (value : BitVec 64) : Bool := value &&& 0x4000000000000000 = 0

/-- Bits 0 to 15. -/
def threadedOrdinal (value : BitVec 64) : BitVec 16 := value.setWidth 16

/-- Bits 51 to 61, in units of 8 bytes. -/
def threadedDelta (value : BitVec 64) : BitVec 64 := (value &&& 0x3FF8000000000000) >>> 51

/-- The record of a threaded bind, from the pointer and its entry of the table. -/
def threadedRecord (locals : Locals) (value : BitVec 64) (data : ThreadedBindData) :
    DyldBindInfo where
  address := locals.segStartAddr + locals.segOffset
  bindType := data.type
  libOrdinal := data.libraryOrdinal
  addend := data.addend
  symbolName := data.symbolName
  weakImport := data.flags &&& 1 ≠ 0
  pointerValue := value
  hasAuth := value &&& 0x8000000000000000 ≠ 0
  authDiversity := if value &&& 0x8000000000000000 ≠ 0 then (value >>> 32).setWidth 16 else 0
  authAddrDiv := value &&& 0x8000000000000000 ≠ 0 && (value >>> 48) &&& 1 ≠ 0
  authKey := if value &&& 0x8000000000000000 ≠ 0 then UInt8.ofNat ((value >>> 49) &&& 2).toNat
    else 0

/-- The end of the opcodes, or what is left after one of them. -/
structure Outcome where
  locals : Locals
  records : List DyldBindInfo := []
  rest : List UInt8 := []
  done : Bool := false
  deriving DecidableEq, Repr

/-- The `do … while` along one chain.  Every turn moves on in one 16 KiB page, so
2048 turns are enough; also returned are the pointers visited. -/
def threadedWalk (env : Env) (seg : SegmentCommand) (pageStart : BitVec 64) :
    Nat → Locals → Locals × List DyldBindInfo × List (BitVec 64 × BitVec 64)
  | 0, locals => (locals, [], [])
  | fuel + 1, locals =>
    let offset := seg.fileoff + locals.segOffset
    let pointerAddress := seg.vmaddr + locals.segOffset
    let value := env.object offset
    let onward (locals : Locals) (records : List DyldBindInfo) :=
      let delta := threadedDelta value
      if delta = 0 then (locals, records, [(pointerAddress, value)])
      else
        let moved := { locals with segOffset := locals.segOffset + delta * 8 }
        if env.objectSize < seg.fileoff + moved.segOffset + 8 then
          (moved.count (some "past end of file"), records, [(pointerAddress, value)])
        else if pageStart ≠ (seg.vmaddr + moved.segOffset) &&& ~~~0x3fff then
          (moved.count (some "past end of the same page"), records, [(pointerAddress, value)])
        else
          let more := threadedWalk env seg pageStart fuel moved
          (more.1, records ++ more.2.1, (pointerAddress, value) :: more.2.2)
    if isRebase value then onward locals []
    else
      let ordinal := (threadedOrdinal value).setWidth 64
      if locals.ordinalTableCount ≤ ordinal then
        (locals.count (some "bad ordinal"), [], [(pointerAddress, value)])
      else
        match locals.ordinalTable[ordinal.toNat]? with
        | none => (locals, [], [(pointerAddress, value)])
        | some data =>
          let error := validateOrdinal env data.libraryOrdinal
          let locals := { locals with libraryOrdinal := data.libraryOrdinal }
          if error.isSome then (locals.count error, [], [(pointerAddress, value)])
          else
            let locals := { locals with
              flags := data.flags
              weakImport := data.flags &&& 1 ≠ 0 }
            onward locals [threadedRecord locals value data]

/-- `BIND_SUBOPCODE_THREADED_APPLY`. -/
def threadedApply (env : Env) (locals : Locals) :
    Locals × List DyldBindInfo × List (BitVec 64 × BitVec 64) :=
  let sized := locals.count (if locals.ordinalTableIndex ≠ locals.ordinalTableCount then
    some "incorrect ordinal table size" else none)
  let placed := sized.checkPlace env false
  let aligned := placed.count (if (placed.segStartAddr + placed.segOffset) &&& 3 ≠ 0 then
    some "bad segOffset, not 8-byte aligned" else none)
  match aligned.segIndex.bind fun index => env.segs[index]? with
  | none => (aligned, [], [])
  | some seg =>
    threadedWalk env seg ((seg.vmaddr + aligned.segOffset) &&& ~~~0x3fff) 2049 aligned

/-! ## The opcodes -/

/-- Scan a name as `while(*p != '\0' && (p < end))` does. -/
def scanName (p : List UInt8) : Option CString × List UInt8 :=
  match readString p with
  | some (name, rest) => (some name, rest)
  | none => (none, [])

/-- `BIND_OPCODE_DO_BIND`. -/
def doBind (env : Env) (locals : Locals) (p : List UInt8) : Outcome :=
  let placed := if locals.chained then locals else locals.checkPlace env true
  let checked := placed.checkBind
  if locals.chained then
    if checked.ordinalTableCount ≤ checked.ordinalTableIndex then
      { locals := checked.count (some "incorrect ordinal table size"), rest := p }
    else
      let data : ThreadedBindData :=
        ⟨checked.symbolName, checked.addend,
          if checked.libraryOrdinalSet then checked.libraryOrdinal else 0, checked.flags,
          checked.type⟩
      let oti := checked.ordinalTableIndex.toNat
      { locals := { checked with
          ordinalTable := checked.ordinalTable.take oti ++ data :: checked.ordinalTable.drop (oti + 1)
          ordinalTableIndex := checked.ordinalTableIndex + 1 }
        rest := p }
  else
    { locals := { checked with segOffset := checked.segOffset + env.ptr.word }
      records := [checked.record]
      rest := p }

/-- `BIND_OPCODE_DO_BIND_ADD_ADDR_*`, from the operand on: a failed read of it is
counted and forgets the segment, and the check that follows then fails too. -/
def doBindAdd (env : Env) (locals : Locals) (operand : Except String (BitVec 64))
    (p : List UInt8) : Outcome :=
  let checked := (locals.checkPlace env true).checkBind
  let moved := match operand with
    | .ok delta => { checked with segOffset := checked.segOffset + (delta + env.ptr.word) }
    | .error error => checked.onSegment (some error)
  { locals := moved.checkPlace env false
    records := [checked.record]
    rest := p }

/-- The counted loop of `BIND_OPCODE_DO_BIND_ULEB_TIMES_SKIPPING_ULEB`. -/
def doBindTimes (stride : BitVec 64) : Nat → Locals → Locals × List DyldBindInfo
  | 0, locals => (locals, [])
  | count + 1, locals =>
    let moved := if locals.segIndex.isSome then
      { locals with segOffset := locals.segOffset + stride } else locals
    let more := doBindTimes stride count moved
    (more.1, locals.record :: more.2)

/-- `BIND_OPCODE_DO_BIND_ULEB_TIMES_SKIPPING_ULEB`; `count` and `skip` are
`uint32_t`, and so is the sum of the skip and the pointer size. -/
def doBindSkipping (env : Env) (locals : Locals) (p : List UInt8) : Outcome :=
  let first := readUleb128 p
  let second := readUleb128 first.2
  let count : BitVec 32 := (first.1.toOption.getD 0).setWidth 32
  let skip : BitVec 32 := (second.1.toOption.getD 0).setWidth 32
  let read := (locals.count (errorOf first.1)).count (errorOf second.1)
  let checked := (read.checkPlace env true).checkBind
  let counted := checkCountAndSkip env count.toNat (skip.setWidth 64) checked.segIndex
    checked.segOffset
  let bound := doBindTimes ((skip + env.ptr.word.setWidth 32).setWidth 64) counted.1
    (checked.onSegment counted.2)
  { locals := bound.1, records := bound.2, rest := second.2 }

def setSegmentAndOffset (env : Env) (locals : Locals) (immediate : Nat) (p : List UInt8) :
    Outcome :=
  match env.segs[immediate]? with
  | none => { locals := locals.onSegment (some "segment index out of range"), rest := p }
  | some seg =>
    let read := readUleb128 p
    match read.1 with
    | .error error => { locals := locals.onSegment (some error), rest := read.2 }
    | .ok offset =>
      let set := { locals with
        segIndex := some immediate
        segStartAddr := seg.vmaddr
        segOffset := offset }
      { locals := set.checkPlace env true, rest := read.2 }

def addAddr (env : Env) (locals : Locals) (p : List UInt8) : Outcome :=
  if locals.segIndex.isNone then
    { locals := locals.onSegment (some "segment index is invalid"), rest := p }
  else
    let read := readUleb128 p
    match read.1 with
    | .error error => { locals := locals.onSegment (some error), rest := read.2 }
    | .ok delta =>
      let moved := { locals with segOffset := locals.segOffset + delta }
      { locals := moved.checkPlace env true, rest := read.2 }

def threaded (env : Env) (locals : Locals) (immediate : Nat) (p : List UInt8) : Outcome :=
  match immediate with
  | 0 =>
    let read := readUleb128 p
    let sized := locals.count (errorOf read.1)
    { locals := { sized with
        ordinalTableCount := read.1.toOption.getD 0
        ordinalTableIndex := if (errorOf read.1).isSome then -1 else 0
        chained := true }
      rest := read.2 }
  | 1 =>
    let applied := threadedApply env locals
    { locals := applied.1, records := applied.2.1, rest := p }
  | _ => { locals := locals.count (some "bad sub-opcode value"), rest := p, done := true }

/-- The `switch`. -/
def step (env : Env) (locals : Locals) (byte : UInt8) (p : List UInt8) : Outcome :=
  let immediate := (byte &&& 0x0F).toNat
  match (byte &&& 0xF0).toNat with
  | 0x00 => { locals := locals, rest := p, done := true }
  | 0x10 => { locals := locals.setOrdinal env (BitVec.ofNat 32 immediate), rest := p }
  | 0x20 =>
    let read := readUleb128 p
    match read.1 with
    | .ok value => { locals := locals.setOrdinal env (value.setWidth 32), rest := read.2 }
    | .error error =>
      { locals := { locals.count (some error) with
          libraryOrdinal := 0
          libraryOrdinalSet := false }
        rest := read.2 }
  | 0x30 =>
    { locals := locals.setOrdinal env (specialOrdinal (BitVec.ofNat 64 immediate)), rest := p }
  | 0x40 =>
    let scanned := scanName p
    let named := locals.count (if scanned.1.isNone then some "symbol name extends past opcodes"
      else none)
    { locals := { named with
        symbolName := scanned.1
        flags := UInt8.ofNat immediate
        weakImport := UInt8.ofNat immediate &&& 1 ≠ 0 }
      rest := scanned.2 }
  | 0x50 =>
    if immediate = 0 ∨ 3 < immediate then
      { locals := { locals.count (some "bad bind type") with type := 0 }, rest := p }
    else { locals := { locals with type := UInt8.ofNat immediate }, rest := p }
  | 0x60 =>
    let read := readSleb128 p
    { locals := { locals.count (errorOf read.1) with addend := read.1.toOption.getD 0 }
      rest := read.2 }
  | 0x70 => setSegmentAndOffset env locals immediate p
  | 0x80 => addAddr env locals p
  | 0x90 => doBind env locals p
  | 0xA0 =>
    let read := readUleb128 p
    doBindAdd env locals read.1 read.2
  | 0xB0 => doBindAdd env locals (.ok (BitVec.ofNat 64 immediate * env.ptr.word)) p
  | 0xC0 => doBindSkipping env locals p
  | 0xD0 => threaded env locals immediate p
  | _ => { locals := locals.count (some "bad opcode value"), rest := p, done := true }

def maxErrorCount : Nat := 20

/-- `while(!done && (p < end) && errorCount < MAXERRORCOUNT)`; every turn consumes a
byte, so the length of the opcodes is fuel enough. -/
def loop (env : Env) : Nat → Locals → List UInt8 → Locals × List DyldBindInfo
  | 0, locals, _ => (locals, [])
  | _ + 1, locals, [] => (locals, [])
  | fuel + 1, locals, byte :: p =>
    if maxErrorCount ≤ locals.errorCount then (locals, [])
    else
      let outcome := step env locals byte p
      if outcome.done then (outcome.locals, outcome.records)
      else
        let more := loop env fuel outcome.locals outcome.rest
        (more.1, outcome.records ++ more.2)

/-- What the second pass starts with. -/
def Locals.again (locals : Locals) : Locals :=
  { ordinalTableCount := locals.ordinalTableCount
    ordinalTable := locals.ordinalTable
    chained := locals.chained
    errorCount := locals.errorCount }

/-- An entry that the second pass did not reach. -/
def DyldBindInfo.zero : DyldBindInfo := ⟨0, 0, 0, 0, none, false, 0, false, 0, false, 0⟩

/-- The records that `get_dyld_bind_info` returns, and its error count. -/
def getDyldBindInfo (env : Env) (bytes : List UInt8) : List DyldBindInfo × Nat :=
  let first := loop env bytes.length {} bytes
  if maxErrorCount ≤ first.1.errorCount then ([], first.1.errorCount)
  else
    let second := loop env bytes.length first.1.again bytes
    (second.2 ++ List.replicate (first.2.length - second.2.length) .zero, second.1.errorCount)

end Cctools.Otool
