/-
# Cctools.Theory.LineProgram -- the machine behind a line table

A DWARF line table is kept as a program.  A machine with a register for each column
of the table runs it, and some of the opcodes copy the registers to a new row; a row
is therefore a value of the registers.

`readOp` takes one opcode with its operands from bytes, `step` runs it, `rows` is the
table.  `Reads` says which opcodes bytes are, piece by piece, so that what a writer
writes can be followed without reading it back as a whole (`rows_of_reads`).
-/
import Cctools.Theory.Bytes
import Cctools.Theory.Leb128
import Cctools.Theory.Transducer

namespace Cctools.Theory.LineProgram

set_option autoImplicit false

/-- The parameters of a program. -/
structure Header where
  minimumInstructionLength : Nat
  defaultIsStmt : Bool
  lineBase : Int
  lineRange : Nat
  opcodeBase : Nat
  deriving DecidableEq, Repr

structure Registers (width : Nat) where
  address : BitVec width
  file : BitVec 32
  line : BitVec 32
  column : BitVec 32
  isa : BitVec 32
  isStmt : Bool
  basicBlock : Bool
  prologueEnd : Bool
  epilogueBegin : Bool
  endSequence : Bool
  deriving DecidableEq, Repr

inductive Op (width : Nat) where
  | special (opcode : Nat)
  | copy
  | advancePc (delta : Nat)
  | advanceLine (delta : Int)
  | setFile (file : Nat)
  | setColumn (column : Nat)
  | negateStmt
  | setBasicBlock
  | constAddPc
  | fixedAdvancePc (delta : Nat)
  | setPrologueEnd
  | setEpilogueBegin
  | setIsa (isa : Nat)
  | endSequence
  | setAddress (address : BitVec width)
  deriving DecidableEq, Repr

section Machine

variable {width : Nat} (header : Header)

/-- The registers at the start of a sequence. -/
def start : Registers width where
  address := 0
  file := 1
  line := 1
  column := 0
  isa := 0
  isStmt := header.defaultIsStmt
  basicBlock := false
  prologueEnd := false
  epilogueBegin := false
  endSequence := false

def Registers.advance (registers : Registers width) (delta : Nat) : Registers width :=
  { registers with
    address := registers.address + BitVec.ofNat width (header.minimumInstructionLength * delta) }

def Registers.advanceLine (registers : Registers width) (delta : Int) : Registers width :=
  { registers with line := registers.line + BitVec.ofInt 32 delta }

/-- A new row; what marks a single one is cleared. -/
def Registers.copy (registers : Registers width) : Registers width × List (Registers width) :=
  ({ registers with basicBlock := false, prologueEnd := false, epilogueBegin := false }, [registers])

def step (registers : Registers width) : Op width → Registers width × List (Registers width)
  | .special opcode =>
    let adjusted := opcode - header.opcodeBase
    ((registers.advance header (adjusted / header.lineRange)).advanceLine
      (header.lineBase + (adjusted % header.lineRange : Nat))).copy
  | .copy => registers.copy
  | .advancePc delta => (registers.advance header delta, [])
  | .advanceLine delta => (registers.advanceLine delta, [])
  | .setFile file => ({ registers with file := BitVec.ofNat 32 file }, [])
  | .setColumn column => ({ registers with column := BitVec.ofNat 32 column }, [])
  | .negateStmt => ({ registers with isStmt := !registers.isStmt }, [])
  | .setBasicBlock => ({ registers with basicBlock := true }, [])
  | .constAddPc => (registers.advance header ((255 - header.opcodeBase) / header.lineRange), [])
  | .fixedAdvancePc delta => ({ registers with address := registers.address + BitVec.ofNat width delta }, [])
  | .setPrologueEnd => ({ registers with prologueEnd := true }, [])
  | .setEpilogueBegin => ({ registers with epilogueBegin := true }, [])
  | .setIsa isa => ({ registers with isa := BitVec.ofNat 32 isa }, [])
  | .endSequence => (start header, [{ registers with endSequence := true }])
  | .setAddress address => ({ registers with address := address }, [])

variable {header}

theorem step_advancePc (registers : Registers width) (delta : Nat) :
    step header registers (.advancePc delta) = (registers.advance header delta, []) := rfl

theorem step_constAddPc (registers : Registers width) :
    step header registers .constAddPc = (registers.advance header ((255 - header.opcodeBase) / header.lineRange), []) :=
  rfl

@[simp] theorem Registers.advance_zero (registers : Registers width) : registers.advance header 0 = registers := by
  simp [Registers.advance]

@[simp] theorem Registers.advanceLine_zero (registers : Registers width) : registers.advanceLine 0 = registers := by
  simp [Registers.advanceLine]

theorem Registers.advance_advance (registers : Registers width) (first second : Nat) :
    (registers.advance header first).advance header second = registers.advance header (first + second) := by
  simp only [Registers.advance, Nat.mul_add, BitVec.ofNat_add, BitVec.add_assoc]

end Machine

/-! ## Bytes -/

section Reader

variable {width : Nat} (header : Header) (bigEndian : Bool)

/-- A number of `size` bytes. -/
def readFixed (size : Nat) (bytes : List UInt8) : Option (Nat × List UInt8) :=
  if bytes.length < size then none
  else some (if bigEndian then readBe size bytes else readLe size bytes, bytes.drop size)

def readUnsigned (op : Nat → Op width) (bytes : List UInt8) : Option (Op width × List UInt8) :=
  match Leb128.readUleb 64 bytes with
  | .ok (value, rest) => some (op value, rest)
  | .error _ => none

/-- An extended opcode, behind its zero. -/
def readExtended (bytes : List UInt8) : Option (Op width × List UInt8) :=
  match Leb128.readUleb 64 bytes with
  | .ok (length, 1 :: rest) => if length = 1 then some (.endSequence, rest) else none
  | .ok (length, 2 :: rest) =>
    if length = width / 8 + 1 then
      (readFixed bigEndian (width / 8) rest).map fun (address, rest) => (.setAddress (BitVec.ofNat width address), rest)
    else none
  | _ => none

def readOp : List UInt8 → Option (Op width × List UInt8)
  | [] => none
  | opcode :: rest =>
    if header.opcodeBase ≤ opcode.toNat then some (.special opcode.toNat, rest)
    else
      match opcode.toNat with
      | 0 => readExtended bigEndian rest
      | 1 => some (.copy, rest)
      | 2 => readUnsigned .advancePc rest
      | 3 => (Leb128.readSleb rest).map fun (delta, rest) => (.advanceLine delta, rest)
      | 4 => readUnsigned .setFile rest
      | 5 => readUnsigned .setColumn rest
      | 6 => some (.negateStmt, rest)
      | 7 => some (.setBasicBlock, rest)
      | 8 => some (.constAddPc, rest)
      | 9 => (readFixed bigEndian 2 rest).map fun (delta, rest) => (.fixedAdvancePc delta, rest)
      | 10 => some (.setPrologueEnd, rest)
      | 11 => some (.setEpilogueBegin, rest)
      | 12 => readUnsigned .setIsa rest
      | _ => none

def readFrom : Nat → List UInt8 → Option (List (Op width))
  | _, [] => some []
  | 0, _ :: _ => none
  | fuel + 1, byte :: bytes =>
    (readOp header bigEndian (byte :: bytes)).bind fun (op, rest) => (readFrom fuel rest).map (op :: ·)

/-- The table of a program. -/
def rows (bytes : List UInt8) : Option (List (Registers width)) :=
  (readFrom header bigEndian bytes.length bytes).map fun ops =>
    (Transducer.run (step header) (start header) ops).2

/-- The bytes are one opcode, whatever is behind them. -/
def ReadsOp (bytes : List UInt8) (op : Op width) : Prop :=
  bytes ≠ [] ∧ ∀ rest, readOp header bigEndian (bytes ++ rest) = some (op, rest)

inductive Reads : List UInt8 → List (Op width) → Prop where
  | nil : Reads [] []
  | cons {bytes more : List UInt8} {op : Op width} {ops : List (Op width)} :
      ReadsOp header bigEndian bytes op → Reads more ops → Reads (bytes ++ more) (op :: ops)

variable {header bigEndian}

theorem Reads.single {bytes : List UInt8} {op : Op width} (reads : ReadsOp header bigEndian bytes op) :
    Reads header bigEndian bytes [op] := by
  have whole := Reads.cons reads .nil
  rwa [List.append_nil] at whole

theorem Reads.append {first second : List UInt8} {ops more : List (Op width)}
    (left : Reads header bigEndian first ops) (right : Reads header bigEndian second more) :
    Reads header bigEndian (first ++ second) (ops ++ more) := by
  induction left with
  | nil => exact right
  | cons one _ ih =>
    rw [List.append_assoc, List.cons_append]
    exact .cons one ih

theorem readFrom_of_reads {bytes : List UInt8} {ops : List (Op width)} (reads : Reads header bigEndian bytes ops)
    {fuel : Nat} (enough : bytes.length ≤ fuel) : readFrom header bigEndian fuel bytes = some ops := by
  induction reads generalizing fuel with
  | nil => cases fuel <;> rfl
  | @cons bytes more op ops one _ ih =>
    obtain ⟨byte, others, rfl⟩ := List.exists_cons_of_ne_nil one.1
    rw [List.length_append, List.length_cons] at enough
    obtain ⟨fuel, rfl⟩ : ∃ less, fuel = less + 1 := ⟨fuel - 1, by omega⟩
    have read := one.2 more
    rw [List.cons_append] at read ⊢
    rw [readFrom, read, Option.bind_some]
    dsimp only
    rw [ih (by omega)]
    rfl

/-- **The table of bytes that are known piece by piece.** -/
theorem rows_of_reads {bytes : List UInt8} {ops : List (Op width)} (reads : Reads header bigEndian bytes ops) :
    rows header bigEndian bytes = some (Transducer.run (step header) (start header) ops).2 := by
  rw [rows, readFrom_of_reads reads (Nat.le_refl _)]
  rfl

/-! ### The opcodes without operands -/

theorem readsOp_special {opcode : Nat} (special : header.opcodeBase ≤ opcode) (byte : opcode < 256) :
    ReadsOp header bigEndian [UInt8.ofNat opcode] (.special opcode : Op width) := by
  refine ⟨List.cons_ne_nil _ _, fun rest => ?_⟩
  have same : (UInt8.ofNat opcode).toNat = opcode := by
    rw [UInt8.toNat_ofNat']
    omega
  rw [List.singleton_append, readOp, same, if_pos special]

/-- The standard opcodes that stand alone. -/
def plainOp : Nat → Option (Op width)
  | 1 => some .copy
  | 6 => some .negateStmt
  | 7 => some .setBasicBlock
  | 8 => some .constAddPc
  | 10 => some .setPrologueEnd
  | 11 => some .setEpilogueBegin
  | _ => none

theorem readsOp_plain {opcode : Nat} {op : Op width} (base : 13 ≤ header.opcodeBase)
    (plain : plainOp opcode = some op) : ReadsOp header bigEndian [UInt8.ofNat opcode] op := by
  refine ⟨List.cons_ne_nil _ _, fun rest => ?_⟩
  rw [List.singleton_append, readOp]
  unfold plainOp at plain
  split at plain <;>
    first
      | (rw [if_neg (by simp; omega)]; cases plain; rfl)
      | cases plain

/-- The opcodes with an unsigned operand. -/
def unsignedOp : Nat → Option (Nat → Op width)
  | 2 => some .advancePc
  | 4 => some .setFile
  | 5 => some .setColumn
  | 12 => some .setIsa
  | _ => none

theorem readsOp_unsigned {opcode value : Nat} {op : Nat → Op width} {operand : List UInt8}
    (base : 13 ≤ header.opcodeBase) (takes : unsignedOp opcode = some op)
    (read : ∀ rest, Leb128.readUleb 64 (operand ++ rest) = .ok (value, rest)) :
    ReadsOp header bigEndian (UInt8.ofNat opcode :: operand) (op value) := by
  refine ⟨List.cons_ne_nil _ _, fun rest => ?_⟩
  rw [List.cons_append, readOp]
  unfold unsignedOp at takes
  split at takes <;>
    first
      | (rw [if_neg (by simp; omega)]; cases takes; simp [readUnsigned, read])
      | cases takes

theorem readsOp_advanceLine {delta : Int} {operand : List UInt8} (base : 13 ≤ header.opcodeBase)
    (read : ∀ rest, Leb128.readSleb (operand ++ rest) = some (delta, rest)) :
    ReadsOp header bigEndian (3 :: operand) (.advanceLine delta : Op width) := by
  refine ⟨List.cons_ne_nil _ _, fun rest => ?_⟩
  rw [List.cons_append, readOp, if_neg (by simp; omega)]
  simp [read]

theorem readsOp_endSequence (base : 13 ≤ header.opcodeBase) :
    ReadsOp header bigEndian [0, 1, 1] (.endSequence : Op width) := by
  refine ⟨List.cons_ne_nil _ _, fun rest => ?_⟩
  rw [List.cons_append, readOp, if_neg (by simp; omega)]
  rfl

/-- A number of `size` bytes as `readFixed` takes it. -/
def fixedBytes (bigEndian : Bool) (size value : Nat) : List UInt8 :=
  if bigEndian then beBytes size value else (beBytes size value).reverse

theorem readFixed_fixedBytes (size value : Nat) (rest : List UInt8) :
    readFixed bigEndian size (fixedBytes bigEndian size value ++ rest) = some (value % 256 ^ size, rest) := by
  have long : (fixedBytes bigEndian size value).length = size := by
    unfold fixedBytes
    split <;> simp
  rw [readFixed, if_neg (by rw [List.length_append]; omega), List.drop_append_of_le_length (Nat.le_of_eq long.symm),
    List.drop_of_length_le (Nat.le_of_eq long), List.nil_append]
  unfold fixedBytes
  cases bigEndian with
  | true => simp [readBe_beBytes]
  | false => simp [readLe_reverse_beBytes]

theorem readsOp_setAddress {value : Nat} {operand : List UInt8} (base : 13 ≤ header.opcodeBase)
    (whole : width = 8 * (width / 8))
    (read : ∀ rest, Leb128.readUleb 64 (operand ++ rest) = .ok (width / 8 + 1, rest)) :
    ReadsOp header bigEndian (0 :: (operand ++ 2 :: fixedBytes bigEndian (width / 8) value))
      (.setAddress (BitVec.ofNat width value)) := by
  refine ⟨List.cons_ne_nil _ _, fun rest => ?_⟩
  have kept : BitVec.ofNat width (value % 256 ^ (width / 8)) = BitVec.ofNat width value := by
    have size : 256 ^ (width / 8) = 2 ^ width := by
      conv_rhs => rw [whole, Nat.pow_mul]
    rw [size]
    apply BitVec.eq_of_toNat_eq
    simp
  rw [List.cons_append, readOp, if_neg (by simp; omega)]
  simp only [UInt8.toNat_zero]
  rw [List.append_assoc, List.cons_append, readExtended, read]
  simp only [if_true, readFixed_fixedBytes, Option.map_some, kept]

end Reader

end Cctools.Theory.LineProgram
