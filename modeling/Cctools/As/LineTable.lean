/-
# Cctools.As.LineTable -- the line table of a section

`process_entries` of dwarf2dbg.c writes a line-number program: opcodes for what has
changed since the entry before, and one step of line and address.  A step within a
frag is written at once, one from frag to frag is a frag of its own, which
`relax_section` sizes and `dwarf2dbg_convert_frag` writes (`debugLine`).

`debugLine_rows_iff` runs that program on the machine of `Theory.LineProgram`.  It
has the entries' rows and the end of the sequence exactly when no step of line is
`INT_MAX`, which `emit_inc_line_addr` takes for the end of the sequence, and nothing
is written that a `valueT` takes for a negative number.
-/
import Cctools.As.VariableSizes
import Cctools.Theory.LineProgram

namespace Cctools.As

set_option autoImplicit false

open Cctools.Theory
open Cctools.Theory.LineProgram

/-! ## Entries -/

/-- `struct dwarf2_line_info`; its `flags` by their bits. -/
structure LineInfo where
  filenum : BitVec 32
  line : BitVec 32
  column : BitVec 32
  isa : BitVec 32
  isStmt : Bool
  basicBlock : Bool
  prologueEnd : Bool
  epilogueBegin : Bool
  deriving DecidableEq, Repr

/-- A symbol of the section: `sy_frag` and `n_value`. -/
structure LineLabel where
  frag : Nat
  offset : Nat
  deriving DecidableEq, Repr

structure LineEntry where
  label : LineLabel
  loc : LineInfo
  deriving DecidableEq, Repr

/-- The section of the entries. -/
structure LineSection where
  /-- Where its frags come to be. -/
  place : Nat → Nat
  /-- The `.fill 0` that `add_last_frags_to_sections` has put behind them. -/
  lastFrag : Nat

def LineSection.address (sect : LineSection) (label : LineLabel) : Nat := sect.place label.frag + label.offset

/-- `last_frag_for_seg` and `get_frag_fix`. -/
def LineSection.endLabel (sect : LineSection) : LineLabel := ⟨sect.lastFrag, 0⟩

/-- The variables of `process_entries`; of `flags` only one bit is looked at. -/
structure LineState where
  filenum : BitVec 32
  line : BitVec 32
  column : BitVec 32
  isa : BitVec 32
  isStmt : Bool
  last : Option LineLabel
  deriving DecidableEq, Repr

def LineState.start : LineState := ⟨1, 1, 0, 0, true, none⟩

def LineState.after (entry : LineEntry) : LineState :=
  ⟨entry.loc.filenum, entry.loc.line, entry.loc.column, entry.loc.isa, entry.loc.isStmt, some entry.label⟩

/-- `INT_MAX`, for the end of the sequence. -/
def endDelta : Int := 0x7fffffff

/-! ## What is written -/

/-- Bytes that go into the frag, or a frag of their own. -/
inductive Piece where
  | chars (bytes : List UInt8)
  | dwarf2dbg (lineDelta addrDelta : Int)
  deriving DecidableEq, Repr

def chars (bytes : List Int) : List UInt8 := bytes.map fun byte => UInt8.ofNat byte.toNat

section Writer

variable (bits groups : Nat)

def outUleb128 (value : Nat) : Option (List UInt8) := (outputLeb128Bytes bits groups value false).map chars

/-- `DW_LNS_set_file` and the like, when there is something to set. -/
def setRegister (opcode : Nat) (was now : BitVec 32) : Option (List UInt8) :=
  if was = now then some [] else (outUleb128 bits groups now.toNat).map (UInt8.ofNat opcode :: ·)

def flagOpcodes (isStmt : Bool) (loc : LineInfo) : List UInt8 :=
  (if isStmt ≠ loc.isStmt then [6] else []) ++ (if loc.basicBlock then [7] else []) ++
    (if loc.prologueEnd then [10] else []) ++ if loc.epilogueBegin then [11] else []

def entryOpcodes (state : LineState) (loc : LineInfo) : Option (List UInt8) :=
  (setRegister bits groups 4 state.filenum loc.filenum).bind fun file =>
    (setRegister bits groups 5 state.column loc.column).bind fun column =>
      (setRegister bits groups 12 state.isa loc.isa).map fun isa =>
        file ++ (column ++ (isa ++ flagOpcodes state.isStmt loc))

def outIncLineAddr (lineDelta addrDelta : Int) : Option (List UInt8) :=
  (emitIncLineAddr bits groups lineDelta addrDelta (sizeIncLineAddr bits lineDelta addrDelta)).map chars

variable (bigEndian : Bool) (sect : LineSection)

/-- The address is a fixup, here it has its value. -/
def outSetAddr (label : LineLabel) : Option (List UInt8) :=
  (outUleb128 bits groups (bits / 8 + 1)).map fun size =>
    0 :: (size ++ 2 :: fixedBytes bigEndian (bits / 8) (sect.address label))

/-- A step of line and address. -/
def lineStep (last : Option LineLabel) (lineDelta : Int) (label : LineLabel) : Option (List Piece) :=
  match last with
  | none =>
    (outSetAddr bits groups bigEndian sect label).bind fun address =>
      (outIncLineAddr bits groups lineDelta 0).map fun row => [.chars address, .chars row]
  | some last =>
    if label.frag = last.frag then
      -- fr_address and fr_offset of the one frag go out of the difference
      (outIncLineAddr bits groups lineDelta (label.offset - last.offset)).map fun row => [.chars row]
    else some [.dwarf2dbg lineDelta (sect.address label - sect.address last)]

def processEntry (state : LineState) (entry : LineEntry) : Option (List Piece) :=
  (entryOpcodes bits groups state entry.loc).bind fun opcodes =>
    (lineStep bits groups bigEndian sect state.last (entry.loc.line - state.line).toInt entry.label).map
      (.chars opcodes :: ·)

/-- Of the entries that are left. -/
def processEntries (state : LineState) : List LineEntry → Option (List Piece)
  | [] => lineStep bits groups bigEndian sect state.last endDelta sect.endLabel
  | entry :: rest =>
    (processEntry bits groups bigEndian sect state entry).bind fun pieces =>
      (processEntries (.after entry) rest).map (pieces ++ ·)

end Writer

/-! ## The section they are written to -/

section Section

variable {M : Type} (converter : Converter M)

/-- The frags, with the bytes that are in them already. -/
def lineFrags : List UInt8 → List Piece → List (List UInt8 × Kind M)
  | literal, [] => [(literal, .fill 0)]
  | literal, .chars bytes :: rest => lineFrags (literal ++ bytes) rest
  | literal, .dwarf2dbg lineDelta addrDelta :: rest =>
    (literal, .dwarf2dbg lineDelta addrDelta 0) :: lineFrags [] rest

def lineBodies (frags : List (List UInt8 × Kind M)) : List (Body M) :=
  frags.map fun frag => ⟨frag.1.length, frag.2⟩

/-- The bytes of the frags when they are relaxed. -/
def lineContents (groups : Nat) : List (List UInt8 × Kind M) → List (Frag M) → Option (List UInt8)
  | (literal, _) :: others, frag :: frags =>
    let written :=
      match frag.body.kind with
      | .dwarf2dbg lineDelta addrDelta size =>
        (dwarf2dbgConvertFrag converter.bits groups (lineRoom converter.bits lineDelta) lineDelta addrDelta
          size).map chars
      | _ => some []
    written.bind fun written =>
      (lineContents groups others frags).map fun rest => literal ++ (written ++ rest)
  | _, _ => some []

/-- The program of a section that has entries, when its frags are relaxed. -/
def debugLine (bigEndian : Bool) (sect : LineSection) (groups fuel : Nat) (first : LineEntry)
    (rest : List LineEntry) : Option (List UInt8) :=
  (processEntries converter.bits groups bigEndian sect .start (first :: rest)).bind fun pieces =>
    (relaxSection converter.toMachine fuel (lineBodies (lineFrags [] pieces))).bind
      (lineContents converter groups (lineFrags [] pieces))

/-- What a piece is in the file. -/
def Piece.bytes (bits groups : Nat) : Piece → Option (List UInt8)
  | .chars bytes => some bytes
  | .dwarf2dbg lineDelta addrDelta => outIncLineAddr bits groups lineDelta addrDelta

def piecesBytes (bits groups : Nat) : List Piece → Option (List UInt8)
  | [] => some []
  | piece :: rest =>
    (piece.bytes bits groups).bind fun bytes => (piecesBytes bits groups rest).map (bytes ++ ·)

theorem piecesBytes_append (bits groups : Nat) (first second : List Piece) :
    piecesBytes bits groups (first ++ second) =
      (piecesBytes bits groups first).bind fun bytes => (piecesBytes bits groups second).map (bytes ++ ·) := by
  induction first with
  | nil => simp [piecesBytes]
  | cons piece rest ih =>
    rw [List.cons_append, piecesBytes, piecesBytes, ih]
    cases piece.bytes bits groups with
    | none => rfl
    | some bytes =>
      cases piecesBytes bits groups rest with
      | none => rfl
      | some more => cases piecesBytes bits groups second <;> simp

/-- The frags of lines have their sizes from the first guess on. -/
theorem lineFrags_guess (literal : List UInt8) (pieces : List Piece) (address : Int) :
    ∀ frag ∈ firstGuess converter.toMachine address (lineBodies (lineFrags literal pieces)), ∀ site next,
      (relaxFrag converter.toMachine site next frag.body).2 = 0 := by
  induction pieces generalizing literal address with
  | nil =>
    intro frag member site next
    simp only [lineFrags, lineBodies, List.map_cons, List.map_nil, firstGuess, List.mem_singleton] at member
    subst member
    rfl
  | cons piece rest ih =>
    cases piece with
    | chars bytes => exact ih (literal ++ bytes) address
    | dwarf2dbg lineDelta addrDelta =>
      intro frag member site next
      simp only [lineFrags, lineBodies, List.map_cons, firstGuess, List.mem_cons] at member
      rcases member with rfl | member
      · simp [guess, relaxFrag]
      · exact ih [] _ frag member site next

theorem passFrom_unchanged (before frags : List (Frag M)) (stretch : Int)
    (still : ∀ frag ∈ frags, ∀ site next, (relaxFrag converter.toMachine site next frag.body).2 = 0) :
    ∀ growth ∈ (passFrom converter.toMachine before frags stretch).map Prod.snd, growth = 0 := by
  induction frags generalizing before stretch with
  | nil => exact nofun
  | cons frag rest ih =>
    intro growth member
    rw [passFrom, List.map_cons, List.mem_cons] at member
    rcases member with rfl | member
    · exact still frag List.mem_cons_self _ _
    · exact ih _ _ (fun other inside => still other (List.mem_cons_of_mem _ inside)) growth member

theorem relaxSection_lineFrags (fuel : Nat) (literal : List UInt8) (pieces : List Piece) :
    relaxSection converter.toMachine (fuel + 1) (lineBodies (lineFrags literal pieces)) =
      some (firstGuess converter.toMachine 0 (lineBodies (lineFrags literal pieces))) := by
  have zero := passFrom_unchanged converter [] _ 0 (lineFrags_guess converter literal pieces 0)
  have quiet : (pass converter.toMachine
      (firstGuess converter.toMachine 0 (lineBodies (lineFrags literal pieces)))).2 = false := by
    refine List.any_eq_false.mpr fun growth member => ?_
    rw [zero growth member]
    decide
  rw [relaxSection, Theory.Loop.doWhile, Option.bind_some, quiet, pass_still converter quiet]
  rfl

theorem lineContents_guess (groups : Nat) (literal : List UInt8) (pieces : List Piece)
    (width : converter.bits = 32 ∨ converter.bits = 64) (address : Int) :
    lineContents converter groups (lineFrags literal pieces)
        (firstGuess converter.toMachine address (lineBodies (lineFrags literal pieces))) =
      (piecesBytes converter.bits groups pieces).map (literal ++ ·) := by
  induction pieces generalizing literal address with
  | nil => simp [lineFrags, lineBodies, firstGuess, guess, lineContents, piecesBytes]
  | cons piece rest ih =>
    cases piece with
    | chars bytes =>
      rw [lineFrags, ih (literal ++ bytes) address, piecesBytes, Piece.bytes, Option.bind_some]
      cases piecesBytes converter.bits groups rest <;> simp
    | dwarf2dbg lineDelta addrDelta =>
      have room := sizeIncLineAddr_le_room width lineDelta addrDelta
      have more := ih []
      simp only [lineBodies] at more
      simp only [lineFrags, lineBodies, List.map_cons, firstGuess, guess, lineContents, more,
        dwarf2dbgConvertFrag, if_neg (Int.not_lt.mpr room), piecesBytes, Piece.bytes, outIncLineAddr]
      cases emitIncLineAddr converter.bits groups lineDelta addrDelta
        (sizeIncLineAddr converter.bits lineDelta addrDelta) with
      | none => rfl
      | some bytes => cases piecesBytes converter.bits groups rest <;> simp

/-- **What is in the file** are the pieces, one behind the other. -/
theorem debugLine_eq (width : converter.bits = 32 ∨ converter.bits = 64) (bigEndian : Bool) (sect : LineSection)
    (groups fuel : Nat) (first : LineEntry) (rest : List LineEntry) :
    debugLine converter bigEndian sect groups (fuel + 1) first rest =
      (processEntries converter.bits groups bigEndian sect .start (first :: rest)).bind
        (piecesBytes converter.bits groups) := by
  rw [debugLine]
  refine congrArg _ (funext fun pieces => ?_)
  rw [relaxSection_lineFrags, Option.bind_some, lineContents_guess converter groups [] pieces width 0]
  simp

end Section

/-! ## The bytes -/

section Bytes

variable (bits groups : Nat) (bigEndian : Bool) (sect : LineSection)

/-- What is written for the entries that are left. -/
def programBytes (state : LineState) (entries : List LineEntry) : Option (List UInt8) :=
  (processEntries bits groups bigEndian sect state entries).bind (piecesBytes bits groups)

def stepBytes (last : Option LineLabel) (lineDelta : Int) (label : LineLabel) : Option (List UInt8) :=
  (lineStep bits groups bigEndian sect last lineDelta label).bind (piecesBytes bits groups)

theorem programBytes_cons (state : LineState) (entry : LineEntry) (rest : List LineEntry) :
    programBytes bits groups bigEndian sect state (entry :: rest) =
      (entryOpcodes bits groups state entry.loc).bind fun opcodes =>
        (stepBytes bits groups bigEndian sect state.last (entry.loc.line - state.line).toInt entry.label).bind
          fun step =>
            (programBytes bits groups bigEndian sect (.after entry) rest).map fun more => opcodes ++ (step ++ more) := by
  rw [programBytes, processEntries, processEntry, stepBytes, programBytes]
  cases entryOpcodes bits groups state entry.loc with
  | none => rfl
  | some opcodes =>
    cases lineStep bits groups bigEndian sect state.last (entry.loc.line - state.line).toInt entry.label with
    | none => rfl
    | some moves =>
      cases processEntries bits groups bigEndian sect (.after entry) rest with
      | none => simp
      | some others =>
        simp only [Option.bind_some, Option.map_some, piecesBytes_append, piecesBytes, Piece.bytes]
        cases piecesBytes bits groups moves with
        | none => rfl
        | some first => cases piecesBytes bits groups others <;> simp

theorem stepBytes_none (lineDelta : Int) (label : LineLabel) :
    stepBytes bits groups bigEndian sect none lineDelta label =
      (outSetAddr bits groups bigEndian sect label).bind fun address =>
        (outIncLineAddr bits groups lineDelta 0).map (address ++ ·) := by
  rw [stepBytes, lineStep]
  cases outSetAddr bits groups bigEndian sect label with
  | none => rfl
  | some address =>
    cases outIncLineAddr bits groups lineDelta 0 with
    | none => rfl
    | some row => simp [piecesBytes, Piece.bytes]

/-- Within a frag and from one to another the same is written. -/
theorem stepBytes_some (before : LineLabel) (lineDelta : Int) (label : LineLabel) :
    stepBytes bits groups bigEndian sect (some before) lineDelta label =
      outIncLineAddr bits groups lineDelta (sect.address label - sect.address before) := by
  rw [stepBytes, lineStep]
  split
  · rename_i same
    have delta : (sect.address label : Int) - sect.address before = label.offset - before.offset := by
      simp only [LineSection.address, same]
      omega
    rw [delta]
    cases outIncLineAddr bits groups lineDelta (label.offset - before.offset) with
    | none => rfl
    | some row => simp [piecesBytes, Piece.bytes]
  · cases both : outIncLineAddr bits groups lineDelta (sect.address label - sect.address before) <;>
      simp [piecesBytes, Piece.bytes, both]

end Bytes

/-! ## Operands -/

section Operands

theorem chars_append (first second : List Int) : chars (first ++ second) = chars first ++ chars second :=
  List.map_append

theorem outputUleb128Bytes_digits {fuel : Nat} {value : Int} {bytes : List Int}
    (written : outputUleb128Bytes fuel value = some bytes) :
    chars bytes = Leb128.uleb fuel value.toNat ∧ value.toNat < 128 ^ fuel := by
  have nonneg := outputUleb128Bytes_nonneg written
  induction fuel generalizing value bytes with
  | zero => cases written
  | succ fuel ih =>
    have digit : (value % 128).toNat = value.toNat % 128 := by omega
    have positive : 0 < 128 ^ fuel := Nat.pow_pos (by decide)
    rw [outputUleb128Bytes] at written
    rw [Leb128.uleb, Nat.pow_succ]
    split at written
    · rename_i first
      cases written
      rw [if_pos (by omega)]
      exact ⟨by simp [chars, digit], by omega⟩
    · rename_i more
      obtain ⟨rest, later, rfl⟩ := Option.map_eq_some_iff.mp written
      obtain ⟨same, small⟩ := ih later (by omega)
      have next : (value / 128).toNat = value.toNat / 128 := by omega
      rw [next] at same small
      rw [if_neg (by omega), ← same]
      refine ⟨?_, by omega⟩
      have high : (value % 128 + 128).toNat = value.toNat % 128 + 128 := by omega
      simp only [chars, List.map_cons, high]

theorem sleb_step (fuel : Nat) (value : Int) :
    Leb128.sleb (fuel + 1) (decide (value < 0)) value =
      if value / 128 = 0 ∧ value % 128 < 64 ∨ value / 128 = -1 ∧ 64 ≤ value % 128 then
        [UInt8.ofNat (value % 128).toNat]
      else UInt8.ofNat ((value % 128).toNat + 128) :: Leb128.sleb fuel (decide (value / 128 < 0)) (value / 128) := by
  have sign : decide (value / 128 < 0) = decide (value < 0) := by
    rw [decide_eq_decide]
    omega
  rw [Leb128.sleb, sign]
  by_cases negative : value < 0
  · by_cases last : value / 128 = 0 ∧ value % 128 < 64 ∨ value / 128 = -1 ∧ 64 ≤ value % 128
    · rw [if_pos last]
      simp only [negative, decide_true, if_true]
      rw [if_neg (by omega)]
    · rw [if_neg last]
      simp only [negative, decide_true, if_true]
      rw [if_pos (by omega)]
  · by_cases last : value / 128 = 0 ∧ value % 128 < 64 ∨ value / 128 = -1 ∧ 64 ≤ value % 128
    · rw [if_pos last]
      simp only [negative, decide_false, Bool.false_eq_true, if_false]
      rw [if_neg (by omega)]
    · rw [if_neg last]
      simp only [negative, decide_false, Bool.false_eq_true, if_false]
      rw [if_pos (by omega)]

theorem outputSleb128Bytes_digits {fuel : Nat} {value : Int} {bytes : List Int}
    (written : outputSleb128Bytes (fuel + 1) value = some bytes) :
    chars bytes = Leb128.sleb (fuel + 1) (decide (value < 0)) value ∧ Leb128.Within true fuel value := by
  induction fuel generalizing value bytes with
  | zero =>
    rw [outputSleb128Bytes] at written
    rw [sleb_step]
    split at written
    · rename_i last
      cases written
      rw [if_pos last]
      exact ⟨rfl, (Leb128.within_signed_zero value).mpr last⟩
    · cases written
  | succ fuel ih =>
    rw [outputSleb128Bytes] at written
    rw [sleb_step]
    split at written
    · rename_i last
      cases written
      rw [if_pos last]
      exact ⟨rfl, Leb128.within_longer (Nat.zero_le _) ((Leb128.within_signed_zero value).mpr last)⟩
    · rename_i more
      obtain ⟨rest, later, rfl⟩ := Option.map_eq_some_iff.mp written
      obtain ⟨same, within⟩ := ih later
      have high : (value % 128 + 128).toNat = (value % 128).toNat + 128 := by omega
      rw [if_neg more, ← same]
      exact ⟨by simp only [chars, List.map_cons, high], (Leb128.within_div true fuel value).mpr within⟩

variable {bits fuel : Nat} {value : Int} {bytes : List Int}

/-- **An operand without a sign is read back**, as the `valueT` it is. -/
theorem outputLeb128Bytes_unsigned (width : bits = 32 ∨ bits = 64)
    (written : outputLeb128Bytes bits fuel value false = some bytes) (rest : List UInt8) :
    Leb128.readUleb 64 (chars bytes ++ rest) = .ok ((value.bmod (2 ^ bits)).toNat, rest) := by
  have written : outputUleb128Bytes fuel (value.bmod (2 ^ bits)) = some bytes := written
  obtain ⟨digits, covered⟩ := outputUleb128Bytes_digits written
  obtain ⟨fuel, rfl⟩ : ∃ less, fuel = less + 1 := by
    cases fuel with
    | zero => cases written
    | succ fuel => exact ⟨fuel, rfl⟩
  have high := Int.bmod_lt (x := value) (m := 2 ^ bits) (Nat.two_pow_pos bits)
  rw [digits]
  exact Leb128.readUleb_uleb covered (by obtain rfl | rfl := width <;> omega) (by decide) rest

theorem outputLeb128Bytes_inside (width : bits = 32 ∨ bits = 64) (low : 0 ≤ value) (high : value < 2 ^ bits)
    (written : outputLeb128Bytes bits fuel value false = some bytes) (rest : List UInt8) :
    Leb128.readUleb 64 (chars bytes ++ rest) = .ok (value.toNat, rest) := by
  have nonneg := outputUleb128Bytes_nonneg (written : outputUleb128Bytes fuel (value.bmod (2 ^ bits)) = some bytes)
  have same : value.bmod (2 ^ bits) = value := by
    rw [bmod_eq_taken nonneg]
    exact Int.emod_eq_of_lt low high
  have read := outputLeb128Bytes_unsigned width written rest
  rwa [same] at read

theorem outputLeb128Bytes_signed (written : outputLeb128Bytes bits fuel value true = some bytes)
    (rest : List UInt8) :
    Leb128.readSleb (chars bytes ++ rest) = some (value.bmod (2 ^ bits), rest) := by
  have written : outputSleb128Bytes fuel (value.bmod (2 ^ bits)) = some bytes := written
  obtain ⟨fuel, rfl⟩ : ∃ less, fuel = less + 1 := by
    cases fuel with
    | zero => cases written
    | succ fuel => exact ⟨fuel, rfl⟩
  obtain ⟨digits, lower, upper⟩ := outputSleb128Bytes_digits written
  rw [digits]
  exact Leb128.readSleb_sleb lower upper rest

end Operands

/-! ## Steps -/

/-- What `out_debug_line` puts before the programs. -/
def lineHeader : Header := ⟨1, true, -5, 14, 13⟩

section Steps

variable {bits groups w : Nat} {bigEndian : Bool} {addr line : Int} {bytes : List Int}

theorem advancePc_reads (width : bits = 32 ∨ bits = 64) (low : 0 ≤ addr) (high : addr < 2 ^ bits)
    (written : advancePc bits groups addr = some bytes) :
    Reads lineHeader bigEndian (chars bytes) [(.advancePc addr.toNat : Op w)] := by
  obtain ⟨operand, output, rfl⟩ := Option.map_eq_some_iff.mp written
  have read := outputLeb128Bytes_inside width low high output
  exact .single (readsOp_unsigned (by decide) (show unsignedOp 2 = some Op.advancePc from rfl) read)

theorem advanceLine_reads (width : bits = 32 ∨ bits = 64) {special : Bool}
    (written : advanceLine bits groups special line = some bytes) :
    ∃ ops : List (Op w), Reads lineHeader bigEndian (chars bytes) ops ∧ ∀ registers,
      Transducer.run (step lineHeader) registers ops =
        (if special then registers else registers.advanceLine line, []) := by
  cases special with
  | true =>
    cases written
    exact ⟨[], .nil, fun _ => rfl⟩
  | false =>
    obtain ⟨operand, output, rfl⟩ := Option.map_eq_some_iff.mp written
    refine ⟨[.advanceLine (line.bmod (2 ^ bits))],
      .single (readsOp_advanceLine (by decide) (outputLeb128Bytes_signed output)), fun registers => ?_⟩
    have same : BitVec.ofInt 32 (line.bmod (2 ^ bits)) = BitVec.ofInt 32 line := by
      apply BitVec.eq_of_toInt_eq
      rw [BitVec.toInt_ofInt, BitVec.toInt_ofInt]
      exact Int.bmod_bmod_of_dvd (by obtain rfl | rfl := width <;> decide)
    simp [Transducer.run_cons, step, Registers.advanceLine, same]

theorem special_reads {opcode : Int} (small : -5 ≤ line ∧ line < 9) (low : 0 ≤ addr) (is : opcode = line + 5 + 13 + addr * 14)
    (byte : opcode ≤ 255) :
    ∃ op : Op w, ReadsOp lineHeader bigEndian [UInt8.ofNat opcode.toNat] op ∧ ∀ registers,
      step lineHeader registers op = ((registers.advance lineHeader addr.toNat).advanceLine line).copy := by
  refine ⟨.special opcode.toNat, readsOp_special (by simp only [lineHeader]; omega) (by omega), fun registers => ?_⟩
  have quotient : (opcode.toNat - 13) / 14 = addr.toNat := by omega
  have rest : (-5 : Int) + ((opcode.toNat - 13) % 14 : Nat) = line := by omega
  simp only [step, lineHeader, quotient, rest]

theorem emitRow_reads (width : bits = 32 ∨ bits = 64) {special : Bool} (small : -5 ≤ line ∧ line < 9)
    (still : special = false → line = 0) (low : 0 ≤ addr) (high : addr < 2 ^ bits)
    (written : emitRow bits groups special line addr = some bytes) :
    ∃ ops : List (Op w), Reads lineHeader bigEndian (chars bytes) ops ∧ ∀ registers,
      Transducer.run (step lineHeader) registers ops =
        ((registers.advance lineHeader addr.toNat).advanceLine line).copy := by
  simp only [emitRow] at written
  by_cases copy : line = 0 ∧ addr = 0
  · rw [if_pos copy] at written
    cases written
    refine ⟨[.copy], .single (readsOp_plain (by decide) rfl), fun registers => ?_⟩
    simp [Transducer.run_cons, step, copy]
  · rw [if_neg copy] at written
    by_cases near : addr < 256 + 17 ∧ line + 5 + 13 + addr * 14 ≤ 255
    · rw [if_pos near] at written
      cases written
      obtain ⟨op, reads, runs⟩ := special_reads small low rfl near.2
      exact ⟨[op], .single reads, fun registers => by simp [Transducer.run_cons, runs]⟩
    · rw [if_neg near] at written
      by_cases further : addr < 256 + 17 ∧ line + 5 + 13 + (addr - 17) * 14 ≤ 255
      · rw [if_pos further] at written
        cases written
        obtain ⟨op, reads, runs⟩ := @special_reads w bigEndian _ _ _ small (by omega : 0 ≤ addr - 17) rfl further.2
        have far : (255 - lineHeader.opcodeBase) / lineHeader.lineRange + (addr - 17).toNat = addr.toNat := by
          simp only [lineHeader]
          omega
        refine ⟨[.constAddPc, op], .cons (readsOp_plain (by decide) rfl) (.single reads), fun registers => ?_⟩
        rw [Transducer.run_cons, step_constAddPc, Transducer.run_cons, runs, Registers.advance_advance, far]
        rfl
      · rw [if_neg further] at written
        obtain ⟨advance, output, rfl⟩ := Option.map_eq_some_iff.mp written
        have first := @advancePc_reads bits groups w bigEndian addr advance width low high output
        rw [chars_append]
        cases special with
        | true =>
          obtain ⟨op, reads, runs⟩ := @special_reads w bigEndian 0 line (line + 5 + 13) small (Int.le_refl 0)
            (by omega) (by omega)
          refine ⟨[.advancePc addr.toNat, op], first.append (.single reads), fun registers => ?_⟩
          rw [Transducer.run_cons, step_advancePc, Transducer.run_cons, runs]
          simp
        | false =>
          refine ⟨[.advancePc addr.toNat, .copy], first.append (.single (readsOp_plain (by decide) rfl)),
            fun registers => ?_⟩
          simp [Transducer.run_cons, step, still rfl]

/-- **A step of line and address is one row**, or the end of the sequence. -/
theorem incLineAddrBytes_reads (width : bits = 32 ∨ bits = 64) (low : 0 ≤ addr) (high : addr < 2 ^ bits)
    (written : incLineAddrBytes bits groups line addr = some bytes) :
    ∃ ops : List (Op w), Reads lineHeader bigEndian (chars bytes) ops ∧ ∀ registers,
      Transducer.run (step lineHeader) registers ops =
        if line = endDelta then
          (start lineHeader, [{ registers.advance lineHeader addr.toNat with endSequence := true }])
        else ((registers.advance lineHeader addr.toNat).advanceLine line).copy := by
  unfold incLineAddrBytes at written
  split at written
  · rename_i ends
    have ends : line = endDelta := ends
    obtain ⟨advance, output, rfl⟩ := Option.map_eq_some_iff.mp written
    have last : Reads lineHeader bigEndian (chars [0, 1, 1]) [(.endSequence : Op w)] :=
      .single (readsOp_endSequence (by decide))
    rw [chars_append]
    split at output
    · rename_i far
      cases output
      refine ⟨[.constAddPc, .endSequence], .append (.single (readsOp_plain (by decide) rfl)) last, fun registers => ?_⟩
      rw [if_pos ends, far]
      simp [Transducer.run_cons, step, lineHeader]
    · refine ⟨[.advancePc addr.toNat, .endSequence], (advancePc_reads width low high output).append last,
        fun registers => ?_⟩
      rw [if_pos ends]
      simp [Transducer.run_cons, step]
  · rename_i goes
    have goes : ¬ line = endDelta := goes
    obtain ⟨advance, first, written⟩ := Option.bind_eq_some_iff.mp written
    obtain ⟨row, second, rfl⟩ := Option.map_eq_some_iff.mp written
    rw [chars_append]
    obtain ⟨opsFirst, readsFirst, runsFirst⟩ := advanceLine_reads width first
    by_cases special : 0 ≤ line + 5 ∧ line + 5 < 14
    · simp only [special, and_self, decide_true, if_true] at second runsFirst
      obtain ⟨opsSecond, readsSecond, runsSecond⟩ :=
        @emitRow_reads _ _ w bigEndian _ _ _ width _ (by omega) (fun no => by cases no) low high second
      refine ⟨opsFirst ++ opsSecond, readsFirst.append readsSecond, fun registers => ?_⟩
      rw [if_neg goes, Transducer.run_append, runsFirst, runsSecond]
      rfl
    · simp only [special, decide_false, if_false, Bool.false_eq_true] at second runsFirst
      obtain ⟨opsSecond, readsSecond, runsSecond⟩ :=
        @emitRow_reads _ _ w bigEndian _ _ _ width _ (by omega) (fun _ => rfl) low high second
      refine ⟨opsFirst ++ opsSecond, readsFirst.append readsSecond, fun registers => ?_⟩
      rw [if_neg goes, Transducer.run_append, runsFirst, runsSecond, Registers.advanceLine_zero]
      rfl

end Steps

/-! ## Rows -/

section Rows

variable {bits groups : Nat} {bigEndian : Bool} {sect : LineSection}

/-- The row of an entry. -/
def LineSection.row (sect : LineSection) (bits : Nat) (entry : LineEntry) : Registers bits where
  address := BitVec.ofNat bits (sect.address entry.label)
  file := entry.loc.filenum
  line := entry.loc.line
  column := entry.loc.column
  isa := entry.loc.isa
  isStmt := entry.loc.isStmt
  basicBlock := entry.loc.basicBlock
  prologueEnd := entry.loc.prologueEnd
  epilogueBegin := entry.loc.epilogueBegin
  endSequence := false

/-- The registers when an entry is done. -/
def LineState.registers (state : LineState) (address : BitVec bits) : Registers bits where
  address := address
  file := state.filenum
  line := state.line
  column := state.column
  isa := state.isa
  isStmt := state.isStmt
  basicBlock := false
  prologueEnd := false
  epilogueBegin := false
  endSequence := false

/-- The table of the entries that are left: a row each, and the end of the section. -/
def LineSection.table (sect : LineSection) (bits : Nat) (state : LineState) :
    List LineEntry → List (Registers bits)
  | [] => [{ state.registers (BitVec.ofNat bits (sect.address sect.endLabel)) with endSequence := true }]
  | entry :: rest => sect.row bits entry :: sect.table bits (.after entry) rest

theorem setRegister_reads (width : bits = 32 ∨ bits = 64) {opcode : Nat} {op : Nat → Op bits} {was now : BitVec 32}
    {bytes : List UInt8} (takes : unsignedOp opcode = some op)
    (written : setRegister bits groups opcode was now = some bytes) :
    Reads lineHeader bigEndian bytes (if was = now then [] else [op now.toNat]) := by
  unfold setRegister at written
  split at written
  · cases written
    rw [if_pos (by assumption)]
    exact .nil
  · rw [if_neg (by assumption)]
    obtain ⟨_, operand_, rfl⟩ := Option.map_eq_some_iff.mp written
    obtain ⟨operand, output, rfl⟩ := Option.map_eq_some_iff.mp operand_
    have small : (now.toNat : Int) < 2 ^ bits := by
      have := now.isLt
      obtain rfl | rfl := width <;> omega
    have read := outputLeb128Bytes_inside width (Int.natCast_nonneg _) small output
    exact .single (readsOp_unsigned (by decide) takes (by simpa using read))

theorem setRegister_runs {op : Nat → Op bits} {was now : BitVec 32} {registers next : Registers bits}
    (still : was = now → registers = next) (sets : step lineHeader registers (op now.toNat) = (next, [])) :
    Transducer.run (step lineHeader) registers (if was = now then [] else [op now.toNat]) = (next, []) := by
  split
  · rename_i same
    rw [Transducer.run_nil, still same]
  · rw [Transducer.run_cons, sets]
    rfl

def flagOps (isStmt : Bool) (loc : LineInfo) : List (Op bits) :=
  (if isStmt ≠ loc.isStmt then [.negateStmt] else []) ++ (if loc.basicBlock then [.setBasicBlock] else []) ++
    (if loc.prologueEnd then [.setPrologueEnd] else []) ++ if loc.epilogueBegin then [.setEpilogueBegin] else []

theorem flagOpcodes_reads (isStmt : Bool) (loc : LineInfo) :
    Reads lineHeader bigEndian (flagOpcodes isStmt loc) (flagOps isStmt loc : List (Op bits)) := by
  have one : ∀ {condition : Prop} [Decidable condition] {opcode : Nat} {op : Op bits}, plainOp opcode = some op →
      Reads lineHeader bigEndian (if condition then [UInt8.ofNat opcode] else []) (if condition then [op] else []) := by
    intro condition _ opcode op plain
    split
    · exact .single (readsOp_plain (by decide) plain)
    · exact .nil
  exact (((one rfl).append (one rfl)).append (one rfl)).append (one rfl)

theorem flagOps_runs (loc : LineInfo) (registers : Registers bits) (plain : registers.basicBlock = false)
    (plainPrologue : registers.prologueEnd = false) (plainEpilogue : registers.epilogueBegin = false) :
    Transducer.run (step lineHeader) registers (flagOps registers.isStmt loc) =
      ({ registers with
          isStmt := loc.isStmt, basicBlock := loc.basicBlock, prologueEnd := loc.prologueEnd,
          epilogueBegin := loc.epilogueBegin }, []) := by
  obtain ⟨address, file, line, column, isa, isStmt, basicBlock, prologueEnd, epilogueBegin, ends⟩ := registers
  obtain ⟨filenum, line', column', isa', stmt, block, prologue, epilogue⟩ := loc
  dsimp only at plain plainPrologue plainEpilogue
  subst plain plainPrologue plainEpilogue
  cases isStmt <;> cases stmt <;> cases block <;> cases prologue <;> cases epilogue <;> rfl

/-- **What has changed is set**, and the marks of the row. -/
theorem entryOpcodes_reads (width : bits = 32 ∨ bits = 64) {state : LineState} {entry : LineEntry} {bytes : List UInt8}
    (written : entryOpcodes bits groups state entry.loc = some bytes) :
    ∃ ops : List (Op bits), Reads lineHeader bigEndian bytes ops ∧ ∀ address,
      Transducer.run (step lineHeader) (state.registers address) ops =
        ({ sect.row bits entry with address := address, line := state.line }, []) := by
  obtain ⟨file, setFile, more⟩ := Option.bind_eq_some_iff.mp written
  obtain ⟨column, setColumn, more⟩ := Option.bind_eq_some_iff.mp more
  obtain ⟨isa, setIsa, rfl⟩ := Option.map_eq_some_iff.mp more
  refine ⟨_, (setRegister_reads width (show unsignedOp 4 = some Op.setFile from rfl) setFile).append
    ((setRegister_reads width (show unsignedOp 5 = some Op.setColumn from rfl) setColumn).append
      ((setRegister_reads width (show unsignedOp 12 = some Op.setIsa from rfl) setIsa).append
        (flagOpcodes_reads state.isStmt entry.loc))), fun address => ?_⟩
  have runFile : Transducer.run (step lineHeader) (state.registers address)
      (if state.filenum = entry.loc.filenum then [] else [.setFile entry.loc.filenum.toNat]) =
        ({ state.registers address with file := entry.loc.filenum }, []) :=
    setRegister_runs (fun same => by rw [← same]; rfl) (by simp [step])
  have runColumn : Transducer.run (step lineHeader) { state.registers address with file := entry.loc.filenum }
      (if state.column = entry.loc.column then [] else [.setColumn entry.loc.column.toNat]) =
        ({ state.registers address with file := entry.loc.filenum, column := entry.loc.column }, []) :=
    setRegister_runs (fun same => by rw [← same]; rfl) (by simp [step])
  have runIsa : Transducer.run (step lineHeader)
      { state.registers address with file := entry.loc.filenum, column := entry.loc.column }
      (if state.isa = entry.loc.isa then [] else [.setIsa entry.loc.isa.toNat]) =
        ({ state.registers address with
            file := entry.loc.filenum, column := entry.loc.column, isa := entry.loc.isa }, []) :=
    setRegister_runs (fun same => by rw [← same]; rfl) (by simp [step])
  rw [Transducer.run_append_of_silent _ runFile, Transducer.run_append_of_silent _ runColumn,
    Transducer.run_append_of_silent _ runIsa]
  exact flagOps_runs entry.loc
    { state.registers address with file := entry.loc.filenum, column := entry.loc.column, isa := entry.loc.isa }
    rfl rfl rfl

theorem outIncLineAddr_reads (width : bits = 32 ∨ bits = 64) {lineDelta addrDelta : Int} {bytes : List UInt8}
    (low : 0 ≤ addrDelta) (high : addrDelta < 2 ^ bits)
    (written : outIncLineAddr bits groups lineDelta addrDelta = some bytes) :
    ∃ ops : List (Op bits), Reads lineHeader bigEndian bytes ops ∧ ∀ registers,
      Transducer.run (step lineHeader) registers ops =
        if lineDelta = endDelta then
          (start lineHeader, [{ registers.advance lineHeader addrDelta.toNat with endSequence := true }])
        else ((registers.advance lineHeader addrDelta.toNat).advanceLine lineDelta).copy := by
  obtain ⟨row, emitted, rfl⟩ := Option.map_eq_some_iff.mp written
  rw [emitIncLineAddr] at emitted
  split at emitted
  · cases emitted
  · obtain ⟨_, output, checked⟩ := Option.bind_eq_some_iff.mp emitted
    split at checked
    · cases checked
      rw [Int.emod_eq_of_lt low high] at output
      exact incLineAddrBytes_reads width low high output
    · cases checked

/-- **A step leads to its label.** -/
theorem stepBytes_reads (width : bits = 32 ∨ bits = 64) {last : Option LineLabel} {lineDelta : Int} {label : LineLabel}
    {bytes : List UInt8} (written : stepBytes bits groups bigEndian sect last lineDelta label = some bytes)
    (forward : ∀ before ∈ last, sect.address before ≤ sect.address label) (inside : sect.address label < 2 ^ bits) :
    ∃ ops : List (Op bits), Reads lineHeader bigEndian bytes ops ∧ ∀ registers,
      (∀ before ∈ last, registers.address = BitVec.ofNat bits (sect.address before)) →
      Transducer.run (step lineHeader) registers ops =
        if lineDelta = endDelta then
          (start lineHeader,
            [{ registers with address := BitVec.ofNat bits (sect.address label), endSequence := true }])
        else ({ registers with address := BitVec.ofNat bits (sect.address label) }.advanceLine lineDelta).copy := by
  cases last with
  | none =>
    rw [stepBytes_none] at written
    obtain ⟨address, setAddress, more⟩ := Option.bind_eq_some_iff.mp written
    obtain ⟨row, output, rfl⟩ := Option.map_eq_some_iff.mp more
    obtain ⟨size, sized, rfl⟩ := Option.map_eq_some_iff.mp setAddress
    obtain ⟨operand, leb128, rfl⟩ := Option.map_eq_some_iff.mp sized
    have small : ((bits / 8 + 1 : Nat) : Int) < 2 ^ bits := by
      obtain rfl | rfl := width <;> decide
    have read := outputLeb128Bytes_inside width (Int.natCast_nonneg _) small leb128
    rw [Int.toNat_natCast] at read
    obtain ⟨ops, reads, runs⟩ := @outIncLineAddr_reads bits groups bigEndian width _ _ _ (Int.le_refl 0)
      (Int.pow_pos (by decide)) output
    refine ⟨.setAddress (BitVec.ofNat bits (sect.address label)) :: ops, .cons
      (readsOp_setAddress (by decide) (by obtain rfl | rfl := width <;> rfl) read) reads, fun registers _ => ?_⟩
    rw [Transducer.run_cons]
    simp only [step, runs, Int.toNat_zero, Registers.advance_zero]
    rfl
  | some before =>
    have ordered := forward before rfl
    have limit : (sect.address label : Int) < 2 ^ bits := by exact_mod_cast inside
    rw [stepBytes_some] at written
    obtain ⟨ops, reads, runs⟩ := @outIncLineAddr_reads bits groups bigEndian width _ _ _ (by omega)
      (by omega) written
    refine ⟨ops, reads, fun registers at_ => ?_⟩
    have moved : registers.advance lineHeader ((sect.address label : Int) - sect.address before).toNat =
        { registers with address := BitVec.ofNat bits (sect.address label) } := by
      have far : sect.address before + 1 * ((sect.address label : Int) - sect.address before).toNat =
          sect.address label := by omega
      rw [Registers.advance, at_ before rfl, lineHeader, ← BitVec.ofNat_add, far]
    rw [runs, moved]

/-- No step of line is `INT_MAX`. -/
def NoSentinel (state : LineState) : List LineEntry → Prop
  | [] => True
  | entry :: rest => (entry.loc.line - state.line).toInt ≠ endDelta ∧ NoSentinel (.after entry) rest

/-- The labels that are left are in order, and so is the end of the section. -/
def LineSection.Ascends (sect : LineSection) (last : Option LineLabel) : List LineEntry → Prop
  | [] => ∀ before ∈ last, sect.address before ≤ sect.address sect.endLabel
  | entry :: rest =>
    (∀ before ∈ last, sect.address before ≤ sect.address entry.label) ∧ sect.Ascends (some entry.label) rest

theorem LineSection.Ascends.le_end {last : Option LineLabel} {entries : List LineEntry}
    (ascends : sect.Ascends last entries) : ∀ before ∈ last, sect.address before ≤ sect.address sect.endLabel := by
  induction entries generalizing last with
  | nil => exact ascends
  | cons entry rest ih =>
    intro before is
    exact Nat.le_trans (ascends.1 before is) (ih ascends.2 entry.label rfl)

/-- The registers are those of the entry when its label is reached. -/
theorem entry_reached (state : LineState) (entry : LineEntry) (address : BitVec bits) :
    ({ { sect.row bits entry with address := address, line := state.line } with
        address := BitVec.ofNat bits (sect.address entry.label) }.advanceLine
          (entry.loc.line - state.line).toInt).copy =
      ((LineState.after entry).registers (BitVec.ofNat bits (sect.address entry.label)), [sect.row bits entry]) := by
  have line : state.line + BitVec.ofInt 32 (entry.loc.line - state.line).toInt = entry.loc.line := by
    rw [BitVec.ofInt_toInt, BitVec.add_comm, BitVec.sub_add_cancel]
  simp only [Registers.advanceLine, Registers.copy, line]
  rfl

/-- **The rows of the program** are the table, unless a step of line is taken for the end. -/
theorem programBytes_runs (width : bits = 32 ∨ bits = 64) (inside : sect.address sect.endLabel < 2 ^ bits)
    {state : LineState} {entries : List LineEntry} {bytes : List UInt8} (ascends : sect.Ascends state.last entries)
    (written : programBytes bits groups bigEndian sect state entries = some bytes) {address : BitVec bits}
    (at_ : ∀ before ∈ state.last, address = BitVec.ofNat bits (sect.address before)) :
    ∃ ops : List (Op bits), Reads lineHeader bigEndian bytes ops ∧
      ((Transducer.run (step lineHeader) (state.registers address) ops).2 = sect.table bits state entries ↔
        NoSentinel state entries) := by
  induction entries generalizing state bytes address with
  | nil =>
    obtain ⟨ops, reads, runs⟩ := stepBytes_reads width written ascends inside
    refine ⟨ops, reads, iff_of_true ?_ trivial⟩
    rw [runs _ at_, if_pos rfl]
    rfl
  | cons entry rest ih =>
    rw [programBytes_cons] at written
    obtain ⟨opcodes, set, more⟩ := Option.bind_eq_some_iff.mp written
    obtain ⟨moves, stepped, more⟩ := Option.bind_eq_some_iff.mp more
    obtain ⟨behind, later, rfl⟩ := Option.map_eq_some_iff.mp more
    have small : sect.address entry.label < 2 ^ bits :=
      Nat.lt_of_le_of_lt (ascends.2.le_end entry.label rfl) inside
    obtain ⟨opsSet, readsSet, runsSet⟩ := @entryOpcodes_reads bits groups bigEndian sect width _ _ _ set
    obtain ⟨opsStep, readsStep, runsStep⟩ := stepBytes_reads width stepped ascends.1 small
    obtain ⟨opsRest, readsRest, runsRest⟩ := @ih (.after entry) _ ascends.2 later
      (BitVec.ofNat bits (sect.address entry.label)) (by
        rintro _ ⟨⟩
        rfl)
    refine ⟨opsSet ++ (opsStep ++ opsRest), readsSet.append (readsStep.append readsRest), ?_⟩
    rw [Transducer.run_append_of_silent _ (runsSet address), Transducer.run_append, runsStep _ at_]
    by_cases ends : (entry.loc.line - state.line).toInt = endDelta
    · refine iff_of_false (fun same => ?_) fun no => no.1 ends
      rw [if_pos ends] at same
      have heads := (List.cons.inj same).1
      cases congrArg Registers.endSequence heads
    · rw [if_neg ends, show NoSentinel state (entry :: rest) ↔ NoSentinel (.after entry) rest from
        and_iff_right ends, ← runsRest, entry_reached]
      exact List.cons_inj_right _

end Rows

/-! ## When it is written -/

/-- A register that has to be set is no negative `valueT`. -/
def RegisterFits (bits : Nat) (was now : BitVec 32) : Prop := was = now ∨ now.toNat < 2 ^ (bits - 1)

/-- Neither is the step to a label. -/
def LineSection.StepFits (sect : LineSection) (bits : Nat) (last : Option LineLabel) (label : LineLabel) : Prop :=
  ∀ before ∈ last, sect.address label < sect.address before + 2 ^ (bits - 1)

def LineSection.EntriesFit (sect : LineSection) (bits : Nat) (state : LineState) : List LineEntry → Prop
  | [] => sect.StepFits bits state.last sect.endLabel
  | entry :: rest =>
    RegisterFits bits state.filenum entry.loc.filenum ∧ RegisterFits bits state.column entry.loc.column ∧
      RegisterFits bits state.isa entry.loc.isa ∧ sect.StepFits bits state.last entry.label ∧
        sect.EntriesFit bits (.after entry) rest

section Written

variable {bits groups : Nat} {bigEndian : Bool} {sect : LineSection}

theorem bmod_nonneg_iff (width : bits = 32 ∨ bits = 64) {value : Int} (low : 0 ≤ value) (high : value < 2 ^ bits) :
    0 ≤ value.bmod (2 ^ bits) ↔ value < 2 ^ (bits - 1) := by
  rw [Int.bmod_def]
  obtain rfl | rfl := width <;> omega

theorem natCast_bmod_nonneg_iff (width : bits = 32 ∨ bits = 64) {value : Nat} (small : value < 2 ^ 32) :
    0 ≤ (value : Int).bmod (2 ^ bits) ↔ value < 2 ^ (bits - 1) := by
  rw [bmod_nonneg_iff width (Int.natCast_nonneg value) (by obtain rfl | rfl := width <;> omega)]
  norm_cast

theorem outUleb128_done (width : bits = 32 ∨ bits = 64) {value : Nat} (small : value < 2 ^ 32)
    (fits : value < 2 ^ (bits - 1)) : ∃ bytes, outUleb128 bits 10 value = some bytes := by
  obtain ⟨bytes, written⟩ := @outputLeb128Bytes_done bits width value false
    (.inr ((natCast_bmod_nonneg_iff width small).mpr fits))
  exact ⟨_, Option.map_eq_some_iff.mpr ⟨bytes, written, rfl⟩⟩

theorem setRegister_fits (width : bits = 32 ∨ bits = 64) {opcode : Nat} {was now : BitVec 32} {bytes : List UInt8}
    (written : setRegister bits groups opcode was now = some bytes) : RegisterFits bits was now := by
  unfold setRegister at written
  split at written
  · exact .inl (by assumption)
  · obtain ⟨_, operand, _⟩ := Option.map_eq_some_iff.mp written
    obtain ⟨output, operand, _⟩ := Option.map_eq_some_iff.mp operand
    exact .inr ((natCast_bmod_nonneg_iff width now.isLt).mp
      (outputUleb128Bytes_nonneg (operand : outputUleb128Bytes groups _ = some output)))

theorem setRegister_done (width : bits = 32 ∨ bits = 64) (opcode : Nat) {was now : BitVec 32}
    (fits : RegisterFits bits was now) : ∃ bytes, setRegister bits 10 opcode was now = some bytes := by
  unfold setRegister
  split
  · exact ⟨_, rfl⟩
  · obtain ⟨operand, written⟩ := outUleb128_done width now.isLt (fits.resolve_left (by assumption))
    exact ⟨_, Option.map_eq_some_iff.mpr ⟨operand, written, rfl⟩⟩

theorem outIncLineAddr_iff (width : bits = 32 ∨ bits = 64) (lineDelta : Int) {addrDelta : Int} (low : 0 ≤ addrDelta)
    (high : addrDelta < 2 ^ bits) :
    ((∃ bytes, outIncLineAddr bits groups lineDelta addrDelta = some bytes) → addrDelta < 2 ^ (bits - 1)) ∧
      (addrDelta < 2 ^ (bits - 1) → ∃ bytes, outIncLineAddr bits 10 lineDelta addrDelta = some bytes) := by
  rw [← bmod_nonneg_iff width low high]
  constructor
  · rintro ⟨bytes, written⟩
    obtain ⟨output, emitted, _⟩ := Option.map_eq_some_iff.mp written
    exact emitIncLineAddr_nonneg width emitted
  · intro nonneg
    obtain ⟨output, emitted⟩ := emitIncLineAddr_done width lineDelta nonneg
    exact ⟨_, Option.map_eq_some_iff.mpr ⟨output, emitted, rfl⟩⟩

theorem stepBytes_iff (width : bits = 32 ∨ bits = 64) {last : Option LineLabel} (lineDelta : Int) {label : LineLabel}
    (forward : ∀ before ∈ last, sect.address before ≤ sect.address label) (inside : sect.address label < 2 ^ bits) :
    ((∃ bytes, stepBytes bits groups bigEndian sect last lineDelta label = some bytes) →
        sect.StepFits bits last label) ∧
      (sect.StepFits bits last label →
        ∃ bytes, stepBytes bits 10 bigEndian sect last lineDelta label = some bytes) := by
  cases last with
  | none =>
    refine ⟨fun _ => nofun, fun _ => ?_⟩
    have small : bits / 8 + 1 < 2 ^ 32 ∧ bits / 8 + 1 < 2 ^ (bits - 1) := by
      obtain rfl | rfl := width <;> decide
    obtain ⟨size, sized⟩ := outUleb128_done width small.1 small.2
    obtain ⟨row, output⟩ := (@outIncLineAddr_iff bits 10 width lineDelta 0 (Int.le_refl 0)
      (Int.pow_pos (by decide))).2 (Int.pow_pos (by decide))
    rw [stepBytes_none, outSetAddr, sized, output]
    exact ⟨_, rfl⟩
  | some before =>
    have ordered := forward before rfl
    have limit : (sect.address label : Int) < 2 ^ bits := by exact_mod_cast inside
    have both := @outIncLineAddr_iff bits groups width lineDelta
      (sect.address label - sect.address before) (by omega) (by omega)
    have near : sect.StepFits bits (some before) label ↔
        (sect.address label : Int) - sect.address before < 2 ^ (bits - 1) := by
      have power : ((2 ^ (bits - 1) : Nat) : Int) = 2 ^ (bits - 1) := by norm_cast
      simp only [LineSection.StepFits, Option.mem_def, Option.some.injEq, forall_eq']
      omega
    rw [near, stepBytes_some, stepBytes_some]
    exact both

/-- **The program is written** when everything fits. -/
theorem programBytes_iff (width : bits = 32 ∨ bits = 64) (inside : sect.address sect.endLabel < 2 ^ bits)
    {state : LineState} {entries : List LineEntry} (ascends : sect.Ascends state.last entries) :
    ((∃ bytes, programBytes bits groups bigEndian sect state entries = some bytes) →
        sect.EntriesFit bits state entries) ∧
      (sect.EntriesFit bits state entries →
        ∃ bytes, programBytes bits 10 bigEndian sect state entries = some bytes) := by
  induction entries generalizing state with
  | nil => exact stepBytes_iff width endDelta ascends inside
  | cons entry rest ih =>
    have small : sect.address entry.label < 2 ^ bits :=
      Nat.lt_of_le_of_lt (ascends.2.le_end entry.label rfl) inside
    have move := @stepBytes_iff bits groups bigEndian sect width state.last (entry.loc.line - state.line).toInt
      entry.label ascends.1 small
    have later := @ih (.after entry) ascends.2
    rw [programBytes_cons, programBytes_cons]
    constructor
    · rintro ⟨bytes, written⟩
      obtain ⟨opcodes, set, more⟩ := Option.bind_eq_some_iff.mp written
      obtain ⟨moves, stepped, more⟩ := Option.bind_eq_some_iff.mp more
      obtain ⟨behind, follows, _⟩ := Option.map_eq_some_iff.mp more
      obtain ⟨file, setFile, more⟩ := Option.bind_eq_some_iff.mp set
      obtain ⟨column, setColumn, more⟩ := Option.bind_eq_some_iff.mp more
      obtain ⟨isa, setIsa, _⟩ := Option.map_eq_some_iff.mp more
      exact ⟨setRegister_fits width setFile, setRegister_fits width setColumn, setRegister_fits width setIsa,
        move.1 ⟨moves, stepped⟩, later.1 ⟨behind, follows⟩⟩
    · rintro ⟨file, column, isa, near, rests⟩
      obtain ⟨setFile, file⟩ := setRegister_done width 4 file
      obtain ⟨setColumn, column⟩ := setRegister_done width 5 column
      obtain ⟨setIsa, isa⟩ := setRegister_done width 12 isa
      obtain ⟨moves, stepped⟩ := move.2 near
      obtain ⟨behind, follows⟩ := later.2 rests
      rw [entryOpcodes, file, column, isa, stepped, follows]
      exact ⟨_, rfl⟩

end Written

section Table

variable {M : Type} (converter : Converter M) (width : converter.bits = 32 ∨ converter.bits = 64) {bigEndian : Bool}
  {sect : LineSection} {groups fuel : Nat} {first : LineEntry} {rest : List LineEntry} {bytes : List UInt8}

include width

theorem programBytes_of_debugLine (written : debugLine converter bigEndian sect groups fuel first rest = some bytes) :
    programBytes converter.bits groups bigEndian sect .start (first :: rest) = some bytes := by
  cases fuel with
  | zero =>
    obtain ⟨_, _, relaxed⟩ := Option.bind_eq_some_iff.mp written
    cases relaxed
  | succ fuel => exact (debugLine_eq converter width bigEndian sect groups fuel first rest).symm.trans written

theorem debugLine_rows (ascends : sect.Ascends none (first :: rest))
    (inside : sect.address sect.endLabel < 2 ^ converter.bits)
    (written : debugLine converter bigEndian sect groups fuel first rest = some bytes) :
    rows lineHeader bigEndian bytes = some (sect.table converter.bits .start (first :: rest)) ↔
      NoSentinel .start (first :: rest) := by
  obtain ⟨ops, reads, runs⟩ := programBytes_runs width inside (ascends : sect.Ascends LineState.start.last _)
    (programBytes_of_debugLine converter width written)
    (show ∀ before ∈ LineState.start.last, (0 : BitVec converter.bits) = _ from nofun)
  rw [rows_of_reads reads, Option.some.injEq, ← runs]
  rfl

end Table

/-- **When the line table is the entries'.** -/
theorem debugLine_rows_iff {M : Type} (converter : Converter M) (width : converter.bits = 32 ∨ converter.bits = 64)
    (bigEndian : Bool) (sect : LineSection) (first : LineEntry) (rest : List LineEntry)
    (ascends : sect.Ascends none (first :: rest)) (inside : sect.address sect.endLabel < 2 ^ converter.bits) :
    (∃ groups fuel bytes, debugLine converter bigEndian sect groups fuel first rest = some bytes ∧
        rows lineHeader bigEndian bytes = some (sect.table converter.bits .start (first :: rest))) ↔
      sect.EntriesFit converter.bits .start (first :: rest) ∧ NoSentinel .start (first :: rest) := by
  constructor
  · rintro ⟨groups, fuel, bytes, written, same⟩
    exact ⟨(programBytes_iff width inside ascends).1 ⟨bytes, programBytes_of_debugLine converter width written⟩,
      (debugLine_rows converter width ascends inside written).mp same⟩
  · rintro ⟨fit, plain⟩
    obtain ⟨bytes, written⟩ := (@programBytes_iff _ 10 bigEndian _ width inside .start _ ascends).2 fit
    have written := (debugLine_eq converter width bigEndian sect 10 0 first rest).trans written
    exact ⟨10, 1, bytes, written, (debugLine_rows converter width ascends inside written).mpr plain⟩

/-- `.loc 1 10` and `.loc 1 12`, two bytes of code each, in two frags. -/
theorem debugLine_rows_iff_two :
    ∃ groups fuel bytes, debugLine (i386Converter 64) false ⟨fun frag => 2 * frag, 2⟩ groups fuel
        ⟨⟨0, 0⟩, ⟨1, 10, 0, 0, true, false, false, false⟩⟩ [⟨⟨1, 0⟩, ⟨1, 12, 0, 0, true, false, true, false⟩⟩] =
          some bytes ∧
      rows lineHeader false bytes = some
        [⟨0#64, 1, 10, 0, 0, true, false, false, false, false⟩, ⟨2#64, 1, 12, 0, 0, true, false, true, false, false⟩,
          ⟨4#64, 1, 12, 0, 0, true, false, false, false, true⟩] := by
  refine (debugLine_rows_iff (i386Converter 64) (.inr rfl) false ⟨fun frag => 2 * frag, 2⟩ _ _ ?_ (by decide)).mpr
    ⟨?_, ?_⟩
  · exact ⟨nofun, by rintro _ ⟨⟩; decide, by rintro _ ⟨⟩; decide⟩
  · exact ⟨.inl rfl, .inl rfl, .inl rfl, nofun, .inl rfl, .inl rfl, .inl rfl, by rintro _ ⟨⟩; decide,
      by rintro _ ⟨⟩; decide⟩
  · exact ⟨by decide, by decide, trivial⟩

/-- `.loc 1 0x80000000` ends the sequence: the line is `INT_MAX` behind the first one. -/
theorem farLine_ends :
    ¬ ∃ groups fuel bytes, debugLine (i386Converter 64) false ⟨fun frag => 2 * frag, 1⟩ groups fuel
        ⟨⟨0, 0⟩, ⟨1, 0x80000000, 0, 0, true, false, false, false⟩⟩ [] = some bytes ∧
      rows lineHeader false bytes = some
        [⟨0#64, 1, 0x80000000, 0, 0, true, false, false, false, false⟩,
          ⟨2#64, 1, 0x80000000, 0, 0, true, false, false, false, true⟩] := by
  rintro ⟨groups, fuel, bytes, written, same⟩
  have plain := (debugLine_rows (i386Converter 64) (.inr rfl) ⟨nofun, by rintro _ ⟨⟩; decide⟩ (by decide) written).mp
    same
  exact plain.1 (by decide)

end Cctools.As
