/-
# Cctools.LinkEdit.WeakBind -- the round trip of `WeakBindingInfoAtom::encode`

A weak stream binds by symbol name alone: no library ordinal is written, and a
record that overrides a weak definition of a dylib writes its symbol and nothing
else.  `weakBindEncode_reads` says when `get_dyld_bind_info` reads exactly the other
records, in symbol order, with one marked symbol for each strong override.

Four things go wrong: a segment index is or-ed into the four low bits of its opcode
unchecked; the running address is not reset at the end of a segment; `read_sleb128`
loses an addend below `-2 ^ 62`; and `get_dyld_bind_info` takes 32 bits of the count
and the skip of a run.
-/
import Cctools.LinkEdit.BindReader
import Cctools.LinkEdit.AimedMoves

namespace Cctools.LinkEdit

set_option autoImplicit false

open Cctools.Theory
open Cctools.Otool

/-! ## The order of `WeakBindingSorter` -/

namespace CString

variable {a b c : CString}

theorem strcmpLt_trans (first : a.strcmpLt b) (second : b.strcmpLt c) : a.strcmpLt c := by
  simp only [strcmpLt, decide_eq_true_eq] at *
  exact List.lt_trans first second

theorem strcmpLt_asymm (first : a.strcmpLt b) : ¬ b.strcmpLt a := by
  simp only [strcmpLt, decide_eq_true_eq] at *
  exact List.lt_asymm first

theorem strcmpLt_total (apart : a ≠ b) : a.strcmpLt b ∨ b.strcmpLt a := by
  simp only [strcmpLt, decide_eq_true_eq]
  by_contra neither
  rw [not_or] at neither
  exact apart (CString.ext (List.le_antisymm neither.2 neither.1))

end CString

namespace BindingInfo

/-- Not after: by symbol, then type, then address. -/
def WeakLe (a b : BindingInfo) : Prop :=
  a.symbolName.strcmpLt b.symbolName ∨ a.symbolName = b.symbolName ∧
    (a.type.code.toNat < b.type.code.toNat ∨
      a.type = b.type ∧ a.address.toNat ≤ b.address.toNat)

theorem weakLe_iff {a b : BindingInfo} : (!(b.weakLt a)) = true ↔ WeakLe a b := by
  unfold weakLt WeakLe
  by_cases symbol : a.symbolName = b.symbolName
  · have same : ¬ b.symbolName.strcmpLt b.symbolName :=
      fun below => CString.strcmpLt_asymm below below
    simp only [symbol, ne_eq, not_true_eq_false, if_false, same, Bool.false_eq_true, true_and,
      false_or]
    by_cases type : a.type = b.type
    · simp [type, BitVec.lt_def]
    · have differ : a.type.code.toNat ≠ b.type.code.toNat :=
        fun equal => type (BindType.code_inj (UInt8.toNat_inj.1 equal))
      rw [if_pos (Ne.symm type)]
      simp only [type, false_and, or_false, Bool.not_eq_true', decide_eq_false_iff_not,
        UInt8.lt_iff_toNat_lt]
      omega
  · rw [if_pos (Ne.symm symbol)]
    simp only [symbol, false_and, or_false, Bool.not_eq_true', Bool.eq_false_iff]
    constructor
    · intro notBelow
      exact (CString.strcmpLt_total symbol).resolve_right notBelow
    · exact fun below => CString.strcmpLt_asymm below

theorem weakLe_trans {a b c : BindingInfo} (first : WeakLe a b) (second : WeakLe b c) :
    WeakLe a c := by
  rcases first with below | ⟨symbol, first⟩
  · rcases second with further | ⟨symbol, -⟩
    · exact .inl (CString.strcmpLt_trans below further)
    · exact .inl (symbol ▸ below)
  · rcases second with further | ⟨symbol', second⟩
    · exact .inl (symbol ▸ further)
    · refine .inr ⟨symbol.trans symbol', ?_⟩
      rcases first with below | ⟨type, first⟩
      · rcases second with further | ⟨type, -⟩
        · exact .inl (by omega)
        · exact .inl (type ▸ below)
      · rcases second with further | ⟨type', second⟩
        · exact .inl (type ▸ further)
        · exact .inr ⟨type.trans type', by omega⟩

theorem weakLe_total (a b : BindingInfo) : WeakLe a b ∨ WeakLe b a := by
  by_cases symbol : a.symbolName = b.symbolName
  · by_cases type : a.type = b.type
    · rcases Nat.le_total a.address.toNat b.address.toNat with below | below
      · exact .inl (.inr ⟨symbol, .inr ⟨type, below⟩⟩)
      · exact .inr (.inr ⟨symbol.symm, .inr ⟨type.symm, below⟩⟩)
    · have differ : a.type.code.toNat ≠ b.type.code.toNat :=
        fun equal => type (BindType.code_inj (UInt8.toNat_inj.1 equal))
      rcases Nat.lt_or_gt_of_ne differ with below | below
      · exact .inl (.inr ⟨symbol, .inl below⟩)
      · exact .inr (.inr ⟨symbol.symm, .inl below⟩)
  · rcases CString.strcmpLt_total symbol with below | below
    · exact .inl (.inl below)
    · exact .inr (.inl below)

theorem weakSort_perm (info : List BindingInfo) : (weakSort info).Perm info :=
  List.perm_insertionSort _ info

theorem weakSort_sorted (info : List BindingInfo) : (weakSort info).Pairwise WeakLe := by
  have total : Std.Total fun a b : BindingInfo => (!(b.weakLt a)) = true :=
    ⟨fun a b => by simpa only [weakLe_iff] using weakLe_total a b⟩
  have trans : IsTrans BindingInfo fun a b => (!(b.weakLt a)) = true :=
    ⟨fun a b c => by simpa only [weakLe_iff] using weakLe_trans⟩
  have sorted := List.pairwise_insertionSort (fun a b : BindingInfo => (!(b.weakLt a)) = true) info
  exact sorted.imp weakLe_iff.1

/-- The record is bound; an override is only announced. -/
def binds (record : BindingInfo) : Bool := record.type ≠ .overrideOfWeakdefInDylib

/-- The definition that overrides is itself not weak. -/
def strongOverride (record : BindingInfo) : Bool :=
  record.type = .overrideOfWeakdefInDylib ∧ record.flags = .nonWeakDefinition

end BindingInfo

/-- `_weakBindingInfo` as `buildLinkEditOpcodes` fills it: `addDyldInfo` sets no flag on
a fixup, and a name has one global definition. -/
structure WeakBindings where
  records : List BindingInfo
  plain : ∀ record ∈ records, record.binds → record.flags = .none
  once : (records.filter (!·.binds)).Pairwise fun a b => a.symbolName ≠ b.symbolName

/-! ## Decoding -/

/-- `get_dyld_bind_info` recorded the bind of this record. -/
structure Reads (record : BindingInfo) (read : DyldBindInfo) : Prop where
  type : read.bindType = record.type.code
  symbolName : read.symbolName = some record.symbolName
  address : read.address = record.address
  addend : read.addend = record.addend

/-- The symbol of a `SET_SYMBOL_TRAILING_FLAGS_IMM` with the flag of a strong definition. -/
def BindingTmp.nonWeakSymbol (instr : BindingTmp) : Option CString :=
  if instr.opcode = .setSymbolTrailingFlagsImm ∧ instr.operand1 &&& 8 ≠ 0 then some instr.name
  else none

/-- The records that are bound, in the order of the sort. -/
def weakBinds (info : List BindingInfo) : List BindingInfo :=
  (BindingInfo.weakSort info).filter BindingInfo.binds

/-- `get_dyld_bind_info` reads the bound records and meets no error, and the stream
announces the strong overrides. -/
def WeakRoundTrip {ptr : PointerSize} (image : Image ptr) (info : List BindingInfo) : Prop :=
  ∃ bytes program, weakBindEncode image.find ptr info = .ok bytes ∧
    List.Forall₂ Reads (weakBinds info) (getDyldBindInfo image.env (0x10 :: bytes)).1 ∧
    (getDyldBindInfo image.env (0x10 :: bytes)).2 = 0 ∧
    bindInstructions bytes = some program ∧
    program.filterMap BindingTmp.nonWeakSymbol =
      ((BindingInfo.weakSort info).filter BindingInfo.strongOverride).map BindingInfo.symbolName

/-! ## What can be written -/

section Runs

variable {ptr : PointerSize} (image : Image ptr)

/-- In one segment, under one symbol and type, and `stride` behind. -/
structure Behind (stride : BitVec 64) (a b : BindingInfo) : Prop where
  symbolName : b.symbolName = a.symbolName
  type : b.type = a.type
  segment : image.find b.address = image.find a.address
  address : b.address = a.address + stride

/-- The records of `run` are written as one counted opcode, which goes on to `last`. -/
structure EvenRun (stride : BitVec 64) (run : List BindingInfo) (last : BindingInfo) : Prop where
  several : 2 ≤ run.length
  apart : stride ≠ ptr.word
  behind : (run ++ [last]).IsChain (Behind image stride)
  addend : ∀ a ∈ run, ∀ b ∈ run, a.addend = b.addend

/-- The count and the stride take 32 bits.  Where pointers overlap, the skip that is read
goes `2 ^ 32` too far, and the check of the run must pass with that. -/
structure CountFits (stride : BitVec 64) (run : List BindingInfo) : Prop where
  few : run.length < 2 ^ 32
  short : stride.toNat < 2 ^ 32
  overlap : stride < ptr.word → ∀ first ∈ run.head?, ∀ range ∈ image.find first.address,
    ∀ seg ∈ image.commands[range.index]?,
      first.address + (stride + 0x100000000) * BitVec.ofNat 64 (run.length - 1) < vmend ptr seg

/-- Every run of the records can be read back. -/
def RunsFit (records : List BindingInfo) : Prop :=
  ∀ stride run last, run ++ [last] <:+: records → EvenRun image stride run last → CountFits image stride run

/-- What the encoder writes can be read back. -/
structure WeakWritable (info : List BindingInfo) : Prop where
  named : ∀ record ∈ weakBinds info, ∀ range ∈ image.find record.address, range.index < 16
  noSeam : (weakBinds info).IsChain (NoSeam image.toLayout ptr)
  addends : ∀ record ∈ weakBinds info, -2 ^ 62 ≤ record.addend.toInt
  runs : RunsFit image (weakBinds info)

end Runs

section RoundTrip

variable {ptr : PointerSize} {image : Image ptr}

/-! ## Where a record is bound -/

/-- The state is at the record's place, with its symbol and type. -/
structure PlacedAt (image : Image ptr) (record : BindingInfo) (state : BindState) : Prop where
  type : state.type = record.type.code
  symbolName : state.symbolName = some record.symbolName
  place : ∃ range, image.find record.address = some range ∧ state.segIndex = some range.index ∧
    state.segOffset = record.address - range.start

/-- The state is the one to bind the record in. -/
structure BoundAt (image : Image ptr) (record : BindingInfo) (state : BindState) : Prop
    extends PlacedAt image record state where
  addend : state.addend = record.addend

variable {record : BindingInfo}

theorem PlacedAt.of_alike {a b : BindState} (placed : PlacedAt image record a)
    (alike : a.Alike b) : PlacedAt image record b := by
  obtain ⟨type, symbolName, range, found, index, offset⟩ := placed
  rw [alike.type] at type
  rw [alike.symbolName] at symbolName
  rw [alike.segIndex] at index
  rw [alike.segOffset] at offset
  exact ⟨type, symbolName, range, found, index, offset⟩

variable {state : BindState}

theorem PlacedAt.binds (placed : PlacedAt image record state) :
    state.Binds image.env := by
  obtain ⟨-, symbolName, range, found, index, offset⟩ := placed
  obtain ⟨low, high⟩ := Layout.contains_of_find found
  refine ⟨?_, by rw [symbolName]; rfl⟩
  unfold BindState.Inside
  rw [index, offset]
  exact checkSegAndOffset_inside rfl rfl found (by simp only [SegmentRange.size]; bv_omega)

theorem BoundAt.reads (bound : BoundAt image record state) :
    Reads record (state.record image.env) := by
  obtain ⟨⟨type, symbolName, range, found, index, offset⟩, addend⟩ := bound
  obtain ⟨seg, here, start, -⟩ := Image.command_of_find found
  have known : image.env.segs[range.index]? = some seg := here
  refine ⟨type, ?_, ?_, addend⟩
  · simp only [BindState.record, Locals.record, BindState.locals, symbolName, Option.getD_some]
  · simp only [BindState.record, Locals.record, BindState.locals, index, Option.bind_some, known,
      Option.map_some, Option.getD_some, offset, start]
    bv_omega

/-! ## Runs -/

variable {stride : BitVec 64}

theorem behind_of_placed {a b : BindingInfo} (first : PlacedAt image a state)
    (second : PlacedAt image b { state with segOffset := state.segOffset + stride }) :
    Behind image stride a b := by
  obtain ⟨type, symbolName, range, found, index, offset⟩ := first
  obtain ⟨type', symbolName', range', found', index', offset'⟩ := second
  simp only at type' symbolName' index' offset'
  have same : range' = range :=
    Layout.find_eq_of_index found' found (Option.some.inj (index'.symm.trans index))
  subst same
  refine ⟨Option.some.inj (symbolName'.symm.trans symbolName),
    BindType.code_inj (type'.symm.trans type), found'.trans found.symm, ?_⟩
  rw [offset] at offset'
  bv_omega

theorem bindTimes_facts (stride : BitVec 64) (count : Nat) (state : BindState) :
    (bindTimes stride count state).2.length = count ∧
      (bindTimes stride count state).1 =
        { state with segOffset := state.segOffset + stride * BitVec.ofNat 64 count } := by
  induction count generalizing state with
  | zero => simp [bindTimes]
  | succ count ih =>
    obtain ⟨length, last⟩ := ih { state with segOffset := state.segOffset + stride }
    refine ⟨by rw [bindTimes, List.length_cons, length], ?_⟩
    rw [bindTimes, last]
    simp only [BitVec.ofNat_add, BitVec.mul_add, BitVec.add_assoc]
    congr 2
    rw [BitVec.add_comm]
    congr 1
    simp

/-- The binds of a counted opcode are those of an even run. -/
theorem evenRun_of_bindTimes {run : List BindingInfo} {last : BindingInfo} {count : Nat}
    (all : List.Forall₂ (BoundAt image) run (bindTimes stride count state).2)
    (final : PlacedAt image last (bindTimes stride count state).1) :
    (run ++ [last]).IsChain (Behind image stride) ∧ (∀ a ∈ run, a.addend = state.addend) ∧
      ∃ head rest, run ++ [last] = head :: rest ∧ PlacedAt image head state := by
  induction count generalizing run state with
  | zero =>
    cases all
    exact ⟨.singleton _, by simp, last, [], rfl, final⟩
  | succ count ih =>
    cases all with
    | cons here later =>
      obtain ⟨chain, addend, head, rest, shape, placed⟩ := ih later final
      refine ⟨?_, List.forall_mem_cons.2 ⟨here.addend.symm, addend⟩, _, _, rfl, here.toPlacedAt⟩
      rw [List.cons_append, shape]
      exact .cons_cons (behind_of_placed here.toPlacedAt placed) (shape ▸ chain)

theorem below_of_inside {env : Env} {index : Nat} {seg : SegmentCommand}
    (inside : state.Inside env) (known : state.segIndex = some index) (here : env.segs[index]? = some seg) :
    seg.vmaddr + state.segOffset < vmend env.ptr seg := by
  simp only [BindState.Inside, checkSegAndOffset, known, here] at inside
  split at inside
  · cases inside
  · split at inside
    · cases inside
    · rename_i small apart
      simp only [true_and] at apart
      bv_omega

/-- The step that `checkCountAndSkip` goes by, for the skip as 32 bits hold it. -/
theorem checked_stride (ptr : PointerSize) (short : stride.toNat < 2 ^ 32) :
    ((stride - ptr.word).setWidth 32).setWidth 64 + ptr.word =
      if stride < ptr.word then stride + 0x100000000 else stride := by
  have small : ptr.word.toNat ≤ 8 := by cases ptr <;> decide
  have sub : (stride - ptr.word).toNat = (2 ^ 64 - ptr.word.toNat + stride.toNat) % 2 ^ 64 := BitVec.toNat_sub _ _
  have carry : (0x100000000 : BitVec 64).toNat = 2 ^ 32 := rfl
  generalize ptr.word = word at *
  apply BitVec.eq_of_toNat_eq
  rw [BitVec.toNat_add, BitVec.toNat_setWidth, BitVec.toNat_setWidth, sub]
  split
  · rename_i below
    rw [BitVec.lt_def] at below
    rw [BitVec.toNat_add, carry]
    omega
  · rename_i above
    rw [BitVec.lt_def] at above
    omega

/-- The check of a run passes. -/
theorem checkCountAndSkip_run {run : List BindingInfo}
    (several : 2 ≤ run.length) (fits : CountFits image stride run)
    (all : List.Forall₂ (BoundAt image) run (bindTimes stride run.length state).2) :
    checkCountAndSkip image.env run.length (((stride - ptr.word).setWidth 32).setWidth 64) state.segIndex
      state.segOffset = (run.length, none) := by
  obtain ⟨count, length⟩ : ∃ count, run.length = count + 1 := ⟨run.length - 1, by omega⟩
  rw [length] at all several
  have head := all
  rw [bindTimes_succ] at all
  obtain ⟨last, -, final⟩ := exists_of_forall₂ all.flip (List.mem_append_right _ (List.mem_singleton_self _))
  rw [(bindTimes_facts stride count state).2] at final
  cases run with
  | nil => cases length
  | cons first rest =>
    cases head with
    | cons here _ =>
      obtain ⟨-, -, range, found, index, offset⟩ := here.toPlacedAt
      obtain ⟨seg, known, start, -⟩ := Image.command_of_find found
      have below := below_of_inside here.binds.1 index known
      have reaches := below_of_inside final.binds.1 index known
      have address : seg.vmaddr + state.segOffset = first.address := by
        rw [start, offset]
        bv_omega
      have sum : ((stride - ptr.word).setWidth 32).setWidth 64 + image.env.ptr.word = _ :=
        checked_stride ptr fits.short
      have ends : first.address + (if stride < ptr.word then stride + 0x100000000 else stride) *
          BitVec.ofNat 64 count < vmend ptr seg := by
        split
        · rename_i small
          have overlap := fits.overlap small first rfl range found seg known
          rwa [length] at overlap
        · rw [← address, BitVec.add_assoc]
          exact reaches
      have here : image.env.segs[range.index]? = some seg := known
      simp only [checkCountAndSkip, index, Option.bind_some, here, length, if_pos (show 1 < count + 1 from several),
        Nat.add_sub_cancel, sum, address]
      rw [address] at below
      rw [if_neg (BitVec.not_le.2 below)]
      exact if_neg (BitVec.not_le.2 ends)

variable {records : List BindingInfo}

theorem inside_of_next {program : List BindingTmp} (next : BindsNext ptr program)
    (bound : List.Forall₂ (BoundAt image) records (Transducer.run (bindStep ptr) state program).2) :
    state.Inside image.env := by
  obtain ⟨first, later, shape, alike⟩ := next state
  rw [shape] at bound
  cases bound with
  | cons here _ => exact (here.toPlacedAt.of_alike alike).binds.1

theorem RunsFit.of_suffix {records later : List BindingInfo} (runs : RunsFit image records)
    (suffix : later <:+ records) : RunsFit image later :=
  fun stride run last inside => runs stride run last (inside.trans suffix.isInfix)

/-- **A program whose moves are aimed, and that binds the records, is accepted.** -/
theorem accepted_of_bound {program : List BindingTmp} (aimed : Aimed ptr program)
    (bound : List.Forall₂ (BoundAt image) records (Transducer.run (bindStep ptr) state program).2)
    (runs : RunsFit image records) : AcceptedFrom image.env state program := by
  induction program generalizing state records with
  | nil => trivial
  | cons op rest ih =>
    obtain ⟨sound, aims, later⟩ := aimed
    rw [Transducer.run_cons] at bound
    obtain ⟨opcode, operand1, operand2, name⟩ := op
    cases opcode with
    | setSymbolTrailingFlagsImm | setTypeImm | setAddendSleb => exact ⟨sound, ih later bound runs⟩
    | setSegmentAndOffsetUleb => exact ⟨⟨sound, inside_of_next (aims trivial) bound⟩, ih later bound runs⟩
    | addAddrUleb => exact ⟨inside_of_next (aims trivial) bound, ih later bound runs⟩
    | doBind =>
      cases bound with
      | cons here others =>
        exact ⟨here.binds, ih later others (runs.of_suffix (List.suffix_cons _ _))⟩
    | doBindAddAddrUleb =>
      cases bound with
      | cons here others =>
        exact ⟨⟨here.binds, inside_of_next (aims trivial) others⟩, ih later others (runs.of_suffix (List.suffix_cons _ _))⟩
    | doBindAddAddrImmScaled =>
      cases bound with
      | cons here others =>
        exact ⟨⟨sound, here.binds, inside_of_next (aims trivial) others⟩,
          ih later others (runs.of_suffix (List.suffix_cons _ _))⟩
    | doBindUlebTimesSkippingUleb =>
      -- the binds of the run, and the record that it goes on to
      obtain ⟨first, more, shape, alike⟩ := aims trivial (bindTimes (operand2 + ptr.word) operand1.toNat state).1
      have taken := List.forall₂_take_append records _ _ bound
      have dropped := List.forall₂_drop_append records _ _ bound
      obtain ⟨length, -⟩ := bindTimes_facts (operand2 + ptr.word) operand1.toNat state
      simp only [bindStep, length] at taken dropped
      obtain ⟨last, others, final, -, tail⟩ := List.forall₂_cons_right_iff.1 (shape ▸ dropped)
      obtain ⟨behind, addend, head, _, _, placed⟩ := evenRun_of_bindTimes taken (final.toPlacedAt.of_alike alike)
      have count : (records.take operand1.toNat).length = operand1.toNat := taken.length_eq.trans length
      have inside : records.take operand1.toNat ++ [last] <:+: records :=
        ⟨[], others, by rw [List.nil_append, List.append_assoc, List.singleton_append, ← tail, List.take_append_drop]⟩
      have fits := runs (operand2 + ptr.word) _ _ inside
        ⟨count.symm ▸ sound.1, fun same => sound.2 (by bv_omega), behind,
          fun a isA b isB => (addend a isA).trans (addend b isB).symm⟩
      have check := checkCountAndSkip_run (count.symm ▸ sound.1) fits (by rw [count]; exact taken)
      rw [count, BitVec.add_sub_cancel] at check
      exact ⟨⟨placed.binds, count ▸ fits.few, fits.short, check⟩,
        ih later dropped (runs.of_suffix (List.drop_suffix _ _))⟩
    | setDylibOrdinalImm | setDylibOrdinalUleb | setDylibSpecialImm | threadedSetBindOrdinalTableSizeUleb
    | threadedApply => exact sound.elim

/-! ## The plain entries -/

/-- What the encoder has cached is the segment of the record it is behind, or nothing yet. -/
def Settled (image : Image ptr) (cursor : BindCursor) (records : List BindingInfo) : Prop :=
  (cursor.address = -1 ∧ cursor.curSegEnd = 0 ∧ records.IsChain (NoSeam image.toLayout ptr)) ∨
    ∃ before : BindingInfo, image.find before.address = some cursor.range ∧
      cursor.address = before.address + ptr.word ∧ (before :: records).IsChain (NoSeam image.toLayout ptr)

variable {cursor : BindCursor}

/-- Without a seam a record is bound in its own segment. -/
theorem Settled.own {rest : List BindingInfo} {range : SegmentRange}
    (settled : Settled image cursor (record :: rest)) (found : image.find record.address = some range) :
    cursor.rangeFor range record = range ∧ (record :: rest).IsChain (NoSeam image.toLayout ptr) := by
  obtain ⟨unset, ends, chain⟩ | ⟨before, was, behind, chain⟩ := settled
  · refine ⟨if_pos ⟨unset ▸ (Layout.address_ne found).symm, ?_⟩, chain⟩
    rintro ⟨-, below⟩
    simp only [BindCursor.range, ends] at below
    exact absurd below (by simp)
  · rw [List.isChain_cons_cons] at chain
    refine ⟨?_, chain.2⟩
    by_cases met : cursor.address = record.address
    · have same := chain.1 (met.symm.trans behind)
      rw [found, was] at same
      rw [BindCursor.rangeFor_behind met]
      exact (Option.some.inj same).symm
    · exact BindCursor.rangeFor_own was found met

variable {mid : List BindingTmp}

/-- The plain entries bind the records. -/
theorem weakMid_bound
    (found : ∀ record ∈ records, record.binds → ∃ range, image.find record.address = some range)
    (sync : BindSync cursor state) (settled : Settled image cursor (records.filter BindingInfo.binds))
    (encodes : bindMid (weakRecord image.find ptr) cursor records = .ok mid) :
    List.Forall₂ (BoundAt image) (records.filter BindingInfo.binds)
      (Transducer.run (bindStep ptr) state mid).2 := by
  induction records generalizing cursor state mid with
  | nil =>
    cases encodes
    exact .nil
  | cons record rest ih =>
    rw [List.forall_mem_cons] at found
    by_cases binds : record.type = .overrideOfWeakdefInDylib
    · -- an override: the variables that place a bind are untouched
      have one := weakRecord_override_ok image.find ptr cursor binds
      obtain ⟨after, runs⟩ := weakRecord_override ptr record sync binds one
      rw [bindMid_cons one] at encodes
      obtain ⟨more, rests, rfl⟩ := ok_of_map encodes
      have skipped : ¬ record.binds := by simp [BindingInfo.binds, binds]
      rw [List.filter_cons_of_neg skipped] at settled ⊢
      have kept : Settled image (cursor.setSymbol record).1 (rest.filter BindingInfo.binds) := by
        unfold BindCursor.setSymbol
        split <;> exact settled
      have steps := ih found.2 after kept rests
      rw [Transducer.run_append, runs]
      exact steps
    · have bound : record.binds := by simp [BindingInfo.binds, binds]
      obtain ⟨range, here⟩ := found.1 bound
      obtain ⟨next, ops, one, used, moved, -⟩ := weakRecord_ok ptr cursor binds here
      obtain ⟨after, runs⟩ := weakRecord_run ptr record sync binds
        (fun _ found => Layout.index_lt_two_pow found) (Layout.address_ne here) one
      rw [bindMid_cons one] at encodes
      obtain ⟨more, rests, rfl⟩ := ok_of_map encodes
      rw [List.filter_cons_of_pos bound] at settled ⊢
      obtain ⟨own, chain⟩ := settled.own here
      rw [own] at used
      have steps := ih found.2 after (.inr ⟨record, used ▸ here, moved, chain⟩) rests
      rw [Transducer.run_append, runs]
      refine .cons ⟨⟨rfl, rfl, range, here, ?_, ?_⟩, rfl⟩ steps
      · exact congrArg some (congrArg SegmentRange.index used)
      · exact congrArg (record.address - ·) (congrArg SegmentRange.start used)

theorem setSymbol_sound (cursor : BindCursor) (record : BindingInfo) :
    ∀ op ∈ (cursor.setSymbol record).2, op.Sound ∧ ¬ op.Aims := by
  unfold BindCursor.setSymbol
  split
  · cases flags : record.flags <;> simp [BindingTmp.Sound, BindingTmp.Aims, BindFlags.code]
  · simp

/-- The entries of a record are aimed. -/
theorem weakRecord_aimed {cursor next : BindCursor} {ops more : List BindingTmp}
    (binds : record.type ≠ .overrideOfWeakdefInDylib)
    (named : ∀ range ∈ image.find record.address, range.index < 16) (addend : -2 ^ 62 ≤ record.addend.toInt)
    (one : weakRecord image.find ptr cursor record = .ok (next, ops)) (later : Aimed ptr more) :
    Aimed ptr (ops ++ more) := by
  simp only [weakRecord, binds, ne_eq, not_false_eq_true, if_true] at one
  obtain ⟨⟨placed, moves⟩, set, rest⟩ := ok_of_bind one
  cases rest
  have tail : Aimed ptr ((placed.setAddend record).2 ++ ({ opcode := .doBind, operand1 := 0 } :: more)) ∧
      BindsNext ptr ((placed.setAddend record).2 ++ ({ opcode := .doBind, operand1 := 0 } :: more)) := by
    have bind : Aimed ptr ({ opcode := .doBind, operand1 := 0 } :: more) := ⟨trivial, fun aims => False.elim aims, later⟩
    unfold BindCursor.setAddend
    split
    · exact ⟨⟨addend, fun aims => False.elim aims, bind⟩, fun state => ⟨_, _, rfl, rfl, rfl, rfl, rfl⟩⟩
    · exact ⟨bind, fun state => ⟨_, _, rfl, rfl, rfl, rfl, rfl⟩⟩
  have type : ∀ op ∈ ((cursor.setSymbol record).1.setType record).2, op.Sound ∧ ¬ op.Aims := by
    unfold BindCursor.setType
    split
    · cases kind : record.type <;> simp_all [BindingTmp.Sound, BindingTmp.Aims, BindType.code]
    · simp
  simp only [List.append_assoc, List.singleton_append]
  refine Aimed.append (setSymbol_sound cursor record) (Aimed.append type ?_)
  unfold BindCursor.setAddress at set
  split at set
  · rename_i differs
    split at set
    · split at set
      · cases set
      · rename_i range found
        cases set
        have small := named range found
        refine ⟨?_, fun _ => tail.2, tail.1⟩
        show (BitVec.ofNat 64 range.index).toNat < 16
        rw [BitVec.toNat_ofNat]
        omega
    · cases set
      refine ⟨fun same => differs ?_, fun _ => tail.2, tail.1⟩
      simp only at same
      bv_omega
  · cases set
    exact tail.1

theorem weakMid_aimed
    (named : ∀ record ∈ records, record.binds → ∀ range ∈ image.find record.address, range.index < 16)
    (addends : ∀ record ∈ records, record.binds → -2 ^ 62 ≤ record.addend.toInt)
    (encodes : bindMid (weakRecord image.find ptr) cursor records = .ok mid) : Aimed ptr mid := by
  induction records generalizing cursor mid with
  | nil =>
    cases encodes
    trivial
  | cons record rest ih =>
    rw [List.forall_mem_cons] at named addends
    obtain ⟨⟨next, ops⟩, one, more⟩ := ok_of_bind encodes
    obtain ⟨mid', rests, final⟩ := ok_of_bind more
    cases final
    have later := ih named.2 addends.2 rests
    by_cases binds : record.type = .overrideOfWeakdefInDylib
    · rw [weakRecord_override_ok image.find ptr cursor binds] at one
      cases one
      exact Aimed.append (setSymbol_sound cursor record) later
    · have bound : record.binds := by simp [BindingInfo.binds, binds]
      exact weakRecord_aimed binds (named.1 bound) (addends.1 bound) one later

/-- Every list whose bound records are in segments is converted. -/
theorem weakMid_ok (ptr : PointerSize) (cursor : BindCursor) {layout : Layout}
    (found : ∀ record ∈ records, record.binds → ∃ range, layout.find record.address = some range) :
    ∃ mid, bindMid (weakRecord layout.find ptr) cursor records = .ok mid ∧
      mid.countP BindingTmp.isBind ≤ records.length := by
  induction records generalizing cursor with
  | nil => exact ⟨[], rfl, Nat.zero_le _⟩
  | cons record rest ih =>
    rw [List.forall_mem_cons] at found
    obtain ⟨next, ops, one, few⟩ : ∃ next ops, weakRecord layout.find ptr cursor record = .ok (next, ops) ∧
        ops.countP BindingTmp.isBind ≤ 1 := by
      by_cases binds : record.type = .overrideOfWeakdefInDylib
      · refine ⟨_, _, weakRecord_override_ok layout.find ptr cursor binds, ?_⟩
        rw [BindCursor.setSymbol_ops.1]
        omega
      · obtain ⟨range, here⟩ := found.1 (by simp [BindingInfo.binds, binds])
        obtain ⟨next, ops, one, -, -, single⟩ := weakRecord_ok ptr cursor binds here
        exact ⟨next, ops, one, by omega⟩
    obtain ⟨mid, more, count⟩ := ih next found.2
    refine ⟨ops ++ mid, by rw [bindMid_cons one, more]; rfl, ?_⟩
    rw [List.countP_append, List.length_cons]
    omega

/-! ## Symbols -/

theorem nonWeakSymbol_moves (it : BindingTmp) (moves : it.Moves) : it.nonWeakSymbol = none := by
  unfold BindingTmp.nonWeakSymbol
  rw [if_neg]
  rintro ⟨symbol, -⟩
  simp [BindingTmp.Moves, symbol] at moves

theorem nonWeakSymbol_written (it : BindingTmp) : it.written.nonWeakSymbol = it.nonWeakSymbol := by
  obtain ⟨opcode, operand1, operand2, name⟩ := it
  cases opcode <;> rfl

theorem weakRecord_symbols {cursor next : BindCursor}
    {ops : List BindingTmp} (one : weakRecord image.find ptr cursor record = .ok (next, ops)) :
    next.symbolName = some record.symbolName ∧
      ops.filterMap BindingTmp.nonWeakSymbol =
        if cursor.symbolName ≠ some record.symbolName ∧ record.flags = .nonWeakDefinition then
          [record.symbolName] else [] := by
  obtain ⟨named, announced⟩ : (cursor.setSymbol record).1.symbolName = some record.symbolName ∧
      (cursor.setSymbol record).2.filterMap BindingTmp.nonWeakSymbol =
        if cursor.symbolName ≠ some record.symbolName ∧ record.flags = .nonWeakDefinition then
          [record.symbolName] else [] := by
    unfold BindCursor.setSymbol
    by_cases same : cursor.symbolName = some record.symbolName
    · simp [same]
    · cases flags : record.flags <;> simp [same, BindingTmp.nonWeakSymbol, BindFlags.code]
  by_cases binds : record.type = .overrideOfWeakdefInDylib
  · rw [weakRecord_override_ok image.find ptr cursor binds] at one
    cases one
    exact ⟨named, announced⟩
  · simp only [weakRecord, binds, ne_eq, not_false_eq_true, if_true] at one
    obtain ⟨⟨placed, moves⟩, set, rest⟩ := ok_of_bind one
    cases rest
    obtain ⟨typeName, typeOps⟩ : ((cursor.setSymbol record).1.setType record).1.symbolName =
        (cursor.setSymbol record).1.symbolName ∧
        ((cursor.setSymbol record).1.setType record).2.filterMap BindingTmp.nonWeakSymbol = [] := by
      unfold BindCursor.setType
      split <;> simp [BindingTmp.nonWeakSymbol]
    obtain ⟨placeName, placeOps⟩ : placed.symbolName =
        ((cursor.setSymbol record).1.setType record).1.symbolName ∧
        moves.filterMap BindingTmp.nonWeakSymbol = [] := by
      unfold BindCursor.setAddress at set
      split at set
      · split at set
        · split at set
          · cases set
          · cases set
            exact ⟨rfl, rfl⟩
        · cases set
          exact ⟨rfl, rfl⟩
      · cases set
        exact ⟨rfl, rfl⟩
    obtain ⟨addendName, addendOps⟩ : (placed.setAddend record).1.symbolName = placed.symbolName ∧
        (placed.setAddend record).2.filterMap BindingTmp.nonWeakSymbol = [] := by
      unfold BindCursor.setAddend
      split <;> simp [BindingTmp.nonWeakSymbol]
    refine ⟨addendName.trans (placeName.trans (typeName.trans named)), ?_⟩
    simp only [List.filterMap_append, announced, typeOps, placeOps, addendOps, List.append_nil]
    simp [BindingTmp.nonWeakSymbol]

/-- No record after another of its symbol is a strong override. -/
def FirstOfSymbol (a b : BindingInfo) : Prop := a.symbolName = b.symbolName → ¬ b.strongOverride

theorem weakMid_symbols (plain : ∀ record ∈ records, record.binds → record.flags = .none)
    (order : records.Pairwise FirstOfSymbol)
    (first : ∀ record ∈ records, cursor.symbolName = some record.symbolName →
      ¬ record.strongOverride)
    (encodes : bindMid (weakRecord image.find ptr) cursor records = .ok mid) :
    mid.filterMap BindingTmp.nonWeakSymbol =
      (records.filter BindingInfo.strongOverride).map BindingInfo.symbolName := by
  induction records generalizing cursor mid with
  | nil =>
    cases encodes
    rfl
  | cons record rest ih =>
    rw [List.forall_mem_cons] at plain first
    rw [List.pairwise_cons] at order
    obtain ⟨⟨next, ops⟩, one, more⟩ := ok_of_bind encodes
    obtain ⟨mid', rests, final⟩ := ok_of_bind more
    cases final
    obtain ⟨named, announced⟩ := weakRecord_symbols one
    have later := ih plain.2 order.2 (fun other member same =>
      order.1 other member (Option.some.inj (named.symm.trans same))) rests
    have strong : record.strongOverride = true ↔
        cursor.symbolName ≠ some record.symbolName ∧ record.flags = .nonWeakDefinition := by
      constructor
      · intro strong
        refine ⟨fun same => first.1 same strong, ?_⟩
        simp only [BindingInfo.strongOverride, decide_eq_true_eq] at strong
        exact strong.2
      · rintro ⟨-, flags⟩
        by_contra weak
        have binds : record.binds = true := by
          simp only [BindingInfo.strongOverride, flags, and_true, decide_eq_true_eq] at weak
          simpa [BindingInfo.binds] using weak
        have none_ := plain.1 binds
        rw [flags] at none_
        cases none_
    rw [List.filterMap_append, announced, later]
    by_cases isStrong : record.strongOverride = true
    · rw [if_pos (strong.1 isStrong), List.filter_cons_of_pos isStrong]
      rfl
    · rw [if_neg (fun both => isStrong (strong.2 both)), List.filter_cons_of_neg isStrong]
      rfl

end RoundTrip

namespace WeakBindings

variable (info : WeakBindings)

theorem sorted_plain :
    ∀ record ∈ BindingInfo.weakSort info.records, record.binds → record.flags = .none :=
  fun record member => info.plain record ((BindingInfo.weakSort_perm _).mem_iff.1 member)

/-- An override comes before every fixup of its symbol, and alone. -/
theorem sorted_first : (BindingInfo.weakSort info.records).Pairwise FirstOfSymbol := by
  have perm := BindingInfo.weakSort_perm info.records
  have once : ((BindingInfo.weakSort info.records).filter (!·.binds)).Pairwise
      fun a b => a.symbolName ≠ b.symbolName :=
    ((perm.filter _).pairwise_iff (fun differ => Ne.symm differ)).2 info.once
  rw [List.pairwise_filter] at once
  refine (once.and (BindingInfo.weakSort_sorted info.records)).imp ?_
  rintro a b ⟨apart, order⟩ same strong
  simp only [BindingInfo.strongOverride, decide_eq_true_eq] at strong
  have level : a.type = .overrideOfWeakdefInDylib := by
    rcases order with below | ⟨-, below | ⟨type, -⟩⟩
    · rw [same] at below
      exact absurd below (CString.strcmpLt_asymm below)
    · rw [strong.1] at below
      exact absurd below (by simp [BindType.code])
    · exact type.trans strong.1
  exact apart (by simp [BindingInfo.binds, level]) (by simp [BindingInfo.binds, strong.1]) same

end WeakBindings

section Theorem

variable {ptr : PointerSize} {image : Image ptr}

/-- The bytes are the optimised entries, ended by a zero. -/
theorem weakBindEncode_eq {info : List BindingInfo} {mid : List BindingTmp}
    (encodes : bindMid (weakRecord image.find ptr) {} (BindingInfo.weakSort info) = .ok mid) :
    ∃ count, weakBindEncode image.find ptr info =
      .ok ((bindOptimize (weakImmediate ptr) mid).flatMap BindingTmp.encode ++
        List.replicate count 0) := by
  unfold weakBindEncode
  split
  · rename_i empty
    rw [List.isEmpty_iff.1 empty] at encodes
    cases encodes
    exact ⟨0, rfl⟩
  · obtain ⟨count, padded⟩ := padToSize_eq ptr.bytes
      ((bindOptimize (weakImmediate ptr) mid).flatMap BindingTmp.encode ++ [0])
    refine ⟨count + 1, ?_⟩
    rw [encodes]
    show Except.ok (padToSize _ _) = _
    rw [padded, List.append_assoc]
    rfl

/-- **`get_dyld_bind_info` reads exactly the records that are bound**, in symbol order,
and the stream has one marked symbol for each strong override. -/
theorem weakBindEncode_reads (info : WeakBindings) (room : info.records.length < 2 ^ 64)
    (found : ∀ record ∈ info.records, record.binds → ∃ range, image.find record.address = some range)
    (writable : WeakWritable image info.records) :
    (weakBinds info.records).Perm (info.records.filter BindingInfo.binds) ∧
      (weakBinds info.records).Pairwise (fun a b => ¬ b.symbolName.strcmpLt a.symbolName) ∧
      WeakRoundTrip image info.records := by
  have perm := BindingInfo.weakSort_perm info.records
  refine ⟨perm.filter _, ?_, ?_⟩
  · refine (BindingInfo.weakSort_sorted info.records).filter _ |>.imp ?_
    rintro a b (below | ⟨same, -⟩)
    · exact CString.strcmpLt_asymm below
    · rw [same]
      exact fun below => CString.strcmpLt_asymm below below
  have placed : ∀ record ∈ BindingInfo.weakSort info.records, record.binds →
      ∃ range, image.find record.address = some range :=
    fun record member => found record (perm.mem_iff.1 member)
  obtain ⟨mid, encodes, count⟩ := weakMid_ok ptr {} placed
  rw [perm.length_eq] at count
  have aimed := bindOptimize_aimed (weakMid_aimed
    (fun record member binds => writable.named record (List.mem_filter.2 ⟨member, binds⟩))
    (fun record member binds => writable.addends record (List.mem_filter.2 ⟨member, binds⟩)) encodes) (by omega)
  have bound := weakMid_bound placed bindSync_initial (.inl ⟨rfl, rfl, writable.noSeam⟩) encodes
  rw [← bindOptimize_same weakImmediate_step (by omega) {}] at bound
  obtain ⟨zeros, written⟩ := weakBindEncode_eq encodes
  have read := getDyldBindInfo_program (accepted_of_bound aimed bound writable.runs) zeros
  refine ⟨_, _, written, ?_, congrArg Prod.snd read, bindInstructions_bytes aimed.fits zeros, ?_⟩
  · rw [read, List.forall₂_map_right_iff]
    exact bound.imp fun _ _ => BoundAt.reads
  · rw [List.filterMap_map, show BindingTmp.nonWeakSymbol ∘ BindingTmp.written =
      BindingTmp.nonWeakSymbol from funext nonWeakSymbol_written,
      bindOptimize_filterMap nonWeakSymbol_moves (weakImmediate_filterMap ptr nonWeakSymbol_moves),
      weakMid_symbols info.sorted_plain info.sorted_first (by simp) encodes]

end Theorem

/-! A strong override among two fixups of its symbol and one of another. -/

def oneOverride : WeakBindings where
  records := [⟨.pointer, .none, 0, ⟨[0x62], by decide⟩, 0x2000, 4⟩,
    ⟨.pointer, .none, 0, ⟨[0x61], CString.nulFree_a⟩, 0x1008, 0⟩,
    ⟨.overrideOfWeakdefInDylib, .nonWeakDefinition, 0, ⟨[0x61], CString.nulFree_a⟩, 0x1000, 0⟩,
    ⟨.pointer, .none, 0, ⟨[0x61], CString.nulFree_a⟩, 0x1000, 0⟩]
  plain := by decide
  once := by decide

theorem oneOverride_writable : WeakWritable adjacent oneOverride.records where
  named := by
    intro record _ range found
    exact lt_trans (Layout.index_lt found) (by decide)
  noSeam := by decide
  addends := by decide
  runs := by
    -- three binds, of two symbols
    intro stride run last inside even
    have order : weakBinds oneOverride.records = [⟨.pointer, .none, 0, ⟨[0x61], CString.nulFree_a⟩, 0x1000, 0⟩,
        ⟨.pointer, .none, 0, ⟨[0x61], CString.nulFree_a⟩, 0x1008, 0⟩,
        ⟨.pointer, .none, 0, ⟨[0x62], by decide⟩, 0x2000, 4⟩] := by decide
    rw [order] at inside
    have whole := inside.eq_of_length_le (by simpa using even.several)
    have chain := even.behind
    rw [whole, List.isChain_cons_cons, List.isChain_cons_cons] at chain
    exact absurd chain.2.1.symbolName (by decide)

theorem weakBindEncode_reads_override : WeakRoundTrip adjacent oneOverride.records := by
  refine (weakBindEncode_reads oneOverride (by decide) ?_ oneOverride_writable).2.2
  intro record member _
  simp only [oneOverride, List.mem_cons, List.not_mem_nil, or_false] at member
  rcases member with rfl | rfl | rfl | rfl
  · exact ⟨⟨0x2000, 0x3000, 1⟩, by decide⟩
  · exact ⟨⟨0x1000, 0x2000, 0⟩, by decide⟩
  · exact ⟨⟨0x1000, 0x2000, 0⟩, by decide⟩
  · exact ⟨⟨0x1000, 0x2000, 0⟩, by decide⟩

/-! Two binds of a symbol, the last pointer of a segment and the first of the next. -/

def overSeam : WeakBindings where
  records := [⟨.pointer, .none, 0, ⟨[0x61], CString.nulFree_a⟩, 0x1ff8, 0⟩,
    ⟨.pointer, .none, 0, ⟨[0x61], CString.nulFree_a⟩, 0x2000, 0⟩]
  plain := by decide
  once := by decide

/-- The second bind fails its check, and is recorded at address 0. -/
theorem weakBindEncode_seam :
    (∀ record ∈ overSeam.records, ∃ range, adjacent.find record.address = some range) ∧
      ¬ WeakRoundTrip adjacent overSeam.records := by
  refine ⟨?_, ?_⟩
  · intro record member
    rcases List.mem_pair.1 member with rfl | rfl
    · exact ⟨⟨0x1000, 0x2000, 0⟩, by decide⟩
    · exact ⟨⟨0x2000, 0x3000, 1⟩, by decide⟩
  · rintro ⟨bytes, program, writes, -, calm, -⟩
    have written : weakBindEncode adjacent.find .p8 overSeam.records =
        .ok [0x40, 0x61, 0, 0x51, 0x70, 0xf8, 0x1f, 0x90, 0x90, 0, 0, 0, 0, 0, 0, 0] := by decide
    rw [written] at writes
    cases writes
    exact absurd calm (by decide)

end Cctools.LinkEdit
