/-
# Cctools.LinkEdit.BindStates -- the state each record is bound in

Two laws of the stream of `BindingInfoAtom::encodeV1`, each with the exact
condition under which the code meets it.

* `bindEncodeV1_flags_iff`: every record is bound under its own flags, if and only
  if neighbours in the sorted list that share a symbol share the flags.  The flags
  are written with the symbol, and the symbol only when it changes.
* `bindEncodeV1_lands_iff`: every record is bound in the segment that
  `findSegment` gives for it, if and only if that segment can be named in four
  bits and no record stands directly behind the one before it in another
  segment.  The rebase encoder resets its running address at the end of a
  segment; this one does not.
-/
import Cctools.LinkEdit.BindTrace
import Cctools.Otool.DyldBindInfo

namespace Cctools.LinkEdit

set_option autoImplicit false

open Cctools.Theory
open Cctools.Otool

/-! ## Records of an image -/

theorem BindingInfo.sort_perm (info : List BindingInfo) : (BindingInfo.sort info).Perm info :=
  List.perm_insertionSort _ info

/-- No segment holds the encoder's first running address. -/
theorem Layout.address_ne {layout : Layout} {address : BitVec 64} {range : SegmentRange}
    (found : layout.find address = some range) : address ≠ -1 := by
  have := (Layout.contains_of_find found).2
  bv_omega

section Records

variable {layout : Layout} {ptr : PointerSize}

/-- Every list of records in segments is converted, with one bind for each. -/
theorem bindMid_ok (ptr : PointerSize) (cursor : BindCursor) {records : List BindingInfo}
    (found : ∀ record ∈ records, ∃ range, layout.find record.address = some range) :
    ∃ mid, bindMid (bindRecord layout.find ptr) cursor records = .ok mid ∧
      mid.countP BindingTmp.isBind = records.length ∧
      ((∀ record ∈ records, ∀ range, layout.find record.address = some range →
        range.index % 256 < 128) → ∀ op ∈ mid, op.Fits) := by
  induction records generalizing cursor with
  | nil => exact ⟨[], rfl, rfl, by simp⟩
  | cons record rest ih =>
    rw [List.forall_mem_cons] at found
    obtain ⟨range, here⟩ := found.1
    obtain ⟨next, ops, one, -, -, single, fits⟩ := bindRecord_ok ptr cursor here
    obtain ⟨mid, more, count, later⟩ := ih next found.2
    refine ⟨ops ++ mid, by rw [bindMid_cons one, more]; rfl, ?_, ?_⟩
    · rw [List.countP_append, single, count, List.length_cons]
      omega
    · intro clear op member
      rw [List.forall_mem_cons] at clear
      rcases List.mem_append.1 member with member | member
      · exact fits (clear.1 range here) op member
      · exact later clear.2 op member

/-- The states of the stream are those of the plain entries, segments cut to four bits. -/
theorem bindEncodeV1_forall₂ {info : List BindingInfo} {mid : List BindingTmp}
    (holds : BindingInfo → BindState → Prop)
    (encodes : bindMid (bindRecord layout.find ptr) {} (BindingInfo.sort info) = .ok mid)
    (room : mid.countP BindingTmp.isBind < 2 ^ 64) (fits : ∀ op ∈ mid, op.Fits) :
    (∃ bytes states, bindEncodeV1 layout.find ptr info = .ok bytes ∧
        bindStates ptr bytes = some states ∧
        List.Forall₂ holds (BindingInfo.sort info) states) ↔
      List.Forall₂ holds (BindingInfo.sort info)
        ((Transducer.run (bindStep ptr) {} mid).2.map BindState.nibble) := by
  obtain ⟨count, padded⟩ := padToSize_eq ptr.bytes
    ((bindOptimize (bindImmediate ptr) mid).flatMap BindingTmp.encode)
  have written : bindEncodeV1 layout.find ptr info =
      .ok ((bindOptimize (bindImmediate ptr) mid).flatMap BindingTmp.encode ++
        List.replicate count 0) := by
    rw [bindEncodeV1, encodes, ← padded]
    rfl
  have kept : ∀ op ∈ bindOptimize (bindImmediate ptr) mid, op.Fits :=
    bindOptimize_fits (fun _ => bindImmediate_fits) fits
  have states := bindStates_bytes ptr kept count
  rw [bindOptimize_same bindImmediate_step room] at states
  constructor
  · rintro ⟨other, seen, writes, reads, all⟩
    rw [written] at writes
    cases writes
    rw [states] at reads
    cases reads
    exact all
  · exact fun all => ⟨_, _, written, states, all⟩

end Records

/-! ## Flags -/

/-- Neighbours with one symbol have one set of flags. -/
def SameFlags (before record : BindingInfo) : Prop :=
  record.symbolName = before.symbolName → record.flags = before.flags

instance (before record : BindingInfo) : Decidable (SameFlags before record) :=
  inferInstanceAs (Decidable (_ → _))

/-- The bind is the record's, and its own flags are in force. -/
def BoundWithFlags (record : BindingInfo) (state : BindState) : Prop :=
  state.symbolName = some record.symbolName ∧ state.type = record.type.code ∧
    state.addend = record.addend ∧ state.flags = record.flags.code

/-- Every record of the stream is bound under its own flags. -/
def FlagsKept (layout : Layout) (ptr : PointerSize) (info : List BindingInfo) : Prop :=
  ∃ bytes states, bindEncodeV1 layout.find ptr info = .ok bytes ∧
    bindStates ptr bytes = some states ∧
    List.Forall₂ BoundWithFlags (BindingInfo.sort info) states

theorem BindFlags.code_inj {a b : BindFlags} (same : a.code = b.code) : a = b := by
  cases a <;> cases b <;> first | rfl | exact absurd same (by decide)

theorem BindType.code_inj {a b : BindType} (same : a.code = b.code) : a = b := by
  cases a <;> cases b <;> first | rfl | exact absurd same (by decide)

section Flags

variable {layout : Layout} {ptr : PointerSize}

theorem bindMid_flags_iff {before : BindingInfo} {records : List BindingInfo} {cursor : BindCursor}
    {state : BindState} {mid : List BindingTmp}
    (found : ∀ record ∈ records, ∃ range, layout.find record.address = some range)
    (sync : BindSync cursor state) (symbol : cursor.symbolName = some before.symbolName)
    (flags : state.flags = before.flags.code)
    (encodes : bindMid (bindRecord layout.find ptr) cursor records = .ok mid) :
    List.Forall₂ BoundWithFlags records (Transducer.run (bindStep ptr) state mid).2 ↔
      List.IsChain SameFlags (before :: records) := by
  induction records generalizing before cursor state mid with
  | nil =>
    cases encodes
    simp
  | cons record rest ih =>
    rw [List.forall_mem_cons] at found
    obtain ⟨range, here⟩ := found.1
    obtain ⟨next, ops, one, -⟩ := bindRecord_ok ptr cursor here
    obtain ⟨after, runs⟩ := bindRecord_run ptr record sync
      (fun _ found => Layout.index_lt_two_pow found) (Layout.address_ne here) one
    rw [bindMid_cons one] at encodes
    obtain ⟨more, rests, rfl⟩ := ok_of_map encodes
    rw [Transducer.run_append, runs, List.singleton_append, List.forall₂_cons,
      List.isChain_cons_cons]
    have inForce : flagsAt cursor state.flags record = record.flags.code ↔
        SameFlags before record := by
      unfold flagsAt SameFlags
      rw [symbol, flags]
      by_cases same : record.symbolName = before.symbolName
      · rw [if_neg (by simp [same])]
        exact ⟨fun equal _ => (BindFlags.code_inj equal).symm,
          fun equal => congrArg BindFlags.code (equal same).symm⟩
      · rw [if_pos (by simpa using Ne.symm same)]
        exact ⟨fun _ equal => absurd equal same, fun _ => rfl⟩
    by_cases follows : SameFlags before record
    · have own := inForce.2 follows
      have steps := ih found.2 after (after.key.symbol.symm) own rests
      exact ⟨fun both => ⟨follows, steps.1 both.2⟩,
        fun both => ⟨⟨rfl, rfl, rfl, own⟩, steps.2 both.2⟩⟩
    · exact iff_of_false (fun both => follows (inForce.1 both.1.2.2.2))
        (fun both => follows both.1)

/-- **Every bind keeps its own flags** exactly when neighbours that share a symbol do. -/
theorem bindEncodeV1_flags_iff {info : List BindingInfo} (room : info.length < 2 ^ 64)
    (found : ∀ record ∈ info, ∃ range, layout.find record.address = some range)
    (readable : ∀ record ∈ info, ∀ range, layout.find record.address = some range →
      range.index % 256 < 128) :
    FlagsKept layout ptr info ↔ List.IsChain SameFlags (BindingInfo.sort info) := by
  have perm := BindingInfo.sort_perm info
  have sorted : ∀ record ∈ BindingInfo.sort info, ∃ range, layout.find record.address = some range :=
    fun record member => found record (perm.mem_iff.1 member)
  obtain ⟨mid, encodes, count, fits⟩ := bindMid_ok ptr {} sorted
  rw [perm.length_eq] at count
  have kept := bindEncodeV1_forall₂ BoundWithFlags encodes (by omega)
    (fits fun record member => readable record (perm.mem_iff.1 member))
  -- a segment that is cut leaves the flags alone
  rw [List.forall₂_map_right_iff] at kept
  refine kept.trans ?_
  change List.Forall₂ BoundWithFlags _ _ ↔ _
  cases order : BindingInfo.sort info with
  | nil =>
    rw [order] at encodes
    cases encodes
    simp
  | cons record rest =>
    rw [order] at encodes sorted
    rw [List.forall_mem_cons] at sorted
    obtain ⟨range, here⟩ := sorted.1
    obtain ⟨next, ops, one, -⟩ := bindRecord_ok ptr {} here
    obtain ⟨after, runs⟩ := bindRecord_run ptr record bindSync_initial
      (fun _ found => Layout.index_lt_two_pow found) (Layout.address_ne here) one
    rw [bindMid_cons one] at encodes
    obtain ⟨more, rests, rfl⟩ := ok_of_map encodes
    rw [Transducer.run_append, runs, List.singleton_append, List.forall₂_cons]
    have own : flagsAt {} (0 : UInt8) record = record.flags.code := rfl
    have steps := bindMid_flags_iff sorted.2 after after.key.symbol.symm own rests
    exact ⟨fun both => steps.1 both.2, fun chain => ⟨⟨rfl, rfl, rfl, own⟩, steps.2 chain⟩⟩

end Flags

/-! One segment with two pointers, bound to one symbol. -/

def twoPointers : Layout :=
  ⟨[⟨⟨[1], CString.nulFree_one⟩, .empty, 0x1000, 16, 0⟩, ⟨⟨[2], CString.nulFree_two⟩, .empty, 0x2000, 0, 16⟩],
    by decide, by decide⟩

def twoBinds (second : BindFlags) : List BindingInfo :=
  [⟨.pointer, .weakImport, 1, ⟨[0x61], CString.nulFree_a⟩, 0x1000, 0⟩,
    ⟨.pointer, second, 1, ⟨[0x61], CString.nulFree_a⟩, 0x1008, 0⟩]

theorem twoBinds_found (second : BindFlags) :
    ∀ record ∈ twoBinds second, twoPointers.find record.address = some ⟨0x1000, 0x1010, 0⟩ := by
  intro record member
  rcases List.mem_pair.1 member with rfl | rfl
  · show twoPointers.find 0x1000 = _
    decide
  · show twoPointers.find 0x1008 = _
    decide

theorem bindEncodeV1_flags_iff_weak : FlagsKept twoPointers .p8 (twoBinds .weakImport) := by
  refine (bindEncodeV1_flags_iff (by decide) ?_ ?_).2 (by decide)
  · exact fun record member => ⟨_, twoBinds_found _ record member⟩
  · intro record member range found
    rw [twoBinds_found _ record member] at found
    cases found
    decide

/-- The second record is bound under the flags of the first. -/
theorem bindEncodeV1_flags_mixed :
    (∀ record ∈ twoBinds .none, ∃ range, twoPointers.find record.address = some range) ∧
      ¬ FlagsKept twoPointers .p8 (twoBinds .none) := by
  refine ⟨fun record member => ⟨_, twoBinds_found _ record member⟩, ?_⟩
  rintro ⟨bytes, states, writes, reads, all⟩
  have written : bindEncodeV1 twoPointers.find .p8 (twoBinds .none) =
      .ok [0x11, 0x41, 0x61, 0, 0x51, 0x70, 0, 0x90, 0x90, 0, 0, 0, 0, 0, 0, 0] := by decide
  rw [written] at writes
  cases writes
  have bound : (bindStates .p8 [0x11, 0x41, 0x61, 0, 0x51, 0x70, 0, 0x90, 0x90, 0, 0, 0, 0, 0, 0, 0]).map
      (List.map BindState.flags) = some [1, 1] := by decide
  rw [reads] at bound
  have order : BindingInfo.sort (twoBinds .none) = twoBinds .none := by decide
  rw [order, twoBinds] at all
  cases all with
  | cons _ rest =>
    cases rest with
    | cons second _ =>
      simp only [Option.map_some, List.map_cons, Option.some.injEq, List.cons.injEq] at bound
      rw [second.2.2.2] at bound
      exact absurd bound.2.1 (by decide)

/-! ## Segments -/

/-- A record directly behind the one before it is in the same segment. -/
def NoSeam (layout : Layout) (ptr : PointerSize) (before record : BindingInfo) : Prop :=
  record.address = before.address + ptr.word →
    layout.find record.address = layout.find before.address

instance (layout : Layout) (ptr : PointerSize) (before record : BindingInfo) :
    Decidable (NoSeam layout ptr before record) :=
  inferInstanceAs (Decidable (_ → _))

/-- The environment in which otool reads the image. -/
def Image.env {ptr : PointerSize} (image : Image ptr) : Env where
  ptr := ptr
  segs := image.commands
  ndylibs := 0
  object := fun _ => 0
  objectSize := 0

/-- The bind is in the record's segment, inside it, and otool accepts it there. -/
def Lands {ptr : PointerSize} (image : Image ptr) (record : BindingInfo) (state : BindState) :
    Prop :=
  ∃ range, image.find record.address = some range ∧ state.segIndex = some range.index ∧
    state.segOffset = record.address - range.start ∧
    state.segOffset.toNat + ptr.bytes ≤ range.size.toNat ∧
    checkSegAndOffset image.env state.segIndex state.segOffset true = none

/-- Every record of the stream is bound in the segment `findSegment` gives for it. -/
def AllLand {ptr : PointerSize} (image : Image ptr) (info : List BindingInfo) : Prop :=
  ∃ bytes states, bindEncodeV1 image.find ptr info = .ok bytes ∧
    bindStates ptr bytes = some states ∧ List.Forall₂ (Lands image) (BindingInfo.sort info) states

variable {ptr : PointerSize}

theorem checkSegAndOffset_inside {image : Image ptr} {env : Env}
    {address offset : BitVec 64} {range : SegmentRange} {endInvalid : Bool}
    (width : env.ptr = ptr) (segs : env.segs = image.commands)
    (found : image.find address = some range) (inside : offset < range.size) :
    checkSegAndOffset env (some range.index) offset endInvalid = none := by
  obtain ⟨command, here, start, covers, below⟩ := Image.command_of_find found
  have sum : (vmend ptr command).toNat = command.vmaddr.toNat + command.vmsize.toNat := by
    cases ptr with
    | p4 =>
      have : command.vmaddr.toNat + command.vmsize.toNat < 2 ^ 32 := below
      simp only [vmend, BitVec.toNat_setWidth, BitVec.toNat_add]
      omega
    | p8 =>
      have : command.vmaddr.toNat + command.vmsize.toNat < 2 ^ 64 := below
      simp only [vmend, BitVec.toNat_add]
      omega
  have limit : ptr.limit ≤ 2 ^ 64 := by cases ptr <;> decide
  have shifted : (command.vmaddr + offset).toNat = command.vmaddr.toNat + offset.toNat := by
    rw [BitVec.toNat_add]
    have : offset.toNat < command.vmsize.toNat := by
      rw [BitVec.lt_def] at inside
      rw [BitVec.le_def] at covers
      omega
    exact Nat.mod_eq_of_lt (by omega)
  have strictly : (command.vmaddr + offset).toNat < (vmend ptr command).toNat := by
    rw [BitVec.lt_def] at inside
    rw [BitVec.le_def] at covers
    omega
  simp only [checkSegAndOffset, segs, here, width]
  rw [if_neg (by rw [BitVec.lt_def]; omega), if_neg]
  rintro ⟨-, same⟩
  rw [same] at strictly
  omega

/-! ## Four bits -/

/-- The address of a segment by its index. -/
def Layout.segStart (layout : Layout) (index : Nat) : Option (BitVec 64) :=
  (segmentGroups layout.sections)[index]?.map fun group => group.firstSection.address

/-- The address a bind happens at. -/
def Layout.addressOf (layout : Layout) (state : BindState) : Option (BitVec 64) :=
  (state.segIndex.bind layout.segStart).map (· + state.segOffset)

/-- The address a segment is named for is read back when its start is. -/
theorem Layout.segStart_offset_iff (layout : Layout) (index : Nat) {start address : BitVec 64} :
    (layout.segStart index).map (· + (address - start)) = some address ↔ layout.segStart index = some start := by
  rw [Option.map_eq_some_iff]
  constructor
  · rintro ⟨base, named, back⟩
    rw [named, Option.some.injEq]
    bv_omega
  · intro named
    refine ⟨_, named, ?_⟩
    bv_omega

/-- The opcode with this segment index can be read, and names a segment that starts
where this one does. -/
def Layout.Named (layout : Layout) (range : SegmentRange) : Prop :=
  range.index % 256 < 128 ∧ layout.segStart (range.index % 16) = some range.start

instance (layout : Layout) (range : SegmentRange) : Decidable (layout.Named range) :=
  inferInstanceAs (Decidable (_ ∧ _))

theorem readBind_segment {byte : UInt8} {p rest : List UInt8} {instr : BindingTmp}
    (reads : readBind byte p = some (some instr, rest))
    (segment : instr.opcode = .setSegmentAndOffsetUleb) : instr.operand1.toNat < 16 := by
  have nibble : (BitVec.ofNat 64 (byte &&& 0x0F).toNat).toNat < 16 := by
    have table : (byte &&& 0x0F).toNat ≤ 15 := by
      rw [UInt8.toNat_and]
      exact Nat.and_le_right
    rw [BitVec.toNat_ofNat, Nat.mod_eq_of_lt (by omega)]
    omega
  unfold readBind at reads
  simp only [Option.pure_def, Option.bind_eq_bind] at reads
  split at reads
  all_goals try split at reads
  all_goals
    simp only [Option.bind_eq_some_iff, Option.some.injEq, Prod.mk.injEq, reduceCtorEq,
      false_and] at reads
  all_goals grind

theorem readBinds_segment {fuel : Nat} {bytes : List UInt8} {program : List BindingTmp}
    (reads : readBinds fuel bytes = some program) :
    ∀ instr ∈ program, instr.opcode = .setSegmentAndOffsetUleb → instr.operand1.toNat < 16 := by
  induction fuel generalizing bytes program with
  | zero =>
    cases bytes with
    | nil =>
      cases reads
      simp
    | cons byte p => cases reads
  | succ fuel ih =>
    cases bytes with
    | nil =>
      cases reads
      simp
    | cons byte p =>
      simp only [readBinds, Option.bind_eq_bind, Option.bind_eq_some_iff, Option.pure_def] at reads
      obtain ⟨⟨one, rest⟩, first, more⟩ := reads
      cases one with
      | none =>
        cases more
        simp
      | some instr =>
        simp only [Option.bind_eq_some_iff, Option.some.injEq] at more
        obtain ⟨others, later, rfl⟩ := more
        exact List.forall_mem_cons.2 ⟨readBind_segment first, ih later⟩

theorem bindStep_segment (ptr : PointerSize) {bound : Nat} {instr : BindingTmp} {state : BindState}
    (operand : instr.opcode = .setSegmentAndOffsetUleb → instr.operand1.toNat < bound)
    (before : ∀ index ∈ state.segIndex, index < bound) :
    (∀ index ∈ (bindStep ptr state instr).1.segIndex, index < bound) ∧
      ∀ seen ∈ (bindStep ptr state instr).2, ∀ index ∈ seen.segIndex, index < bound := by
  have times : ∀ stride count (start : BindState), (∀ index ∈ start.segIndex, index < bound) →
      (∀ index ∈ (bindTimes stride count start).1.segIndex, index < bound) ∧
        ∀ seen ∈ (bindTimes stride count start).2, ∀ index ∈ seen.segIndex, index < bound := by
    intro stride count
    induction count with
    | zero => exact fun start inside => ⟨inside, by simp [bindTimes]⟩
    | succ count ih =>
      intro start inside
      obtain ⟨last, all⟩ := ih { start with segOffset := start.segOffset + stride } inside
      exact ⟨last, List.forall_mem_cons.2 ⟨inside, all⟩⟩
  obtain ⟨opcode, operand1, operand2, name⟩ := instr
  cases opcode with
  | setSegmentAndOffsetUleb =>
    refine ⟨?_, by simp [bindStep]⟩
    intro index is
    cases is
    exact operand rfl
  | doBindUlebTimesSkippingUleb => exact times _ _ state before
  | doBind | doBindAddAddrUleb | doBindAddAddrImmScaled => simpa [bindStep] using before
  | _ => exact ⟨before, by simp [bindStep]⟩

theorem run_segment {bound : Nat} {program : List BindingTmp}
    (operands : ∀ instr ∈ program, instr.opcode = .setSegmentAndOffsetUleb →
      instr.operand1.toNat < bound) {state : BindState}
    (before : ∀ index ∈ state.segIndex, index < bound) :
    ∀ seen ∈ (Transducer.run (bindStep ptr) state program).2, ∀ index ∈ seen.segIndex,
      index < bound := by
  induction program generalizing state with
  | nil => simp
  | cons instr rest ih =>
    rw [List.forall_mem_cons] at operands
    obtain ⟨after, now⟩ := bindStep_segment ptr operands.1 before
    intro seen member
    rw [Transducer.run_cons] at member
    rcases List.mem_append.1 member with here | later
    · exact now seen here
    · exact ih operands.2 after seen later

/-- **A stream can only name the first sixteen segments.** -/
theorem bindStates_segment {bytes : List UInt8} {states : List BindState}
    (reads : bindStates ptr bytes = some states) :
    ∀ state ∈ states, ∀ index ∈ state.segIndex, index < 16 := by
  obtain ⟨program, read, rfl⟩ := Option.map_eq_some_iff.1 reads
  exact run_segment (readBinds_segment read) (by simp)

theorem exists_of_forall₂ {α β : Type} {holds : α → β → Prop} {left : List α} {right : List β}
    (all : List.Forall₂ holds left right) {a : α} (member : a ∈ left) : ∃ b ∈ right, holds a b := by
  induction all with
  | nil => cases member
  | cons here _ ih =>
    rcases List.mem_cons.1 member with rfl | later
    · exact ⟨_, List.mem_cons_self, here⟩
    · obtain ⟨b, inside, there⟩ := ih later
      exact ⟨b, List.mem_cons_of_mem _ inside, there⟩

section Segments

variable {ptr : PointerSize} {image : Image ptr}

/-- With the record's own segment cached, the bind lands. -/
theorem lands_of_range {record : BindingInfo} {range : SegmentRange} {next : BindCursor}
    (ordinal : BitVec 32) (flags : UInt8) (found : image.find record.address = some range)
    (fits : record.address.toNat + ptr.bytes ≤ range.finish.toNat) (small : range.index < 16)
    (own : next.range = range) :
    Lands image record (BindState.of record ordinal flags next).nibble := by
  have start : next.curSegStart = range.start := congrArg SegmentRange.start own
  have index : next.curSegIndex % 16 = range.index := by
    rw [show next.curSegIndex = range.index from congrArg SegmentRange.index own]
    exact Nat.mod_eq_of_lt small
  obtain ⟨low, high⟩ := Layout.contains_of_find found
  refine ⟨range, found, ?_, ?_, ?_, ?_⟩
  · simp only [BindState.of, BindState.nibble, Option.map_some, index]
  · simp only [BindState.of, BindState.nibble, start]
  · simp only [BindState.of, BindState.nibble, start, SegmentRange.size]
    bv_omega
  · simp only [BindState.of, BindState.nibble, Option.map_some, start, index]
    exact checkSegAndOffset_inside rfl rfl found (by
      simp only [SegmentRange.size]
      bv_omega)

theorem bindMid_lands_iff {before : BindingInfo} {from_ : SegmentRange}
    {records : List BindingInfo} {cursor : BindCursor} {state : BindState} {mid : List BindingTmp}
    (found : ∀ record ∈ records, ∃ range, image.find record.address = some range ∧
      record.address.toNat + ptr.bytes ≤ range.finish.toNat ∧ range.index < 16)
    (few : from_.index < 16) (sync : BindSync cursor state) (was : image.find before.address = some from_)
    (cached : cursor.range = from_) (behind : cursor.address = before.address + ptr.word)
    (encodes : bindMid (bindRecord image.find ptr) cursor records = .ok mid) :
    List.Forall₂ (Lands image) records
        ((Transducer.run (bindStep ptr) state mid).2.map BindState.nibble) ↔
      List.IsChain (NoSeam image.toLayout ptr) (before :: records) := by
  induction records generalizing before from_ cursor state mid with
  | nil =>
    cases encodes
    simp
  | cons record rest ih =>
    rw [List.forall_mem_cons] at found
    obtain ⟨range, here, fits, small⟩ := found.1
    obtain ⟨next, ops, one, used, moved, -⟩ := bindRecord_ok ptr cursor here
    obtain ⟨after, runs⟩ := bindRecord_run ptr record sync
      (fun _ found => Layout.index_lt_two_pow found) (Layout.address_ne here) one
    rw [bindMid_cons one] at encodes
    obtain ⟨more, rests, rfl⟩ := ok_of_map encodes
    rw [Transducer.run_append, runs, List.singleton_append, List.map_cons, List.forall₂_cons,
      List.isChain_cons_cons]
    by_cases follows : NoSeam image.toLayout ptr before record
    · have own : next.range = range := by
        by_cases met : cursor.address = record.address
        · have same := follows (met.symm.trans behind)
          rw [here, was] at same
          rw [used, BindCursor.rangeFor_behind met, cached]
          exact (Option.some.inj same).symm
        · rw [used, BindCursor.rangeFor_own (cached.symm ▸ was) here met]
      have steps := ih found.2 small after here own moved rests
      have lands := lands_of_range (readOrdinal record.libraryOrdinal)
        (flagsAt cursor state.flags record) here fits small own
      exact ⟨fun both => ⟨follows, steps.1 both.2⟩, fun both => ⟨lands, steps.2 both.2⟩⟩
    · -- bound behind the end of the segment before
      refine iff_of_false ?_ (fun both => follows both.1)
      rintro ⟨⟨other, at_, named, -⟩, -⟩
      rw [here] at at_
      cases at_
      obtain ⟨met, apart⟩ : record.address = before.address + ptr.word ∧
          image.find record.address ≠ image.find before.address := by
        simpa [NoSeam] using follows
      have kept : next.range = from_ := by
        rw [used, BindCursor.rangeFor_behind (behind.trans met.symm), cached]
      have index : from_.index = range.index := by
        have cachedIndex : next.curSegIndex = from_.index := congrArg SegmentRange.index kept
        have cut : next.curSegIndex % 16 = range.index := Option.some.inj named
        omega
      apply apart
      rw [here, was, Layout.find_eq_of_index was here index]

/-- **Every bind lands in the segment it names** exactly when four bits can name that
segment and no two neighbours meet across a segment boundary. -/
theorem bindEncodeV1_lands_iff {info : List BindingInfo} (room : info.length < 2 ^ 64)
    (found : ∀ record ∈ info, ∃ range, image.find record.address = some range ∧
      record.address.toNat + ptr.bytes ≤ range.finish.toNat) :
    AllLand image info ↔
      (∀ record ∈ info, ∀ range, image.find record.address = some range → range.index < 16) ∧
        List.IsChain (NoSeam image.toLayout ptr) (BindingInfo.sort info) := by
  have perm := BindingInfo.sort_perm info
  have few : AllLand image info → ∀ record ∈ info, ∀ range,
      image.find record.address = some range → range.index < 16 := by
    rintro ⟨bytes, states, -, reads, all⟩ record member range here
    obtain ⟨state, seen, other, at_, named, -⟩ :=
      exists_of_forall₂ all (perm.mem_iff.2 member)
    rw [here] at at_
    cases at_
    exact bindStates_segment reads state seen _ named
  suffices given : (∀ record ∈ info, ∀ range, image.find record.address = some range →
      range.index < 16) → (AllLand image info ↔
        List.IsChain (NoSeam image.toLayout ptr) (BindingInfo.sort info)) by
    exact ⟨fun all => ⟨few all, (given (few all)).1 all⟩, fun both => (given both.1).2 both.2⟩
  intro named
  have sorted : ∀ record ∈ BindingInfo.sort info, ∃ range, image.find record.address = some range ∧
      record.address.toNat + ptr.bytes ≤ range.finish.toNat ∧ range.index < 16 := by
    intro record member
    obtain ⟨range, here, fits⟩ := found record (perm.mem_iff.1 member)
    exact ⟨range, here, fits, named record (perm.mem_iff.1 member) range here⟩
  obtain ⟨mid, encodes, count, fits⟩ := bindMid_ok ptr {}
    (fun record member => ⟨_, (sorted record member).choose_spec.1⟩)
  rw [perm.length_eq] at count
  have readable : ∀ record ∈ BindingInfo.sort info, ∀ range,
      image.find record.address = some range → range.index % 256 < 128 := by
    intro record member range here
    have := named record (perm.mem_iff.1 member) range here
    omega
  refine (bindEncodeV1_forall₂ (Lands image) encodes (by omega) (fits readable)).trans ?_
  cases order : BindingInfo.sort info with
  | nil =>
    rw [order] at encodes
    cases encodes
    simp
  | cons record rest =>
    rw [order] at encodes sorted
    rw [List.forall_mem_cons] at sorted
    obtain ⟨range, here, inside, small⟩ := sorted.1
    obtain ⟨next, ops, one, used, moved, -⟩ := bindRecord_ok ptr {} here
    obtain ⟨after, runs⟩ := bindRecord_run ptr record bindSync_initial
      (fun _ found => Layout.index_lt_two_pow found) (Layout.address_ne here) one
    have own : next.range = range := by
      rw [used, BindCursor.rangeFor, if_pos]
      refine ⟨(Layout.address_ne here).symm, ?_⟩
      rintro ⟨-, below⟩
      exact absurd below (by simp [BindCursor.range])
    rw [bindMid_cons one] at encodes
    obtain ⟨more, rests, rfl⟩ := ok_of_map encodes
    rw [Transducer.run_append, runs, List.singleton_append, List.map_cons, List.forall₂_cons]
    have steps := bindMid_lands_iff sorted.2 small after here own moved rests
    have lands := lands_of_range (readOrdinal record.libraryOrdinal)
      (flagsAt {} (0 : UInt8) record) here inside small own
    exact ⟨fun both => steps.1 both.2, fun chain => ⟨lands, steps.2 chain⟩⟩

end Segments

/-! Two segments of a page each, one directly behind the other. -/

def adjacent : Image .p8 where
  sections := [⟨⟨[1], CString.nulFree_one⟩, .empty, 0x1000, 0x1000, 0⟩,
    ⟨⟨[2], CString.nulFree_two⟩, .empty, 0x2000, 0x1000, 0x1000⟩,
    ⟨⟨[3], CString.nulFree_three⟩, .empty, 0x3000, 0x1000, 0x2000⟩]
  apart := by decide
  countable := by decide
  segmentAlignment := 0x1000
  fits := by decide

/-- A bind at each of two addresses. -/
def bindsAt (first second : BitVec 64) : List BindingInfo :=
  [⟨.pointer, .none, 1, ⟨[0x61], CString.nulFree_a⟩, first, 0⟩,
    ⟨.pointer, .none, 1, ⟨[0x61], CString.nulFree_a⟩, second, 0⟩]

theorem bindEncodeV1_lands_iff_gap : AllLand adjacent (bindsAt 0x1ff0 0x2000) := by
  refine (bindEncodeV1_lands_iff (by decide) ?_).2 ⟨?_, by decide⟩
  · intro record member
    rcases List.mem_pair.1 member with rfl | rfl
    · exact ⟨⟨0x1000, 0x2000, 0⟩, by decide⟩
    · exact ⟨⟨0x2000, 0x3000, 1⟩, by decide⟩
  · intro record member range found
    exact lt_trans (Layout.index_lt found) (by decide)

/-- The second pointer, first in its segment, is bound behind the end of the other. -/
theorem bindEncodeV1_lands_seam :
    (∀ record ∈ bindsAt 0x1ff8 0x2000, ∃ range, adjacent.find record.address = some range ∧
      record.address.toNat + PointerSize.p8.bytes ≤ range.finish.toNat) ∧
      ¬ AllLand adjacent (bindsAt 0x1ff8 0x2000) := by
  refine ⟨?_, ?_⟩
  · intro record member
    rcases List.mem_pair.1 member with rfl | rfl
    · exact ⟨⟨0x1000, 0x2000, 0⟩, by decide⟩
    · exact ⟨⟨0x2000, 0x3000, 1⟩, by decide⟩
  · rintro ⟨bytes, states, writes, reads, all⟩
    have written : bindEncodeV1 adjacent.find .p8 (bindsAt 0x1ff8 0x2000) =
        .ok [0x11, 0x40, 0x61, 0, 0x51, 0x70, 0xf8, 0x1f, 0x90, 0x90, 0, 0, 0, 0, 0, 0] := by decide
    rw [written] at writes
    cases writes
    have bound : (bindStates .p8 [0x11, 0x40, 0x61, 0, 0x51, 0x70, 0xf8, 0x1f, 0x90, 0x90,
        0, 0, 0, 0, 0, 0]).map (List.map BindState.segIndex) = some [some 0, some 0] := by decide
    rw [reads] at bound
    have order : BindingInfo.sort (bindsAt 0x1ff8 0x2000) = bindsAt 0x1ff8 0x2000 := by decide
    have place : adjacent.find 0x2000 = some ⟨0x2000, 0x3000, 1⟩ := by decide
    rw [order, bindsAt] at all
    cases all with
    | cons _ rest =>
      cases rest with
      | cons second _ =>
        obtain ⟨range, found, named, -⟩ := second
        rw [place] at found
        cases found
        simp only [Option.map_some, List.map_cons, Option.some.injEq, List.cons.injEq] at bound
        rw [named] at bound
        exact absurd bound.2.1 (by decide)

/-! Eighteen segments. -/

def eighteen : Layout where
  sections := List.ofFn fun i : Fin 18 =>
    ⟨⟨[UInt8.ofNat (i.val + 1)], by revert i; decide⟩, .empty,
      BitVec.ofNat 64 (0x1000 * (i.val + 1)), 0x1000, BitVec.ofNat 64 (0x1000 * i.val)⟩
  apart := by decide
  countable := by decide

end Cctools.LinkEdit
