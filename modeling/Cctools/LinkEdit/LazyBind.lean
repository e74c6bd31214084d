/-
# Cctools.LinkEdit.LazyBind -- `LazyBindingInfoAtom::encode` and its offsets

Every lazy binding is a slice of the stream that says everything it needs and
ends with `BIND_OPCODE_DONE`; the offset of the slice goes into a map under the
address of the lazy pointer, from where the stub helper takes it.

`lazyEncode_binds_iff`: decoding from the recorded offset, with nothing set,
executes one bind, that of the record, and then reaches `BIND_OPCODE_DONE`, for
every record of the list, if and only if every segment can be named in four bits,
every special ordinal has a nibble of its own, and records that share an address
agree on what to bind there.
-/
import Cctools.LinkEdit.BindStates
import Cctools.LinkEdit.ThreadedOrdinals

namespace Cctools.LinkEdit

set_option autoImplicit false

open Cctools.Theory

/-! ## Encoding -/

/-- The library ordinal, in the shortest of its three forms. -/
def lazyOrdinal (it : BindingInfo) : List UInt8 :=
  if it.libraryOrdinal.toInt ≤ 0 then
    [bindOpcodeByte .setDylibSpecialImm (it.libraryOrdinal.signExtend 64 &&& 0x0F)]
  else if it.libraryOrdinal.toInt ≤ 15 then
    [bindOpcodeByte .setDylibOrdinalImm (it.libraryOrdinal.signExtend 64)]
  else
    BindOpcode.setDylibOrdinalUleb.code :: appendUleb128 (it.libraryOrdinal.signExtend 64)

/-- The slice of one record. -/
def lazyRecord (range : SegmentRange) (it : BindingInfo) : List UInt8 :=
  bindOpcodeByte .setSegmentAndOffsetUleb (BitVec.ofNat 64 range.index) ::
    appendUleb128 (it.address - range.start) ++ lazyOrdinal it ++
    bindOpcodeByte .setSymbolTrailingFlagsImm it.flags.code.toNat :: appendString it.symbolName ++
    [BindOpcode.doBind.code, 0]

/-- `_encodedData` and `_lazyPointerAddressToInfoOffset`; an address that was never set
reads as 0. -/
structure LazyInfo where
  bytes : List UInt8
  offsets : BitVec 64 → BitVec 32

/-- The offset is a `uint32_t`. -/
def LazyInfo.setLazyBindingInfoOffset (state : LazyInfo) (lpAddress : BitVec 64) : LazyInfo :=
  { state with
    offsets := fun other => if other = lpAddress then BitVec.ofNat 32 state.bytes.length
      else state.offsets other }

def LazyInfo.lazyBindingInfoOffsetForLazyPointerAddress (state : LazyInfo)
    (lpAddress : BitVec 64) : BitVec 32 := state.offsets lpAddress

section Encode

variable (find : BitVec 64 → Option SegmentRange)

def lazyLoop : LazyInfo → List BindingInfo → Except String LazyInfo
  | state, [] => .ok state
  | state, it :: rest =>
    let recorded := state.setLazyBindingInfoOffset it.address
    match find it.address with
    | none => .error "lazy binding address outside range of any segment"
    | some range => lazyLoop { recorded with bytes := state.bytes ++ lazyRecord range it } rest

/-- `LazyBindingInfoAtom<A>::encode`. -/
def lazyEncode (ptr : PointerSize) (info : List BindingInfo) : Except String LazyInfo :=
  (lazyLoop find ⟨[], fun _ => 0⟩ info).map fun state =>
    { state with bytes := padToSize ptr.bytes state.bytes }

end Encode

/-! ## Decoding one slice -/

/-- The instructions before a `BIND_OPCODE_DONE` that has to come. -/
def readToDone : Nat → List UInt8 → Option (List BindingTmp)
  | 0, _ => none
  | _, [] => none
  | fuel + 1, byte :: p => do
      let (instr, p) ← readBind byte p
      match instr with
      | none => return []
      | some instr =>
        let more ← readToDone fuel p
        return instr :: more

/-- The binds from an offset of the stream up to `BIND_OPCODE_DONE`. -/
def lazyStates (ptr : PointerSize) (bytes : List UInt8) (offset : Nat) : Option (List BindState) :=
  (readToDone (bytes.drop offset).length (bytes.drop offset)).map fun program =>
    (Transducer.run (bindStep ptr) {} program).2

/-- The one bind from the recorded offset is the record's. -/
def LazyBinds (layout : Layout) (ptr : PointerSize) (result : LazyInfo) (record : BindingInfo) :
    Prop :=
  ∃ state, lazyStates ptr result.bytes
      (result.lazyBindingInfoOffsetForLazyPointerAddress record.address).toNat = some [state] ∧
    state.symbolName = some record.symbolName ∧ state.libraryOrdinal = record.libraryOrdinal ∧
    state.flags = record.flags.code ∧ layout.addressOf state = some record.address

/-- The two records bind the same thing the same way. -/
def BindingInfo.Agrees (a b : BindingInfo) : Prop :=
  a.symbolName = b.symbolName ∧ a.libraryOrdinal = b.libraryOrdinal ∧ a.flags = b.flags

instance (a b : BindingInfo) : Decidable (a.Agrees b) := inferInstanceAs (Decidable (_ ∧ _ ∧ _))

/-! ## Reading a slice back -/

section Slice

variable {layout : Layout} {ptr : PointerSize}

def ordinalEntry (it : BindingInfo) : BindingTmp where
  opcode := if it.libraryOrdinal.toInt ≤ 0 then .setDylibSpecialImm
    else if it.libraryOrdinal.toInt ≤ 15 then .setDylibOrdinalImm
    else .setDylibOrdinalUleb
  operand1 := it.libraryOrdinal.signExtend 64

/-- The slice as instructions, up to `BIND_OPCODE_DONE`. -/
def lazyEntries (range : SegmentRange) (it : BindingInfo) : List BindingTmp :=
  [{ opcode := .setSegmentAndOffsetUleb, operand1 := BitVec.ofNat 64 range.index,
     operand2 := it.address - range.start },
   ordinalEntry it,
   { opcode := .setSymbolTrailingFlagsImm, operand1 := it.flags.code.toNat, name := it.symbolName },
   { opcode := .doBind, operand1 := 0 }]

theorem ordinalEntry_encode (it : BindingInfo) : (ordinalEntry it).encode = lazyOrdinal it := by
  unfold lazyOrdinal
  split
  · rename_i special
    simp [ordinalEntry, special, BindingTmp.encode]
  · rename_i plain
    split
    · rename_i short
      simp [ordinalEntry, plain, short, BindingTmp.encode]
    · rename_i long
      simp [ordinalEntry, plain, long, BindingTmp.encode]

theorem lazyRecord_eq (range : SegmentRange) (it : BindingInfo) :
    lazyRecord range it = (lazyEntries range it).flatMap BindingTmp.encode ++ [0] := by
  simp only [lazyEntries, List.flatMap_cons, List.flatMap_nil, ordinalEntry_encode]
  simp [lazyRecord, BindingTmp.encode]

theorem ordinalEntry_fits (it : BindingInfo) : (ordinalEntry it).Fits := by
  by_cases special : it.libraryOrdinal.toInt ≤ 0
  · simp [ordinalEntry, special, BindingTmp.Fits]
  · by_cases short : it.libraryOrdinal.toInt ≤ 15
    · have small := immediate_ordinal special short
      simpa [ordinalEntry, special, short, BindingTmp.Fits] using small
    · simp [ordinalEntry, special, short, BindingTmp.Fits]

variable {range : SegmentRange}

theorem lazyEntries_fits_iff (it : BindingInfo) (numbered : range.index < 2 ^ 64) :
    (∀ op ∈ lazyEntries range it, op.Fits) ↔ range.index % 256 < 128 := by
  have flags : (BitVec.ofNat 64 it.flags.code.toNat).toNat < 16 := by cases it.flags <;> decide
  have index : (BitVec.ofNat 64 range.index).toNat = range.index := by
    rw [BitVec.toNat_ofNat, Nat.mod_eq_of_lt numbered]
  simp only [lazyEntries, List.forall_mem_cons, ordinalEntry_fits]
  simp only [BindingTmp.Fits, index, true_and]
  exact ⟨fun all => all.1, fun readable => ⟨readable, flags, by simp⟩⟩

/-- What the slice binds. -/
def lazyState (range : SegmentRange) (it : BindingInfo) : BindState where
  libraryOrdinal := readOrdinal it.libraryOrdinal
  symbolName := some it.symbolName
  flags := it.flags.code
  segIndex := some (range.index % 16)
  segOffset := it.address - range.start

theorem lazyEntries_run (it : BindingInfo) (numbered : range.index < 2 ^ 64) :
    (Transducer.run (bindStep ptr) {} ((lazyEntries range it).map BindingTmp.written)).2 =
      [lazyState range it] := by
  have runs := Transducer.run_map (bindStep ptr)
    (fun entry (_ : entry ∈ lazyEntries range it) state => @bindStep_written ptr entry state) {}
  have ordinal : ∀ state, bindStep ptr state (ordinalEntry it) =
      ({ state with libraryOrdinal := readOrdinal it.libraryOrdinal }, []) := by
    intro state
    by_cases special : it.libraryOrdinal.toInt ≤ 0
    · simp [ordinalEntry, special, bindStep, readOrdinal]
    · by_cases short : it.libraryOrdinal.toInt ≤ 15 <;>
        simp [ordinalEntry, special, short, bindStep, readOrdinal, Theory.BitField.setWidth_signExtend]
  have index : (BitVec.ofNat 64 range.index).toNat = range.index := by
    rw [BitVec.toNat_ofNat, Nat.mod_eq_of_lt numbered]
  rw [show ({} : BindState) = BindState.nibble {} from rfl, runs]
  simp only [lazyEntries, Transducer.run_cons, ordinal, Transducer.run_nil]
  simp only [bindStep]
  simp [BindState.nibble, lazyState, index]

theorem readToDone_bytes {program : List BindingTmp} (fits : ∀ it ∈ program, it.Fits) {fuel : Nat}
    (rest : List UInt8)
    (enough : (program.flatMap BindingTmp.encode ++ 0 :: rest).length ≤ fuel) :
    readToDone fuel (program.flatMap BindingTmp.encode ++ 0 :: rest) =
      some (program.map BindingTmp.written) := by
  induction program generalizing fuel with
  | nil =>
    obtain ⟨fuel, rfl⟩ : ∃ less, fuel = less + 1 :=
      ⟨fuel - 1, by rw [List.flatMap_nil, List.nil_append, List.length_cons] at enough; omega⟩
    rfl
  | cons it later ih =>
    rw [List.forall_mem_cons] at fits
    obtain ⟨byte, tail, shape, reads⟩ := readBind_encode fits.1
      (later.flatMap BindingTmp.encode ++ 0 :: rest)
    have nonempty := length_encode_pos it
    rw [List.flatMap_cons, List.append_assoc] at enough ⊢
    rw [List.length_append] at enough
    obtain ⟨fuel, rfl⟩ : ∃ less, fuel = less + 1 := ⟨fuel - 1, by omega⟩
    have more := ih fits.2 (show (later.flatMap BindingTmp.encode ++ 0 :: rest).length ≤ fuel by omega)
    rw [shape]
    simp [readToDone, reads, more]

/-- **A slice decodes to its one bind**, or not at all when its segment cannot be read. -/
theorem lazyStates_slice (it : BindingInfo) (numbered : range.index < 2 ^ 64) (before rest : List UInt8) :
    lazyStates ptr (before ++ (lazyRecord range it ++ rest)) before.length =
      if range.index % 256 < 128 then some [lazyState range it] else none := by
  rw [lazyStates, List.drop_left, lazyRecord_eq, List.append_assoc, List.singleton_append]
  split
  · rename_i readable
    have fits := (lazyEntries_fits_iff it numbered).2 readable
    rw [readToDone_bytes fits rest le_rfl, Option.map_some, lazyEntries_run it numbered]
  · rename_i unreadable
    have marked : 128 ≤ (BitVec.ofNat 64 range.index).toNat % 256 := by
      rw [BitVec.toNat_ofNat, Nat.mod_eq_of_lt numbered]
      omega
    simp only [lazyEntries, List.flatMap_cons, BindingTmp.encode, List.cons_append,
      List.length_cons, readToDone, readBind_unreadable marked]
    rfl

/-- The bind of a slice is the record's own, for the record at hand. -/
theorem lazyState_iff (range : SegmentRange) {it record : BindingInfo} (same : it.address = record.address) :
    ((lazyState range it).symbolName = some record.symbolName ∧
      (lazyState range it).libraryOrdinal = record.libraryOrdinal ∧
      (lazyState range it).flags = record.flags.code ∧
      layout.addressOf (lazyState range it) = some record.address) ↔
    it.symbolName = record.symbolName ∧ readOrdinal it.libraryOrdinal = record.libraryOrdinal ∧
      it.flags = record.flags ∧ layout.segStart (range.index % 16) = some range.start := by
  have place : layout.addressOf (lazyState range it) = some record.address ↔
      layout.segStart (range.index % 16) = some range.start := by
    rw [Layout.addressOf, ← same]
    simp only [lazyState, Option.bind_some]
    exact layout.segStart_offset_iff _
  have flags : it.flags.code = record.flags.code ↔ it.flags = record.flags :=
    ⟨BindFlags.code_inj, congrArg _⟩
  rw [place]
  simp only [lazyState, Option.some.injEq, flags]

end Slice

/-! ## The map of offsets -/

section Offsets

variable {layout : Layout} {ptr : PointerSize}

/-- The slice of a record whose segment is found. -/
def Layout.lazySlice (layout : Layout) (it : BindingInfo) : List UInt8 :=
  match layout.find it.address with
  | some range => lazyRecord range it
  | none => []

/-- **What the loop leaves**: the slices one after the other, and under each address the
offset of the last record that has it. -/
theorem lazyLoop_ok {state final : LazyInfo} {records : List BindingInfo}
    (encodes : lazyLoop layout.find state records = .ok final) :
    (∀ record ∈ records, ∃ range, layout.find record.address = some range) ∧
      final.bytes = state.bytes ++ records.flatMap layout.lazySlice ∧
      ∀ address, (∀ record ∈ records, record.address ≠ address) ∧
          final.offsets address = state.offsets address ∨
        ∃ before last after, records = before ++ last :: after ∧ last.address = address ∧
          final.offsets address = BitVec.ofNat 32
            (state.bytes ++ before.flatMap layout.lazySlice).length := by
  induction records generalizing state with
  | nil =>
    cases encodes
    exact ⟨by simp, by simp, fun address => .inl ⟨by simp, rfl⟩⟩
  | cons record rest ih =>
    unfold lazyLoop at encodes
    dsimp only at encodes
    split at encodes
    · cases encodes
    · rename_i range here
      obtain ⟨found, bytes, offsets⟩ := ih encodes
      have slice : layout.lazySlice record = lazyRecord range record := by
        simp [Layout.lazySlice, here]
      refine ⟨List.forall_mem_cons.2 ⟨⟨range, here⟩, found⟩, ?_, ?_⟩
      · rw [bytes, List.flatMap_cons, slice, List.append_assoc]
      · intro address
        rcases offsets address with ⟨absent, kept⟩ | ⟨before, last, after, shape, own, offset⟩
        · by_cases mine : record.address = address
          · refine .inr ⟨[], record, rest, rfl, mine, ?_⟩
            rw [kept]
            simp [LazyInfo.setLazyBindingInfoOffset, mine]
          · refine .inl ⟨List.forall_mem_cons.2 ⟨mine, absent⟩, ?_⟩
            rw [kept]
            exact if_neg (Ne.symm mine)
        · refine .inr ⟨record :: before, last, after, by rw [shape]; rfl, own, ?_⟩
          rw [offset, List.flatMap_cons, slice, List.append_assoc]

/-- The offset recorded for a record's address is where the slice of a record at that
address begins. -/
theorem lazyEncode_slice {info : List BindingInfo} {result : LazyInfo}
    (encodes : lazyEncode layout.find ptr info = .ok result)
    (small : result.bytes.length < 2 ^ 32) {record : BindingInfo} (member : record ∈ info) :
    ∃ last range, last ∈ info ∧ last.address = record.address ∧
      layout.find record.address = some range ∧
      lazyStates ptr result.bytes
          (result.lazyBindingInfoOffsetForLazyPointerAddress record.address).toNat =
        if range.index % 256 < 128 then some [lazyState range last] else none := by
  obtain ⟨state, loops, rfl⟩ := ok_of_map encodes
  obtain ⟨found, bytes, offsets⟩ := lazyLoop_ok loops
  obtain ⟨count, padded⟩ := padToSize_eq ptr.bytes state.bytes
  rcases offsets record.address with ⟨absent, -⟩ | ⟨before, last, after, shape, own, offset⟩
  · exact absurd rfl (absent record member)
  · have inside : last ∈ info := by rw [shape]; simp
    obtain ⟨range, here⟩ := found last inside
    refine ⟨last, range, inside, own, own ▸ here, ?_⟩
    have slice : layout.lazySlice last = lazyRecord range last := by
      simp [Layout.lazySlice, here]
    have whole : padToSize ptr.bytes state.bytes = before.flatMap layout.lazySlice ++
        (lazyRecord range last ++ (after.flatMap layout.lazySlice ++ List.replicate count 0)) := by
      rw [padded, bytes, shape, List.nil_append, List.flatMap_append, List.flatMap_cons, slice]
      simp only [List.append_assoc]
    have start : (state.offsets record.address).toNat = (before.flatMap layout.lazySlice).length := by
      dsimp only at small
      rw [whole, List.length_append] at small
      rw [offset, List.nil_append, BitVec.toNat_ofNat, Nat.mod_eq_of_lt (by omega)]
    show lazyStates ptr (padToSize ptr.bytes state.bytes) (state.offsets record.address).toNat = _
    rw [start, whole, lazyStates_slice last (Layout.index_lt_two_pow here)]

end Offsets

/-! ## One bind for each offset -/

section Binds

variable {layout : Layout} {ptr : PointerSize} {info : List BindingInfo} {result : LazyInfo}

theorem readOrdinal_eq_iff (ordinal : BitVec 32) :
    readOrdinal ordinal = ordinal ↔ -16 < ordinal.toInt := by
  refine ⟨?_, readOrdinal_eq⟩
  intro same
  by_contra low
  have table : ∀ nibble : Fin 16, -16 < (specialOrdinal (BitVec.ofNat 64 nibble.val)).toInt := by
    decide
  obtain ⟨nibble, nibble_⟩ : ∃ nibble : Fin 16,
      (ordinal.signExtend 64 &&& 0x0F : BitVec 64) = BitVec.ofNat 64 nibble.val := by
    refine ⟨⟨(ordinal.signExtend 64).toNat % 16, by omega⟩, ?_⟩
    apply BitVec.eq_of_toNat_eq
    rw [toNat_and_nibble, BitVec.toNat_ofNat]
    dsimp only
    omega
  have above := table nibble
  rw [← nibble_, specialOrdinal_mask] at above
  rw [readOrdinal, if_pos (by omega)] at same
  rw [same] at above
  exact low above

/-- The last record at an address decides for all records there. -/
theorem lazyBinds_record (encodes : lazyEncode layout.find ptr info = .ok result)
    (small : result.bytes.length < 2 ^ 32) {record : BindingInfo} (member : record ∈ info) :
    ∃ last ∈ info, last.address = record.address ∧ ∀ other, other.address = record.address →
      (LazyBinds layout ptr result other ↔
        (∀ range ∈ layout.find other.address, layout.Named range) ∧
          last.symbolName = other.symbolName ∧
          readOrdinal last.libraryOrdinal = other.libraryOrdinal ∧ last.flags = other.flags) := by
  obtain ⟨last, range, inside, same, here, states⟩ := lazyEncode_slice encodes small member
  refine ⟨last, inside, same, ?_⟩
  intro other there
  have own := @lazyState_iff layout range last other (same.trans there.symm)
  rw [← there] at here states
  have named : (∀ range ∈ layout.find other.address, layout.Named range) ↔ layout.Named range := by
    simp [here]
  rw [named, LazyBinds, states, Layout.Named]
  constructor
  · rintro ⟨state, only, matches_⟩
    split at only
    · rename_i readable
      cases only
      obtain ⟨symbol, ordinal, flags, start⟩ := own.1 matches_
      exact ⟨⟨readable, start⟩, symbol, ordinal, flags⟩
    · cases only
  · rintro ⟨⟨readable, start⟩, symbol, ordinal, flags⟩
    rw [if_pos readable]
    exact ⟨_, rfl, own.2 ⟨symbol, ordinal, flags, start⟩⟩

/-- Every record is bound from its offset when the segments and ordinals can be named and
records at one address agree. -/
theorem lazyBinds_iff (encodes : lazyEncode layout.find ptr info = .ok result)
    (small : result.bytes.length < 2 ^ 32) :
    (∀ record ∈ info, LazyBinds layout ptr result record) ↔
      ∀ record ∈ info, -16 < record.libraryOrdinal.toInt ∧
        (∀ range ∈ layout.find record.address, layout.Named range) ∧
        ∀ other ∈ info, other.address = record.address → other.Agrees record := by
  constructor
  · intro all record member
    obtain ⟨last, inside, same, binds⟩ := lazyBinds_record encodes small member
    have lastOrdinal := ((binds last same).1 (all last inside)).2.2.1
    -- every record at the address agrees with the last one
    have agrees : ∀ other ∈ info, other.address = record.address → other.Agrees last := by
      intro other isOther there
      obtain ⟨-, symbol, ordinal, flags⟩ := (binds other there).1 (all other isOther)
      exact ⟨symbol.symm, ordinal.symm.trans lastOrdinal, flags.symm⟩
    obtain ⟨symbol, ordinal, flags⟩ := agrees record member rfl
    refine ⟨?_, ((binds record rfl).1 (all record member)).1, ?_⟩
    · rw [ordinal]
      exact (readOrdinal_eq_iff _).1 lastOrdinal
    · intro other isOther there
      obtain ⟨symbol', ordinal', flags'⟩ := agrees other isOther there
      exact ⟨symbol'.trans symbol.symm, ordinal'.trans ordinal.symm, flags'.trans flags.symm⟩
  · intro good record member
    obtain ⟨last, inside, same, binds⟩ := lazyBinds_record encodes small member
    obtain ⟨-, named, agree⟩ := good record member
    obtain ⟨symbol, ordinal, flags⟩ := agree last inside same
    refine (binds record rfl).2 ⟨named, symbol, ?_, flags⟩
    rw [readOrdinal_eq (good last inside).1, ordinal]

/-- The stream is made whenever every lazy pointer is in a segment. -/
theorem lazyEncode_ok (ptr : PointerSize)
    (found : ∀ record ∈ info, ∃ range, layout.find record.address = some range) :
    ∃ result, lazyEncode layout.find ptr info = .ok result := by
  have loops : ∀ state, ∃ final, lazyLoop layout.find state info = .ok final := by
    induction info with
    | nil => exact fun state => ⟨state, rfl⟩
    | cons record rest ih =>
      rw [List.forall_mem_cons] at found
      obtain ⟨range, here⟩ := found.1
      intro state
      simp only [lazyLoop, here]
      exact ih found.2 _
  obtain ⟨final, done⟩ := loops ⟨[], fun _ => 0⟩
  rw [lazyEncode, done]
  exact ⟨_, rfl⟩

/-- **Lazy binding offsets**: every stream of less than 4 GiB is made, and binds each
record from its offset, exactly when segments and special ordinals fit their nibble and
records at one address agree. -/
theorem lazyEncode_binds_iff (ptr : PointerSize)
    (found : ∀ record ∈ info, ∃ range, layout.find record.address = some range) :
    ∃ result, lazyEncode layout.find ptr info = .ok result ∧ (result.bytes.length < 2 ^ 32 →
      ((∀ record ∈ info, LazyBinds layout ptr result record) ↔
        ∀ record ∈ info, -16 < record.libraryOrdinal.toInt ∧
          (∀ range ∈ layout.find record.address, layout.Named range) ∧
          ∀ other ∈ info, other.address = record.address → other.Agrees record)) := by
  obtain ⟨result, encodes⟩ := lazyEncode_ok ptr found
  exact ⟨result, encodes, lazyBinds_iff encodes⟩

end Binds

theorem lazyEncode_binds_iff_two : ∃ result,
    lazyEncode adjacent.find .p8 (bindsAt 0x1ff8 0x2000) = .ok result ∧
      ∀ record ∈ bindsAt 0x1ff8 0x2000, LazyBinds adjacent.toLayout .p8 result record := by
  have seam : adjacent.find 0x1ff8 = some ⟨0x1000, 0x2000, 0⟩ := by decide
  have high : adjacent.find 0x2000 = some ⟨0x2000, 0x3000, 1⟩ := by decide
  obtain ⟨result, encodes, binds⟩ := @lazyEncode_binds_iff adjacent.toLayout
    (bindsAt 0x1ff8 0x2000) .p8 (by
      intro record member
      simp only [bindsAt, List.mem_cons, List.not_mem_nil, or_false] at member
      rcases member with rfl | rfl
      · exact ⟨_, seam⟩
      · exact ⟨_, high⟩)
  have made : ∃ made, lazyEncode adjacent.find .p8 (bindsAt 0x1ff8 0x2000) = .ok made ∧
      made.bytes.length < 2 ^ 32 := ⟨_, rfl, by decide⟩
  obtain ⟨made, same, small⟩ := made
  rw [encodes, Except.ok.injEq] at same
  subst same
  refine ⟨result, encodes, (binds small).2 ?_⟩
  intro record member
  simp only [bindsAt, List.mem_cons, List.not_mem_nil, or_false] at member
  rcases member with rfl | rfl
  · refine ⟨by decide, ?_, by decide⟩
    rintro range here
    rw [seam] at here
    cases here
    decide
  · refine ⟨by decide, ?_, by decide⟩
    rintro range here
    rw [high] at here
    cases here
    decide

/-- A lazy pointer in the seventeenth segment is bound in the first one. -/
theorem lazyEncode_binds_seventeenth : ∃ record result,
    lazyEncode eighteen.find .p8 [record] = .ok result ∧
      ¬ LazyBinds eighteen .p8 result record := by
  obtain ⟨result, encodes, small⟩ : ∃ result, lazyEncode eighteen.find .p8
      [⟨.pointer, .none, 1, ⟨[0x61], CString.nulFree_a⟩, 0x11000, 0⟩] = .ok result ∧
        result.bytes.length < 2 ^ 32 := ⟨_, rfl, by decide⟩
  refine ⟨_, result, encodes, ?_⟩
  intro binds
  have there : eighteen.find 0x11000 = some ⟨0x11000, 0x12000, 16⟩ := by decide
  have good := (lazyBinds_iff encodes small).1 (by simpa using binds) _ List.mem_cons_self
  exact absurd (good.2.1 _ there) (by decide)

end Cctools.LinkEdit
