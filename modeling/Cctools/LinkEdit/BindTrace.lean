/-
# Cctools.LinkEdit.BindTrace -- the decoder follows the encoder's variables

The bind encoders keep in their running variables what a decoder has in force:
`BindSync` says so, each `set…` step of the encoder keeps it, and one record
therefore binds in the state that its own fields and the cached segment
describe (`bindRecord_run`, `weakRecord_run`).  Two fields are not the record's
own: the flags are those of the record that last wrote the symbol, and the
segment is the one that is cached.
-/
import Cctools.LinkEdit.BindPasses
import Cctools.Theory.BitField

namespace Cctools.LinkEdit

set_option autoImplicit false

open Cctools.Theory

/-- What a decoder makes of a written library ordinal. -/
def readOrdinal (ordinal : BitVec 32) : BitVec 32 :=
  if ordinal.toInt ≤ 0 then specialOrdinal (ordinal.signExtend 64) else ordinal

/-- The decoder has in force what the encoder last wrote. -/
structure KeySync (cursor : BindCursor) (state : BindState) : Prop where
  ordinal : state.libraryOrdinal = readOrdinal cursor.ordinal
  symbol : state.symbolName = cursor.symbolName
  type : state.type = cursor.type.code
  addend : state.addend = cursor.addend

/-- The decoder is where the encoder is.  Before the first segment is set the encoder's
variables are its sentinels. -/
def PlaceSync (cursor : BindCursor) (state : BindState) : Prop :=
  state.segIndex = some cursor.curSegIndex ∧
      state.segOffset = cursor.address - cursor.curSegStart ∨
    cursor.address = -1 ∧ cursor.curSegEnd = 0

/-- The decoder's state when the encoder's variables are `cursor`. -/
structure BindSync (cursor : BindCursor) (state : BindState) : Prop where
  key : KeySync cursor state
  place : PlaceSync cursor state

theorem keySync_initial : KeySync {} {} := ⟨by decide, rfl, rfl, rfl⟩

theorem bindSync_initial : BindSync {} {} := ⟨keySync_initial, .inr ⟨rfl, rfl⟩⟩

/-- The state in which `it` is bound, when the variables after it are `next`. -/
def BindState.of (it : BindingInfo) (ordinal : BitVec 32) (flags : UInt8) (next : BindCursor) :
    BindState :=
  { libraryOrdinal := ordinal
    symbolName := some it.symbolName
    flags := flags
    type := it.type.code
    addend := it.addend
    segIndex := some next.curSegIndex
    segOffset := it.address - next.curSegStart }

/-- The flags in force at a record: its own if it writes its symbol. -/
def flagsAt (cursor : BindCursor) (flags : UInt8) (it : BindingInfo) : UInt8 :=
  if cursor.symbolName ≠ some it.symbolName then it.flags.code else flags

/-! ## The cached segment -/

/-- The segment the variables hold. -/
def BindCursor.range (cursor : BindCursor) : SegmentRange :=
  ⟨cursor.curSegStart, cursor.curSegEnd, cursor.curSegIndex⟩

theorem BindCursor.setOrdinal_keeps (cursor : BindCursor) (it : BindingInfo) :
    (cursor.setOrdinal it).1.range = cursor.range ∧
      (cursor.setOrdinal it).1.address = cursor.address := by
  unfold BindCursor.setOrdinal
  split <;> exact ⟨rfl, rfl⟩

theorem BindCursor.setSymbol_keeps (cursor : BindCursor) (it : BindingInfo) :
    (cursor.setSymbol it).1.range = cursor.range ∧
      (cursor.setSymbol it).1.address = cursor.address := by
  unfold BindCursor.setSymbol
  split <;> exact ⟨rfl, rfl⟩

theorem BindCursor.setType_keeps (cursor : BindCursor) (it : BindingInfo) :
    (cursor.setType it).1.range = cursor.range ∧
      (cursor.setType it).1.address = cursor.address := by
  unfold BindCursor.setType
  split <;> exact ⟨rfl, rfl⟩

theorem BindCursor.setAddend_keeps (cursor : BindCursor) (it : BindingInfo) :
    (cursor.setAddend it).1.range = cursor.range ∧
      (cursor.setAddend it).1.address = cursor.address := by
  unfold BindCursor.setAddend
  split <;> exact ⟨rfl, rfl⟩

/-- The place depends on the cached segment and the running address only. -/
theorem PlaceSync.congr {cursor other : BindCursor} {state next : BindState}
    (place : PlaceSync cursor state) (cached : other.range = cursor.range)
    (running : other.address = cursor.address)
    (there : next.segIndex = state.segIndex ∧ next.segOffset = state.segOffset) :
    PlaceSync other next := by
  obtain ⟨start, finish, index⟩ : other.curSegStart = cursor.curSegStart ∧
      other.curSegEnd = cursor.curSegEnd ∧ other.curSegIndex = cursor.curSegIndex :=
    ⟨congrArg SegmentRange.start cached, congrArg SegmentRange.finish cached,
      congrArg SegmentRange.index cached⟩
  unfold PlaceSync
  rw [start, finish, index, running, there.1, there.2]
  exact place

/-! ## Steps of the encoder -/

section Steps

variable {find : BitVec 64 → Option SegmentRange} (ptr : PointerSize)
variable {cursor : BindCursor} {state : BindState} (it : BindingInfo)

theorem BindCursor.setOrdinal_run (key : KeySync cursor state) :
    KeySync (cursor.setOrdinal it).1 { state with libraryOrdinal := readOrdinal it.libraryOrdinal } ∧
      Transducer.run (bindStep ptr) state (cursor.setOrdinal it).2 =
        ({ state with libraryOrdinal := readOrdinal it.libraryOrdinal }, []) := by
  obtain ⟨ordinal, symbol, type, addend⟩ := key
  unfold BindCursor.setOrdinal
  split
  · refine ⟨⟨rfl, symbol, type, addend⟩, ?_⟩
    by_cases special : it.libraryOrdinal.toInt ≤ 0
    · simp [Transducer.run_cons, bindStep, special, readOrdinal]
    · simp [Transducer.run_cons, bindStep, special, readOrdinal, Theory.BitField.setWidth_signExtend]
  · rename_i same
    have already : cursor.ordinal = it.libraryOrdinal := by simpa using same
    rw [← already, ← ordinal]
    exact ⟨⟨ordinal, symbol, type, addend⟩, rfl⟩

theorem BindCursor.setSymbol_run (key : KeySync cursor state) :
    KeySync (cursor.setSymbol it).1 { state with
        symbolName := some it.symbolName, flags := flagsAt cursor state.flags it } ∧
      Transducer.run (bindStep ptr) state (cursor.setSymbol it).2 =
        ({ state with symbolName := some it.symbolName, flags := flagsAt cursor state.flags it }, []) := by
  obtain ⟨ordinal, symbol, type, addend⟩ := key
  unfold BindCursor.setSymbol flagsAt
  split
  · refine ⟨⟨ordinal, rfl, type, addend⟩, ?_⟩
    cases flags : it.flags <;> simp [Transducer.run_cons, bindStep, BindFlags.code]
  · rename_i same
    have already : cursor.symbolName = some it.symbolName := by simpa using same
    rw [← already, ← symbol]
    exact ⟨⟨ordinal, symbol, type, addend⟩, rfl⟩

theorem BindCursor.setType_run (key : KeySync cursor state) :
    KeySync (cursor.setType it).1 { state with type := it.type.code } ∧
      Transducer.run (bindStep ptr) state (cursor.setType it).2 =
        ({ state with type := it.type.code }, []) := by
  obtain ⟨ordinal, symbol, type, addend⟩ := key
  unfold BindCursor.setType
  split
  · refine ⟨⟨ordinal, symbol, rfl, addend⟩, ?_⟩
    cases kind : it.type <;> simp [Transducer.run_cons, bindStep, BindType.code]
  · rename_i same
    have already : cursor.type = it.type := by simpa using same
    rw [← already, ← type]
    exact ⟨⟨ordinal, symbol, type, addend⟩, rfl⟩

theorem BindCursor.setAddend_run (key : KeySync cursor state) :
    KeySync (cursor.setAddend it).1 { state with addend := it.addend } ∧
      Transducer.run (bindStep ptr) state (cursor.setAddend it).2 =
        ({ state with addend := it.addend }, []) := by
  obtain ⟨ordinal, symbol, type, addend⟩ := key
  unfold BindCursor.setAddend
  split
  · exact ⟨⟨ordinal, symbol, type, rfl⟩, by simp [Transducer.run_cons, bindStep]⟩
  · rename_i same
    have already : cursor.addend = it.addend := by simpa using same
    rw [← already, ← addend]
    exact ⟨⟨ordinal, symbol, type, addend⟩, rfl⟩

variable {ops : List BindingTmp}

/-- The segment is cached or looked up, and the decoder goes along. -/
theorem BindCursor.setAddress_run (sync : BindSync cursor state) {placed : BindCursor}
    (wide : ∀ range, find it.address = some range → range.index < 2 ^ 64)
    (real : it.address ≠ -1)
    (set : cursor.setAddress find it = .ok (placed, ops)) :
    BindSync placed { state with
        segIndex := some placed.curSegIndex, segOffset := it.address - placed.curSegStart } ∧
      placed.address = it.address ∧
      Transducer.run (bindStep ptr) state ops =
        ({ state with segIndex := some placed.curSegIndex,
                      segOffset := it.address - placed.curSegStart }, []) := by
  obtain ⟨⟨ordinal, symbol, type, addend⟩, place⟩ := sync
  unfold BindCursor.setAddress at set
  split at set
  · split at set
    · split at set
      · cases set
      · rename_i range found
        cases set
        have index : range.index % 2 ^ 64 = range.index := Nat.mod_eq_of_lt (wide range found)
        refine ⟨⟨⟨ordinal, symbol, type, addend⟩, .inl ⟨rfl, rfl⟩⟩, rfl, ?_⟩
        simp only [Transducer.run_cons, Transducer.run_nil, bindStep, BitVec.toNat_ofNat, index,
          List.append_nil]
    · rename_i inside
      cases set
      rcases place with ⟨index, offset⟩ | ⟨-, unset⟩
      · refine ⟨⟨⟨ordinal, symbol, type, addend⟩, .inl ⟨rfl, rfl⟩⟩, rfl, ?_⟩
        simp only [Transducer.run_cons, Transducer.run_nil, bindStep, offset, List.append_nil]
        rw [← index]
        congr 2
        bv_omega
      · rw [unset, not_or] at inside
        exact absurd (by bv_omega) inside.2
  · rename_i same
    have already : cursor.address = it.address := by simpa using same
    cases set
    rcases place with ⟨index, offset⟩ | ⟨unset, -⟩
    · refine ⟨⟨⟨ordinal, symbol, type, addend⟩, .inl ⟨rfl, by rw [already]⟩⟩, already, ?_⟩
      rw [← index, ← already, ← offset]
      rfl
    · exact absurd (already.symm.trans unset) real

theorem BindCursor.advance_run (key : KeySync cursor state) (index : state.segIndex = some cursor.curSegIndex)
    (offset : state.segOffset = cursor.address - cursor.curSegStart) :
    BindSync (cursor.advance ptr) { state with segOffset := state.segOffset + ptr.word } ∧
      Transducer.run (bindStep ptr) state [{ opcode := .doBind, operand1 := 0 }] =
        ({ state with segOffset := state.segOffset + ptr.word }, [state]) := by
  obtain ⟨ordinal, symbol, type, addend⟩ := key
  refine ⟨⟨⟨ordinal, symbol, type, addend⟩, .inl ⟨index, ?_⟩⟩, rfl⟩
  simp only [offset, BindCursor.advance]
  bv_omega

/-- The part of a record after its symbol: type, place, addend and the bind. -/
theorem bindPlace_run (sync : BindSync cursor state) {placed : BindCursor} {moves : List BindingTmp}
    (wide : ∀ range, find it.address = some range → range.index < 2 ^ 64) (real : it.address ≠ -1)
    (set : (cursor.setType it).1.setAddress find it = .ok (placed, moves)) :
    let next := (placed.setAddend it).1.advance ptr
    let bound := { state with
      type := it.type.code
      addend := it.addend
      segIndex := some next.curSegIndex
      segOffset := it.address - next.curSegStart }
    let after := { bound with segOffset := bound.segOffset + ptr.word }
    BindSync next after ∧
      Transducer.run (bindStep ptr) state ((cursor.setType it).2 ++ moves ++
        (placed.setAddend it).2 ++ [{ opcode := .doBind, operand1 := 0 }]) = (after, [bound]) := by
  obtain ⟨typed, runs₁⟩ := BindCursor.setType_run ptr it sync.key
  obtain ⟨cached₁, running₁⟩ := cursor.setType_keeps it
  have before : BindSync (cursor.setType it).1 { state with type := it.type.code } :=
    ⟨typed, sync.place.congr cached₁ running₁ ⟨rfl, rfl⟩⟩
  obtain ⟨there, address, runs₂⟩ := BindCursor.setAddress_run ptr it before wide real set
  obtain ⟨added, runs₃⟩ := BindCursor.setAddend_run ptr it there.key
  obtain ⟨cached₂, running₂⟩ := placed.setAddend_keeps it
  have sameStart : (placed.setAddend it).1.curSegStart = placed.curSegStart :=
    congrArg SegmentRange.start cached₂
  have sameIndex : (placed.setAddend it).1.curSegIndex = placed.curSegIndex :=
    congrArg SegmentRange.index cached₂
  obtain ⟨done, runs₄⟩ := BindCursor.advance_run ptr added (by rw [sameIndex])
    (by rw [sameStart, running₂, address])
  simp only [BindCursor.advance, sameStart, sameIndex] at done ⊢
  refine ⟨done, ?_⟩
  simp only [Transducer.run_append, runs₁, runs₂, runs₃, runs₄, List.nil_append]

variable {next : BindCursor}

/-- **A record binds in the state of its own fields**, the flags in force and the
cached segment. -/
theorem bindRecord_run (sync : BindSync cursor state)
    (wide : ∀ range, find it.address = some range → range.index < 2 ^ 64) (real : it.address ≠ -1)
    (record : bindRecord find ptr cursor it = .ok (next, ops)) :
    let bound := BindState.of it (readOrdinal it.libraryOrdinal) (flagsAt cursor state.flags it) next
    let after := { bound with segOffset := bound.segOffset + ptr.word }
    BindSync next after ∧ Transducer.run (bindStep ptr) state ops = (after, [bound]) := by
  obtain ⟨ordered, runs₁⟩ := BindCursor.setOrdinal_run ptr it sync.key
  obtain ⟨named, runs₂⟩ := BindCursor.setSymbol_run ptr it ordered
  obtain ⟨cached₁, running₁⟩ := cursor.setOrdinal_keeps it
  obtain ⟨cached₂, running₂⟩ := (cursor.setOrdinal it).1.setSymbol_keeps it
  obtain ⟨⟨placed, moves⟩, set, rest⟩ := ok_of_bind record
  obtain ⟨done, runs₃⟩ := bindPlace_run ptr it
    ⟨named, sync.place.congr (cached₂.trans cached₁) (running₂.trans running₁) ⟨rfl, rfl⟩⟩ wide real set
  have flags : flagsAt (cursor.setOrdinal it).1 state.flags it = flagsAt cursor state.flags it := by
    unfold BindCursor.setOrdinal flagsAt
    split <;> rfl
  cases rest
  simp only [flags] at done runs₂ runs₃
  refine ⟨done, ?_⟩
  simp only [List.append_assoc] at runs₃ ⊢
  rw [Transducer.run_append, runs₁, Transducer.run_append, runs₂, runs₃]
  rfl

theorem weakRecord_run (sync : BindSync cursor state) (binds : it.type ≠ .overrideOfWeakdefInDylib)
    (wide : ∀ range, find it.address = some range → range.index < 2 ^ 64) (real : it.address ≠ -1)
    (record : weakRecord find ptr cursor it = .ok (next, ops)) :
    let bound := BindState.of it state.libraryOrdinal (flagsAt cursor state.flags it) next
    let after := { bound with segOffset := bound.segOffset + ptr.word }
    BindSync next after ∧ Transducer.run (bindStep ptr) state ops = (after, [bound]) := by
  obtain ⟨named, runs₁⟩ := BindCursor.setSymbol_run ptr it sync.key
  obtain ⟨cached, running⟩ := cursor.setSymbol_keeps it
  simp only [weakRecord, binds, ne_eq, not_false_eq_true, if_true] at record
  obtain ⟨⟨placed, moves⟩, set, rest⟩ := ok_of_bind record
  obtain ⟨done, runs₂⟩ := bindPlace_run ptr it
    ⟨named, sync.place.congr cached running ⟨rfl, rfl⟩⟩ wide real set
  cases rest
  refine ⟨done, ?_⟩
  simp only [List.append_assoc] at runs₂ ⊢
  rw [Transducer.run_append, runs₁, runs₂]
  rfl

/-- An override record changes the symbol and its flags, and binds nothing. -/
theorem weakRecord_override (sync : BindSync cursor state) (overrides : it.type = .overrideOfWeakdefInDylib)
    (record : weakRecord find ptr cursor it = .ok (next, ops)) :
    let after := { state with
      symbolName := some it.symbolName, flags := flagsAt cursor state.flags it }
    BindSync next after ∧ Transducer.run (bindStep ptr) state ops = (after, []) := by
  simp only [weakRecord, overrides, ne_eq, not_true_eq_false, if_false] at record
  have same := Except.ok.inj record
  obtain ⟨named, runs⟩ := BindCursor.setSymbol_run ptr it sync.key
  obtain ⟨cached, running⟩ := cursor.setSymbol_keeps it
  have step := And.intro (BindSync.mk named (sync.place.congr cached running ⟨rfl, rfl⟩)) runs
  rw [same] at step
  exact step

end Steps

/-! ## Looking a segment up -/

/-- An address is looked up only when it is not the running one and not in the cached
segment. -/
def BindCursor.LooksUp (cursor : BindCursor) (it : BindingInfo) : Prop :=
  cursor.address ≠ it.address ∧ ¬ cursor.range.Contains it.address

instance (cursor : BindCursor) (it : BindingInfo) : Decidable (cursor.LooksUp it) :=
  inferInstanceAs (Decidable (_ ∧ _))

/-- The segment that is cached when `it` is bound, if `range` is its own. -/
def BindCursor.rangeFor (cursor : BindCursor) (range : SegmentRange) (it : BindingInfo) :
    SegmentRange :=
  if cursor.LooksUp it then range else cursor.range

section Segments

variable {find : BitVec 64 → Option SegmentRange} {ptr : PointerSize}
variable {cursor : BindCursor} {it : BindingInfo} {range : SegmentRange}

/-- Where a record goes depends on the cached segment and the running address only. -/
theorem BindCursor.place_congr {other : BindCursor} (it : BindingInfo) (range : SegmentRange)
     (cached : cursor.range = other.range)
    (running : cursor.address = other.address) :
    (cursor.LooksUp it ↔ other.LooksUp it) ∧ cursor.rangeFor range it = other.rangeFor range it := by
  have looks : cursor.LooksUp it ↔ other.LooksUp it := by
    simp only [BindCursor.LooksUp, cached, running]
  refine ⟨looks, ?_⟩
  simp only [BindCursor.rangeFor, looks, cached]

/-- A record at the running address stays in the cached segment. -/
theorem BindCursor.rangeFor_behind (met : cursor.address = it.address) :
    cursor.rangeFor range it = cursor.range := by
  rw [BindCursor.rangeFor, if_neg]
  exact fun both => both.1 met

theorem BindCursor.rangeFor_own {layout : Layout} {was : BitVec 64}
    (cached : layout.find was = some cursor.range) (found : layout.find it.address = some range)
    (moves : cursor.address ≠ it.address) : cursor.rangeFor range it = range := by
  by_cases inside : cursor.range.Contains it.address
  · have again := Layout.find_of_mem cached inside
    rw [found] at again
    rw [BindCursor.rangeFor, if_neg (fun both => both.2 inside)]
    exact (Option.some.inj again).symm
  · rw [BindCursor.rangeFor, if_pos ⟨moves, inside⟩]

theorem BindCursor.setAddress_ok (cursor : BindCursor) (found : find it.address = some range) :
    ∃ placed moves, cursor.setAddress find it = .ok (placed, moves) ∧
      placed.range = cursor.rangeFor range it ∧ placed.address = it.address ∧
      moves.countP BindingTmp.isBind = 0 ∧
      ((∀ op ∈ moves, op.Fits) ↔ (cursor.LooksUp it → range.index % 256 < 128)) := by
  unfold BindCursor.setAddress BindCursor.rangeFor
  by_cases met : cursor.address ≠ it.address
  · rw [if_pos met]
    by_cases outside : it.address < cursor.curSegStart ∨ cursor.curSegEnd ≤ it.address
    · rw [if_pos outside]
      have apart : ¬ cursor.range.Contains it.address := by
        unfold SegmentRange.Contains BindCursor.range
        simp only
        bv_omega
      have looks : cursor.LooksUp it := ⟨met, apart⟩
      refine ⟨_, _, by rw [found], ?_, rfl, by simp [BindingTmp.isBind], ?_⟩
      · rw [if_pos looks]
        rfl
      · have cut : range.index % 2 ^ 64 % 256 = range.index % 256 := by omega
        simp only [List.forall_mem_singleton, BindingTmp.Fits, BitVec.toNat_ofNat, cut, looks,
          true_implies]
    · rw [if_neg outside]
      have inside : cursor.range.Contains it.address := by
        unfold SegmentRange.Contains BindCursor.range
        simp only
        bv_omega
      have cached : ¬ cursor.LooksUp it := fun both => both.2 inside
      refine ⟨_, _, rfl, ?_, rfl, by simp [BindingTmp.isBind], by simp [BindingTmp.Fits, cached]⟩
      rw [if_neg cached]
      rfl
  · rw [if_neg met]
    have behind : ¬ cursor.LooksUp it := fun both => met both.1
    refine ⟨_, _, rfl, ?_, by simpa using met, by simp, by simp [behind]⟩
    rw [if_neg behind]

theorem BindCursor.setOrdinal_ops :
    (cursor.setOrdinal it).2.countP BindingTmp.isBind = 0 ∧
      ∀ op ∈ (cursor.setOrdinal it).2, op.Fits := by
  unfold BindCursor.setOrdinal
  split
  · by_cases special : it.libraryOrdinal.toInt ≤ 0 <;>
      simp [special, BindingTmp.isBind, BindingTmp.Fits]
  · simp

theorem BindCursor.setSymbol_ops :
    (cursor.setSymbol it).2.countP BindingTmp.isBind = 0 ∧
      ∀ op ∈ (cursor.setSymbol it).2, op.Fits := by
  unfold BindCursor.setSymbol
  split
  · cases flags : it.flags <;> simp [BindingTmp.isBind, BindingTmp.Fits, BindFlags.code]
  · simp

theorem BindCursor.setType_ops :
    (cursor.setType it).2.countP BindingTmp.isBind = 0 ∧
      ∀ op ∈ (cursor.setType it).2, op.Fits := by
  unfold BindCursor.setType
  split
  · cases type : it.type <;> simp [BindingTmp.isBind, BindingTmp.Fits, BindType.code]
  · simp

theorem BindCursor.setAddend_ops :
    (cursor.setAddend it).2.countP BindingTmp.isBind = 0 ∧
      ∀ op ∈ (cursor.setAddend it).2, op.Fits := by
  unfold BindCursor.setAddend
  split <;> simp [BindingTmp.isBind, BindingTmp.Fits]

/-- What one record of `encodeV1` leaves: one bind, and the segment it used. -/
theorem bindRecord_ok (ptr : PointerSize) (cursor : BindCursor) (found : find it.address = some range) :
    ∃ next ops, bindRecord find ptr cursor it = .ok (next, ops) ∧
      next.range = cursor.rangeFor range it ∧ next.address = it.address + ptr.word ∧
      ops.countP BindingTmp.isBind = 1 ∧
      (range.index % 256 < 128 → ∀ op ∈ ops, op.Fits) := by
  obtain ⟨placed, moves, set, cached, address, none_, fits⟩ :=
    BindCursor.setAddress_ok (((cursor.setOrdinal it).1.setSymbol it).1.setType it).1 found
  obtain ⟨cached₁, running₁⟩ := cursor.setOrdinal_keeps it
  obtain ⟨cached₂, running₂⟩ := (cursor.setOrdinal it).1.setSymbol_keeps it
  obtain ⟨cached₃, running₃⟩ := ((cursor.setOrdinal it).1.setSymbol it).1.setType_keeps it
  obtain ⟨cached₄, running₄⟩ := placed.setAddend_keeps it
  obtain ⟨-, kept⟩ := BindCursor.place_congr it range (cached₃.trans (cached₂.trans cached₁))
    (running₃.trans (running₂.trans running₁))
  refine ⟨_, _, by simp only [bindRecord, set]; rfl, ?_, ?_, ?_, ?_⟩
  · exact cached₄.trans (cached.trans kept)
  · simp only [BindCursor.advance, running₄, address]
  · simp only [List.countP_append, BindCursor.setOrdinal_ops.1, BindCursor.setSymbol_ops.1,
      BindCursor.setType_ops.1, none_, BindCursor.setAddend_ops.1]
    rfl
  · intro clear op member
    simp only [List.mem_append, List.mem_singleton] at member
    rcases member with ((((member | member) | member) | member) | member) | rfl
    · exact BindCursor.setOrdinal_ops.2 op member
    · exact BindCursor.setSymbol_ops.2 op member
    · exact BindCursor.setType_ops.2 op member
    · exact fits.2 (fun _ => clear) op member
    · exact BindCursor.setAddend_ops.2 op member
    · exact trivial

theorem weakRecord_ok (ptr : PointerSize) (cursor : BindCursor) (binds : it.type ≠ .overrideOfWeakdefInDylib)
    (found : find it.address = some range) :
    ∃ next ops, weakRecord find ptr cursor it = .ok (next, ops) ∧
      next.range = cursor.rangeFor range it ∧ next.address = it.address + ptr.word ∧
      ops.countP BindingTmp.isBind = 1 := by
  obtain ⟨placed, moves, set, cached, address, none_, -⟩ :=
    BindCursor.setAddress_ok ((cursor.setSymbol it).1.setType it).1 found
  obtain ⟨cached₁, running₁⟩ := cursor.setSymbol_keeps it
  obtain ⟨cached₂, running₂⟩ := (cursor.setSymbol it).1.setType_keeps it
  obtain ⟨cached₃, running₃⟩ := placed.setAddend_keeps it
  obtain ⟨-, kept⟩ := BindCursor.place_congr it range (cached₂.trans cached₁)
    (running₂.trans running₁)
  have one : weakRecord find ptr cursor it = .ok ((placed.setAddend it).1.advance ptr,
      (cursor.setSymbol it).2 ++ ((cursor.setSymbol it).1.setType it).2 ++ moves ++
        (placed.setAddend it).2 ++ [{ opcode := .doBind, operand1 := 0 }]) := by
    simp only [weakRecord, binds, ne_eq, not_false_eq_true, if_true, set]
    rfl
  refine ⟨_, _, one, ?_, ?_, ?_⟩
  · exact cached₃.trans (cached.trans kept)
  · simp only [BindCursor.advance, running₃, address]
  · simp only [List.countP_append, BindCursor.setSymbol_ops.1, BindCursor.setType_ops.1, none_,
      BindCursor.setAddend_ops.1]
    rfl

theorem weakRecord_override_ok (find : BitVec 64 → Option SegmentRange) (ptr : PointerSize)
    (cursor : BindCursor) (overrides : it.type = .overrideOfWeakdefInDylib) :
    weakRecord find ptr cursor it = .ok ((cursor.setSymbol it).1, (cursor.setSymbol it).2) := by
  simp only [weakRecord, overrides, ne_eq, not_true_eq_false, if_false]
  rfl

end Segments

/-! ## All records -/

theorem bindMid_cons {record : BindCursor → BindingInfo → Except String (BindCursor × List BindingTmp)}
    {cursor next : BindCursor} {it : BindingInfo} {rest : List BindingInfo}
    {ops : List BindingTmp} (one : record cursor it = .ok (next, ops)) :
    bindMid record cursor (it :: rest) = (bindMid record next rest).map fun mid => ops ++ mid := by
  simp only [bindMid, one, bind, Except.bind, pure, Except.pure, Except.map]

end Cctools.LinkEdit
