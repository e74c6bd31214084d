/-
# Cctools.LinkEdit.ThreadedChains -- the chains of threaded pointers

The pass over `_threadedRebaseBindIndices` in `OutputFile::writeAtoms`, for an
image without a thread starts section: each fixup is packed with the distance to
the next one, or with 0 when the next one is on another page.  `encodeV2` has
chosen the starts of the chains earlier, from the same list and with loop
variables of its own.

`bindEncodeV2_chains_iff`: the walks from the decoded starts visit every fixup
once, nothing else, and end before the next start, if and only if the stream can
name the segment of every fixup.  The two loops agree for every spacing of the
addresses; what fails is the segment number, which is or-ed into four bits.

The buffer is addressed by where its words are mapped, so the section that turns
an address into a file offset does not appear.
-/
import Cctools.LinkEdit.ThreadedPointers
import Cctools.LinkEdit.ThreadedOrdinals
import Cctools.LinkEdit.BindStates
import Cctools.Theory.Chains

namespace Cctools.LinkEdit

set_option autoImplicit false

open Cctools.Theory
open Cctools.Otool

/-! ## The writer -/

/-- The words of the output, by address. -/
abbrev Content := BitVec 64 → BitVec 64

def Content.set64 (content : Content) (address word : BitVec 64) : Content :=
  fun other => if other = address then word else content other

/-- `delta` of `applyBind`: 0 ends the chain. -/
def chainDelta (curSegStart currentAddress nextAddress : BitVec 64) : Except String (BitVec 64) :=
  if pageIndex curSegStart currentAddress ≠ pageIndex curSegStart nextAddress then .ok 0
  else if (nextAddress - currentAddress) &&& 7 ≠ 0 then
    .error "assertion failed: (delta & (fixupAlignment - 1)) == 0"
  else if 2048 ≤ (nextAddress - currentAddress) / 8 then .ok 0
  else .ok ((nextAddress - currentAddress) / 8)

section Write

variable (find : BitVec 64 → Option SegmentRange) (baseAddress : BitVec 64)
variable (authenticatedFixupData : BitVec 64 → AuthFixup)

/-- The cached segment, or the one found when the address has left it. -/
def moveSegment (current : SegmentRange) (address : BitVec 64) : Except String SegmentRange :=
  if address < current.start ∨ current.finish ≤ address then
    match find address with
    | none => .error "binding address outside range of any segment"
    | some range => .ok range
  else .ok current

def applyBind (curSegStart : BitVec 64) (content : Content) (current next : ThreadedFixup) :
    Except String Content := do
  let delta ← chainDelta curSegStart current.address next.address
  let word ← packPointer baseAddress current (authenticatedFixupData current.address)
    (content current.address) delta
  return content.set64 current.address word

/-- The loop over the fixups and the call after it for the last one. -/
def writeChains : SegmentRange → Content → List ThreadedFixup → Except String Content
  | _, content, [] => .ok content
  | current, content, [fixup] =>
    applyBind baseAddress authenticatedFixupData current.start content fixup fixup
  | current, content, fixup :: next :: rest => do
      let segment ← moveSegment find current next.address
      let content ← applyBind baseAddress authenticatedFixupData segment.start content fixup next
      writeChains segment content (next :: rest)

/-- The whole pass; the first segment is looked up only when there are several binds. -/
def writeThreaded (bindCount : Nat) (fixups : List ThreadedFixup) (content : Content) :
    Except String Content :=
  match fixups with
  | [] => .ok content
  | first :: _ => do
      let current ← if 1 < bindCount then moveSegment find ⟨0, 0, 0⟩ first.address
        else .ok ⟨0, 0, 0⟩
      writeChains find baseAddress authenticatedFixupData current content fixups

end Write

/-! ## Walking -/

/-- Where the delta bits of a word lead. -/
def Content.next (content : Content) (address : BitVec 64) : Option (BitVec 64) :=
  if threadedDelta (content address) = 0 then none
  else some (address + threadedDelta (content address) * 8)

/-- The place a stream is at; a bind of a threaded stream makes a table entry and does
not move. -/
def placeStep (place : Option Nat × BitVec 64) (instr : BindingTmp) :
    (Option Nat × BitVec 64) × List (Option Nat × BitVec 64) :=
  match instr.opcode with
  | .setSegmentAndOffsetUleb => ((some instr.operand1.toNat, instr.operand2), [])
  | .addAddrUleb => ((place.1, place.2 + instr.operand1), [])
  | .threadedApply => (place, [place])
  | _ => (place, [])

/-- The places at which a stream applies chains. -/
def chainPlaces (bytes : List UInt8) : Option (List (Option Nat × BitVec 64)) :=
  (bindInstructions bytes).map fun program => (Transducer.run placeStep (none, 0) program).2

def Layout.placeAddress (layout : Layout) (place : Option Nat × BitVec 64) : Option (BitVec 64) :=
  (place.1.bind layout.segStart).map (· + place.2)

/-- The stream can be read, and the chains it applies cover the addresses. -/
def ChainsCover (layout : Layout) (bytes : List UInt8) (content : Content)
    (addresses : List (BitVec 64)) : Prop :=
  ∃ places starts, chainPlaces bytes = some places ∧
    places.map layout.placeAddress = starts.map some ∧ Covers content.next starts addresses

/-- Two fixups in one page of one segment. -/
def Layout.joined (layout : Layout) (a b : BitVec 64) : Bool :=
  match layout.find a, layout.find b with
  | some x, some y => x = y ∧ pageIndex x.start a = pageIndex y.start b
  | _, _ => false

/-! ## What the writer links -/

section Linking

variable {layout : Layout} {baseAddress : BitVec 64}
variable {authenticatedFixupData : BitVec 64 → AuthFixup}

theorem Layout.joined_of_find {a b : BitVec 64} {x y : SegmentRange}
    (first : layout.find a = some x) (second : layout.find b = some y) :
    layout.joined a b = true ↔ x = y ∧ pageIndex x.start a = pageIndex y.start b := by
  simp [Layout.joined, first, second]

theorem Layout.find_eq_of_joined (a b : BitVec 64) (together : layout.joined a b = true) :
    layout.find a = layout.find b := by
  unfold Layout.joined at together
  split at together
  · rename_i x y first second
    rw [first, second, (of_decide_eq_true together).1]
  · cases together

/-- Moving finds the segment of the address, from a segment that was found or is not set. -/
theorem moveSegment_eq {a b : BitVec 64} {current range : SegmentRange} (found : layout.find b = some range)
    (cached : layout.find a = some current ∨ current.finish = 0) :
    moveSegment layout.find current b = .ok range := by
  unfold moveSegment
  split
  · rw [found]
  · rename_i inside
    rcases cached with own | unset
    · have member : current.Contains b := by
        simpa [SegmentRange.Contains, not_or] using inside
      rw [Layout.find_of_mem own member, Option.some.injEq] at found
      rw [found]
    · exact absurd (.inr (by rw [unset]; exact BitVec.le_def.2 (Nat.zero_le _))) inside

theorem and_seven_eq_zero (value : BitVec 64) : value &&& 7 = 0 ↔ value.toNat % 8 = 0 := by
  have low : (value &&& 7).toNat = value.toNat % 8 := by
    rw [BitVec.toNat_and]
    exact Nat.and_two_pow_sub_one_eq_mod value.toNat 3
  rw [← low]
  exact ⟨fun zero => by rw [zero]; rfl, fun zero => BitVec.eq_of_toNat_eq zero⟩

theorem toNat_pageIndex (start address : BitVec 64) :
    (pageIndex start address).toNat = (address - start).toNat / 4096 := BitVec.toNat_udiv

/-- **One link**: the delta leads to the next fixup when the two share a page, and is 0
otherwise, whichever segment the current fixup is in. -/
theorem chainDelta_eq {a b delta : BitVec 64} {x y : SegmentRange} (below : a < b)
    (first : layout.find a = some x) (second : layout.find b = some y)
    (computes : chainDelta y.start a b = .ok delta) :
    delta.toNat < 2048 ∧ (if delta = 0 then none else some (a + delta * 8)) =
      if layout.joined a b then some b else none := by
  have joined_ := Layout.joined_of_find first second
  obtain ⟨after, before⟩ := Layout.contains_of_find second
  rw [BitVec.lt_def] at below before
  rw [BitVec.le_def] at after
  have gap : (b - a).toNat = b.toNat - a.toNat := BitVec.toNat_sub_of_le (BitVec.le_of_lt below)
  have units : ((b - a) / 8).toNat = (b.toNat - a.toNat) / 8 := by rw [BitVec.toNat_udiv, gap]; rfl
  unfold chainDelta at computes
  split at computes
  · rename_i differ
    cases computes
    have apart : layout.joined a b ≠ true := by
      rintro together
      obtain ⟨rfl, same⟩ := joined_.1 together
      exact differ same
    simp [apart]
  · rename_i same
    rw [not_not] at same
    have pages := congrArg BitVec.toNat same
    rw [toNat_pageIndex, toNat_pageIndex, BitVec.toNat_sub_of_le (BitVec.le_def.2 after)] at pages
    split at computes
    · cases computes
    · rename_i multiple
      rw [not_not, and_seven_eq_zero, gap] at multiple
      split at computes
      · -- the two are far apart, so the page numbers agree only modulo the address space
        rename_i far
        rw [BitVec.le_def, units] at far
        cases computes
        have apart : layout.joined a b ≠ true := by
          rintro together
          obtain ⟨rfl, -⟩ := joined_.1 together
          have own := (Layout.contains_of_find first).1
          rw [BitVec.toNat_sub_of_le own] at pages
          rw [BitVec.le_def] at own
          change 2048 ≤ _ at far
          omega
        simp [apart]
      · rename_i near
        rw [BitVec.le_def, units] at near
        change ¬ 2048 ≤ _ at near
        cases computes
        have own : y.start.toNat ≤ a.toNat := by
          rw [BitVec.toNat_sub] at pages
          omega
        have member : y.Contains a := ⟨BitVec.le_def.2 own, BitVec.lt_def.2 (by omega)⟩
        have there := Layout.find_of_mem second member
        rw [first, Option.some.injEq] at there
        subst there
        have together : layout.joined a b = true := joined_.2 ⟨rfl, same⟩
        have nonzero : (b - a) / 8 ≠ 0 := by
          intro zero
          have := congrArg BitVec.toNat zero
          rw [units] at this
          change _ = 0 at this
          omega
        refine ⟨by rw [units]; omega, ?_⟩
        rw [if_neg nonzero, if_pos together, Option.some.injEq]
        apply BitVec.eq_of_toNat_eq
        rw [BitVec.toNat_add, BitVec.toNat_mul, units]
        change (a.toNat + (b.toNat - a.toNat) / 8 * 8 % 2 ^ 64) % 2 ^ 64 = b.toNat
        omega

theorem Content.set64_same (content : Content) (address word : BitVec 64) :
    content.set64 address word address = word := if_pos rfl

theorem Content.set64_other (content : Content) {address other : BitVec 64} (word : BitVec 64)
    (differ : other ≠ address) : content.set64 address word other = content other := if_neg differ

/-- The word that one call leaves, and that it leaves the others alone. -/
theorem applyBind_ok {curSegStart : BitVec 64} {content final : Content} {current next : ThreadedFixup}
    (applies : applyBind baseAddress authenticatedFixupData curSegStart content current next =
      .ok final) :
    ∃ delta, chainDelta curSegStart current.address next.address = .ok delta ∧
      (delta.toNat < 2048 → threadedDelta (final current.address) = delta) ∧
      ∀ other ≠ current.address, final other = content other := by
  obtain ⟨delta, computes, more⟩ := ok_of_bind applies
  obtain ⟨word, packs, last⟩ := ok_of_bind more
  cases last
  refine ⟨delta, computes, ?_, fun other differ => content.set64_other word differ⟩
  intro small
  rw [Content.set64_same]
  exact (packPointer_decodes small packs).1

theorem chainDelta_self (curSegStart address : BitVec 64) :
    chainDelta curSegStart address address = .ok 0 := by
  simp [chainDelta]

/-- **The writer links the fixups**; the induction keeps that the cached segment is the
current fixup's own, or is not set yet. -/
theorem writeChains_linked {fixups : List ThreadedFixup}
    (found : ∀ fixup ∈ fixups, ∃ range, layout.find fixup.address = some range)
    (sorted : (fixups.map ThreadedFixup.address).Pairwise (· < ·)) {current : SegmentRange}
    {content final : Content}
    (cached : ∀ first ∈ fixups.head?, layout.find first.address = some current ∨ current.finish = 0)
    (writes : writeChains layout.find baseAddress authenticatedFixupData current content fixups =
      .ok final) :
    Linked final.next layout.joined (fixups.map ThreadedFixup.address) ∧
      ∀ other, other ∉ fixups.map ThreadedFixup.address → final other = content other := by
  induction fixups generalizing current content with
  | nil =>
    cases writes
    exact ⟨trivial, fun _ _ => rfl⟩
  | cons fixup rest ih =>
    cases rest with
    | nil =>
      obtain ⟨delta, computes, stored, others⟩ := applyBind_ok writes
      rw [chainDelta_self] at computes
      cases computes
      refine ⟨?_, ?_⟩
      · show final.next fixup.address = none
        rw [Content.next, if_pos (stored (by decide))]
      · intro other outside
        exact others other (by simpa using outside)
    | cons next rest =>
      rw [List.map_cons, List.pairwise_cons] at sorted
      rw [writeChains] at writes
      obtain ⟨segment, moves, more⟩ := ok_of_bind writes
      obtain ⟨middle, applies, writesRest⟩ := ok_of_bind more
      obtain ⟨range, here⟩ := found fixup (by simp)
      obtain ⟨nextRange, there⟩ := found next (by simp)
      have segment_ : segment = nextRange := by
        rw [moveSegment_eq there (cached fixup rfl)] at moves
        exact (Except.ok.inj moves).symm
      subst segment_
      obtain ⟨linked, kept⟩ := ih (fun other member => found other (List.mem_cons_of_mem _ member))
        sorted.2 (by rintro first ⟨⟩; exact .inl there) writesRest
      obtain ⟨delta, computes, stored, others⟩ := applyBind_ok applies
      obtain ⟨small, leads⟩ := chainDelta_eq (sorted.1 next.address (by simp)) here there computes
      have word : threadedDelta (final fixup.address) = delta := by
        have outside : fixup.address ∉ (next :: rest).map ThreadedFixup.address :=
          fun member => BitVec.lt_irrefl _ (sorted.1 _ member)
        rw [kept _ outside, stored small]
      refine ⟨⟨?_, linked⟩, ?_⟩
      · rw [Content.next, word, leads]
      · intro other outside
        rw [List.map_cons, List.mem_cons, not_or] at outside
        rw [kept other outside.2, others other outside.1]

end Linking

/-! ## The starts -/

section Starts

variable {layout : Layout}

/-- The two instructions that start a chain. -/
def startEntries (range : SegmentRange) (address : BitVec 64) : List BindingTmp :=
  [{ opcode := .setSegmentAndOffsetUleb, operand1 := BitVec.ofNat 64 range.index,
     operand2 := address - range.start },
   { opcode := .threadedApply, operand1 := 0 }]

/-- The instructions for an address, if it is in a segment. -/
def Layout.startEntries (layout : Layout) (address : BitVec 64) : List BindingTmp :=
  match layout.find address with
  | some range => LinkEdit.startEntries range address
  | none => []

/-- A move ends in the segment of the address, and changes it just when the address was
outside. -/
theorem moveSegment_ok {a b : BitVec 64} {current range : SegmentRange}
    (cached : layout.find a = some current) (moves : moveSegment layout.find current b = .ok range) :
    layout.find b = some range ∧
      (b < current.start ∨ current.finish ≤ b ↔ current ≠ range) := by
  unfold moveSegment at moves
  split at moves
  · rename_i outside
    split at moves
    · cases moves
    · rename_i found_ own
      cases moves
      refine ⟨own, iff_of_true outside ?_⟩
      rintro rfl
      have inside := Layout.contains_of_find own
      unfold SegmentRange.Contains at inside
      bv_omega
  · rename_i inside
    cases moves
    have member : current.Contains b := by
      simpa [SegmentRange.Contains, not_or] using inside
    exact ⟨Layout.find_of_mem cached member, iff_of_false inside (not_not.2 rfl)⟩

/-- The second loop of `encodeV2`, in terms of the writer's move. -/
theorem threadedStarts_cons (find : BitVec 64 → Option SegmentRange) (current : SegmentRange)
    (prevPageIndex : BitVec 64) (fixup : ThreadedFixup) (rest : List ThreadedFixup) :
    threadedStarts find current prevPageIndex (fixup :: rest) =
      if fixup.address &&& 7 ≠ 0 then .error "assertion failed: (address & 7) == 0"
      else (moveSegment find current fixup.address).bind fun segment =>
        (threadedStarts find segment (pageIndex segment.start fixup.address) rest).map fun more =>
          if (fixup.address < current.start ∨ current.finish ≤ fixup.address) ∨
              pageIndex segment.start fixup.address ≠ prevPageIndex then
            startEntries segment fixup.address ++ more
          else more := by
  rw [threadedStarts]
  dsimp only
  split
  · rfl
  · unfold moveSegment
    split
    · rename_i outside
      cases find fixup.address with
      | none => rfl
      | some range =>
        simp only [bind, Except.bind]
        cases threadedStarts find range (pageIndex range.start fixup.address) rest with
        | error message => rfl
        | ok more => simp [Except.map, pure, Except.pure, startEntries, outside]
    · simp only [bind, Except.bind]
      cases threadedStarts find current (pageIndex current.start fixup.address) rest with
      | error message => rfl
      | ok more =>
        simp only [Except.map, pure, Except.pure, startEntries]
        split <;> simp_all

/-- **`encodeV2` starts a chain at each head**, from the segment and page of the fixup
before. -/
theorem threadedStarts_heads {fixups : List ThreadedFixup} {before : BitVec 64}
    {current : SegmentRange} {starts : List BindingTmp}
    (cached : layout.find before = some current)
    (encodes : threadedStarts layout.find current (pageIndex current.start before) fixups =
      .ok starts) :
    starts = (headsFrom layout.joined before (fixups.map ThreadedFixup.address)).flatMap
      layout.startEntries ∧ ∀ fixup ∈ fixups, ∃ range, layout.find fixup.address = some range := by
  induction fixups generalizing before current starts with
  | nil =>
    cases encodes
    exact ⟨rfl, by simp⟩
  | cons fixup rest ih =>
    rw [threadedStarts_cons] at encodes
    split at encodes
    · cases encodes
    · obtain ⟨range, moves, more⟩ := ok_of_bind encodes
      obtain ⟨later, encodesRest, rfl⟩ := ok_of_map more
      obtain ⟨own, changes⟩ := moveSegment_ok cached moves
      obtain ⟨rfl, found⟩ := ih own encodesRest
      refine ⟨?_, List.forall_mem_cons.2 ⟨⟨range, own⟩, found⟩⟩
      have joined_ := Layout.joined_of_find cached own
      rw [List.map_cons, headsFrom, List.flatMap_append]
      by_cases together : layout.joined before fixup.address = true
      · obtain ⟨rfl, same⟩ := joined_.1 together
        rw [if_pos together, if_neg]
        · rfl
        · rintro (outside | differ)
          · exact changes.1 outside rfl
          · exact differ same.symm
      · rw [if_neg together, if_pos]
        · simp [Layout.startEntries, own]
        · by_contra neither
          rw [not_or, changes, not_not, not_not] at neither
          obtain ⟨rfl, same⟩ := neither
          exact together (joined_.2 ⟨rfl, same.symm⟩)

theorem threadedStarts_initial {fixups : List ThreadedFixup} {starts : List BindingTmp}
    (encodes : threadedStarts layout.find ⟨0, 0, 0⟩ 0 fixups = .ok starts) :
    starts = (heads layout.joined (fixups.map ThreadedFixup.address)).flatMap
      layout.startEntries ∧ ∀ fixup ∈ fixups, ∃ range, layout.find fixup.address = some range := by
  cases fixups with
  | nil =>
    cases encodes
    exact ⟨rfl, by simp⟩
  | cons fixup rest =>
    rw [threadedStarts_cons] at encodes
    split at encodes
    · cases encodes
    · obtain ⟨range, moves, more⟩ := ok_of_bind encodes
      obtain ⟨later, encodesRest, rfl⟩ := ok_of_map more
      have outside : fixup.address < (0 : BitVec 64) ∨ (0 : BitVec 64) ≤ fixup.address :=
        .inr (BitVec.le_def.2 (Nat.zero_le _))
      have own : layout.find fixup.address = some range := by
        rw [moveSegment, if_pos outside] at moves
        split at moves
        · cases moves
        · rename_i own
          cases moves
          exact own
      obtain ⟨rfl, found⟩ := threadedStarts_heads own encodesRest
      refine ⟨?_, List.forall_mem_cons.2 ⟨⟨range, own⟩, found⟩⟩
      rw [if_pos (.inl outside), List.map_cons, heads, List.flatMap_cons]
      simp [Layout.startEntries, own]

/-! ## The stream -/

/-- Instructions that neither move nor apply. -/
def BindingTmp.Still (it : BindingTmp) : Prop :=
  it.opcode ≠ .setSegmentAndOffsetUleb ∧ it.opcode ≠ .addAddrUleb ∧ it.opcode ≠ .threadedApply

theorem placeStep_still {it : BindingTmp} (still : it.Still) (place : Option Nat × BitVec 64) :
    placeStep place it.written = (place, []) := by
  obtain ⟨opcode, operand1, operand2, name⟩ := it
  obtain ⟨segment, add, apply_⟩ := still
  cases opcode <;> first | rfl | contradiction

theorem run_still {program : List BindingTmp} (still : ∀ it ∈ program, it.Still)
    (place : Option Nat × BitVec 64) :
    Transducer.run placeStep place (program.map BindingTmp.written) = (place, []) := by
  induction program with
  | nil => rfl
  | cons it rest ih =>
    rw [List.forall_mem_cons] at still
    rw [List.map_cons, Transducer.run_cons, placeStep_still still.1, ih still.2]
    rfl

variable {find : BitVec 64 → Option SegmentRange}

theorem tableRecord_still {numBinds count : BitVec 64}
    {cursor next : BindCursor} {it : BindingInfo} {ops : List BindingTmp}
    (one : tableRecord find numBinds cursor it = .ok (count, next, ops)) :
    ∀ op ∈ ops, op.Still := by
  obtain ⟨typed, setType, more⟩ := ok_of_bind one
  obtain ⟨placed, -, last⟩ := ok_of_bind more
  have typed_ := BindCursor.setTypeV2_ok setType
  subst typed_
  have ordinal : ∀ op ∈ (cursor.setOrdinalV2 it).2, op.Still := by
    unfold BindCursor.setOrdinalV2
    split
    · by_cases special : it.libraryOrdinal.toInt ≤ 0
      · simp [special, BindingTmp.Still]
      · by_cases short : it.libraryOrdinal.toInt ≤ 15 <;> simp [special, short, BindingTmp.Still]
    · simp
  have symbol : ∀ op ∈ ((cursor.setOrdinalV2 it).1.setSymbol it).2, op.Still := by
    unfold BindCursor.setSymbol
    split <;> simp [BindingTmp.Still]
  have type : ∀ op ∈ (((cursor.setOrdinalV2 it).1.setSymbol it).1.setType it).2, op.Still := by
    unfold BindCursor.setType
    split <;> simp [BindingTmp.Still]
  have addend : ∀ op ∈ (placed.setAddend it).2, op.Still := by
    unfold BindCursor.setAddend
    split <;> simp [BindingTmp.Still]
  dsimp only at last
  split at last
  · cases last
    simp
  · cases last
    intro op member
    simp only [List.mem_append, List.mem_singleton] at member
    rcases member with (((member | member) | member) | member) | rfl
    · exact ordinal op member
    · exact symbol op member
    · exact type op member
    · exact addend op member
    · simp [BindingTmp.Still]

theorem bindTable_ops {records : List BindingInfo}
    {numBinds : BitVec 64} {cursor : BindCursor} {table : BindTable}
    (made : bindTable find numBinds cursor records = .ok table) :
    table.bindInfo.map Prod.fst = records ∧ ∀ op ∈ table.mid, op.Fits ∧ op.Still := by
  induction records generalizing numBinds cursor table with
  | nil =>
    cases made
    exact ⟨rfl, by simp⟩
  | cons record rest ih =>
    obtain ⟨⟨count, next, ops⟩, one, more⟩ := ok_of_bind made
    obtain ⟨later, rests, last⟩ := ok_of_bind more
    cases last
    obtain ⟨records, tail⟩ := ih rests
    refine ⟨by simp [records], List.forall_mem_append.2 ⟨?_, tail⟩⟩
    exact fun op member => ⟨tableRecord_fits one op member, tableRecord_still one op member⟩

/-- A start is read back with the low four bits of its segment. -/
theorem run_starts {addresses : List (BitVec 64)}
    (found : ∀ address ∈ addresses, ∃ range, layout.find address = some range)
    (place : Option Nat × BitVec 64) :
    ((Transducer.run placeStep place
        ((addresses.flatMap layout.startEntries).map BindingTmp.written)).2).map layout.placeAddress =
      addresses.map fun address => (layout.find address).bind fun range =>
        (layout.segStart (range.index % 16)).map (· + (address - range.start)) := by
  induction addresses generalizing place with
  | nil => rfl
  | cons address rest ih =>
    rw [List.forall_mem_cons] at found
    obtain ⟨range, here⟩ := found.1
    have small : (BitVec.ofNat 64 range.index &&& 0x0F).toNat = range.index % 16 := by
      rw [toNat_and_nibble, BitVec.toNat_ofNat, Nat.mod_eq_of_lt (Layout.index_lt_two_pow here)]
    rw [List.flatMap_cons, List.map_append, Transducer.run_append, List.map_append,
      ih found.2, List.map_cons, here]
    simp only [Layout.startEntries, here, startEntries, List.map_cons, List.map_nil,
      Transducer.run_cons, Transducer.run_nil, placeStep, BindingTmp.written, small]
    rfl

end Starts

/-! ## The chains -/

section Chains

variable {layout : Layout} {ptr : PointerSize} {info : List BindingInfo}
variable {rebaseInfo : List RebaseInfo} {result : ThreadedInfo}

theorem ThreadedFixup.sort_sorted {fixups : List ThreadedFixup}
    (distinct : ((ThreadedFixup.sort fixups).map ThreadedFixup.address).Nodup) :
    ((ThreadedFixup.sort fixups).map ThreadedFixup.address).Pairwise (· < ·) := by
  have le_iff : ∀ a b : ThreadedFixup, (!decide (b.address < a.address)) = true ↔
      a.address ≤ b.address := by
    intro a b
    rw [Bool.not_eq_true', decide_eq_false_iff_not, BitVec.not_lt]
  have total : Std.Total fun a b : ThreadedFixup => (!decide (b.address < a.address)) = true :=
    ⟨fun a b => by rw [le_iff, le_iff]; exact BitVec.le_total _ _⟩
  have trans : IsTrans ThreadedFixup fun a b => (!decide (b.address < a.address)) = true :=
    ⟨fun a b c => by rw [le_iff, le_iff, le_iff]; exact BitVec.le_trans⟩
  have sorted := List.pairwise_insertionSort
    (fun a b : ThreadedFixup => (!decide (b.address < a.address)) = true) fixups
  rw [List.pairwise_map]
  refine (sorted.and (List.pairwise_map.1 distinct)).imp ?_
  rintro a b ⟨le, ne⟩
  exact BitVec.lt_of_le_ne ((le_iff a b).1 le) ne

/-- What `encodeV2` writes out. -/
def threadedStream (layout : Layout) (table : BindTable) (starts : List (BitVec 64)) :
    List BindingTmp :=
  tableSizeEntry table.numBinds :: (table.mid ++ starts.flatMap layout.startEntries)

section Stream

variable {table : BindTable} {starts : List (BitVec 64)}
  (ops : ∀ op ∈ table.mid, op.Fits ∧ op.Still)
  (found : ∀ address ∈ starts, ∃ range, layout.find address = some range)

include ops found

theorem threadedStream_fits_iff :
    (∀ op ∈ threadedStream layout table starts, op.Fits) ↔
      ∀ address ∈ starts, ∀ range ∈ layout.find address, range.index % 256 < 128 := by
  rw [threadedStream, List.forall_mem_cons, List.forall_mem_append]
  have each : ∀ address ∈ starts, (∀ op ∈ layout.startEntries address, op.Fits) ↔
      ∀ range ∈ layout.find address, range.index % 256 < 128 := by
    intro address member
    obtain ⟨range, here⟩ := found address member
    have index := Nat.mod_eq_of_lt (Layout.index_lt_two_pow here)
    simp [Layout.startEntries, here, startEntries, BindingTmp.Fits]
  constructor
  · rintro ⟨-, -, fits⟩ address member
    exact (each address member).1 fun op inside => fits op (List.mem_flatMap.2 ⟨address, member, inside⟩)
  · intro small
    refine ⟨trivial, fun op member => (ops op member).1, ?_⟩
    intro op member
    obtain ⟨address, inside, here⟩ := List.mem_flatMap.1 member
    exact (each address inside).2 (small address inside) op here

/-- The addresses that the places of the stream stand for. -/
theorem chainPlaces_of_fits (fits : ∀ op ∈ threadedStream layout table starts, op.Fits)
    (count : Nat) : ∃ places,
      chainPlaces ((threadedStream layout table starts).flatMap BindingTmp.encode ++
        List.replicate count 0) = some places ∧
      places.map layout.placeAddress = starts.map fun address =>
        (layout.find address).bind fun range =>
          (layout.segStart (range.index % 16)).map (· + (address - range.start)) := by
  refine ⟨_, by rw [chainPlaces, bindInstructions_bytes fits, Option.map_some], ?_⟩
  have quiet : ∀ op ∈ tableSizeEntry table.numBinds :: table.mid, op.Still :=
    List.forall_mem_cons.2 ⟨by simp [tableSizeEntry, BindingTmp.Still],
      fun op member => (ops op member).2⟩
  rw [threadedStream, ← List.cons_append, List.map_append, Transducer.run_append, run_still quiet,
    List.nil_append, run_starts found]

/-- A stream with a segment number that does not fit is not read. -/
theorem fits_of_chainPlaces {rest : List UInt8} {places : List (Option Nat × BitVec 64)}
    (reads : chainPlaces ((threadedStream layout table starts).flatMap BindingTmp.encode ++ rest) =
      some places) : ∀ op ∈ threadedStream layout table starts, op.Fits := by
  obtain ⟨program, instructions, -⟩ := Option.map_eq_some_iff.1 reads
  refine readBinds_fits ?_ instructions
  intro op member other
  rw [threadedStream, List.mem_cons, List.mem_append, List.mem_flatMap] at member
  rcases member with rfl | inTable | ⟨address, inside, here⟩
  · trivial
  · exact (ops op inTable).1
  · obtain ⟨range, there⟩ := found address inside
    simp only [Layout.startEntries, there, startEntries, List.mem_cons, List.not_mem_nil,
      or_false] at here
    rcases here with rfl | rfl
    · exact absurd rfl other
    · trivial

end Stream

instance bitVecStrictOrder : IsStrictOrder (BitVec 64) (· < ·) where
  irrefl := BitVec.lt_irrefl
  trans _ _ _ := BitVec.lt_trans

/-- The start that is read back for an address is the address when its segment is named. -/
theorem startAddress_eq_iff {address : BitVec 64} {range : SegmentRange}
    (found : layout.find address = some range) :
    ((layout.find address).bind fun range =>
        (layout.segStart (range.index % 16)).map (· + (address - range.start))) = some address ↔
      layout.segStart (range.index % 16) = some range.start := by
  rw [found, Option.bind_some]
  exact layout.segStart_offset_iff _

/-- The whole pass links the fixups, and writes nowhere else. -/
theorem writeThreaded_linked {baseAddress : BitVec 64}
    {authenticatedFixupData : BitVec 64 → AuthFixup} {bindCount : Nat}
    {fixups : List ThreadedFixup} {content final : Content}
    (found : ∀ fixup ∈ fixups, ∃ range, layout.find fixup.address = some range)
    (sorted : (fixups.map ThreadedFixup.address).Pairwise (· < ·))
    (writes : writeThreaded layout.find baseAddress authenticatedFixupData bindCount fixups
      content = .ok final) :
    Linked final.next layout.joined (fixups.map ThreadedFixup.address) ∧
      ∀ other, other ∉ fixups.map ThreadedFixup.address → final other = content other := by
  cases fixups with
  | nil =>
    cases writes
    exact ⟨trivial, fun _ _ => rfl⟩
  | cons first rest =>
    obtain ⟨range, here⟩ := found first List.mem_cons_self
    have enter : moveSegment layout.find ⟨0, 0, 0⟩ first.address = .ok range :=
      moveSegment_eq (a := 0) here (.inr rfl)
    simp only [writeThreaded, enter] at writes
    split at writes
    · exact writeChains_linked found sorted (by rintro _ ⟨⟩; exact .inl here) writes
    · have unset : ∀ other ∈ (first :: rest).head?, layout.find other.address =
          some (⟨0, 0, 0⟩ : SegmentRange) ∨ (⟨0, 0, 0⟩ : SegmentRange).finish = 0 :=
        fun _ _ => .inr rfl
      exact writeChains_linked found sorted unset writes

section Pass

variable {baseAddress : BitVec 64} {authenticatedFixupData : BitVec 64 → AuthFixup}
variable {content final : Content}

/-- The fixups that are written are the records, and the pass links them. -/
theorem bindEncodeV2_linked (encodes : bindEncodeV2 layout.find ptr info rebaseInfo = .ok result)
    (writes : writeThreaded layout.find baseAddress authenticatedFixupData result.bindInfo.length
      result.fixups content = .ok final) :
    (result.fixups.map ThreadedFixup.address).Perm
        (rebaseInfo.map RebaseInfo.address ++ info.map BindingInfo.address) ∧
      (result.fixups.map ThreadedFixup.address).Pairwise (· < ·) ∧
      Linked final.next layout.joined (result.fixups.map ThreadedFixup.address) ∧
      ∀ other, other ∉ result.fixups.map ThreadedFixup.address → final other = content other := by
  obtain ⟨table, starts, made, -, -, shape, distinct, started, -⟩ := bindEncodeV2_ok encodes
  have sorted : (result.fixups.map ThreadedFixup.address).Pairwise (· < ·) := by
    rw [shape] at distinct ⊢
    exact ThreadedFixup.sort_sorted distinct
  refine ⟨?_, sorted, writeThreaded_linked (threadedStarts_initial started).2 sorted writes⟩
  rw [shape]
  exact fixups_addresses (bindTable_ops made).1

/-- Chains cover the fixups when the stream names their segments. -/
theorem chainsCover_iff (encodes : bindEncodeV2 layout.find ptr info rebaseInfo = .ok result)
    (writes : writeThreaded layout.find baseAddress authenticatedFixupData result.bindInfo.length
      result.fixups content = .ok final) :
    ChainsCover layout result.bytes final
        (rebaseInfo.map RebaseInfo.address ++ info.map BindingInfo.address) ↔
      ∀ address ∈ rebaseInfo.map RebaseInfo.address ++ info.map BindingInfo.address,
        ∀ range ∈ layout.find address, layout.Named range := by
  obtain ⟨addresses, sorted, linked, -⟩ := bindEncodeV2_linked encodes writes
  obtain ⟨table, starts, made, -, -, -, -, started, bytes⟩ := bindEncodeV2_ok encodes
  obtain ⟨-, ops⟩ := bindTable_ops made
  obtain ⟨rfl, found⟩ := threadedStarts_initial started
  obtain ⟨count, padded⟩ := padToSize_eq ptr.bytes ((threadedStream layout table
    (heads layout.joined (result.fixups.map ThreadedFixup.address))).flatMap BindingTmp.encode ++ [0])
  rw [← threadedStream, padded, List.append_assoc, List.singleton_append,
    ← List.replicate_succ] at bytes
  have headsFound : ∀ address ∈ heads layout.joined (result.fixups.map ThreadedFixup.address),
      ∃ range, layout.find address = some range := by
    intro address member
    obtain ⟨fixup, inside, rfl⟩ := List.mem_map.1 ((heads_sublist _ _).subset member)
    exact found fixup inside
  have fitsIff := threadedStream_fits_iff ops headsFound
  rw [bytes]
  constructor
  · rintro ⟨places, starts, reads, back, covers⟩ address member range here
    have fits := fits_of_chainPlaces ops headsFound reads
    obtain ⟨places', reads', back'⟩ := chainPlaces_of_fits ops headsFound fits (count + 1)
    rw [reads, Option.some.injEq] at reads'
    subst reads'
    rw [back] at back'
    have length : starts.length = (heads layout.joined
        (result.fixups.map ThreadedFixup.address)).length := by
      simpa using congrArg List.length back'
    have starts_ := linked.eq_heads sorted length (covers.congr addresses.symm)
    obtain ⟨head, isHead, same⟩ := exists_head layout.joined Layout.find_eq_of_joined
      (addresses.mem_iff.2 member)
    rw [← same] at here
    refine ⟨fitsIff.1 fits head isHead range here, (startAddress_eq_iff here).1 ?_⟩
    rw [starts_] at back'
    exact (List.map_inj_left.1 back' head isHead).symm
  · intro named
    have headsNamed : ∀ address ∈ heads layout.joined (result.fixups.map ThreadedFixup.address),
        ∀ range ∈ layout.find address, layout.Named range := fun address member =>
      named address (addresses.mem_iff.1 ((heads_sublist _ _).subset member))
    have fits := fitsIff.2 fun address member range here =>
      (headsNamed address member range here).1
    obtain ⟨places, reads, back⟩ := chainPlaces_of_fits ops headsFound fits (count + 1)
    refine ⟨places, _, reads, ?_, (covers_heads linked sorted).congr addresses⟩
    rw [back]
    refine List.map_congr_left fun address member => ?_
    obtain ⟨range, here⟩ := headsFound address member
    exact (startAddress_eq_iff here).2 (headsNamed address member range here).2

end Pass

end Chains

end Cctools.LinkEdit
