/-
# Cctools.LinkEdit.RebaseRoundTrip -- a rebase stream rebases its records

`rebaseEncodeV1_iff`: run by the interpreter, the stream of
`RebaseInfoAtom::encodeV1` rebases exactly the sorted records, each at its
segment and offset, if and only if no record meets the running `address` by
accident.  That address is 0 after a record that reaches its segment's end, and
0 is also an address: a record there, in another segment, gets no
`SET_SEGMENT_AND_OFFSET`.

The induction carries one fact: after a record the encoder's cursor and the
interpreter's state both stand one pointer behind it (`RebaseCursor.after`,
`RebaseState.after`).
-/
import Cctools.LinkEdit.RebasePasses
import Mathlib.Data.Finset.Card
import Mathlib.Data.Finset.Range
import Mathlib.Data.Prod.Lex

namespace Cctools.LinkEdit

set_option autoImplicit false

open Cctools.Theory
open Cctools.Machochecker

/-! ## The order of the records -/

namespace RebaseInfo

/-- `operator<` is the order of these pairs. -/
def key (record : RebaseInfo) : Nat ×ₗ Nat := toLex (record.type.code.toNat, record.address.toNat)

theorem lt_iff (a b : RebaseInfo) : a.lt b = true ↔ a.key < b.key := by
  obtain ⟨aType, aAddress⟩ := a
  obtain ⟨bType, bAddress⟩ := b
  rw [key, key, Prod.Lex.toLex_lt_toLex]
  unfold RebaseInfo.lt
  cases aType <;> cases bType <;> simp [RebaseType.code, BitVec.lt_def]

theorem le_iff (a b : RebaseInfo) : (!(b.lt a)) = true ↔ a.key ≤ b.key := by
  rw [Bool.not_eq_true', ← Bool.not_eq_true, lt_iff, not_lt]

theorem sort_perm (info : List RebaseInfo) : (sort info).Perm info :=
  List.perm_insertionSort _ info

theorem sort_sorted (info : List RebaseInfo) : (sort info).Pairwise fun a b => a.key ≤ b.key := by
  have total : Std.Total fun a b : RebaseInfo => (!(b.lt a)) = true :=
    ⟨fun a b => by rw [le_iff, le_iff]; exact le_total _ _⟩
  have trans : IsTrans RebaseInfo fun a b => (!(b.lt a)) = true :=
    ⟨fun a b c => by rw [le_iff, le_iff, le_iff]; exact le_trans⟩
  exact (List.pairwise_insertionSort _ info).imp fun {a b} le => (le_iff a b).1 le

end RebaseInfo

/-! ## Records of an image -/

/-- What `addDyldInfo` promises of the records: every address is in a segment,
pointers do not overlap, and a segment has one type of rebase. -/
structure RebaseRecords (layout : Layout) (ptr : PointerSize) (info : List RebaseInfo) : Prop where
  found : ∀ record ∈ info, ∃ range, layout.find record.address = some range
  spaced : info.Pairwise fun a b =>
    a.address.toNat + ptr.bytes ≤ b.address.toNat ∨ b.address.toNat + ptr.bytes ≤ a.address.toNat
  oneType : ∀ a ∈ info, ∀ b ∈ info, layout.find a.address = layout.find b.address → a.type = b.type

/-- The site is the record's: the segment `findSegment` gives, and an offset in it. -/
def SiteOf (layout : Layout) (record : RebaseInfo) (site : RebaseSite) : Prop :=
  ∃ range, layout.find record.address = some range ∧
    site = ⟨range.index, record.address - range.start, record.type.code⟩ ∧
    site.segOffset < range.size

/-- The encoder's running `address` after a record. -/
def Layout.rebaseNext (layout : Layout) (ptr : PointerSize) (record : RebaseInfo) : BitVec 64 :=
  match layout.find record.address with
  | none => 0
  | some range =>
    if range.finish ≤ record.address + ptr.word then 0 else record.address + ptr.word

/-- A record at the running address is in the segment of the record before it. -/
def Follows (layout : Layout) (ptr : PointerSize) (before record : RebaseInfo) : Prop :=
  record.address = layout.rebaseNext ptr before →
    layout.find record.address = layout.find before.address

section Simulation

variable {layout : Layout} {ptr : PointerSize} {counter segmentCount : Nat}

/-- The cursor when `record` is about to be rebased. -/
def RebaseCursor.at (range : SegmentRange) (record : RebaseInfo) : RebaseCursor :=
  ⟨range.start, range.finish, range.index, some record.type, record.address⟩

def RebaseCursor.after (ptr : PointerSize) (range : SegmentRange) (record : RebaseInfo) :
    RebaseCursor :=
  (RebaseCursor.at range record).advance ptr

/-- The interpreter's state when `record` is about to be rebased. -/
def RebaseState.at (range : SegmentRange) (record : RebaseInfo) : RebaseState :=
  ⟨range.index, record.address - range.start, record.type.code⟩

def RebaseState.after (ptr : PointerSize) (range : SegmentRange) (record : RebaseInfo) :
    RebaseState :=
  ⟨range.index, record.address - range.start + ptr.word, record.type.code⟩

variable {range : SegmentRange} {record : RebaseInfo}

theorem siteOf_at (found : layout.find record.address = some range) :
    SiteOf layout record (RebaseState.at range record) := by
  refine ⟨range, found, rfl, ?_⟩
  obtain ⟨low, high⟩ := Layout.contains_of_find found
  simp only [RebaseState.at, SegmentRange.size]
  bv_omega

/-! ## One record -/

theorem RebaseCursor.setType_spec (counter : Nat) (ptr : PointerSize) (cursor : RebaseCursor)
    (state : RebaseState) (it : RebaseInfo)
    (known : ∀ type, cursor.type = some type → state.type = type.code) :
    (cursor.setType it).1 = { cursor with type := some it.type } ∧
      Transducer.run (rebaseStep counter ptr) state (cursor.setType it).2 =
        ({ state with type := it.type.code }, []) := by
  unfold RebaseCursor.setType
  split
  · refine ⟨rfl, ?_⟩
    cases it with
    | mk type address => cases type <;> rfl
  · rename_i same
    have already : cursor.type = some it.type := by simpa using same
    refine ⟨?_, ?_⟩
    · obtain ⟨start, finish, index, type, address⟩ := cursor
      cases already
      rfl
    · obtain ⟨index, offset, type⟩ := state
      cases known it.type already
      rfl

theorem rebaseNext_eq (ptr : PointerSize) (found : layout.find record.address = some range) :
    layout.rebaseNext ptr record = (RebaseCursor.after ptr range record).address := by
  simp only [Layout.rebaseNext, found]
  rfl

/-- Two records in the order of the sort that share a segment are a pointer apart. -/
structure InOrder (layout : Layout) (ptr : PointerSize) (before record : RebaseInfo) : Prop where
  ascends : before.type = record.type →
    before.address.toNat + ptr.bytes ≤ record.address.toNat
  oneType : layout.find before.address = layout.find record.address → before.type = record.type

variable {before record : RebaseInfo}

theorem InOrder.spaced (order : InOrder layout ptr before record)
    (same : layout.find before.address = layout.find record.address) :
    before.address.toNat + ptr.bytes ≤ record.address.toNat :=
  order.ascends (order.oneType same)

theorem PointerSize.toNat_word (ptr : PointerSize) : ptr.word.toNat = ptr.bytes := by
  cases ptr <;> rfl

/-- In a segment, the running address is not the sentinel when another record follows. -/
theorem RebaseCursor.after_address (inside : range.Contains record.address)
    (spaced : before.address.toNat + ptr.bytes ≤ record.address.toNat) :
    (RebaseCursor.after ptr range before).address = before.address + ptr.word := by
  have word := ptr.toNat_word
  have small := record.address.isLt
  have sum : (before.address + ptr.word).toNat = before.address.toNat + ptr.bytes := by
    rw [BitVec.toNat_add, word]
    exact Nat.mod_eq_of_lt (by omega)
  have before_end : ¬ range.finish ≤ before.address + ptr.word := by
    have := inside.2
    rw [BitVec.le_def, sum]
    rw [BitVec.lt_def] at this
    omega
  simp [RebaseCursor.after, RebaseCursor.at, RebaseCursor.advance, before_end]

/-- The entries that take the interpreter from one record to the next. -/
theorem RebaseCursor.setAddress_spec (counter segmentCount : Nat) {from_ range : SegmentRange}
    (was : layout.find before.address = some from_)
    (found : layout.find record.address = some range)
    (order : InOrder layout ptr before record) (follows : Follows layout ptr before record)
    (few : range.index < 16) :
    ∃ ops, RebaseCursor.setAddress layout.find
        { RebaseCursor.after ptr from_ before with type := some record.type } record =
          .ok (RebaseCursor.at range record, ops) ∧
      Transducer.run (rebaseStep counter ptr)
        { RebaseState.after ptr from_ before with type := record.type.code } ops =
          (RebaseState.at range record, []) ∧
      (range.index ≤ segmentCount → range.size.toNat ≤ 2 ^ counter →
        ∀ it ∈ ops, it.Fits counter segmentCount) := by
  have inside := Layout.contains_of_find found
  have next := rebaseNext_eq ptr was
  have index : (BitVec.ofNat 64 range.index).toNat = range.index := by
    rw [BitVec.toNat_ofNat]
    exact Nat.mod_eq_of_lt (by omega)
  by_cases met : (RebaseCursor.after ptr from_ before).address = record.address
  · -- nothing to write: `Follows` says the segment is still the right one
    have same := follows (met.symm.trans next.symm)
    obtain rfl : range = from_ := by
      rw [found, was] at same
      exact Option.some.inj same
    have stands := RebaseCursor.after_address inside (order.spaced same.symm)
    refine ⟨[], ?_, ?_, by simp⟩
    · rw [RebaseCursor.setAddress, if_neg (by simpa using met)]
      simp only [RebaseCursor.at, ← met]
      rfl
    · simp only [Transducer.run_nil, RebaseState.after, RebaseState.at, ← met, stands]
      congr 2
      bv_omega
  · by_cases outside : record.address < from_.start ∨ from_.finish ≤ record.address
    · refine ⟨[⟨.setSegmentAndOffsetUleb, BitVec.ofNat 64 range.index,
        record.address - range.start⟩], ?_, ?_, ?_⟩
      · rw [RebaseCursor.setAddress, if_pos (by simpa using met)]
        simp [RebaseCursor.after, RebaseCursor.at, RebaseCursor.advance, outside, found]
      · simp [Transducer.run_cons, rebaseStep, RebaseState.after, RebaseState.at, index]
      · intro known _ it member
        rw [List.mem_singleton] at member
        simp only [member, RebaseTmp.Fits, index]
        exact ⟨few, known⟩
    · have held : from_.Contains record.address := by
        unfold SegmentRange.Contains
        rw [not_or, BitVec.not_lt, BitVec.not_le] at outside
        exact outside
      have again := Layout.find_of_mem was held
      obtain rfl : range = from_ := by
        rw [found] at again
        exact Option.some.inj again
      have spaced := order.spaced (was.trans found.symm)
      have stands := RebaseCursor.after_address inside spaced
      refine ⟨[⟨.addAddrUleb, record.address - (before.address + ptr.word), 0⟩], ?_, ?_, ?_⟩
      · rw [RebaseCursor.setAddress, if_pos (by simpa using met), if_neg (by simpa [RebaseCursor.after, RebaseCursor.at, RebaseCursor.advance] using outside)]
        simp only [stands]
        rfl
      · simp only [Transducer.run_cons, Transducer.run_nil, rebaseStep, RebaseState.after,
          RebaseState.at, List.append_nil]
        congr 2
        bv_omega
      · intro _ fit it member
        rw [List.mem_singleton] at member
        simp only [member, RebaseTmp.Fits]
        refine lt_of_lt_of_le ?_ fit
        obtain ⟨low, high⟩ := inside
        have first := (Layout.contains_of_find was).1
        have word := ptr.toNat_word
        simp only [SegmentRange.size]
        bv_omega

theorem rebaseMid_cons {find : BitVec 64 → Option SegmentRange} {cursor placed : RebaseCursor}
    {it : RebaseInfo} {ops : List RebaseTmp} (rest : List RebaseInfo)
    (set : (cursor.setType it).1.setAddress find it = .ok (placed, ops)) :
    rebaseMid find ptr cursor (it :: rest) =
      (rebaseMid find ptr (placed.advance ptr) rest).map fun mid =>
        (cursor.setType it).2 ++ ops ++ ⟨.doRebaseUlebTimes, 1, 0⟩ :: mid := by
  simp only [rebaseMid, set, bind, Except.bind, pure, Except.pure, Except.map]

/-- One `DO_REBASE` emits the state and moves it one pointer on. -/
theorem run_doRebase (positive : 0 < counter) (state : RebaseState) (mid : List RebaseTmp) :
    (Transducer.run (rebaseStep counter ptr) state (⟨.doRebaseUlebTimes, 1, 0⟩ :: mid)).2 =
      state :: (Transducer.run (rebaseStep counter ptr)
        { state with segOffset := state.segOffset + ptr.word } mid).2 := by
  have single : narrow counter 1#64 = 1 :=
    narrow_of_lt (Nat.one_lt_two_pow_iff.2 (by omega))
  simp only [Transducer.run_cons, rebaseStep]
  rw [show (1 : BitVec 64) = 1#64 from rfl, single]
  simp [rebaseTimes]

theorem run_record (positive : 0 < counter) {cursor : RebaseCursor} {state placed : RebaseState}
    {it : RebaseInfo} {ops mid : List RebaseTmp}
    (known : ∀ type, cursor.type = some type → state.type = type.code)
    (reaches : Transducer.run (rebaseStep counter ptr) { state with type := it.type.code } ops =
      (placed, [])) :
    (Transducer.run (rebaseStep counter ptr) state
        ((cursor.setType it).2 ++ ops ++ ⟨.doRebaseUlebTimes, 1, 0⟩ :: mid)).2 =
      placed :: (Transducer.run (rebaseStep counter ptr)
        { placed with segOffset := placed.segOffset + ptr.word } mid).2 := by
  obtain ⟨-, typed⟩ := RebaseCursor.setType_spec counter ptr cursor state it known
  rw [List.append_assoc, Transducer.run_append, typed, Transducer.run_append, reaches,
    run_doRebase positive]
  rfl

theorem RebaseCursor.setType_fits (cursor : RebaseCursor) (record : RebaseInfo) :
    ∀ it ∈ (cursor.setType record).2, it.Fits counter segmentCount := by
  unfold RebaseCursor.setType
  split
  · cases record with
    | mk type address => cases type <;> simp [RebaseTmp.Fits, RebaseType.code]
  · simp

variable {records : List RebaseInfo}

/-- The encoder answers for every list of records that are in segments. -/
theorem rebaseMid_ok (ptr : PointerSize) (known : ∀ address range, layout.find address = some range →
      range.index < 16 ∧ range.index ≤ segmentCount)
    (found : ∀ record ∈ records, ∃ range, layout.find record.address = some range)
    (cursor : RebaseCursor) :
    ∃ mid, rebaseMid layout.find ptr cursor records = .ok mid ∧
      mid.length ≤ 3 * records.length ∧
      (∀ it ∈ mid, it.opcode = .doRebaseUlebTimes → it.operand1 = 1) ∧
      ∀ it ∈ mid, it.Fits 64 segmentCount := by
  induction records generalizing cursor with
  | nil => exact ⟨[], rfl, by simp, by simp, by simp⟩
  | cons record rest ih =>
    rw [List.forall_mem_cons] at found
    obtain ⟨range, here⟩ := found.1
    have typed : (cursor.setType record).2.length ≤ 1 ∧
        ∀ it ∈ (cursor.setType record).2, it.opcode ≠ .doRebaseUlebTimes := by
      unfold RebaseCursor.setType
      split <;> simp
    obtain ⟨placed, ops, set, short, others⟩ : ∃ placed ops,
        (cursor.setType record).1.setAddress layout.find record = .ok (placed, ops) ∧
        ops.length ≤ 1 ∧ ∀ it ∈ ops, it.opcode ≠ .doRebaseUlebTimes ∧ it.Fits 64 segmentCount := by
      unfold RebaseCursor.setAddress
      split
      · split
        · refine ⟨_, _, by rw [here], by simp, ?_⟩
          obtain ⟨few, exists_⟩ := known _ _ here
          have index : range.index % 2 ^ 64 = range.index := Nat.mod_eq_of_lt (by omega)
          simp only [List.mem_singleton, forall_eq, RebaseTmp.Fits, BitVec.toNat_ofNat, index]
          exact ⟨by simp, few, exists_⟩
        · refine ⟨_, _, rfl, by simp, ?_⟩
          simp only [List.mem_singleton, forall_eq, RebaseTmp.Fits]
          exact ⟨by simp, BitVec.isLt _⟩
      · exact ⟨_, _, rfl, by simp, by simp⟩
    obtain ⟨mid, rests, size, units, fits⟩ := ih found.2 (placed.advance ptr)
    refine ⟨_, by rw [rebaseMid_cons rest set, rests]; rfl, ?_, ?_, ?_⟩
    · simp only [List.length_append, List.length_cons]
      omega
    · intro it member is
      simp only [List.mem_append, List.mem_cons] at member
      rcases member with (member | member) | rfl | member
      · exact absurd is (typed.2 it member)
      · exact absurd is (others it member).1
      · rfl
      · exact units it member is
    · intro it member
      simp only [List.mem_append, List.mem_cons] at member
      rcases member with (member | member) | rfl | member
      · exact RebaseCursor.setType_fits cursor record it member
      · exact (others it member).2
      · exact trivial
      · exact fits it member

/-! ## Every record -/

/-- Records in the order of the sort. -/
structure RebaseSorted (layout : Layout) (ptr : PointerSize) (records : List RebaseInfo) : Prop where
  found : ∀ record ∈ records, ∃ range, layout.find record.address = some range
  order : records.Pairwise (InOrder layout ptr)

variable {mid : List RebaseTmp}

/-- After a record, the sites are those of the remaining records exactly when
each of them follows the one before it. -/
theorem rebaseMid_after_iff (positive : 0 < counter)
    (few : ∀ address range, layout.find address = some range → range.index < 16)
    {before : RebaseInfo} {from_ : SegmentRange}
    (was : layout.find before.address = some from_)
    (sorted : RebaseSorted layout ptr (before :: records))
    (encodes : rebaseMid layout.find ptr (RebaseCursor.after ptr from_ before) records = .ok mid) :
    List.Forall₂ (SiteOf layout) records
        (Transducer.run (rebaseStep counter ptr) (RebaseState.after ptr from_ before) mid).2 ↔
      List.IsChain (Follows layout ptr) (before :: records) := by
  induction records generalizing before from_ mid with
  | nil =>
    cases encodes
    simp
  | cons record rest ih =>
    obtain ⟨found, order⟩ := sorted
    obtain ⟨range, here⟩ := found record (by simp)
    rw [List.pairwise_cons] at order
    have next := order.1 record (by simp)
    have tail : RebaseSorted layout ptr (record :: rest) :=
      ⟨fun other member => found other (List.mem_cons_of_mem _ member), order.2⟩
    have known : ∀ type, (RebaseCursor.after ptr from_ before).type = some type →
        (RebaseState.after ptr from_ before).type = type.code := by
      intro type is
      cases is
      rfl
    obtain ⟨typed, -⟩ := RebaseCursor.setType_spec counter ptr _ _ record known
    rw [List.isChain_cons_cons]
    by_cases follows : Follows layout ptr before record
    · obtain ⟨ops, set, reaches, -⟩ := RebaseCursor.setAddress_spec counter 0 was here next follows (few _ _ here)
      rw [rebaseMid_cons rest (by rw [typed]; exact set)] at encodes
      obtain ⟨more, rests, rfl⟩ := ok_of_map encodes
      rw [run_record positive known reaches, List.forall₂_cons]
      have steps := ih here tail rests
      exact ⟨fun both => ⟨follows, steps.1 both.2⟩,
        fun both => ⟨siteOf_at here, steps.2 both.2⟩⟩
    · -- the record meets the running address from another segment: no entry is written
      obtain ⟨met, apart⟩ : record.address = layout.rebaseNext ptr before ∧
          layout.find record.address ≠ layout.find before.address := by
        simpa [Follows] using follows
      rw [rebaseNext_eq ptr was] at met
      have set : ((RebaseCursor.after ptr from_ before).setType record).1.setAddress layout.find
          record = .ok ({ RebaseCursor.after ptr from_ before with type := some record.type }, []) := by
        rw [typed, RebaseCursor.setAddress, if_neg (by simpa using met.symm)]
      rw [rebaseMid_cons rest set] at encodes
      obtain ⟨more, -, rfl⟩ := ok_of_map encodes
      rw [run_record positive known (Transducer.run_nil _ _), List.forall₂_cons]
      refine iff_of_false ?_ (fun both => follows both.1)
      rintro ⟨⟨other, at_, site, -⟩, -⟩
      rw [here] at at_
      cases at_
      have index : from_.index = range.index := congrArg RebaseSite.segIndex site
      apply apart
      rw [here, was, Layout.find_eq_of_index was here index]

/-- The first record always names its segment: no segment holds the address -1. -/
theorem RebaseCursor.setAddress_first (counter : Nat) (ptr : PointerSize)

    (found : layout.find record.address = some range) (few : range.index < 16) :
    RebaseCursor.setAddress layout.find { ({} : RebaseCursor) with type := some record.type } record =
        .ok (RebaseCursor.at range record,
          [⟨.setSegmentAndOffsetUleb, BitVec.ofNat 64 range.index, record.address - range.start⟩]) ∧
      Transducer.run (rebaseStep counter ptr) ⟨0, 0, record.type.code⟩
          [⟨.setSegmentAndOffsetUleb, BitVec.ofNat 64 range.index, record.address - range.start⟩] =
        (RebaseState.at range record, []) := by
  have inside := (Layout.contains_of_find found).2
  have fresh : (-1 : BitVec 64) ≠ record.address := by bv_omega
  have index : range.index % 2 ^ 64 = range.index := Nat.mod_eq_of_lt (by omega)
  constructor
  · rw [RebaseCursor.setAddress, if_pos (by simpa using fresh)]
    simp [found, RebaseCursor.at]
  · simp only [Transducer.run_cons, Transducer.run_nil, rebaseStep, RebaseState.at,
      BitVec.toNat_ofNat, index, List.append_nil]

theorem rebaseMid_iff {counter : Nat} (positive : 0 < counter)
    (few : ∀ address range, layout.find address = some range → range.index < 16)

    (sorted : RebaseSorted layout ptr records)
    (encodes : rebaseMid layout.find ptr {} records = .ok mid) :
    List.Forall₂ (SiteOf layout) records
        (Transducer.run (rebaseStep counter ptr) ⟨0, 0, 0⟩ mid).2 ↔
      List.IsChain (Follows layout ptr) records := by
  cases records with
  | nil =>
    cases encodes
    simp
  | cons record rest =>
    obtain ⟨range, here⟩ := sorted.found record (by simp)
    have unset : ∀ type, ({} : RebaseCursor).type = some type →
        (⟨0, 0, 0⟩ : RebaseState).type = type.code := by
      intro type is
      cases is
    obtain ⟨typed, -⟩ := RebaseCursor.setType_spec counter ptr {} ⟨0, 0, 0⟩
      record unset
    obtain ⟨set, reaches⟩ := RebaseCursor.setAddress_first counter ptr here
      (few _ _ here)
    rw [rebaseMid_cons rest (by rw [typed]; exact set)] at encodes
    obtain ⟨more, rests, rfl⟩ := ok_of_map encodes
    rw [run_record positive unset reaches, List.forall₂_cons]
    have steps := rebaseMid_after_iff positive few here sorted rests
    exact ⟨fun both => steps.1 both.2, fun chain => ⟨siteOf_at here, steps.2 chain⟩⟩

/-- Deltas between records that follow each other are smaller than their segment. -/
theorem rebaseMid_after_fits (known : ∀ address range, layout.find address = some range →
      range.index < 16 ∧ range.index ≤ segmentCount ∧ range.size.toNat ≤ 2 ^ counter)
    {before : RebaseInfo} {from_ : SegmentRange}
    (was : layout.find before.address = some from_)
    (sorted : RebaseSorted layout ptr (before :: records))
    (chain : List.IsChain (Follows layout ptr) (before :: records))
    (encodes : rebaseMid layout.find ptr (RebaseCursor.after ptr from_ before) records = .ok mid) :
    ∀ it ∈ mid, it.Fits counter segmentCount := by
  induction records generalizing before from_ mid with
  | nil =>
    cases encodes
    simp
  | cons record rest ih =>
    obtain ⟨found, order⟩ := sorted
    obtain ⟨range, here⟩ := found record (by simp)
    rw [List.pairwise_cons] at order
    rw [List.isChain_cons_cons] at chain
    obtain ⟨few, exists_, size⟩ := known _ _ here
    have agrees : ∀ type, (RebaseCursor.after ptr from_ before).type = some type →
        (RebaseState.after ptr from_ before).type = type.code := by
      intro type is
      cases is
      rfl
    obtain ⟨typed, -⟩ := RebaseCursor.setType_spec counter ptr _ _ record agrees
    obtain ⟨ops, set, -, fits⟩ := RebaseCursor.setAddress_spec counter segmentCount was here (order.1 record (by simp)) chain.1 few
    rw [rebaseMid_cons rest (by rw [typed]; exact set)] at encodes
    obtain ⟨more, rests, rfl⟩ := ok_of_map encodes
    have tail : RebaseSorted layout ptr (record :: rest) :=
      ⟨fun other member => found other (List.mem_cons_of_mem _ member), order.2⟩
    have later := ih here tail chain.2 rests
    intro it member
    simp only [List.mem_append, List.mem_cons] at member
    rcases member with (member | member) | rfl | member
    · exact RebaseCursor.setType_fits _ record it member
    · exact fits exists_ size it member
    · exact trivial
    · exact later it member

theorem rebaseMid_fits (counter : Nat) (known : ∀ address range, layout.find address = some range →
      range.index < 16 ∧ range.index ≤ segmentCount ∧ range.size.toNat ≤ 2 ^ counter)
    (sorted : RebaseSorted layout ptr records)
    (chain : List.IsChain (Follows layout ptr) records)
    (encodes : rebaseMid layout.find ptr {} records = .ok mid) :
    ∀ it ∈ mid, it.Fits counter segmentCount := by
  cases records with
  | nil =>
    cases encodes
    simp
  | cons record rest =>
    obtain ⟨range, here⟩ := sorted.found record (by simp)
    obtain ⟨few, exists_, -⟩ := known _ _ here
    have typed : (({} : RebaseCursor).setType record).1 =
        { ({} : RebaseCursor) with type := some record.type } := rfl
    obtain ⟨set, -⟩ := RebaseCursor.setAddress_first counter ptr here few
    rw [rebaseMid_cons rest (by rw [typed]; exact set)] at encodes
    obtain ⟨more, rests, rfl⟩ := ok_of_map encodes
    have later := rebaseMid_after_fits known here sorted chain rests
    intro it member
    simp only [List.mem_append, List.mem_cons, List.not_mem_nil, or_false] at member
    rcases member with (member | rfl) | rfl | member
    · exact RebaseCursor.setType_fits _ record it member
    · have index : range.index % 2 ^ 64 = range.index := Nat.mod_eq_of_lt (by omega)
      simp only [RebaseTmp.Fits, BitVec.toNat_ofNat, index]
      exact ⟨few, exists_⟩
    · exact trivial
    · exact later it member

end Simulation

/-! ## The records of an image -/

namespace RebaseRecords

variable {layout : Layout} {ptr : PointerSize} {info : List RebaseInfo}

theorem sorted (records : RebaseRecords layout ptr info) :
    RebaseSorted layout ptr (RebaseInfo.sort info) := by
  have perm := RebaseInfo.sort_perm info
  refine ⟨fun record member => records.found record (perm.mem_iff.1 member), ?_⟩
  have spaced := (perm.pairwise_iff (fun {a b} apart => apart.symm)).2 records.spaced
  refine ((RebaseInfo.sort_sorted info).and spaced).imp_of_mem ?_
  rintro a b inA inB ⟨le, apart⟩
  refine ⟨fun same => ?_, records.oneType a (perm.mem_iff.1 inA) b (perm.mem_iff.1 inB)⟩
  rw [RebaseInfo.key, RebaseInfo.key, Prod.Lex.toLex_le_toLex, same] at le
  have positive : 0 < ptr.bytes := by cases ptr <;> decide
  rcases le with less | ⟨-, less⟩
  · exact absurd less (lt_irrefl _)
  · simp only at less
    omega

/-- There is not room for more records than `count` can hold. -/
theorem length_bound (records : RebaseRecords layout ptr info) : 3 * info.length < 2 ^ 64 := by
  have four : 4 ≤ ptr.bytes := by cases ptr <;> decide
  have slots : (info.map fun record => record.address.toNat / ptr.bytes).Nodup := by
    rw [List.Nodup, List.pairwise_map]
    refine records.spaced.imp ?_
    intro a b apart same
    have := Nat.div_add_mod a.address.toNat ptr.bytes
    have := Nat.div_add_mod b.address.toNat ptr.bytes
    have := Nat.mod_lt a.address.toNat (show 0 < ptr.bytes by omega)
    have := Nat.mod_lt b.address.toNat (show 0 < ptr.bytes by omega)
    simp only [same] at *
    omega
  have below : (info.map fun record : RebaseInfo => record.address.toNat / ptr.bytes).toFinset ⊆
      Finset.range (2 ^ 62) := by
    intro slot member
    obtain ⟨record, -, rfl⟩ := List.mem_map.1 (List.mem_toFinset.1 member)
    have := record.address.isLt
    rw [Finset.mem_range, Nat.div_lt_iff_lt_mul (by omega)]
    omega
  have card := Finset.card_le_card below
  rw [List.toFinset_card_of_nodup slots, List.length_map, Finset.card_range] at card
  omega

end RebaseRecords

/-- The stream of `encodeV1` rebases the sorted records, each at its site. -/
def RebasePerforms (counter : Nat) (layout : Layout) (ptr : PointerSize) (info : List RebaseInfo) :
    Prop :=
  ∃ bytes sites, rebaseEncodeV1 layout.find ptr info = .ok bytes ∧
    rebaseSites counter ptr (segmentGroups layout.sections).length bytes = .ok sites ∧
    List.Forall₂ (SiteOf layout) (RebaseInfo.sort info) sites

theorem Layout.index_known {layout : Layout} (few : (segmentGroups layout.sections).length ≤ 16)
    {address : BitVec 64} {range : SegmentRange} (found : layout.find address = some range) :
    range.index < 16 ∧ range.index ≤ (segmentGroups layout.sections).length := by
  have := Layout.index_lt found
  omega

/-- What is written, and what it rebases when every entry fits the counters. -/
theorem rebaseEncodeV1_runs {counter : Nat} {layout : Layout} {ptr : PointerSize}
    {info : List RebaseInfo} {mid : List RebaseTmp} (enough : 4 ≤ counter) (wide : counter ≤ 64)
    (sorted : RebaseSorted layout ptr (RebaseInfo.sort info))
    (few : (segmentGroups layout.sections).length ≤ 16)
    (encodes : rebaseMid layout.find ptr {} (RebaseInfo.sort info) = .ok mid)
    (room : mid.length < 2 ^ counter)
    (units : ∀ it ∈ mid, it.opcode = .doRebaseUlebTimes → it.operand1 = 1)
    (fits : ∀ it ∈ mid, it.Fits counter (segmentGroups layout.sections).length) :
    RebasePerforms counter layout ptr info ↔
      List.IsChain (Follows layout ptr) (RebaseInfo.sort info) := by
  have runs := rebaseSites_bytes ptr enough wide room units fits
  have written : rebaseEncodeV1 layout.find ptr info =
      .ok (rebaseBytes ptr (rebaseOptimize ptr mid)) := by
    rw [rebaseEncodeV1, encodes]
    rfl
  have positive : 0 < counter := by omega
  rw [← rebaseMid_iff positive (fun _ _ found => (Layout.index_known few found).1) sorted encodes]
  constructor
  · rintro ⟨bytes, sites, writes, performs, all⟩
    rw [written] at writes
    cases writes
    rw [runs] at performs
    cases performs
    exact all
  · exact fun all => ⟨_, _, written, runs, all⟩

/-- **A rebase stream rebases its records** exactly when no record meets the
running address from another segment. -/
theorem rebaseEncodeV1_iff {layout : Layout} {ptr : PointerSize} {info : List RebaseInfo}
    (records : RebaseRecords layout ptr info) (few : (segmentGroups layout.sections).length ≤ 16) :
    RebasePerforms 64 layout ptr info ↔
      List.IsChain (Follows layout ptr) (RebaseInfo.sort info) := by
  obtain ⟨mid, encodes, size, units, fits⟩ := rebaseMid_ok ptr
    (fun _ _ found => Layout.index_known few found) records.sorted.found {}
  have room : mid.length < 2 ^ 64 := by
    have := records.length_bound
    rw [(RebaseInfo.sort_perm info).length_eq] at size
    omega
  exact rebaseEncodeV1_runs (by norm_num) le_rfl records.sorted few encodes room units fits

/-- The same with the `uint32_t` counters of `machochecker`, as long as those hold
every count and every distance. -/
theorem rebaseEncodeV1_machochecker {layout : Layout} {ptr : PointerSize} {info : List RebaseInfo}
    (records : RebaseRecords layout ptr info) (few : (segmentGroups layout.sections).length ≤ 16)
    (room : 3 * info.length < 2 ^ 32)
    (sizes : ∀ address range, layout.find address = some range → range.size.toNat ≤ 2 ^ 32)
    (chain : List.IsChain (Follows layout ptr) (RebaseInfo.sort info)) :
    RebasePerforms 32 layout ptr info := by
  obtain ⟨mid, encodes, size, units, -⟩ := rebaseMid_ok ptr
    (fun _ _ found => Layout.index_known few found) records.sorted.found {}
  rw [(RebaseInfo.sort_perm info).length_eq] at size
  have fits := rebaseMid_fits 32
    (fun a r found => ⟨(Layout.index_known few found).1, (Layout.index_known few found).2,
      sizes a r found⟩) records.sorted chain encodes
  exact (rebaseEncodeV1_runs (by norm_num) (by norm_num) records.sorted few encodes (by omega)
    units fits).2 chain

instance (layout : Layout) (ptr : PointerSize) (before record : RebaseInfo) :
    Decidable (Follows layout ptr before record) :=
  inferInstanceAs (Decidable (_ → _))

/-! ## Two segments with one pointer each

The first is `[0x1000, 0x1008)` and holds a `POINTER` rebase; the second starts
at `second` and holds a `TEXT_ABSOLUTE32` rebase, so it is written later. -/

def pairSections (second : BitVec 64) : List FinalSection :=
  [⟨⟨[1], CString.nulFree_one⟩, .empty, 0x1000, 8, 0⟩, ⟨⟨[2], CString.nulFree_two⟩, .empty, second, 8, 8⟩,
    ⟨⟨[3], CString.nulFree_three⟩, .empty, 0x8000, 8, 16⟩]

def pairInfo (second : BitVec 64) : List RebaseInfo :=
  [⟨.pointer, 0x1000⟩, ⟨.textAbsolute32, second⟩]

def farLayout : Layout := ⟨pairSections 0x2000, by decide, by decide⟩

def zeroLayout : Layout := ⟨pairSections 0, by decide, by decide⟩

theorem rebaseEncodeV1_iff_far :
    List.IsChain (Follows farLayout .p8) (RebaseInfo.sort (pairInfo 0x2000)) ∧
      RebasePerforms 64 farLayout .p8 (pairInfo 0x2000) := by
  have records : RebaseRecords farLayout .p8 (pairInfo 0x2000) := by
    refine ⟨?_, by decide, by decide⟩
    rintro record member
    rcases List.mem_pair.1 member with rfl | rfl
    · exact ⟨⟨0x1000, 0x1008, 0⟩, by decide⟩
    · exact ⟨⟨0x2000, 0x2008, 1⟩, by decide⟩
  have chain : List.IsChain (Follows farLayout .p8) (RebaseInfo.sort (pairInfo 0x2000)) := by decide
  exact ⟨chain, (rebaseEncodeV1_iff records (by decide)).2 chain⟩

theorem rebaseEncodeV1_machochecker_far : RebasePerforms 32 farLayout .p8 (pairInfo 0x2000) := by
  refine rebaseEncodeV1_machochecker ⟨?_, by decide, by decide⟩ (by decide) (by decide) ?_ (by decide)
  · rintro record member
    rcases List.mem_pair.1 member with rfl | rfl
    · exact ⟨⟨0x1000, 0x1008, 0⟩, by decide⟩
    · exact ⟨⟨0x2000, 0x2008, 1⟩, by decide⟩
  · intro address range found
    obtain ⟨group, there, shape, -⟩ := Layout.group_of_find found
    rw [shape]
    generalize range.index = index at there
    match index, there with
    | 0, there => cases there; decide
    | 1, there => cases there; decide
    | 2, there => cases there; decide

/-- The record at address 0 is rebased past the end of the first segment. -/
theorem rebaseEncodeV1_zero :
    RebaseRecords zeroLayout .p8 (pairInfo 0) ∧
      (segmentGroups zeroLayout.sections).length ≤ 16 ∧
      ¬ RebasePerforms 64 zeroLayout .p8 (pairInfo 0) := by
  refine ⟨⟨?_, by decide, by decide⟩, by decide, ?_⟩
  · rintro record member
    rcases List.mem_pair.1 member with rfl | rfl
    · exact ⟨⟨0x1000, 0x1008, 0⟩, by decide⟩
    · exact ⟨⟨0, 8, 1⟩, by decide⟩
  · rintro ⟨bytes, sites, writes, performs, all⟩
    have written : rebaseEncodeV1 zeroLayout.find .p8 (pairInfo 0) =
        .ok [0x11, 0x20, 0x00, 0x51, 0x12, 0x51, 0, 0] := by decide
    have performed : rebaseSites 64 .p8 (segmentGroups zeroLayout.sections).length
        [0x11, 0x20, 0x00, 0x51, 0x12, 0x51, 0, 0] = .ok [⟨0, 0, 1⟩, ⟨0, 8, 2⟩] := by decide
    rw [written] at writes
    cases writes
    rw [performed] at performs
    cases performs
    have order : RebaseInfo.sort (pairInfo 0) = pairInfo 0 := by decide
    rw [order, pairInfo, List.forall₂_cons, List.forall₂_cons] at all
    obtain ⟨-, ⟨range, found, site, -⟩, -⟩ := all
    have second : zeroLayout.find 0 = some ⟨0, 8, 1⟩ := by decide
    rw [second] at found
    cases found
    exact absurd site (by decide)

end Cctools.LinkEdit
