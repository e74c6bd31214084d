/-
# Cctools.LinkEdit.ThreadedOrdinals -- the ordinals of the bind table

`bindEncodeV2_ordinals_iff`: whenever `encodeV2` does not throw, every record's
`_threadedBindOrdinal` is the index of an entry of the decoded table with its own
library, symbol, type and addend, if and only if the table has at most 65536
entries (or ends as it begins).  The check for too many binds compares the
largest ordinal, not the number of entries, with `0x10000`, so a table of 65537
entries passes and its last ordinal wraps to 0 in the 16-bit field.

A reader of the table stops at the first opcode it cannot read, as otool does;
the entries come first in the stream, so what follows them does not matter.
-/
import Cctools.LinkEdit.Threaded
import Cctools.LinkEdit.BindTrace
import Cctools.LinkEdit.BindStates

namespace Cctools.LinkEdit

set_option autoImplicit false

open Cctools.Theory

/-! ## Reading the table -/

/-- The instructions up to `BIND_OPCODE_DONE` or the first that cannot be read. -/
def readablePrefix : Nat → List UInt8 → List BindingTmp
  | _, [] => []
  | 0, _ :: _ => []
  | fuel + 1, byte :: p =>
    match readBind byte p with
    | some (some instr, p) => instr :: readablePrefix fuel p
    | _ => []

/-- The entries that the `DO_BIND`s of a stream make. -/
def readTable (ptr : PointerSize) (bytes : List UInt8) : List BindState :=
  (Transducer.run (bindStep ptr) {} (readablePrefix bytes.length bytes)).2

/-- The entry is the record's. -/
def EntryOf (record : BindingInfo) (entry : BindState) : Prop :=
  entry.libraryOrdinal = record.libraryOrdinal ∧ entry.symbolName = some record.symbolName ∧
    entry.type = record.type.code ∧ entry.addend = record.addend

/-- Every record's ordinal selects an entry of its own. -/
def OrdinalsFaithful (ptr : PointerSize) (result : ThreadedInfo) : Prop :=
  ∀ bind ∈ result.bindInfo,
    ∃ entry, (readTable ptr result.bytes)[bind.2.toNat]? = some entry ∧ EntryOf bind.1 entry

/-- What a table entry holds of a record. -/
def BindingInfo.key (record : BindingInfo) : BitVec 32 × CString × BindType × BitVec 64 :=
  (record.libraryOrdinal, record.symbolName, record.type, record.addend)

/-- The records whose key differs from the one before. -/
def tableSize : Option (BitVec 32 × CString × BindType × BitVec 64) → List BindingInfo → Nat
  | _, [] => 0
  | before, record :: rest =>
    (if before = some record.key then 0 else 1) + tableSize (some record.key) rest

theorem EntryOf.congr {a b : BindingInfo} {entry : BindState} (entry_ : EntryOf a entry)
    (same : a.key = b.key) : EntryOf b entry := by
  simp only [BindingInfo.key, Prod.mk.injEq] at same
  obtain ⟨ordinal, symbol, type, addend⟩ := same
  unfold EntryOf at *
  rw [← ordinal, ← symbol, ← type, ← addend]
  exact entry_

theorem EntryOf.key_eq {a b : BindingInfo} {entry : BindState} (first : EntryOf a entry)
    (second : EntryOf b entry) : a.key = b.key := by
  obtain ⟨ordinal, symbol, type, addend⟩ := first
  obtain ⟨ordinal', symbol', type', addend'⟩ := second
  rw [ordinal] at ordinal'
  rw [symbol, Option.some.injEq] at symbol'
  rw [type] at type'
  rw [addend] at addend'
  simp only [BindingInfo.key, ordinal', symbol', BindType.code_inj type', addend']

/-- Entries that fit are read back, whatever follows them. -/
theorem readablePrefix_bytes {mid : List BindingTmp} (fits : ∀ it ∈ mid, it.Fits) {fuel : Nat}
    (rest : List UInt8)
    (enough : (mid.flatMap BindingTmp.encode ++ rest).length ≤ fuel) :
    ∃ more, readablePrefix fuel (mid.flatMap BindingTmp.encode ++ rest) =
      mid.map BindingTmp.written ++ more := by
  induction mid generalizing fuel with
  | nil => exact ⟨_, rfl⟩
  | cons it later ih =>
    rw [List.forall_mem_cons] at fits
    obtain ⟨byte, tail, shape, reads⟩ := readBind_encode fits.1
      (later.flatMap BindingTmp.encode ++ rest)
    have nonempty := length_encode_pos it
    simp only [List.flatMap_cons, List.append_assoc] at enough ⊢
    rw [List.length_append] at enough
    obtain ⟨fuel, rfl⟩ : ∃ less, fuel = less + 1 := ⟨fuel - 1, by omega⟩
    obtain ⟨more, read⟩ := ih fits.2 (show (later.flatMap BindingTmp.encode ++ rest).length ≤ fuel by omega)
    refine ⟨more, ?_⟩
    rw [shape]
    simp only [readablePrefix, reads, read, List.map_cons, List.cons_append]

/-- The table of a stream begins with the states its first entries bind in. -/
theorem readTable_bytes (ptr : PointerSize) {mid : List BindingTmp} (fits : ∀ it ∈ mid, it.Fits) (rest : List UInt8) :
    ∃ more, readTable ptr (mid.flatMap BindingTmp.encode ++ rest) =
      (Transducer.run (bindStep ptr) {} mid).2.map BindState.nibble ++ more := by
  obtain ⟨more, read⟩ := readablePrefix_bytes fits rest le_rfl
  have runs := Transducer.run_map (bindStep ptr)
    (fun it (_ : it ∈ mid) state => @bindStep_written ptr it state) {}
  have initial : BindState.nibble {} = {} := rfl
  rw [initial] at runs
  refine ⟨(Transducer.run (bindStep ptr) (Transducer.run (bindStep ptr) {} mid).1.nibble more).2, ?_⟩
  rw [readTable, read, Transducer.run_append, runs]

/-! ## Writing the table -/

/-- The encoder's variables hold the key of a record. -/
def BindCursor.Holds (cursor : BindCursor) (it : BindingInfo) : Prop :=
  cursor.ordinal = it.libraryOrdinal ∧ cursor.symbolName = some it.symbolName ∧
    cursor.type = it.type ∧ cursor.addend = it.addend

instance (cursor : BindCursor) (it : BindingInfo) : Decidable (cursor.Holds it) :=
  inferInstanceAs (Decidable (_ ∧ _ ∧ _ ∧ _))

theorem readOrdinal_eq {ordinal : BitVec 32} (special : -16 < ordinal.toInt) :
    readOrdinal ordinal = ordinal := by
  unfold readOrdinal
  split
  · rename_i nonpositive
    have table : ∀ low : Fin 16, specialOrdinal ((BitVec.ofInt 32 (-low.val)).signExtend 64) =
        BitVec.ofInt 32 (-low.val) := by decide
    have shape : ordinal = BitVec.ofInt 32 (-((-ordinal.toInt).toNat : Nat)) := by
      rw [Int.toNat_of_nonneg (by omega), neg_neg, BitVec.ofInt_toInt]
    rw [shape]
    exact table ⟨(-ordinal.toInt).toNat, by omega⟩
  · rfl

theorem entryOf_of_sync {cursor : BindCursor} {state : BindState} {it : BindingInfo}
    (special : -16 < it.libraryOrdinal.toInt) (key : KeySync cursor state)
    (holds : cursor.Holds it) : EntryOf it state := by
  obtain ⟨ordinal, symbol, type, addend⟩ := holds
  refine ⟨?_, key.symbol.trans symbol, ?_, key.addend.trans addend⟩
  · rw [key.ordinal, ordinal, readOrdinal_eq special]
  · rw [key.type, type]

section Table

variable {find : BitVec 64 → Option SegmentRange} (ptr : PointerSize)
variable {cursor : BindCursor} {state : BindState} {it : BindingInfo}

theorem BindCursor.setOrdinalV2_run (it : BindingInfo) (key : KeySync cursor state) :
    KeySync (cursor.setOrdinalV2 it).1
        { state with libraryOrdinal := readOrdinal it.libraryOrdinal } ∧
      Transducer.run (bindStep ptr) state (cursor.setOrdinalV2 it).2 =
        ({ state with libraryOrdinal := readOrdinal it.libraryOrdinal }, []) := by
  obtain ⟨ordinal, symbol, type, addend⟩ := key
  unfold BindCursor.setOrdinalV2
  split
  · refine ⟨⟨rfl, symbol, type, addend⟩, ?_⟩
    by_cases special : it.libraryOrdinal.toInt ≤ 0
    · simp [Transducer.run_cons, bindStep, special, readOrdinal]
    · by_cases short : it.libraryOrdinal.toInt ≤ 15 <;>
        simp [Transducer.run_cons, bindStep, special, short, readOrdinal, Theory.BitField.setWidth_signExtend]
  · rename_i same
    have already : cursor.ordinal = it.libraryOrdinal := by simpa using same
    rw [← already, ← ordinal]
    exact ⟨⟨ordinal, symbol, type, addend⟩, rfl⟩

theorem BindCursor.setTypeV2_ok {typed : BindCursor × List BindingTmp}
    (set : cursor.setTypeV2 it = .ok typed) : typed = cursor.setType it := by
  unfold BindCursor.setTypeV2 at set
  split at set
  · cases set
  · exact (Except.ok.inj set).symm

theorem BindCursor.enterSegment_key {placed : BindCursor}
    (set : cursor.enterSegment find it = .ok placed) :
    placed.ordinal = cursor.ordinal ∧ placed.symbolName = cursor.symbolName ∧
      placed.type = cursor.type ∧ placed.addend = cursor.addend := by
  unfold BindCursor.enterSegment at set
  split at set
  · split at set
    · split at set
      · cases set
      · cases set
        exact ⟨rfl, rfl, rfl, rfl⟩
    · cases set
      exact ⟨rfl, rfl, rfl, rfl⟩
  · cases set
    exact ⟨rfl, rfl, rfl, rfl⟩

theorem BindCursor.setOrdinalV2_eq :
    (cursor.setOrdinalV2 it).1 = { cursor with ordinal := it.libraryOrdinal } ∧
      ((cursor.setOrdinalV2 it).2 = [] ↔ cursor.ordinal = it.libraryOrdinal) := by
  unfold BindCursor.setOrdinalV2
  by_cases same : cursor.ordinal = it.libraryOrdinal
  · simp [← same]
  · simp [same]

theorem BindCursor.setSymbol_eq :
    (cursor.setSymbol it).1 = { cursor with symbolName := some it.symbolName } ∧
      ((cursor.setSymbol it).2 = [] ↔ cursor.symbolName = some it.symbolName) := by
  unfold BindCursor.setSymbol
  by_cases same : cursor.symbolName = some it.symbolName
  · simp [← same]
  · simp [same]

theorem BindCursor.setType_eq :
    (cursor.setType it).1 = { cursor with type := it.type } ∧
      ((cursor.setType it).2 = [] ↔ cursor.type = it.type) := by
  unfold BindCursor.setType
  by_cases same : cursor.type = it.type
  · simp [← same]
  · simp [same]

theorem BindCursor.setAddend_eq :
    (cursor.setAddend it).1 = { cursor with addend := it.addend } ∧
      ((cursor.setAddend it).2 = [] ↔ cursor.addend = it.addend) := by
  unfold BindCursor.setAddend
  by_cases same : cursor.addend = it.addend
  · simp [← same]
  · simp [same]

/-- **One record of the table**: no entry when the key is held, else one, which is the
record's. -/
theorem tableRecord_run (key : KeySync cursor state) {numBinds count : BitVec 64}
    {next : BindCursor} {ops : List BindingTmp}
    (one : tableRecord find numBinds cursor it = .ok (count, next, ops)) :
    ∃ after, KeySync next after ∧ next.Holds it ∧
      (cursor.Holds it ∧ count = numBinds ∧ Transducer.run (bindStep ptr) state ops = (after, []) ∨
        ¬ cursor.Holds it ∧ count = numBinds + 1 ∧ ∃ bound, KeySync next bound ∧
          Transducer.run (bindStep ptr) state ops = (after, [bound])) := by
  obtain ⟨typed, setType, more⟩ := ok_of_bind one
  obtain ⟨placed, setPlace, last⟩ := ok_of_bind more
  have typed_ := BindCursor.setTypeV2_ok setType
  subst typed_
  obtain ⟨ordinal, symbol, type, addend⟩ := BindCursor.enterSegment_key setPlace
  obtain ⟨ordered, runs₁⟩ := BindCursor.setOrdinalV2_run ptr it key
  obtain ⟨named, runs₂⟩ := BindCursor.setSymbol_run ptr it ordered
  obtain ⟨kinded, runs₃⟩ := BindCursor.setType_run ptr it named
  have there : KeySync placed _ := ⟨ordinal ▸ kinded.ordinal, symbol ▸ kinded.symbol,
    type ▸ kinded.type, addend ▸ kinded.addend⟩
  obtain ⟨added, runs₄⟩ := BindCursor.setAddend_run ptr it there
  rw [BindCursor.setType_eq.1, BindCursor.setSymbol_eq.1, BindCursor.setOrdinalV2_eq.1] at ordinal symbol type addend
  have holds : (placed.setAddend it).1.Holds it := by
    rw [BindCursor.setAddend_eq.1]
    exact ⟨ordinal, symbol, type, rfl⟩
  have silent : (cursor.setOrdinalV2 it).2 ++ ((cursor.setOrdinalV2 it).1.setSymbol it).2 ++
      (((cursor.setOrdinalV2 it).1.setSymbol it).1.setType it).2 ++ (placed.setAddend it).2 = [] ↔
      cursor.Holds it := by
    rw [List.append_eq_nil_iff, List.append_eq_nil_iff, List.append_eq_nil_iff,
      BindCursor.setOrdinalV2_eq.2, BindCursor.setSymbol_eq.2, BindCursor.setType_eq.2,
      BindCursor.setAddend_eq.2, BindCursor.setSymbol_eq.1, BindCursor.setOrdinalV2_eq.1, addend]
    simp only [BindCursor.Holds, and_assoc]
  obtain ⟨final, final_, written⟩ : ∃ final, KeySync (placed.setAddend it).1 final ∧
      Transducer.run (bindStep ptr) state ((cursor.setOrdinalV2 it).2 ++
        ((cursor.setOrdinalV2 it).1.setSymbol it).2 ++
        (((cursor.setOrdinalV2 it).1.setSymbol it).1.setType it).2 ++ (placed.setAddend it).2) =
          (final, []) := by
    refine ⟨_, added, ?_⟩
    simp only [Transducer.run_append, runs₁, runs₂, runs₃, runs₄, List.nil_append]
  rw [← silent]
  dsimp only at last
  split at last
  · rename_i nothing
    cases last
    rw [List.isEmpty_iff] at nothing
    rw [nothing] at written
    exact ⟨final, final_, holds, .inl ⟨nothing, rfl, written⟩⟩
  · rename_i something
    cases last
    rw [List.isEmpty_iff] at something
    refine ⟨{ final with segOffset := final.segOffset + ptr.word },
      ⟨final_.ordinal, final_.symbol, final_.type, final_.addend⟩, holds,
      .inr ⟨something, rfl, final, final_, ?_⟩⟩
    rw [Transducer.run_append, written]
    rfl

theorem immediate_ordinal {ordinal : BitVec 32} (positive : ¬ ordinal.toInt ≤ 0) (short : ordinal.toInt ≤ 15) :
    (ordinal.signExtend 64).toNat < 16 := by
  have wide := BitVec.toInt_signExtend_of_le (x := ordinal) (show 32 ≤ 64 by omega)
  rw [BitVec.toInt_eq_toNat_cond] at wide
  split at wide <;> omega

theorem tableRecord_fits {numBinds count : BitVec 64} {next : BindCursor} {ops : List BindingTmp}
    (one : tableRecord find numBinds cursor it = .ok (count, next, ops)) : ∀ op ∈ ops, op.Fits := by
  obtain ⟨typed, setType, more⟩ := ok_of_bind one
  obtain ⟨placed, -, last⟩ := ok_of_bind more
  have typed_ := BindCursor.setTypeV2_ok setType
  subst typed_
  have ordinal : ∀ op ∈ (cursor.setOrdinalV2 it).2, op.Fits := by
    unfold BindCursor.setOrdinalV2
    split
    · by_cases special : it.libraryOrdinal.toInt ≤ 0
      · simp [special, BindingTmp.Fits]
      · by_cases short : it.libraryOrdinal.toInt ≤ 15
        · have small := immediate_ordinal special short
          simpa [special, short, BindingTmp.Fits] using small
        · simp [special, short, BindingTmp.Fits]
    · simp
  dsimp only at last
  split at last
  · cases last
    simp
  · cases last
    intro op member
    simp only [List.mem_append, List.mem_singleton] at member
    rcases member with (((member | member) | member) | member) | rfl
    · exact ordinal op member
    · exact BindCursor.setSymbol_ops.2 op member
    · exact BindCursor.setType_ops.2 op member
    · exact BindCursor.setAddend_ops.2 op member
    · exact trivial

/-- What the loop leaves, when `prior` are the entries made before it: every record has
an entry, the last one has the last entry, and entries are made where the key changes. -/
structure TableDone (records : List BindingInfo) (table : BindTable) (prior states : List BindState) :
    Prop where
  records : table.bindInfo.map Prod.fst = records
  count : table.numBinds + 1 = BitVec.ofNat 64 (prior ++ states).length
  entries : ∀ bind ∈ table.bindInfo, ∃ n entry, bind.2 = BitVec.ofNat 16 n ∧
    (prior ++ states)[n]? = some entry ∧ EntryOf bind.1 entry
  first : prior = [] → ∀ bind ∈ table.bindInfo.head?,
    ∃ entry, states.head? = some entry ∧ EntryOf bind.1 entry
  last : ∀ bind ∈ table.bindInfo.getLast?,
    bind.2 = BitVec.ofNat 16 ((prior ++ states).length - 1) ∧
      ∃ entry, (prior ++ states).getLast? = some entry ∧ EntryOf bind.1 entry

theorem ordinal_latest {count : BitVec 64} {prior : List BindState} (nonempty : prior ≠ [])
    (counted : count + 1 = BitVec.ofNat 64 prior.length) :
    count.setWidth 16 = BitVec.ofNat 16 (prior.length - 1) := by
  have positive := List.length_pos_of_ne_nil nonempty
  have before : count = BitVec.ofNat 64 (prior.length - 1) := by
    have split : BitVec.ofNat 64 prior.length = BitVec.ofNat 64 (prior.length - 1) + 1 := by
      rw [show (1 : BitVec 64) = BitVec.ofNat 64 1 from rfl, ← BitVec.ofNat_add,
        Nat.sub_add_cancel positive]
    rw [split] at counted
    exact (BitVec.add_left_inj 1).1 counted
  rw [before]
  apply BitVec.eq_of_toNat_eq
  simp only [BitVec.toNat_setWidth, BitVec.toNat_ofNat]
  omega

theorem BindCursor.Holds.iff_key {record other : BindingInfo} (holds : cursor.Holds record) :
    cursor.Holds other ↔ some record.key = some other.key := by
  obtain ⟨ordinal, symbol, type, addend⟩ := holds
  simp [BindCursor.Holds, BindingInfo.key, ordinal, symbol, type, addend]

/-- The loop makes a fitting table; the induction is over the records, with the entries
made so far. -/
theorem bindTable_run {records : List BindingInfo} {numBinds : BitVec 64} {table : BindTable}
    {prior : List BindState} {before : Option (BitVec 32 × CString × BindType × BitVec 64)}
    (special : ∀ record ∈ records, -16 < record.libraryOrdinal.toInt)
    (key : KeySync cursor state) (held : ∀ record, cursor.Holds record ↔ before = some record.key)
    (count : numBinds + 1 = BitVec.ofNat 64 prior.length)
    (latest : ∀ record, cursor.Holds record →
      ∃ entry, prior.getLast? = some entry ∧ EntryOf record entry)
    (done : bindTable find numBinds cursor records = .ok table) :
    (∀ op ∈ table.mid, op.Fits) ∧
      (Transducer.run (bindStep ptr) state table.mid).2.length = tableSize before records ∧
      TableDone records table prior (Transducer.run (bindStep ptr) state table.mid).2 := by
  induction records generalizing numBinds cursor state table prior before with
  | nil =>
    cases done
    exact ⟨by simp, rfl, rfl, by simpa using count, by simp, by simp, by simp⟩
  | cons record rest ih =>
    rw [List.forall_mem_cons] at special
    obtain ⟨⟨counted, next, ops⟩, one, more⟩ := ok_of_bind done
    obtain ⟨later, rests, final⟩ := ok_of_bind more
    cases final
    obtain ⟨after, sync, holds, either⟩ := tableRecord_run ptr key one
    -- the entries made up to and including this record
    obtain ⟨upTo, own, size, sum, entry, newest, isEntry⟩ : ∃ upTo own : List BindState,
        own.length = (if before = some record.key then 0 else 1) ∧
        counted + 1 = BitVec.ofNat 64 upTo.length ∧ ∃ entry, upTo.getLast? = some entry ∧
        EntryOf record entry ∧ upTo = prior ++ own ∧
        Transducer.run (bindStep ptr) state ops = (after, own) := by
      rcases either with ⟨same, counts, runs⟩ | ⟨differs, counts, bound, bound_, runs⟩
      · obtain ⟨entry, last, isEntry⟩ := latest record same
        refine ⟨prior, [], ?_, counts ▸ count, entry, last, isEntry, by simp, runs⟩
        rw [if_pos ((held record).1 same), List.length_nil]
      · refine ⟨prior ++ [bound], [bound], ?_, ?_, bound, by simp,
          entryOf_of_sync special.1 bound_ holds, rfl, runs⟩
        · rw [if_neg fun same => differs ((held record).2 same), List.length_singleton]
        · rw [counts, count, List.length_append, List.length_singleton, BitVec.ofNat_add]
          rfl
    obtain ⟨isEntry, rfl, runs⟩ := isEntry
    have nonempty : prior ++ own ≠ [] := by
      intro empty
      rw [empty] at newest
      cases newest
    obtain ⟨fits, made, finished⟩ := ih special.2 sync (fun other => holds.iff_key) sum
      (fun other same => ⟨entry, newest,
        isEntry.congr (Option.some.inj (holds.iff_key.1 same))⟩) rests
    have states : (Transducer.run (bindStep ptr) state (ops ++ later.mid)).2 =
        own ++ (Transducer.run (bindStep ptr) after later.mid).2 := by
      rw [Transducer.run_append, runs]
    have ordinal := ordinal_latest nonempty sum
    have here : (prior ++ own ++ (Transducer.run (bindStep ptr) after later.mid).2)[
        (prior ++ own).length - 1]? = some entry := by
      rw [List.getElem?_append_left
        (by have := List.length_pos_of_ne_nil nonempty; omega), ← newest,
        List.getLast?_eq_getElem?]
    refine ⟨?_, ?_, ?_, ?_, ?_, ?_, ?_⟩
    · exact List.forall_mem_append.2 ⟨tableRecord_fits one, fits⟩
    · rw [states, List.length_append, size, made, tableSize]
    · simp [finished.records]
    · rw [states, ← List.append_assoc]
      exact finished.count
    · rw [states, ← List.append_assoc]
      refine List.forall_mem_cons.2 ⟨?_, finished.entries⟩
      exact ⟨_, entry, ordinal, here, isEntry⟩
    · rintro rfl bind member
      obtain rfl : (record, counted.setWidth 16) = bind := Option.some.inj member
      rw [List.nil_append] at newest nonempty
      have single : own = [entry] := by
        cases own with
        | nil => exact absurd rfl nonempty
        | cons only others =>
          have none_ : others = [] := by
            apply List.eq_nil_of_length_eq_zero
            rw [List.length_cons] at size
            split at size <;> omega
          rw [none_] at newest ⊢
          simpa using newest
      exact ⟨entry, by rw [states, single]; rfl, isEntry⟩
    · rw [states, ← List.append_assoc]
      cases rest with
      | nil =>
        cases rests
        intro bind member
        obtain rfl : (record, counted.setWidth 16) = bind := Option.some.inj member
        have nothing : (Transducer.run (bindStep ptr) after []).2 = [] := rfl
        rw [nothing, List.append_nil]
        exact ⟨ordinal, entry, newest, isEntry⟩
      | cons second others =>
        have shape : later.bindInfo ≠ [] := by
          intro empty
          have := finished.records
          rw [empty] at this
          cases this
        obtain ⟨first, others_, split⟩ := List.exists_cons_of_ne_nil shape
        have last := finished.last
        rw [split] at last ⊢
        rw [List.getLast?_cons_cons]
        exact last

theorem bindTable_initial {records : List BindingInfo} {table : BindTable}
    (special : ∀ record ∈ records, -16 < record.libraryOrdinal.toInt)
    (made : bindTable find (-1) {} records = .ok table) :
    (∀ op ∈ table.mid, op.Fits) ∧
      (Transducer.run (bindStep ptr) {} table.mid).2.length = tableSize none records ∧
      TableDone records table [] (Transducer.run (bindStep ptr) {} table.mid).2 := by
  have unheld : ∀ record, ({} : BindCursor).Holds record ↔
      (none : Option (BitVec 32 × CString × BindType × BitVec 64)) = some record.key := by
    simp [BindCursor.Holds]
  have counted : (-1 : BitVec 64) + 1 = BitVec.ofNat 64 ([] : List BindState).length := by decide
  exact bindTable_run ptr special keySync_initial unheld counted
    (fun record holds => absurd ((unheld record).1 holds) (by simp)) made

end Table

/-! ## The limit -/

theorem bindEncodeV2_ok {find : BitVec 64 → Option SegmentRange} {ptr : PointerSize}
    {info : List BindingInfo} {rebaseInfo : List RebaseInfo} {result : ThreadedInfo}
    (encodes : bindEncodeV2 find ptr info rebaseInfo = .ok result) :
    ∃ table starts, bindTable find (-1) {} (BindingInfo.sort info) = .ok table ∧
      (table.numBinds ≤ 0x10000 ∨ table.numBinds = -1) ∧
      result.bindInfo = table.bindInfo ∧
      result.fixups = ThreadedFixup.sort (rebaseInfo.map .rebase ++
        table.bindInfo.map fun bind => .bind bind.1 bind.2) ∧
      (result.fixups.map ThreadedFixup.address).Nodup ∧
      threadedStarts find ⟨0, 0, 0⟩ 0 result.fixups = .ok starts ∧
      result.bytes = padToSize ptr.bytes
        ((tableSizeEntry table.numBinds :: (table.mid ++ starts)).flatMap BindingTmp.encode ++
          [0]) := by
  obtain ⟨table, made, more⟩ := ok_of_bind encodes
  dsimp only at more
  split at more
  · cases more
  · rename_i few
    split at more
    · cases more
    · rename_i apart
      obtain ⟨starts, started, final⟩ := ok_of_bind more
      cases final
      refine ⟨table, starts, made, ?_, rfl, rfl, by simpa using apart, started, rfl⟩
      by_cases none_ : table.numBinds = -1
      · exact .inr none_
      · exact .inl (BitVec.not_lt.1 fun many => few ⟨many, none_⟩)

section Limit

variable {find : BitVec 64 → Option SegmentRange} {ptr : PointerSize} {info : List BindingInfo}
variable {rebaseInfo : List RebaseInfo} {result : ThreadedInfo}

theorem tableSize_le (before : Option (BitVec 32 × CString × BindType × BitVec 64))
    (records : List BindingInfo) : tableSize before records ≤ records.length := by
  induction records generalizing before with
  | nil => exact le_rfl
  | cons record rest ih =>
    have := ih (some record.key)
    rw [tableSize, List.length_cons]
    split <;> omega

/-- The table that is read back: as many entries as keys, one for every record, the
first for the first record and the last for the last. -/
theorem bindEncodeV2_table (room : info.length < 2 ^ 64)
    (special : ∀ record ∈ info, -16 < record.libraryOrdinal.toInt)
    (encodes : bindEncodeV2 find ptr info rebaseInfo = .ok result) :
    ∃ entries more, readTable ptr result.bytes = entries ++ more ∧
      entries.length = tableSize none (BindingInfo.sort info) ∧ entries.length ≤ 65537 ∧
      result.bindInfo.map Prod.fst = BindingInfo.sort info ∧
      (∀ bind ∈ result.bindInfo, ∃ n entry, bind.2 = BitVec.ofNat 16 n ∧
        entries[n]? = some entry ∧ EntryOf bind.1 entry) ∧
      (∀ bind ∈ result.bindInfo.head?,
        ∃ entry, entries.head? = some entry ∧ EntryOf bind.1 entry) ∧
      ∀ bind ∈ result.bindInfo.getLast?, bind.2 = BitVec.ofNat 16 (entries.length - 1) ∧
        ∃ entry, entries.getLast? = some entry ∧ EntryOf bind.1 entry := by
  obtain ⟨table, starts, made, few, infos, -, -, -, bytes⟩ := bindEncodeV2_ok encodes
  have perm := BindingInfo.sort_perm info
  obtain ⟨fits, size, finished⟩ := bindTable_initial ptr
    (fun record member => special record (perm.mem_iff.1 member)) made
  obtain ⟨count, padded⟩ := padToSize_eq ptr.bytes
    ((tableSizeEntry table.numBinds :: (table.mid ++ starts)).flatMap BindingTmp.encode ++ [0])
  have head : ∀ op ∈ tableSizeEntry table.numBinds :: table.mid, op.Fits :=
    List.forall_mem_cons.2 ⟨trivial, fits⟩
  obtain ⟨more, read⟩ := readTable_bytes ptr head
    (starts.flatMap BindingTmp.encode ++ 0 :: List.replicate count 0)
  have length := finished.count
  rw [List.nil_append] at length
  refine ⟨(Transducer.run (bindStep ptr) {} table.mid).2.map BindState.nibble, more,
    ?_, ?_, ?_, ?_, ?_, ?_, ?_⟩
  · rw [bytes, padded, ← List.cons_append, List.flatMap_append, List.append_assoc,
      List.append_assoc]
    exact read
  · rw [List.length_map, size]
  · rw [List.length_map]
    have bound := tableSize_le none (BindingInfo.sort info)
    rw [perm.length_eq] at bound
    rcases few with few | none_
    · rw [BitVec.le_def] at few
      bv_omega
    · rw [none_] at length
      bv_omega
  · rw [infos, finished.records]
  · intro bind member
    rw [infos] at member
    obtain ⟨n, entry, ordinal, there, isEntry⟩ := finished.entries bind member
    refine ⟨n, entry.nibble, ordinal, ?_, isEntry⟩
    rw [List.nil_append] at there
    rw [List.getElem?_map, there]
    rfl
  · intro bind member
    rw [infos] at member
    obtain ⟨entry, here, isEntry⟩ := finished.first rfl bind member
    exact ⟨entry.nibble, by rw [List.head?_map, here]; rfl, isEntry⟩
  · intro bind member
    rw [infos] at member
    obtain ⟨ordinal, entry, here, isEntry⟩ := finished.last bind member
    rw [List.nil_append] at ordinal here
    exact ⟨by rw [List.length_map, ordinal], entry.nibble,
      by rw [List.getLast?_map, here]; rfl, isEntry⟩

theorem ordinalsFaithful_iff (room : info.length < 2 ^ 64)
    (special : ∀ record ∈ info, -16 < record.libraryOrdinal.toInt)
    (encodes : bindEncodeV2 find ptr info rebaseInfo = .ok result) :
    OrdinalsFaithful ptr result ↔ tableSize none (BindingInfo.sort info) ≤ 65536 ∨
      (BindingInfo.sort info).head?.map BindingInfo.key =
        (BindingInfo.sort info).getLast?.map BindingInfo.key := by
  obtain ⟨entries, more, read, size, limit, records, entry, first, last⟩ :=
    bindEncodeV2_table room special encodes
  rw [← size, ← records, List.head?_map, List.getLast?_map, Option.map_map, Option.map_map]
  unfold OrdinalsFaithful
  rw [read]
  cases shape : result.bindInfo with
  | nil => simp
  | cons head rest =>
    obtain ⟨tail, tail_⟩ : ∃ tail, (head :: rest).getLast? = some tail :=
      ⟨_, List.getLast?_eq_some_getLast (by simp)⟩
    rw [shape] at entry first last
    obtain ⟨begins, atHead, headEntry⟩ := first head rfl
    obtain ⟨wraps, ends, atTail, tailEntry⟩ := last tail tail_
    have zero : (entries ++ more)[0]? = some begins := by
      cases entries with
      | nil => cases atHead
      | cons _ _ => exact atHead
    rw [tail_]
    constructor
    · intro faithful
      by_cases short : entries.length ≤ 65536
      · exact .inl short
      · -- the last ordinal has wrapped to the first entry
        have full : entries.length - 1 = 65536 := by omega
        obtain ⟨other, there, otherEntry⟩ := faithful tail (List.mem_of_getLast? tail_)
        rw [wraps, full] at there
        have same : begins = other := Option.some.inj (zero.symm.trans there)
        rw [← same] at otherEntry
        exact .inr (congrArg some (headEntry.key_eq otherEntry))
    · intro either bind member
      obtain ⟨n, own, ordinal, there, isEntry⟩ := entry bind member
      have inside : n < entries.length := (List.getElem?_eq_some_iff.1 there).1
      by_cases small : n < 65536
      · refine ⟨own, ?_, isEntry⟩
        rw [ordinal, BitVec.toNat_ofNat, Nat.mod_eq_of_lt small, List.getElem?_append_left inside,
          there]
      · have full : n = entries.length - 1 := by omega
        rw [full, ← List.getLast?_eq_getElem?, atTail] at there
        cases there
        rcases either with short | same
        · omega
        · have key : head.1.key = bind.1.key := by
            rw [← tailEntry.key_eq isEntry]
            exact Option.some.inj same
          refine ⟨begins, ?_, headEntry.congr key⟩
          have n_ : n = 65536 := by omega
          rw [ordinal, n_]
          exact zero

/-- **Ordinals are faithful** exactly when the table has at most 65536 entries, or ends
with the key it begins with. -/
theorem bindEncodeV2_ordinals_iff (room : info.length < 2 ^ 64)
    (special : ∀ record ∈ info, -16 < record.libraryOrdinal.toInt)
    (encodes : bindEncodeV2 find ptr info rebaseInfo = .ok result) :
    (result.bindInfo.map Prod.fst).Perm info ∧ (OrdinalsFaithful ptr result ↔
      tableSize none (BindingInfo.sort info) ≤ 65536 ∨
        (BindingInfo.sort info).head?.map BindingInfo.key =
          (BindingInfo.sort info).getLast?.map BindingInfo.key) := by
  obtain ⟨_, _, _, _, _, records, _⟩ := bindEncodeV2_table room special encodes
  constructor
  · rw [records]
    exact BindingInfo.sort_perm info
  · exact ordinalsFaithful_iff room special encodes

end Limit

/-! ## Success -/

section Success

variable {find : BitVec 64 → Option SegmentRange}

theorem BindCursor.enterSegment_ok (cursor : BindCursor) {it : BindingInfo} {range : SegmentRange}
    (found : find it.address = some range) : ∃ placed, cursor.enterSegment find it = .ok placed := by
  unfold BindCursor.enterSegment
  split
  · split
    · rw [found]
      exact ⟨_, rfl⟩
    · exact ⟨_, rfl⟩
  · exact ⟨_, rfl⟩

theorem bindTable_ok {records : List BindingInfo}
    (pointers : ∀ record ∈ records, record.type = .pointer)
    (found : ∀ record ∈ records, ∃ range, find record.address = some range) (numBinds : BitVec 64)
    (cursor : BindCursor) : ∃ table, bindTable find numBinds cursor records = .ok table := by
  induction records generalizing numBinds cursor with
  | nil => exact ⟨_, rfl⟩
  | cons record rest ih =>
    rw [List.forall_mem_cons] at pointers found
    obtain ⟨range, here⟩ := found.1
    have type : ((cursor.setOrdinalV2 record).1.setSymbol record).1.setTypeV2 record =
        .ok (((cursor.setOrdinalV2 record).1.setSymbol record).1.setType record) := by
      rw [BindCursor.setTypeV2, if_neg]
      exact fun both => both.2 pointers.1
    obtain ⟨placed, place⟩ := BindCursor.enterSegment_ok
      (((cursor.setOrdinalV2 record).1.setSymbol record).1.setType record).1 here
    obtain ⟨one, one_⟩ : ∃ one, tableRecord find numBinds cursor record = .ok one := by
      simp only [tableRecord, type, place, bind, Except.bind]
      split <;> exact ⟨_, rfl⟩
    obtain ⟨table, more⟩ := ih pointers.2 found.2 one.1 one.2.1
    exact ⟨_, by simp only [bindTable, one_, more, bind, Except.bind]; rfl⟩

theorem threadedStarts_ok {fixups : List ThreadedFixup}
    (aligned : ∀ fixup ∈ fixups, fixup.address &&& 7 = 0)
    (found : ∀ fixup ∈ fixups, ∃ range, find fixup.address = some range) (current : SegmentRange)
    (page : BitVec 64) : ∃ starts, threadedStarts find current page fixups = .ok starts := by
  induction fixups generalizing current page with
  | nil => exact ⟨_, rfl⟩
  | cons fixup rest ih =>
    rw [List.forall_mem_cons] at aligned found
    obtain ⟨range, here⟩ := found.1
    simp only [threadedStarts, aligned.1, ne_eq, not_true_eq_false, if_false, here]
    split
    · obtain ⟨starts, more⟩ := ih aligned.2 found.2 range (pageIndex range.start fixup.address)
      simp only [bind, Except.bind, more]
      split <;> exact ⟨_, rfl⟩
    · obtain ⟨starts, more⟩ := ih aligned.2 found.2 current (pageIndex current.start fixup.address)
      simp only [bind, Except.bind, more]
      split <;> exact ⟨_, rfl⟩

theorem ThreadedFixup.sort_perm (fixups : List ThreadedFixup) :
    (ThreadedFixup.sort fixups).Perm fixups :=
  List.perm_insertionSort _ fixups

theorem fixups_addresses {table : BindTable} {info : List BindingInfo} {rebaseInfo : List RebaseInfo}
    (records : table.bindInfo.map Prod.fst = BindingInfo.sort info) :
    ((ThreadedFixup.sort (rebaseInfo.map .rebase ++
      table.bindInfo.map fun bind => .bind bind.1 bind.2)).map ThreadedFixup.address).Perm
        (rebaseInfo.map RebaseInfo.address ++ info.map BindingInfo.address) := by
  have sorted := (ThreadedFixup.sort_perm (rebaseInfo.map .rebase ++
    table.bindInfo.map fun bind => .bind bind.1 bind.2)).map ThreadedFixup.address
  rw [List.map_append, List.map_map, List.map_map] at sorted
  refine sorted.trans (List.Perm.append_left _ ?_)
  have binds : table.bindInfo.map (ThreadedFixup.address ∘ fun bind => .bind bind.1 bind.2) =
      (table.bindInfo.map Prod.fst).map BindingInfo.address := by
    rw [List.map_map]
    rfl
  rw [binds, records]
  exact (BindingInfo.sort_perm info).map _

/-- Pointers in segments, aligned and apart, are encoded as long as the table passes the
check of its size. -/
theorem bindEncodeV2_succeeds (ptr : PointerSize) {info : List BindingInfo}
    {rebaseInfo : List RebaseInfo}
    (special : ∀ record ∈ info, -16 < record.libraryOrdinal.toInt)
    (pointers : ∀ record ∈ info, record.type = .pointer)
    (places : ∀ address ∈ rebaseInfo.map RebaseInfo.address ++ info.map BindingInfo.address,
      address &&& 7 = 0 ∧ ∃ range, find address = some range)
    (apart : (rebaseInfo.map RebaseInfo.address ++ info.map BindingInfo.address).Nodup)
    (few : tableSize none (BindingInfo.sort info) ≤ 65537) :
    ∃ result, bindEncodeV2 find ptr info rebaseInfo = .ok result := by
  have perm := BindingInfo.sort_perm info
  obtain ⟨table, made⟩ := bindTable_ok
    (fun record member => pointers record (perm.mem_iff.1 member))
    (fun record member => (places record.address (List.mem_append_right _
      (List.mem_map_of_mem (perm.mem_iff.1 member)))).2) (-1) {}
  obtain ⟨-, size, finished⟩ := bindTable_initial ptr
    (fun record member => special record (perm.mem_iff.1 member)) made
  have counted := finished.count
  rw [List.nil_append, size] at counted
  have limit : ¬ (0x10000 < table.numBinds ∧ table.numBinds ≠ -1) := by
    rintro ⟨many, some_⟩
    bv_omega
  obtain ⟨fixups, fixups_⟩ : ∃ fixups, fixups = ThreadedFixup.sort (rebaseInfo.map .rebase ++
    table.bindInfo.map fun bind => .bind bind.1 bind.2) := ⟨_, rfl⟩
  have addresses : (fixups.map ThreadedFixup.address).Perm
      (rebaseInfo.map RebaseInfo.address ++ info.map BindingInfo.address) := by
    rw [fixups_]
    exact fixups_addresses finished.records
  have placed : ∀ fixup ∈ fixups, fixup.address &&& 7 = 0 ∧
      ∃ range, find fixup.address = some range :=
    fun fixup member => places _ (addresses.mem_iff.1 (List.mem_map_of_mem member))
  obtain ⟨starts, started⟩ := threadedStarts_ok (fun fixup member => (placed fixup member).1)
    (fun fixup member => (placed fixup member).2) ⟨0, 0, 0⟩ 0
  have distinct : (fixups.map ThreadedFixup.address).Nodup := addresses.nodup_iff.2 apart
  subst fixups_
  simp only [bindEncodeV2, made, bind, Except.bind, if_neg limit, distinct, not_true_eq_false,
    if_false, started]
  exact ⟨_, rfl⟩

end Success

theorem bindEncodeV2_ordinals_iff_two : ∃ result,
    bindEncodeV2 adjacent.find .p8 (bindsAt 0x1ff8 0x2000) [⟨.pointer, 0x1000⟩] = .ok result ∧
      OrdinalsFaithful .p8 result := by
  obtain ⟨result, encodes⟩ : ∃ result, bindEncodeV2 adjacent.find .p8 (bindsAt 0x1ff8 0x2000)
      [⟨.pointer, 0x1000⟩] = .ok result := by
    refine bindEncodeV2_succeeds .p8 (by decide) (by decide) ?_ (by decide) (by decide)
    intro address member
    simp only [bindsAt, List.map_cons, List.map_nil, List.cons_append, List.nil_append,
      List.mem_cons, List.not_mem_nil, or_false] at member
    rcases member with rfl | rfl | rfl
    · exact ⟨by decide, ⟨0x1000, 0x2000, 0⟩, by decide⟩
    · exact ⟨by decide, ⟨0x1000, 0x2000, 0⟩, by decide⟩
    · exact ⟨by decide, ⟨0x2000, 0x3000, 1⟩, by decide⟩
  refine ⟨result, encodes, ?_⟩
  exact (bindEncodeV2_ordinals_iff (by decide) (by decide) encodes).2.2 (.inl (by decide))

/-! A segment of a megabyte and 65537 pointers to one symbol, each with an addend of its
own. -/

def megabyte : Layout :=
  ⟨[⟨⟨[1], CString.nulFree_one⟩, .empty, 0x10000, 0x100000, 0⟩,
    ⟨⟨[2], CString.nulFree_two⟩, .empty, 0x110000, 0, 0x100000⟩], by decide, by decide⟩

def addendBind (i : Nat) : BindingInfo :=
  ⟨.pointer, .none, 1, ⟨[0x61], CString.nulFree_a⟩, BitVec.ofNat 64 (0x10000 + 8 * i), BitVec.ofNat 64 i⟩

def manyAddends : List BindingInfo := (List.range 65537).map addendBind

theorem mem_manyAddends {record : BindingInfo} :
    record ∈ manyAddends ↔ ∃ i < 65537, addendBind i = record := by
  simp [manyAddends]

theorem addendBind_address {i : Nat} (small : i < 65537) :
    (addendBind i).address.toNat = 0x10000 + 8 * i := by
  simp only [addendBind, BitVec.toNat_ofNat]
  omega

theorem manyAddends_sorted : BindingInfo.sort manyAddends = manyAddends := by
  apply List.Pairwise.insertionSort_eq
  rw [manyAddends, List.pairwise_map]
  refine List.pairwise_lt_range.imp_of_mem ?_
  intro i j first second below
  rw [List.mem_range] at first second
  have order : ¬ (addendBind j).address < (addendBind i).address := by
    rw [BitVec.lt_def, addendBind_address first, addendBind_address second]
    omega
  have later : (addendBind j).lt (addendBind i) = decide ((addendBind j).address < (addendBind i).address) := rfl
  rw [later, decide_eq_false order]
  rfl

theorem tableSize_addends (i n : Nat) (small : i + n < 2 ^ 64) :
    tableSize (some (addendBind i).key) ((List.range' (i + 1) n).map addendBind) = n := by
  induction n generalizing i with
  | zero => rfl
  | succ n ih =>
    have differ : some (addendBind i).key ≠ some (addendBind (i + 1)).key := by
      simp only [addendBind, BindingInfo.key, ne_eq, Option.some.injEq, Prod.mk.injEq, true_and]
      intro same
      have := congrArg BitVec.toNat same
      simp only [BitVec.toNat_ofNat] at this
      omega
    rw [List.range'_succ, List.map_cons, tableSize, if_neg differ, ih (i + 1) (by omega)]
    omega

theorem manyAddends_size : tableSize none manyAddends = 65537 := by
  rw [manyAddends, List.range_eq_range', show 65537 = 65536 + 1 from rfl, List.range'_succ,
    List.map_cons, tableSize, if_neg (by simp), tableSize_addends 0 65536 (by norm_num)]

theorem manyAddends_found {i : Nat} (small : i < 65537) :
    (addendBind i).address &&& 7 = 0 ∧ megabyte.find (addendBind i).address =
      some ⟨0x10000, 0x110000, 0⟩ := by
  have address := addendBind_address small
  constructor
  · apply BitVec.eq_of_toNat_eq
    rw [BitVec.toNat_and, address]
    have mask := Nat.and_two_pow_sub_one_eq_mod (0x10000 + 8 * i) 3
    have zero : (0x10000 + 8 * i) % 2 ^ 3 = 0 := by omega
    exact mask.trans zero
  · have first : megabyte.find 0x10000 = some ⟨0x10000, 0x110000, 0⟩ := by decide
    refine Layout.find_of_mem first ⟨?_, ?_⟩
    · rw [BitVec.le_def, address]
      exact Nat.le_add_right _ _
    · rw [BitVec.lt_def, address]
      show _ < 0x110000
      omega

/-- The last record of 65537 gets the ordinal of the first. -/
theorem bindEncodeV2_ordinals_wrap : ∃ result,
    bindEncodeV2 megabyte.find .p8 manyAddends [] = .ok result ∧
      ¬ OrdinalsFaithful .p8 result := by
  have special : ∀ record ∈ manyAddends, -16 < record.libraryOrdinal.toInt := by
    intro record member
    obtain ⟨i, -, rfl⟩ := mem_manyAddends.1 member
    show -16 < (1 : BitVec 32).toInt
    decide
  have room : manyAddends.length < 2 ^ 64 := by simp [manyAddends]
  obtain ⟨result, encodes⟩ : ∃ result,
      bindEncodeV2 megabyte.find .p8 manyAddends [] = .ok result := by
    refine bindEncodeV2_succeeds .p8 special ?_ ?_ ?_ ?_
    · intro record member
      obtain ⟨i, -, rfl⟩ := mem_manyAddends.1 member
      rfl
    · intro address member
      rw [List.map_nil, List.nil_append, List.mem_map] at member
      obtain ⟨record, member, rfl⟩ := member
      obtain ⟨i, small, rfl⟩ := mem_manyAddends.1 member
      obtain ⟨aligned, found⟩ := manyAddends_found small
      exact ⟨aligned, _, found⟩
    · rw [List.map_nil, List.nil_append, manyAddends, List.map_map]
      refine List.nodup_range.map_on ?_
      intro i first j second same
      rw [List.mem_range] at first second
      have address : (addendBind i).address.toNat = (addendBind j).address.toNat :=
        congrArg BitVec.toNat same
      rw [addendBind_address first, addendBind_address second] at address
      omega
    · rw [manyAddends_sorted, manyAddends_size]
  refine ⟨result, encodes, ?_⟩
  intro faithful
  rcases (ordinalsFaithful_iff room special encodes).1 faithful with short | same
  · rw [manyAddends_sorted, manyAddends_size] at short
    omega
  · rw [manyAddends_sorted, manyAddends, List.head?_map, List.getLast?_map, List.head?_range,
      List.getLast?_range] at same
    simp [addendBind, BindingInfo.key] at same

end Cctools.LinkEdit
