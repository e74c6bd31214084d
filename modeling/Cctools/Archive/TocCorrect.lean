/-
# Cctools.Archive.TocCorrect -- what a written archive says of its symbols

The sizes that `make_table_of_contents` works out are the lengths of what is written
(`Made.length_bytes`), so the offsets in the table are those of the headers.
-/
import Cctools.Archive.TocWritten

namespace Cctools.Archive

set_option autoImplicit false

open Cctools.Theory Cctools.Theory.Decimal
open Cctools.Lipo (rnd)

section Toc

variable (options : Options) (members : List OutputMember)

/-- The symbols that `toc` selects: for each the index of its member plus one, and its name. -/
def selections : List (Nat × List UInt8) := namesFrom (countedNames options.commonsInToc) 0 members

def tocStrsize : Nat := rnd (stringsOf (selections options members)).length 8

/-- The table in its larger form stays below `2 ^ 32` bytes, the archive within the address space. -/
structure Fits : Prop where
  toc : sizeofArHdr + 28 + (8 + 16 * (selections options members).length + 8 + tocStrsize options members) < 2 ^ 32
  file : (members.flatMap OutputMember.bytes).length < 2 ^ 63

/-- The table of contents when both passes select the same symbols. -/
def madeToc : MadeToc :=
  fillToc options members (selections options members).length (tocStrsize options members) (selections options members)

/-- Where `writeout_to_mem` writes the header of a member. -/
def headerOffset (i : Nat) : Nat :=
  (armag ++ (madeToc options members).bytes options.stamp members ++ (members.take i).flatMap OutputMember.bytes).length

variable {options members}

theorem makeTableOfContents_eq (wellFormed : ∀ member ∈ members, ∀ object ∈ member.object, object.WellFormed options.commonsInToc)
    (fits : Fits options members) : makeTableOfContents options members = some (madeToc options members) := by
  have passes : namesFrom (filledNames options.commonsInToc) 0 members = selections options members :=
    namesFrom_congr 0 fun member inside object known => filledNames_eq (wellFormed member inside object known)
  have small := fits.toc
  rw [makeTableOfContents]
  simp only [passes]
  refine if_neg ?_
  simp only [selections, ne_eq, not_true_eq_false, decide_false, Bool.false_or, Bool.or_eq_true, decide_eq_true_eq,
    not_or, not_le, tocStrsize] at *
  omega

theorem length_stringsOf_le (options : Options) (members : List OutputMember) :
    (stringsOf (selections options members)).length ≤ tocStrsize options members := le_rnd8 _

theorem length_madeToc_strings : (madeToc options members).strings.length = tocStrsize options members := by
  have le := length_stringsOf_le options members
  simp only [madeToc, fillToc, List.length_append, List.length_replicate]
  omega

theorem length_madeToc_entries (options : Options) (members : List OutputMember) :
    (madeToc options members).entries.length = (selections options members).length := by
  have placed := congrArg List.length (entriesAt_map 0 (selections options members))
  rw [List.length_map] at placed
  simp only [madeToc, fillToc]
  rw [(sortTocEntries_perm _ _).length_eq, placed]

theorem length_ranlibs (entries : List TocEntry) (made : MadeToc) (bigEndian : Bool) :
    (entries.flatMap (made.ranlib members bigEndian)).length = entries.length * (2 * made.form.word) := by
  induction entries with
  | nil => simp
  | cons entry rest ih =>
    rw [List.flatMap_cons, List.length_append, ih, List.length_cons, MadeToc.ranlib]
    simp only [List.length_append, length_putWord]
    ring

theorem length_table : ((madeToc options members).table members).length =
    (madeToc options members).form.word +
      (selections options members).length * (2 * (madeToc options members).form.word) +
        (madeToc options members).form.word + tocStrsize options members := by
  simp only [MadeToc.table, List.length_append, length_putWord, length_ranlibs, length_madeToc_entries,
    length_madeToc_strings]

theorem length_tocName (form : TocForm) (sorted : Bool) :
    (tocName form sorted).length = 16 ∨ (tocName form sorted).length = 24 := by
  cases form <;> cases sorted <;> decide

theorem tocSize_eq (form : TocForm) (sorted : Bool) {ntocs strsize : Nat}
    (small : sizeofArHdr + 28 + (8 + 16 * ntocs + 8 + strsize) < 2 ^ 32) :
    tocSize form sorted ntocs strsize = sizeofArHdr + (tocName form sorted).length + 4 +
        (form.word + ntocs * (2 * form.word) + form.word + strsize) ∧
      tocSize form sorted ntocs strsize < 2 ^ 32 := by
  rw [tocSize]
  rcases length_tocName form sorted with name | name <;> rw [name] <;> cases form <;>
    simp only [TocForm.word, sizeofArHdr, rnd] at * <;> omega

theorem madeToc_size (fits : Fits options members) :
    (madeToc options members).size = sizeofArHdr +
        (tocName (madeToc options members).form (madeToc options members).sorted).length + 4 +
          ((madeToc options members).table members).length ∧
      (madeToc options members).size < 2 ^ 32 := by
  rw [length_table]
  exact tocSize_eq _ _ fits.toc

/-- The numbers between the name and the size. -/
def Stamp.middle (stamp : Stamp) : List UInt8 :=
  leftJustify 12 (printed 10 stamp.date) ++ leftJustify 6 (printed 10 stamp.uid) ++
    leftJustify 6 (printed 10 stamp.gid) ++ leftJustify 8 (printed 8 stamp.mode)

theorem Stamp.length_middle (stamp : Stamp) : stamp.middle.length = 32 := by
  have uid : (leftJustify 6 (printed 10 stamp.uid)).length = 6 :=
    printed_short (by decide) (Nat.lt_trans stamp.uid_fits (by decide))
  have gid : (leftJustify 6 (printed 10 stamp.gid)).length = 6 :=
    printed_short (by decide) (Nat.lt_trans stamp.gid_fits (by decide))
  have mode : (leftJustify 8 (printed 8 stamp.mode)).length = 8 :=
    length_leftJustify ((length_printed_le (by decide) (by decide)).mpr stamp.mode_fits)
  simp only [middle, List.length_append, printed_short (by decide) stamp.date_fits,
    uid,
    gid, mode]

theorem tocHdr_eq (stamp : Stamp) (form : TocForm) (sorted : Bool) {size : Nat} (small : size < 2 ^ 32) :
    tocHdr stamp form sorted size =
      longHeader ((tocName form sorted).length + 4) stamp.middle (size - sizeofArHdr) [96, 10] := by
  have name : leftJustify 16 (tocArName form sorted) =
      arEfmt1 ++ leftJustify 13 (printed 10 ((tocName form sorted).length + 4)) := by
    cases form <;> cases sorted <;> decide
  have field : (leftJustify 10 (printed 10 (size - sizeofArHdr))).length = 10 :=
    printed_short (by decide) (by omega)
  have wide : (leftJustify 13 (printed 10 ((tocName form sorted).length + 4))).length = 13 :=
    printed_short (by decide) (by rcases length_tocName form sorted with name | name <;> omega)
  have middle := stamp.length_middle
  simp only [Stamp.middle, List.length_append] at middle
  rw [tocHdr, name, List.take_of_length_le]
  · simp [longHeader, Stamp.middle]
  · simp only [List.length_append, field, wide, arEfmt1, List.length_cons, List.length_nil]
    omega

theorem length_madeToc_bytes (fits : Fits options members) (stamp : Stamp) :
    ((madeToc options members).bytes stamp members).length = (madeToc options members).size := by
  obtain ⟨size, small⟩ := madeToc_size fits
  have name : (tocName (madeToc options members).form (madeToc options members).sorted).length + 4 < 10 ^ 13 := by
    rcases length_tocName (madeToc options members).form (madeToc options members).sorted with name | name <;> omega
  have header : (tocHdr stamp (madeToc options members).form (madeToc options members).sorted
      (madeToc options members).size).length = sizeofArHdr := by
    rw [tocHdr_eq stamp _ _ small]
    exact length_longHeader stamp.length_middle rfl name (by omega)
  simp only [MadeToc.bytes, List.length_append, List.length_replicate, header]
  simp only [rnd, sizeofArHdr] at *
  omega

variable {entry : TocEntry}

theorem mem_madeToc_entries (inside : entry ∈ (madeToc options members).entries) :
    entry ∈ entriesAt 0 (selections options members) := (sortTocEntries_perm _ _).mem_iff.mp inside

theorem entry_member (inside : entry ∈ (madeToc options members).entries) :
    0 < entry.memberIndex ∧ entry.memberIndex ≤ members.length := by
  have selected : (entry.memberIndex, entry.symbolName) ∈ selections options members := by
    rw [← entriesAt_map 0 (selections options members)]
    exact List.mem_map.mpr ⟨entry, mem_madeToc_entries inside, rfl⟩
  simpa using (namesFrom_index (countedNames options.commonsInToc) 0 members).1 _ selected

theorem entry_name (inside : entry ∈ (madeToc options members).entries) :
    entry.strx < tocStrsize options members ∧
      cString ((madeToc options members).strings.drop entry.strx) = entry.symbolName := by
  have placed := entriesAt_names (namesFrom_noNul options.commonsInToc 0 members) []
    (List.replicate (tocStrsize options members - (stringsOf (selections options members)).length) 0) entry
    (mem_madeToc_entries inside)
  have le := length_stringsOf_le options members
  rw [List.nil_append] at placed
  refine ⟨?_, placed.2⟩
  have := placed.1
  simp only [List.length_nil, selections] at *
  omega

section Offsets

variable {inputs : List InputMember} (broken : members = breakoutMembers 0 inputs)

include broken

theorem ranOff_eq (fits : Fits options members) {entry : TocEntry}
    (inside : entry ∈ (madeToc options members).entries) :
    (madeToc options members).ranOff members entry = headerOffset options members (entry.memberIndex - 1) := by
  have within := entry_member inside
  have offset : (members.map OutputMember.offset).getD (entry.memberIndex - 1) 0 =
      ((members.take (entry.memberIndex - 1)).flatMap OutputMember.bytes).length := by
    rw [broken, length_breakoutMembers] at within
    rw [broken, breakoutMembers_offset 0 (by omega), Nat.zero_add]
  have magic : armag.length = 8 := rfl
  rw [MadeToc.ranOff, offset, headerOffset]
  simp only [List.length_append, length_madeToc_bytes fits, magic]
  omega

theorem ranOff_fits (fits : Fits options members) {entry : TocEntry}
    (inside : entry ∈ (madeToc options members).entries) :
    (madeToc options members).ranOff members entry < 256 ^ (madeToc options members).form.word := by
  have within := entry_member inside
  obtain ⟨member, found⟩ : ∃ member, members[entry.memberIndex - 1]? = some member :=
    ⟨_, List.getElem?_eq_getElem (by omega)⟩
  cases form : (madeToc options members).form with
  | symdef =>
    have offset : (members.map OutputMember.offset).getD (entry.memberIndex - 1) 0 = member.offset := by
      rw [List.getD_eq_getElem?_getD, List.getElem?_map, found]
      rfl
    have chosen : ∀ member ∈ members, member.offset + 8 + (madeToc options members).size ≤ 0xFFFFFFFF := by
      simp only [madeToc, fillToc] at form ⊢
      split at form
      · cases form
      · rename_i below
        rw [if_neg below]
        simp only [Bool.or_eq_true, List.any_eq_true, decide_eq_true_eq, not_or, not_exists, not_and, not_lt] at below
        exact below.2
    have := chosen member (List.mem_of_getElem? found)
    simp only [MadeToc.ranOff, offset, TocForm.word]
    omega
  | symdef64 =>
    have offset := ranOff_eq broken fits inside
    have magic : armag.length = 8 := rfl
    obtain ⟨-, small⟩ := madeToc_size fits
    have file := fits.file
    have prefix_ : ((members.take (entry.memberIndex - 1)).flatMap OutputMember.bytes).length ≤
        (members.flatMap OutputMember.bytes).length := by
      conv => rhs; rw [← List.take_append_drop (entry.memberIndex - 1) members]
      rw [List.flatMap_append, List.length_append]
      omega
    rw [offset, headerOffset]
    simp only [List.length_append, length_madeToc_bytes fits, magic, TocForm.word]
    omega

theorem parseToc_table (fits : Fits options members) :
    parseToc (madeToc options members).form (targetBigEndian members) ((madeToc options members).table members) =
      (madeToc options members).entries.map fun entry =>
        (entry.symbolName, headerOffset options members (entry.memberIndex - 1)) := by
  have small := fits.toc
  have count := length_madeToc_entries options members
  have sizeFits : (madeToc options members).entries.length * (2 * (madeToc options members).form.word) <
      256 ^ (madeToc options members).form.word := by
    rw [count]
    cases (madeToc options members).form <;> simp only [TocForm.word] <;> omega
  have table : (madeToc options members).table members =
      putWord (madeToc options members).form (targetBigEndian members)
          ((madeToc options members).entries.length * (2 * (madeToc options members).form.word)) ++
        ((madeToc options members).entries.flatMap
            ((madeToc options members).ranlib members (targetBigEndian members)) ++
          (putWord (madeToc options members).form (targetBigEndian members) (madeToc options members).strings.length ++
            (madeToc options members).strings)) := by
    simp [MadeToc.table]
  have strings : ((madeToc options members).table members).drop ((madeToc options members).form.word +
      (madeToc options members).entries.length * (2 * (madeToc options members).form.word) +
        (madeToc options members).form.word) = (madeToc options members).strings := by
    rw [table, ← List.append_assoc, ← List.append_assoc]
    exact List.drop_left' (by simp only [List.length_append, length_putWord, length_ranlibs])
  have entries : ((madeToc options members).table members).drop (madeToc options members).form.word =
      (madeToc options members).entries.flatMap ((madeToc options members).ranlib members (targetBigEndian members)) ++
        (putWord (madeToc options members).form (targetBigEndian members) (madeToc options members).strings.length ++
          (madeToc options members).strings) := by
    rw [table]
    exact List.drop_left' (by simp)
  have size : getWord (madeToc options members).form (targetBigEndian members) ((madeToc options members).table members) =
      (madeToc options members).entries.length * (2 * (madeToc options members).form.word) := by
    rw [table, getWord_putWord sizeFits]
  have positive : 0 < 2 * (madeToc options members).form.word := by
    cases (madeToc options members).form <;> decide
  rw [parseToc, size, strings, entries, Nat.mul_div_cancel _ positive, parseEntries_ranlibs rfl]
  · refine List.map_congr_left fun entry inside => ?_
    rw [(entry_name inside).2, ranOff_eq broken fits inside]
  · intro entry inside
    have name := (entry_name inside).1
    refine ⟨?_, ranOff_fits broken fits inside⟩
    cases (madeToc options members).form <;> simp only [TocForm.word] <;> omega

end Offsets

/-! ## The archive -/

/-- The data of the table of contents, as the readers find it. -/
def tocData (archive : List UInt8) : List UInt8 :=
  (archive.drop (numbered archive 8).data).take (numbered archive 8).size

variable (options members) in
/-- The table of contents tells what the members define: `parsed` has one entry for every
selected symbol, with its name and with the place of its member's header. -/
structure TocCorrect (archive : List UInt8) (form : TocForm) (parsed : List (List UInt8 × Nat)) : Prop where
  named : tocForm archive = some form
  reads : parseToc form (targetBigEndian members) (tocData archive) = parsed
  arSize : 8 + sizeofArHdr + sizeNumber archive 8 = headerOffset options members 0
  headers : ∀ i member, members[i]? = some member →
    ∃ rest, archive.drop (headerOffset options members i) = member.bytes ++ rest
  entries : parsed.Perm ((selections options members).map fun selected =>
    (selected.2, headerOffset options members (selected.1 - 1)))
  byName : options.sortToc = true ∧ ((selections options members).map Prod.snd).Nodup →
    parsed.Pairwise fun entry1 entry2 => entry1.1 ≤ entry2.1
  byMember : ¬ (options.sortToc = true ∧ ((selections options members).map Prod.snd).Nodup) →
    parsed.Pairwise fun entry1 entry2 => entry1.2 ≤ entry2.2

theorem headerOffset_mono {i j : Nat} (before : i ≤ j) :
    headerOffset options members i ≤ headerOffset options members j := by
  have split : members.take j = members.take i ++ (members.drop i).take (j - i) := by
    rw [← List.take_add, Nat.add_sub_cancel' before]
  simp only [headerOffset, List.length_append]
  rw [split, List.flatMap_append, List.length_append]
  omega

theorem tocName_form (form : TocForm) (sorted : Bool) :
    cString (tocName form sorted ++ List.replicate 4 0) =
      match form, sorted with
      | .symdef, true => ascii "__.SYMDEF SORTED"
      | .symdef, false => ascii "__.SYMDEF"
      | .symdef64, true => ascii "__.SYMDEF_64 SORTED"
      | .symdef64, false => ascii "__.SYMDEF_64" := by
  cases form <;> cases sorted <;> decide

section Archive

variable (options members) in
/-- What `writeout_to_mem` writes with `madeToc`. -/
def writtenArchive : List UInt8 :=
  armag ++ (madeToc options members).bytes options.stamp members ++ members.flatMap OutputMember.bytes

theorem tocStands (fits : Fits options members) :
    StandsAt (writtenArchive options members) 8
      ((tocName (madeToc options members).form (madeToc options members).sorted).length + 4) options.stamp.middle
      ((madeToc options members).size - sizeofArHdr) [96, 10]
      (tocName (madeToc options members).form (madeToc options members).sorted ++
        (List.replicate 4 0 ++ ((madeToc options members).table members ++ members.flatMap OutputMember.bytes))) := by
  obtain ⟨size, small⟩ := madeToc_size fits
  constructor
  · rw [writtenArchive, List.append_assoc, List.drop_left' (show armag.length = 8 from rfl), MadeToc.bytes, tocHdr_eq _ _ _ small]
    simp only [List.append_assoc]
    rfl
  · exact options.stamp.length_middle
  · rfl
  · omega
  · omega
  · exact .inr rfl

/-- Behind the header stand the name, four zeros and the table. -/
theorem writtenArchive_drop (fits : Fits options members) :
    (writtenArchive options members).drop (8 + sizeofArHdr) =
      tocName (madeToc options members).form (madeToc options members).sorted ++
        (List.replicate 4 0 ++ ((madeToc options members).table members ++ members.flatMap OutputMember.bytes)) := by
  have stands := tocStands fits
  have name : (tocName (madeToc options members).form (madeToc options members).sorted).length + 4 < 10 ^ 13 := by
    rcases length_tocName (madeToc options members).form (madeToc options members).sorted with name | name <;> omega
  have fitting := stands.size_fits
  rw [← List.drop_drop, stands.bytes]
  exact List.drop_left' (length_longHeader stands.middle_whole stands.fmag_whole name (by omega))

theorem tocData_writtenArchive (fits : Fits options members) :
    tocData (writtenArchive options members) = (madeToc options members).table members := by
  obtain ⟨size, -⟩ := madeToc_size fits
  rw [tocData, (tocStands fits).numbered]
  simp only []
  rw [← List.drop_drop, writtenArchive_drop fits, ← List.append_assoc, List.drop_left' (by simp),
    List.take_left' (by omega)]

theorem tocForm_writtenArchive (fits : Fits options members) :
    tocForm (writtenArchive options members) = some (madeToc options members).form := by
  have stands := tocStands fits
  have short : (tocName (madeToc options members).form (madeToc options members).sorted).length + 4 < 256 := by
    rcases length_tocName (madeToc options members).form (madeToc options members).sorted with name | name <;> omega
  have space : getLongNameSpace (writtenArchive options members) 8 =
      (tocName (madeToc options members).form (madeToc options members).sorted).length + 4 := by
    rw [getLongNameSpace, stands.strtol_name]
    omega
  have name : getName (writtenArchive options members) 8 = some (cString
      (tocName (madeToc options members).form (madeToc options members).sorted ++ List.replicate 4 0)) := by
    rw [getName, if_pos stands.hasLongName, space, if_pos short, writtenArchive_drop fits, ← List.append_assoc,
      List.take_left' (by simp)]
  rw [tocForm, name, tocName_form]
  cases (madeToc options members).form <;> cases (madeToc options members).sorted <;> decide

theorem writeoutToMem_eq (wellFormed : ∀ member ∈ members, ∀ object ∈ member.object, object.WellFormed options.commonsInToc)
    (fits : Fits options members) : writeoutToMem options members = some (writtenArchive options members) := by
  have small := fits.toc
  have count := length_madeToc_entries options members
  rw [writeoutToMem, makeTableOfContents_eq wellFormed fits, Option.bind_eq_bind, Option.bind_some]
  refine if_neg ?_
  simp only [Bool.and_eq_true, decide_eq_true_eq, not_and, not_lt, count]
  intro form
  rw [form, TocForm.word]
  omega

theorem writtenArchive_header {i : Nat} {member : OutputMember} (found : members[i]? = some member) :
    ∃ rest, (writtenArchive options members).drop (headerOffset options members i) = member.bytes ++ rest := by
  obtain ⟨inside, rfl⟩ := List.getElem?_eq_some_iff.mp found
  have split : members.flatMap OutputMember.bytes = (members.take i).flatMap OutputMember.bytes ++
      (members[i].bytes ++ (members.drop (i + 1)).flatMap OutputMember.bytes) := by
    conv => lhs; rw [← List.take_append_drop i members, List.drop_eq_getElem_cons inside]
    rw [List.flatMap_append, List.flatMap_cons]
  refine ⟨(members.drop (i + 1)).flatMap OutputMember.bytes, ?_⟩
  rw [writtenArchive, split, ← List.append_assoc, headerOffset, List.drop_left]

end Archive

/-- **The table of contents of a written archive has one entry for every selected symbol, with its
name and the offset of its member's header; the entries stand in the order of the names when
`sort_toc` asks for it and no name is defined twice, and else in the order of the members.** -/
theorem tableOfContents_correct {inputs : List InputMember} (broken : members = breakoutMembers 0 inputs)
    (wellFormed : ∀ member ∈ members, ∀ object ∈ member.object, object.WellFormed options.commonsInToc)
    (fits : Fits options members) :
    ∃ archive form parsed, writeoutToMem options members = some archive ∧
      TocCorrect options members archive form parsed := by
  refine ⟨_, (madeToc options members).form, (madeToc options members).entries.map fun entry =>
    (entry.symbolName, headerOffset options members (entry.memberIndex - 1)), writeoutToMem_eq wellFormed fits, ?_⟩
  have names : (entriesAt 0 (selections options members)).map TocEntry.symbolName =
      (selections options members).map Prod.snd := by
    rw [← entriesAt_map 0 (selections options members), List.map_map, entriesAt_map]
    rfl
  have indices : (entriesAt 0 (selections options members)).Pairwise fun toc1 toc2 =>
      toc1.memberIndex ≤ toc2.memberIndex := by
    have ascends := (namesFrom_index (countedNames options.commonsInToc) 0 members).2
    rw [← selections, ← entriesAt_map 0 (selections options members), List.pairwise_map] at ascends
    exact ascends
  have order := sortTocEntries_order options.sortToc indices
  rw [names] at order
  constructor
  · exact tocForm_writtenArchive fits
  · rw [tocData_writtenArchive fits]
    exact parseToc_table broken fits
  · have magic : armag.length = 8 := rfl
    obtain ⟨size, -⟩ := madeToc_size fits
    rw [(tocStands fits).sizeNumber, headerOffset]
    simp only [List.length_append, magic, length_madeToc_bytes fits, List.take_zero, List.flatMap_nil, List.length_nil]
    omega
  · intro i member found
    exact writtenArchive_header found
  · have perm := (sortTocEntries_perm options.sortToc (entriesAt 0 (selections options members))).map fun entry =>
      (entry.symbolName, headerOffset options members (entry.memberIndex - 1))
    have selected : (entriesAt 0 (selections options members)).map (fun entry =>
        (entry.symbolName, headerOffset options members (entry.memberIndex - 1))) =
          (selections options members).map fun selected => (selected.2, headerOffset options members (selected.1 - 1)) := by
      conv => rhs; rw [← entriesAt_map 0 (selections options members), List.map_map]
      rfl
    rw [selected] at perm
    exact perm
  · intro asked
    exact List.pairwise_map.mpr (order.1 asked)
  · intro unasked
    refine List.pairwise_map.mpr ((order.2 unasked).imp fun before => ?_)
    exact headerOffset_mono (by omega)

end Toc

/-! ## An object with two symbols -/

/-- `_b` and `_a`, both external and in the only section. -/
def twoSymbols : Object where
  bigEndian := false
  symbols := [⟨1, 0x0f, 1, 0⟩, ⟨4, 0x0f, 1, 4⟩]
  strings := [0, 95, 98, 0, 95, 97, 0, 0]
  sectionFlags := [0]

def twoSymbolsMember : InputMember where
  arHdr := fileHeader "two.o           " "5         "
  name := ascii "two.o"
  object := some twoSymbols
  contents := [1, 2, 3, 4, 5]
  whole := by decide
  name_fits := by decide
  contents_fit := by decide

def libraryOptions (sortToc : Bool) : Options where
  sortToc
  commonsInToc := false
  force64bitToc := false
  stamp := .deterministic

theorem twoSymbols_wellFormed : twoSymbols.WellFormed false := ⟨by decide, by decide⟩

theorem twoSymbols_toc :
    ∃ archive form parsed, writeoutToMem (libraryOptions true) (breakoutMembers 0 [twoSymbolsMember]) = some archive ∧
      TocCorrect (libraryOptions true) (breakoutMembers 0 [twoSymbolsMember]) archive form parsed := by
  refine tableOfContents_correct rfl ?_ ⟨by decide, by decide⟩
  intro member inside object known
  rw [breakoutMembers, breakoutMembers, List.mem_singleton] at inside
  subst inside
  cases known
  exact twoSymbols_wellFormed

/-- Unasked, the table stays in the order of the symbols. -/
theorem unsorted_toc :
    ((selections (libraryOptions false) (breakoutMembers 0 [twoSymbolsMember])).map Prod.snd).Nodup ∧
      (writeoutToMem (libraryOptions false) (breakoutMembers 0 [twoSymbolsMember])).map
          (fun archive => (parseToc .symdef false (tocData archive)).map Prod.fst) = some [ascii "_b", ascii "_a"] ∧
      ¬ [ascii "_b", ascii "_a"].Pairwise fun name1 name2 => name1 ≤ name2 := by
  refine ⟨by decide, by decide, by decide⟩

end Cctools.Archive
