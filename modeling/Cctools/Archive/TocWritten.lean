/-
# Cctools.Archive.TocWritten -- the table of contents of a written archive

What `ranlib.h` says of a table (`parseToc`) is read from the bytes again: the entries
that were written, each with the name that was selected and the offset of the header of
its member.
-/
import Cctools.Archive.LongHeader
import Cctools.Archive.Writeout

namespace Cctools.Archive

set_option autoImplicit false

open Cctools.Theory Cctools.Theory.Decimal
open Cctools.Lipo (rnd)

/-! ## Words -/

/-- A number of a table of contents, in the byte order of the target. -/
def getWord (form : TocForm) (bigEndian : Bool) (bytes : List UInt8) : Nat :=
  if bigEndian then readBe form.word bytes else readLe form.word bytes

@[simp] theorem length_putWord (form : TocForm) (bigEndian : Bool) (value : Nat) :
    (putWord form bigEndian value).length = form.word := by
  cases bigEndian <;> simp [putWord]

theorem getWord_putWord {form : TocForm} {value : Nat} (fits : value < 256 ^ form.word) (bigEndian : Bool)
    (rest : List UInt8) : getWord form bigEndian (putWord form bigEndian value ++ rest) = value := by
  cases bigEndian with
  | true => simp [getWord, putWord, readBe_beBytes, Nat.mod_eq_of_lt fits]
  | false => simp [getWord, putWord, readLe_reverse_beBytes, Nat.mod_eq_of_lt fits]

/-! ## Reading a table -/

section Parse

variable (form : TocForm) (bigEndian : Bool)

def parseEntries (strings : List UInt8) : Nat → List UInt8 → List (List UInt8 × Nat)
  | 0, _ => []
  | n + 1, bytes =>
    (cString (strings.drop (getWord form bigEndian bytes)), getWord form bigEndian (bytes.drop form.word)) ::
      parseEntries strings n (bytes.drop (2 * form.word))

/-- The names and member offsets in a table of contents, as `ranlib.h` describes it: the size of
the entries, the entries, the size of the strings, the strings. -/
def parseToc (table : List UInt8) : List (List UInt8 × Nat) :=
  let size := getWord form bigEndian table
  parseEntries form bigEndian (table.drop (form.word + size + form.word)) (size / (2 * form.word))
    (table.drop form.word)

variable {form bigEndian}

theorem parseEntries_ranlibs {made : MadeToc} {members : List OutputMember} (ofForm : made.form = form)
    {entries : List TocEntry}
    (fit : ∀ entry ∈ entries, entry.strx < 256 ^ form.word ∧ made.ranOff members entry < 256 ^ form.word)
    (strings rest : List UInt8) :
    parseEntries form bigEndian strings entries.length
        (entries.flatMap (made.ranlib members bigEndian) ++ rest) =
      entries.map fun entry => (cString (strings.drop entry.strx), made.ranOff members entry) := by
  induction entries with
  | nil => rfl
  | cons entry more ih =>
    obtain ⟨strxFits, offFits⟩ := fit entry List.mem_cons_self
    have bytes : (entry :: more).flatMap (made.ranlib members bigEndian) ++ rest =
        putWord form bigEndian entry.strx ++ (putWord form bigEndian (made.ranOff members entry) ++
          (more.flatMap (made.ranlib members bigEndian) ++ rest)) := by
      simp [MadeToc.ranlib, ofForm]
    have second : (putWord form bigEndian entry.strx ++ (putWord form bigEndian (made.ranOff members entry) ++
        (more.flatMap (made.ranlib members bigEndian) ++ rest))).drop form.word =
          putWord form bigEndian (made.ranOff members entry) ++
            (more.flatMap (made.ranlib members bigEndian) ++ rest) :=
      List.drop_left' (by simp)
    have behind : (putWord form bigEndian entry.strx ++ (putWord form bigEndian (made.ranOff members entry) ++
        (more.flatMap (made.ranlib members bigEndian) ++ rest))).drop (2 * form.word) =
          more.flatMap (made.ranlib members bigEndian) ++ rest := by
      rw [← List.append_assoc]
      exact List.drop_left' (by simp; omega)
    rw [List.length_cons, bytes, parseEntries, second, behind, getWord_putWord strxFits,
      getWord_putWord offFits, ih fun entry inside => fit entry (List.mem_cons_of_mem _ inside), List.map_cons]

end Parse

/-! ## Names -/

theorem cString_append {name : List UInt8} (noNul : 0 ∉ name) (rest : List UInt8) :
    cString (name ++ 0 :: rest) = name := by
  rw [cString, List.takeWhile_append_of_pos]
  · simp
  · intro c inside
    have : c ≠ 0 := by
      rintro rfl
      exact noNul inside
    simpa using this

theorem noNul_cString (bytes : List UInt8) : 0 ∉ cString bytes := by
  intro inside
  have taken : (0 : UInt8) ∈ bytes.takeWhile fun c => decide (c ≠ 0) := inside
  have other := List.all_eq_true.mp List.all_takeWhile 0 taken
  simp at other

/-- The names that follow `s` bytes of strings are found at their places. -/
theorem entriesAt_names {names : List (Nat × List UInt8)} (noNul : ∀ name ∈ names, 0 ∉ name.2)
    (before rest : List UInt8) :
    ∀ entry ∈ entriesAt before.length names,
      entry.strx < before.length + (stringsOf names).length ∧
        cString ((before ++ (stringsOf names ++ rest)).drop entry.strx) = entry.symbolName := by
  induction names generalizing before with
  | nil => exact nofun
  | cons first more ih =>
    obtain ⟨index, name⟩ := first
    have strings : stringsOf ((index, name) :: more) = name ++ 0 :: stringsOf more := by
      simp [stringsOf]
    intro entry inside
    rw [strings]
    rcases List.mem_cons.mp inside with rfl | inside
    · refine ⟨by simp, ?_⟩
      rw [List.drop_left' rfl, List.append_assoc, List.cons_append]
      exact cString_append (noNul _ List.mem_cons_self) _
    · have moved : before.length + (name.length + 1) = (before ++ (name ++ [0])).length := by simp
      have further := ih (fun name inside => noNul name (List.mem_cons_of_mem _ inside)) (before ++ (name ++ [0]))
        entry (by rwa [← moved])
      constructor
      · have := further.1
        simp only [List.length_append, List.length_cons, List.length_nil] at this ⊢
        omega
      · rw [← further.2]
        simp

theorem entriesAt_map (s : Nat) (names : List (Nat × List UInt8)) :
    (entriesAt s names).map (fun entry => (entry.memberIndex, entry.symbolName)) = names := by
  induction names generalizing s with
  | nil => rfl
  | cons first more ih => rw [entriesAt, List.map_cons, ih]

/-! ## The order of the entries -/

theorem nameLe_trans (toc1 toc2 toc3 : TocEntry) (here : nameLe toc1 toc2 = true) (there : nameLe toc2 toc3 = true) :
    nameLe toc1 toc3 = true := by
  simp only [nameLe, decide_eq_true_eq] at *
  exact List.le_trans here there

theorem nameLe_total (toc1 toc2 : TocEntry) : (nameLe toc1 toc2 || nameLe toc2 toc1) = true := by
  simpa [nameLe] using List.le_total toc1.symbolName toc2.symbolName

theorem indexLe_trans (toc1 toc2 toc3 : TocEntry) (here : indexLe toc1 toc2 = true)
    (there : indexLe toc2 toc3 = true) : indexLe toc1 toc3 = true := by
  simp only [indexLe, decide_eq_true_eq] at *
  omega

theorem indexLe_total (toc1 toc2 : TocEntry) : (indexLe toc1 toc2 || indexLe toc2 toc1) = true := by
  simpa [indexLe] using Nat.le_total toc1.memberIndex toc2.memberIndex

/-- Entries in the order of their names have no two neighbours with one name when no two have. -/
theorem checkSortTocEntries_iff {entries : List TocEntry}
    (sorted : entries.Pairwise fun toc1 toc2 => toc1.symbolName ≤ toc2.symbolName) :
    checkSortTocEntries entries = true ↔ (entries.map TocEntry.symbolName).Nodup := by
  induction entries with
  | nil => simp [checkSortTocEntries]
  | cons toc1 rest ih =>
    cases rest with
    | nil => simp [checkSortTocEntries]
    | cons toc2 rest =>
      obtain ⟨least, sortedRest⟩ := List.pairwise_cons.mp sorted
      have whole : ((toc1 :: toc2 :: rest).map TocEntry.symbolName).Nodup ↔
          toc1.symbolName ∉ (toc2 :: rest).map TocEntry.symbolName ∧
            ((toc2 :: rest).map TocEntry.symbolName).Nodup := List.nodup_cons
      rw [checkSortTocEntries, Bool.and_eq_true, ih sortedRest, whole]
      refine and_congr_left fun _ => ?_
      simp only [decide_eq_true_eq, ne_eq, List.mem_map, not_exists, not_and]
      constructor
      · intro differ other inside same
        rcases List.mem_cons.mp inside with rfl | inside
        · exact differ same.symm
        · have between := (List.pairwise_cons.mp sortedRest).1 other inside
          rw [same] at between
          exact differ (List.le_antisymm (least toc2 List.mem_cons_self) between)
      · intro differ same
        exact differ toc2 List.mem_cons_self same.symm

theorem sortTocEntries_perm (sortToc : Bool) (entries : List TocEntry) :
    (sortTocEntries sortToc entries).1.Perm entries := by
  unfold sortTocEntries
  split
  · split
    · exact List.mergeSort_perm _ _
    · exact (List.mergeSort_perm _ _).trans (List.mergeSort_perm _ _)
  · exact .refl _

/-- By name when that is asked for and no name stands twice, else by member. -/
theorem sortTocEntries_order (sortToc : Bool) {entries : List TocEntry}
    (byMember : entries.Pairwise fun toc1 toc2 => toc1.memberIndex ≤ toc2.memberIndex) :
    (sortToc = true ∧ (entries.map TocEntry.symbolName).Nodup →
        (sortTocEntries sortToc entries).1.Pairwise fun toc1 toc2 => toc1.symbolName ≤ toc2.symbolName) ∧
      (¬ (sortToc = true ∧ (entries.map TocEntry.symbolName).Nodup) →
        (sortTocEntries sortToc entries).1.Pairwise fun toc1 toc2 => toc1.memberIndex ≤ toc2.memberIndex) := by
  have sorted : (entries.mergeSort nameLe).Pairwise fun toc1 toc2 => toc1.symbolName ≤ toc2.symbolName := by
    have := List.pairwise_mergeSort nameLe_trans nameLe_total entries
    exact this.imp fun here => by simpa [nameLe] using here
  have distinct : checkSortTocEntries (entries.mergeSort nameLe) = true ↔
      (entries.map TocEntry.symbolName).Nodup := by
    rw [checkSortTocEntries_iff sorted]
    exact ((List.mergeSort_perm entries nameLe).map _).nodup_iff
  cases sortToc with
  | false => exact ⟨by simp, fun _ => byMember⟩
  | true =>
    rw [sortTocEntries, if_pos rfl]
    by_cases twice : checkSortTocEntries (entries.mergeSort nameLe) = true
    · rw [if_pos twice]
      exact ⟨fun _ => sorted, fun not => absurd ⟨rfl, distinct.mp twice⟩ not⟩
    · rw [if_neg twice]
      refine ⟨fun asked => absurd (distinct.mpr asked.2) twice, fun _ => ?_⟩
      have := List.pairwise_mergeSort indexLe_trans indexLe_total (entries.mergeSort nameLe)
      exact this.imp fun here => by simpa [indexLe] using here

/-! ## Where the members stand -/

theorem le_rnd8 (n : Nat) : n ≤ rnd n 8 := by
  simp only [rnd]
  omega

theorem InputMember.length_newHdr (member : InputMember) : member.newHdr.length = sizeofArHdr := by
  have wide : ∀ width n : Nat, width ≤ (leftJustify width (printed 10 n)).length := by
    intro width n
    rw [leftJustify, List.length_append, List.length_replicate]
    omega
  have name := wide 13 member.arNameSize
  have size := wide 10 member.newSize
  have whole := member.whole
  simp only [InputMember.newHdr, List.length_append, List.length_take, List.length_drop, arEfmt1,
    sizeofArHdr, List.length_cons, List.length_nil] at *
  omega

/-- The entry of `breakoutMembers` for a member. -/
def InputMember.output (librarySize : Nat) (member : InputMember) : OutputMember where
  arHdr := member.newHdr
  offset := librarySize
  memberName := trimName member.name
  object := member.object
  contents := member.contents

theorem InputMember.length_bytes (librarySize : Nat) (member : InputMember) :
    (member.output librarySize).bytes.length = sizeofArHdr + member.newSize := by
  have name := le_rnd8 (trimName member.name).length
  have contents := le_rnd8 member.contents.length
  simp only [OutputMember.bytes, InputMember.output, List.length_append, List.length_replicate,
    member.length_newHdr, InputMember.newSize, InputMember.arNameSize, longNameSize]
  omega

/-- The offset of a member is the length of what stands before it. -/
theorem breakoutMembers_offset {inputs : List InputMember} (librarySize : Nat) {i : Nat} (inside : i < inputs.length) :
    ((breakoutMembers librarySize inputs).map OutputMember.offset).getD i 0 =
      librarySize + (((breakoutMembers librarySize inputs).take i).flatMap OutputMember.bytes).length := by
  induction inputs generalizing librarySize i with
  | nil => simp at inside
  | cons member rest ih =>
    cases i with
    | zero => simp [breakoutMembers]
    | succ i =>
      have here := member.length_bytes librarySize
      rw [breakoutMembers, List.map_cons, List.getD_cons_succ, ih _ (by simpa using inside),
        List.take_succ_cons, List.flatMap_cons, List.length_append]
      change _ = librarySize + ((member.output librarySize).bytes.length + _)
      omega

@[simp] theorem length_breakoutMembers (librarySize : Nat) (inputs : List InputMember) :
    (breakoutMembers librarySize inputs).length = inputs.length := by
  induction inputs generalizing librarySize with
  | nil => rfl
  | cons member rest ih => simp [breakoutMembers, ih]

/-! ## The two passes -/

/-- The string indices of the selected symbols lie in the string table and find a whole string
there; section numbers are those of sections. -/
structure Object.WellFormed (object : Object) (commonsInToc : Bool) : Prop where
  strings : ∀ symbol ∈ object.symbols, tocSymbol commonsInToc object symbol = true →
    symbol.strx < object.strings.length ∧ 0 ∈ object.strings.drop symbol.strx
  sections : ∀ symbol ∈ object.symbols, symbol.type &&& 0x0e = 0x0e →
    0 < symbol.sect ∧ symbol.sect ≤ object.sectionFlags.length

theorem filledNames_eq {object : Object} {commonsInToc : Bool} (wellFormed : object.WellFormed commonsInToc) :
    filledNames commonsInToc object = countedNames commonsInToc object := by
  rw [filledNames, countedNames]
  congr 1
  refine List.filter_congr fun symbol inside => ?_
  cases selected : tocSymbol commonsInToc object symbol with
  | false => simp
  | true =>
    have := (wellFormed.strings symbol inside selected).1
    have within : ¬ object.strings.length < symbol.strx := by omega
    simp [within]

theorem namesFrom_congr {names names' : Object → List (List UInt8)} {members : List OutputMember} (index : Nat)
    (same : ∀ member ∈ members, ∀ object ∈ member.object, names object = names' object) :
    namesFrom names index members = namesFrom names' index members := by
  induction members generalizing index with
  | nil => rfl
  | cons member rest ih =>
    rw [namesFrom, namesFrom, ih _ fun member inside => same member (List.mem_cons_of_mem _ inside)]
    cases known : member.object with
    | none => rfl
    | some object => simp [same member List.mem_cons_self object known]

theorem namesFrom_index (names : Object → List (List UInt8)) (index : Nat) (members : List OutputMember) :
    (∀ name ∈ namesFrom names index members, index < name.1 ∧ name.1 ≤ index + members.length) ∧
      (namesFrom names index members).Pairwise fun name1 name2 => name1.1 ≤ name2.1 := by
  induction members generalizing index with
  | nil => simp [namesFrom]
  | cons member rest ih =>
    obtain ⟨within, ascends⟩ := ih (index + 1)
    rw [namesFrom]
    constructor
    · intro name inside
      rw [List.length_cons]
      rcases List.mem_append.mp inside with here | there
      · obtain ⟨text, -, rfl⟩ := List.mem_map.mp here
        omega
      · have := within name there
        omega
    · refine List.pairwise_append.mpr ⟨?_, ascends, ?_⟩
      · exact List.pairwise_map.mpr (List.pairwise_of_forall fun _ _ => Nat.le_refl _)
      · intro name1 here name2 there
        obtain ⟨text, -, rfl⟩ := List.mem_map.mp here
        exact Nat.le_of_lt (within name2 there).1

theorem namesFrom_noNul (commonsInToc : Bool) (index : Nat) (members : List OutputMember) :
    ∀ name ∈ namesFrom (countedNames commonsInToc) index members, 0 ∉ name.2 := by
  induction members generalizing index with
  | nil => exact nofun
  | cons member rest ih =>
    intro name inside
    rw [namesFrom] at inside
    rcases List.mem_append.mp inside with here | there
    · obtain ⟨text, named, rfl⟩ := List.mem_map.mp here
      cases known : member.object with
      | none => simp [known] at named
      | some object =>
        simp only [known, Option.map_some, Option.getD_some, countedNames, List.mem_map] at named
        obtain ⟨symbol, -, rfl⟩ := named
        exact noNul_cString _
    · exact ih _ name there

end Cctools.Archive
