/-
# Cctools.Archive.CheckToc -- libstuff accepts a table of contents

`check_archive_toc` keeps a running offset through the table: a word with the size of the
entries, the entries, a word with the size of the strings, the strings.  It takes the size
of both words off the offset before each comparison, although the first time only one word
is counted, and at the end both belong to the table.

The memory from `toc_addr` on is a list of bytes; the table is its first `toc_size` bytes, and
whatever follows them is read all the same.
-/
import Cctools.Archive.SpecificMember
import Cctools.Archive.TocWritten
import Cctools.Theory.Bytes

namespace Cctools.Archive.CheckToc

set_option autoImplicit false

open Cctools.Theory Cctools.Archive
open Cctools.Archive.Walkers (strncmpEq)

/-- Where a read starts, and how many bytes it takes. -/
structure Access where
  start : Nat
  size : Nat
  deriving DecidableEq, Repr

/-- `toc_bad`, or no table because there are no entries, or the fields of the recorded table: its form,
`toc_nranlibs` and `toc_strsize`. -/
inductive Verdict where
  | bad
  | empty
  | recorded (form : TocForm) (nranlibs strsize : Nat)
  deriving DecidableEq, Repr

/-- `toc_is_32bit`: as many characters are compared as the member's name has. -/
def formOfName (name : List UInt8) : TocForm :=
  let is64 := strncmpEq name.length name (ascii "__.SYMDEF_64 SORTED") ||
    strncmpEq name.length name (ascii "__.SYMDEF_64")
  if !is64 then .symdef else .symdef64

/-- `sizeof(struct ranlib)`. -/
def sizeofRanlib (form : TocForm) : Nat := 2 * form.word

section Table

variable (form : TocForm) (bigEndian : Bool) (memory : List UInt8)

def wordAt (offset : Nat) : Nat := getWord form bigEndian (memory.drop offset)

def nranlibs : Nat := wordAt form bigEndian memory 0 / sizeofRanlib form

/-- Where the word with the size of the strings stands. -/
def endOfRanlibs : Nat := form.word + sizeofRanlib form * nranlibs form bigEndian memory

def strsize : Nat := wordAt form bigEndian memory (endOfRanlibs form bigEndian memory)

def ranStrx (i : Nat) : Nat := wordAt form bigEndian memory (form.word + sizeofRanlib form * i)

def ranOff (i : Nat) : Nat := wordAt form bigEndian memory (form.word + sizeofRanlib form * i + form.word)

variable (fileSize : Nat)

/-- The loop over the entries, with `left` to come from `i` on: what is read, and whether all are good. -/
def checkRanlibs : Nat → Nat → List Access × Bool
  | 0, _ => ([], true)
  | left + 1, i =>
    let strx : Access := ⟨form.word + sizeofRanlib form * i, form.word⟩
    let off : Access := ⟨form.word + sizeofRanlib form * i + form.word, form.word⟩
    if strsize form bigEndian memory ≤ ranStrx form bigEndian memory i then ([strx], false)
    else if fileSize ≤ ranOff form bigEndian memory i then ([strx, off], false)
    else if ranOff form bigEndian memory i % form.word ≠ 0 then ([strx, off], false)
    else
      let rest := checkRanlibs left (i + 1)
      (strx :: off :: rest.1, rest.2)

variable (symdefLength : Nat)

/-- What follows when the byte sex is known; `swapped` says that it is not the host's. -/
def checkTable (swapped : Bool) : List Access × Verdict :=
  let entries := sizeofRanlib form * nranlibs form bigEndian memory
  let first : Access := ⟨0, form.word⟩
  let offset := (form.word + entries) % 2 ^ 64
  if nranlibs form bigEndian memory = 0 then ([first], .empty)
  else if symdefLength < (offset + 2 ^ 64 - 2 * form.word) % 2 ^ 64 then ([first], .bad)
  else
    let second : Access := ⟨endOfRanlibs form bigEndian memory, form.word⟩
    let offset := (offset + form.word + strsize form bigEndian memory) % 2 ^ 64
    if symdefLength < (offset + 2 ^ 64 - 2 * form.word) % 2 ^ 64 then ([first, second], .bad)
    else if symdefLength = 2 * form.word then ([first, second], .empty)
    else
      -- `swap_ranlib` goes over the whole array first
      let swap : List Access := if swapped then [⟨form.word, entries⟩] else []
      let loop := checkRanlibs form bigEndian memory fileSize (nranlibs form bigEndian memory) 0
      (first :: second :: (swap ++ loop.1),
        if loop.2 then .recorded form (nranlibs form bigEndian memory) (strsize form bigEndian memory) else .bad)

end Table

/-- `check_archive_toc` of a whole file.  `tocByteSex` is what `get_toc_byte_sex` finds: nothing, or whether
the numbers are big-endian and whether that is not the host's order. -/
def checkArchiveToc (name : List UInt8) (tocByteSex : Option (Bool × Bool)) (fileSize symdefLength : Nat)
    (memory : List UInt8) : List Access × Verdict :=
  let form := formOfName name
  if symdefLength < 2 * form.word then ([], .bad)
  else
    match tocByteSex with
    | none => ([], .bad)
    | some (bigEndian, swapped) => checkTable form bigEndian memory fileSize symdefLength swapped

section Property

variable (name : List UInt8) (tocByteSex : Option (Bool × Bool)) (fileSize symdefLength : Nat) (memory : List UInt8)

/-- A recorded table lies in its member with its strings, nothing else was read, and every entry points into
the strings and into the file. -/
def WellFormed : Prop :=
  ∀ form nranlibs strsize,
    (checkArchiveToc name tocByteSex fileSize symdefLength memory).2 = .recorded form nranlibs strsize →
      form.word + sizeofRanlib form * nranlibs ≤ symdefLength ∧
        form.word + sizeofRanlib form * nranlibs + form.word + strsize ≤ symdefLength ∧
        (∀ access ∈ (checkArchiveToc name tocByteSex fileSize symdefLength memory).1,
          access.start + access.size ≤ symdefLength) ∧
        ∀ bigEndian ∈ tocByteSex.map Prod.fst, ∀ i < nranlibs,
          ranStrx form bigEndian memory i < strsize ∧ ranOff form bigEndian memory i < fileSize

/-- An entry that the loop lets pass. -/
def EntryGood (form : TocForm) (bigEndian : Bool) (i : Nat) : Prop :=
  ranStrx form bigEndian memory i < strsize form bigEndian memory ∧
    ranOff form bigEndian memory i < fileSize ∧ ranOff form bigEndian memory i % form.word = 0

/-- Tables with at least one entry and good entries only, whose two sizes do not leave room for the two words in
front of them, but fit the member without these words, or fit it modulo 2^64. -/
def Overruns : Prop :=
  let form := formOfName name
  2 * form.word < symdefLength ∧ ∃ sex ∈ tocByteSex,
    nranlibs form sex.1 memory ≠ 0 ∧
    sizeofRanlib form * nranlibs form sex.1 memory ≤ symdefLength + form.word ∧
    (sizeofRanlib form * nranlibs form sex.1 memory + strsize form sex.1 memory) % 2 ^ 64 ≤ symdefLength ∧
    symdefLength < 2 * form.word + sizeofRanlib form * nranlibs form sex.1 memory + strsize form sex.1 memory ∧
    ∀ i < nranlibs form sex.1 memory, EntryGood fileSize memory form sex.1 i

end Property

section Table

variable {form : TocForm} {bigEndian : Bool} {memory : List UInt8} {fileSize symdefLength : Nat}

/-! ## The loop -/

theorem checkRanlibs_good (left i : Nat) :
    (checkRanlibs form bigEndian memory fileSize left i).2 = true ↔
      ∀ j, i ≤ j → j < i + left → EntryGood fileSize memory form bigEndian j := by
  induction left generalizing i with
  | zero =>
    simp only [checkRanlibs, true_iff]
    intro j from_i before
    omega
  | succ left ih =>
    have split_first : (∀ j, i ≤ j → j < i + (left + 1) → EntryGood fileSize memory form bigEndian j) ↔
        EntryGood fileSize memory form bigEndian i ∧
          ∀ j, i + 1 ≤ j → j < i + 1 + left → EntryGood fileSize memory form bigEndian j := by
      constructor
      · intro good
        exact ⟨good i (by omega) (by omega), fun j from_i before => good j (by omega) (by omega)⟩
      · rintro ⟨here, later⟩ j from_i before
        by_cases first : j = i
        · rw [first]
          exact here
        · exact later j (by omega) (by omega)
    rw [split_first, ← ih, EntryGood, checkRanlibs]
    by_cases strx : strsize form bigEndian memory ≤ ranStrx form bigEndian memory i
    · simp [strx, Nat.not_lt.mpr strx]
    · by_cases off : fileSize ≤ ranOff form bigEndian memory i
      · simp [strx, off, Nat.not_lt.mpr off]
      · by_cases aligned : ranOff form bigEndian memory i % form.word = 0
        · simp [strx, off, aligned, Nat.lt_of_not_le strx, Nat.lt_of_not_le off]
        · simp [strx, off, aligned]

theorem checkRanlibs_inside (left i : Nat) :
    ∀ access ∈ (checkRanlibs form bigEndian memory fileSize left i).1,
      access.start + access.size ≤ form.word + sizeofRanlib form * (i + left) := by
  induction left generalizing i with
  | zero => simp [checkRanlibs]
  | succ left ih =>
    have grow : sizeofRanlib form * (i + (left + 1)) = sizeofRanlib form * i + 2 * form.word +
        sizeofRanlib form * left := by
      rw [Nat.mul_add, Nat.mul_add, sizeofRanlib]
      omega
    rw [checkRanlibs]
    split
    · simp only [List.mem_singleton, forall_eq]
      omega
    · split
      · simp only [List.mem_cons, List.not_mem_nil, or_false, forall_eq_or_imp, forall_eq]
        omega
      · split
        · simp only [List.mem_cons, List.not_mem_nil, or_false, forall_eq_or_imp, forall_eq]
          omega
        · simp only [List.mem_cons, forall_eq_or_imp]
          refine ⟨by omega, by omega, fun access later => ?_⟩
          have inside := ih (i + 1) access later
          have same : i + 1 + left = i + (left + 1) := by omega
          rwa [same] at inside

/-! ## What is recorded -/

theorem word_cases (form : TocForm) : form.word = 4 ∨ form.word = 8 := by
  cases form
  · exact .inl rfl
  · exact .inr rfl

theorem wordAt_lt (offset : Nat) : wordAt form bigEndian memory offset < 256 ^ form.word := by
  rw [wordAt, getWord]
  split
  · exact readBe_lt _ _
  · exact readLe_lt _ _

theorem entries_small :
    form.word + sizeofRanlib form * nranlibs form bigEndian memory + form.word ≤ 2 ^ 64 := by
  have small := @wordAt_lt form bigEndian memory 0
  rw [nranlibs, sizeofRanlib]
  cases form with
  | symdef =>
    simp only [TocForm.word] at *
    omega
  | symdef64 =>
    simp only [TocForm.word] at *
    omega

theorem recorded_iff {swapped : Bool} {recordedForm : TocForm} {count size : Nat} (long : 2 * form.word ≤ symdefLength) :
    (checkTable form bigEndian memory fileSize symdefLength swapped).2 = .recorded recordedForm count size ↔
      (recordedForm = form ∧ count = nranlibs form bigEndian memory ∧ size = strsize form bigEndian memory) ∧
        2 * form.word < symdefLength ∧ nranlibs form bigEndian memory ≠ 0 ∧
        sizeofRanlib form * nranlibs form bigEndian memory ≤ symdefLength + form.word ∧
        (sizeofRanlib form * nranlibs form bigEndian memory + strsize form bigEndian memory) % 2 ^ 64 ≤ symdefLength ∧
        ∀ i < nranlibs form bigEndian memory, EntryGood fileSize memory form bigEndian i := by
  have small := @entries_small form bigEndian memory
  have good := @checkRanlibs_good form bigEndian memory fileSize (nranlibs form bigEndian memory) 0
  simp only [Nat.zero_le, true_imp_iff, Nat.zero_add] at good
  rw [← good]
  have word := word_cases form
  simp only [checkTable]
  split
  · rename_i noEntries
    simp [noEntries]
  · rename_i some
    have first : sizeofRanlib form ≤ sizeofRanlib form * nranlibs form bigEndian memory :=
      Nat.le_mul_of_pos_right _ (Nat.pos_of_ne_zero some)
    have whole : sizeofRanlib form = 2 * form.word := rfl
    have last := @wordAt_lt form bigEndian memory (endOfRanlibs form bigEndian memory)
    have strings : strsize form bigEndian memory = wordAt form bigEndian memory (endOfRanlibs form bigEndian memory) := rfl
    generalize sizeofRanlib form * nranlibs form bigEndian memory = entries at *
    generalize strsize form bigEndian memory = stringsSize at *
    split
    · rename_i outside
      simp only [reduceCtorEq, false_iff]
      rintro ⟨-, -, -, inside, -⟩
      omega
    · split
      · rename_i outside
        simp only [reduceCtorEq, false_iff]
        rintro ⟨-, -, -, -, inside, -⟩
        omega
      · split
        · simp only [reduceCtorEq, false_iff]
          rintro ⟨-, larger, -⟩
          omega
        · rename_i inside inside' larger
          cases passed : (checkRanlibs form bigEndian memory fileSize (nranlibs form bigEndian memory) 0).2 with
          | true =>
            simp only [↓reduceIte, Verdict.recorded.injEq, and_true]
            constructor
            · rintro ⟨rfl, rfl, rfl⟩
              exact ⟨⟨rfl, rfl, rfl⟩, by omega, some, by omega, by omega⟩
            · rintro ⟨⟨rfl, rfl, rfl⟩, -⟩
              exact ⟨rfl, rfl, rfl⟩
          | false => simp

theorem checkTable_inside {swapped : Bool} :
    ∀ access ∈ (checkTable form bigEndian memory fileSize symdefLength swapped).1,
      access.start + access.size ≤ endOfRanlibs form bigEndian memory + form.word := by
  have loop := @checkRanlibs_inside form bigEndian memory fileSize (nranlibs form bigEndian memory) 0
  simp only [Nat.zero_add] at loop
  have ends : endOfRanlibs form bigEndian memory =
    form.word + sizeofRanlib form * nranlibs form bigEndian memory := rfl
  simp only [checkTable]
  split
  · simp only [List.mem_singleton, forall_eq]
    omega
  · split
    · simp only [List.mem_singleton, forall_eq]
      omega
    · split
      · simp only [List.mem_cons, List.not_mem_nil, or_false, forall_eq_or_imp, forall_eq]
        omega
      · split
        · simp only [List.mem_cons, List.not_mem_nil, or_false, forall_eq_or_imp, forall_eq]
          omega
        · simp only [List.mem_cons, List.mem_append, forall_eq_or_imp]
          refine ⟨by omega, by omega, fun access read => ?_⟩
          obtain swap | read := read
          · split at swap
            · obtain rfl := List.mem_singleton.mp swap
              simp only
              omega
            · cases swap
          · have inside := loop access read
            omega

end Table

/-! ## The whole function -/

/-- **A table of contents is well formed whenever it is recorded, unless its sizes leave no room for the two
words in front of them.** -/
theorem wellFormed_iff (name : List UInt8) (tocByteSex : Option (Bool × Bool)) (fileSize symdefLength : Nat)
    (memory : List UInt8) :
    WellFormed name tocByteSex fileSize symdefLength memory ↔
      ¬ Overruns name tocByteSex fileSize symdefLength memory := by
  simp only [WellFormed, Overruns, checkArchiveToc]
  generalize formOfName name = form
  by_cases short : symdefLength < 2 * form.word
  · simp only [short, ↓reduceIte, reduceCtorEq, false_imp_iff, implies_true, true_iff]
    rintro ⟨long, -⟩
    omega
  · cases tocByteSex with
    | none => simp [short]
    | some sex =>
      obtain ⟨bigEndian, swapped⟩ := sex
      simp only [short, ↓reduceIte, Option.mem_some_iff, exists_eq_left', Option.map_some, forall_eq']
      have recorded := @recorded_iff form bigEndian memory fileSize symdefLength swapped
      constructor
      · rintro wellFormed ⟨larger, some, first, second, outside, good⟩
        have accepted := (@recorded form _ _ (by omega)).mpr ⟨⟨rfl, rfl, rfl⟩, larger, some, first, second, good⟩
        have inside := (wellFormed _ _ _ accepted).2.1
        omega
      · rintro fits recordedForm count size accepted
        obtain ⟨⟨rfl, rfl, rfl⟩, larger, some, first, second, good⟩ := (recorded (by omega)).mp accepted
        have inside : 2 * recordedForm.word + sizeofRanlib recordedForm * nranlibs recordedForm bigEndian memory +
            strsize recordedForm bigEndian memory ≤ symdefLength := by
          by_contra outside
          exact fits ⟨larger, some, first, second, by omega, good⟩
        refine ⟨by omega, by omega, fun access read => ?_, fun i before => ⟨(good i before).1, (good i before).2.1⟩⟩
        have within := checkTable_inside access read
        rw [endOfRanlibs] at within
        omega

/-- A table with one entry and four characters, in a member of twenty bytes. -/
def oneEntry : List UInt8 := [8, 0, 0, 0, 0, 0, 0, 0, 96, 0, 0, 0, 4, 0, 0, 0, 95, 97, 0, 0]

example : (checkArchiveToc (ascii "__.SYMDEF SORTED") (some (false, false)) 200 20 oneEntry).2 = .recorded .symdef 1 4 := by
  decide

/-- The table of `oneEntry` says that there are twelve characters. -/
def twelveCharacters : List UInt8 := [8, 0, 0, 0, 0, 0, 0, 0, 96, 0, 0, 0, 12, 0, 0, 0, 95, 97, 0, 0]

/-- Twelve characters from the sixteenth of twenty bytes on. -/
theorem twelveCharacters_overruns :
    ¬ WellFormed (ascii "__.SYMDEF SORTED") (some (false, false)) 200 20 twelveCharacters := by
  intro wellFormed
  have recorded : (checkArchiveToc (ascii "__.SYMDEF SORTED") (some (false, false)) 200 20 twelveCharacters).2 =
      .recorded .symdef 1 12 := by decide
  have inside := (wellFormed _ _ _ recorded).2.1
  revert inside
  decide

end Cctools.Archive.CheckToc
