/-
# Cctools.Archive.ManyMembers -- archives of equal members

An archive of many members without load commands, one of which defines a symbol as its table of
contents says.  When that member is the 65535th, it is entry 65536 and its ordinal has the counter
zero, which is the ordinal of the archive itself.
-/
import Cctools.Archive.LoadedOnce
import Cctools.Archive.Readers

namespace Cctools.Archive.Loading

set_option autoImplicit false

open Cctools.Theory

/-! ## The bytes -/

/-- A Mach-O header of an object file without load commands. -/
def emptyObject : List UInt8 :=
  fileHeader "a.o             " "32        " ++
    [0xCF, 0xFA, 0xED, 0xFE, 7, 0, 0, 1, 3, 0, 0, 0, 1, 0, 0, 0, 0, 0, 0, 0, 0, 0, 0, 0, 0, 0, 0, 0, 0, 0, 0, 0]

/-- The magic string and a table of contents with one entry. -/
def front (offset : Nat) : List UInt8 :=
  armag ++ fileHeader "__.SYMDEF       " "20        " ++ [8, 0, 0, 0, 0, 0, 0, 0] ++ (beBytes 4 offset).reverse ++
    [4, 0, 0, 0] ++ ascii "_a" ++ [0, 0]

@[irreducible] def copies (n : Nat) : List UInt8 := (List.replicate n emptyObject).flatten

/-- Where one of the copies stands. -/
def copyAt (i : Nat) : Nat := 88 + 92 * i

/-- `n` members, of which the table of contents lists one. -/
def archiveOf (n listed : Nat) : List UInt8 := front (copyAt listed) ++ copies n

theorem length_emptyObject : emptyObject.length = 92 := by decide

theorem length_front (offset : Nat) : (front offset).length = 88 := by
  simp only [front, List.length_append, List.length_reverse, length_beBytes]
  decide

theorem copies_succ (n : Nat) : copies (n + 1) = emptyObject ++ copies n := by
  rw [copies, copies, List.replicate_succ, List.flatten_cons]

theorem length_copies (n : Nat) : (copies n).length = 92 * n := by
  induction n with
  | zero => rw [copies]; rfl
  | succ n ih => rw [copies_succ, List.length_append, ih, length_emptyObject]; omega

theorem drop_copies {n i : Nat} (within : i ≤ n) : (copies n).drop (92 * i) = copies (n - i) := by
  induction i generalizing n with
  | zero => rfl
  | succ i ih =>
    obtain ⟨n, rfl⟩ : ∃ m, n = m + 1 := ⟨n - 1, by omega⟩
    have next : 92 * (i + 1) = emptyObject.length + 92 * i := by
      rw [length_emptyObject]
      omega
    rw [copies_succ, next, ← List.drop_drop, List.drop_left, ih (by omega), Nat.add_sub_add_right]

variable {n listed : Nat}

theorem length_archiveOf : (archiveOf n listed).length = copyAt n := by
  rw [archiveOf, List.length_append, length_front, length_copies, copyAt]

variable {i : Nat}

theorem drop_front (within : i ≤ 88) :
    (archiveOf n listed).drop i = (front (copyAt listed)).drop i ++ copies n := by
  rw [archiveOf, List.drop_append_of_le_length (by rw [length_front]; exact within)]

theorem drop_back (i : Nat) : (archiveOf n listed).drop (88 + i) = (copies n).drop i := by
  rw [← List.drop_drop, archiveOf, List.drop_left' (length_front _)]

theorem drop_copyAt (below : i < n) :
    (archiveOf n listed).drop (copyAt i) = emptyObject ++ copies (n - i - 1) := by
  obtain ⟨m, more⟩ : ∃ m, n - i = m + 1 := ⟨n - i - 1, by omega⟩
  have behind : (archiveOf n listed).drop (copyAt i) = (copies n).drop (92 * i) := drop_back (92 * i)
  rw [behind, drop_copies (by omega), more, copies_succ, Nat.add_sub_cancel]

/-! ## Headers -/

theorem header_of_drop {archive object rest : List UInt8} {p : Nat} (split : archive.drop p = object ++ rest)
    (whole : 60 ≤ object.length) (short : hasLongName object 0 = false) :
    hasLongName archive p = false ∧ content archive p = p + 60 ∧ contentSize archive p = contentSize object 0 ∧
      getName archive p = getName object 0 := by
  have same : hasLongName archive p = false := by
    rw [hasLongName, arName, split, List.take_append_of_le_length (by omega)]
    exact short
  have size : (arSize archive p).take 10 = (arSize object 0).take 10 := by
    rw [arSize, ← List.drop_drop, split, List.drop_append_of_le_length (by omega),
      List.take_append_of_le_length (by rw [List.length_drop]; omega)]
    rfl
  refine ⟨same, ?_, ?_, ?_⟩
  · simp [content, same, sizeofArHdr]
  · simp [contentSize, same, short, size]
  · simp only [getName, same, short, arName, split, List.take_append_of_le_length (show 16 ≤ object.length by omega),
      List.drop_zero, Bool.false_eq_true, if_false]

theorem emptyObject_header : hasLongName emptyObject 0 = false ∧ contentSize emptyObject 0 = 32 ∧
    getName emptyObject 0 = some (ascii "a.o") := by decide

theorem tocMember_header (offset : Nat) : hasLongName ((front offset).drop 8) 0 = false ∧
    contentSize ((front offset).drop 8) 0 = 20 ∧ getName ((front offset).drop 8) 0 = some (ascii "__.SYMDEF") := by
  have known : ((front offset).drop 8).drop 0 = fileHeader "__.SYMDEF       " "20        " ++
      ([8, 0, 0, 0, 0, 0, 0, 0] ++ ((beBytes 4 offset).reverse ++ ([4, 0, 0, 0] ++ (ascii "_a" ++ [0, 0])))) := by
    simp only [front, List.append_assoc, List.drop_zero]
    exact List.drop_left' rfl
  have header : hasLongName (fileHeader "__.SYMDEF       " "20        ") 0 = false ∧
      contentSize (fileHeader "__.SYMDEF       " "20        ") 0 = 20 ∧
      getName (fileHeader "__.SYMDEF       " "20        ") 0 = some (ascii "__.SYMDEF") := by decide
  obtain ⟨short, -, size, name⟩ := header_of_drop known (by decide) header.1
  exact ⟨short, size.trans header.2.1, name.trans header.2.2⟩

theorem copy_header (below : i < n) : content (archiveOf n listed) (copyAt i) = copyAt i + 60 ∧
    contentSize (archiveOf n listed) (copyAt i) = 32 ∧ getName (archiveOf n listed) (copyAt i) = some (ascii "a.o") := by
  have whole : 60 ≤ emptyObject.length := by rw [length_emptyObject]; omega
  obtain ⟨-, data, size, name⟩ := header_of_drop (@drop_copyAt n listed i below) whole emptyObject_header.1
  exact ⟨data, size.trans emptyObject_header.2.1, name.trans emptyObject_header.2.2⟩

theorem front_header : content (archiveOf n listed) 8 = 68 ∧ contentSize (archiveOf n listed) 8 = 20 ∧
    getName (archiveOf n listed) 8 = some (ascii "__.SYMDEF") := by
  have whole : 60 ≤ ((front (copyAt listed)).drop 8).length := by rw [List.length_drop, length_front]; omega
  obtain ⟨-, data, size, name⟩ := header_of_drop (@drop_front n listed 8 (by decide)) whole (tocMember_header _).1
  exact ⟨data, size.trans (tocMember_header _).2.1, name.trans (tocMember_header _).2.2⟩

theorem next_copyAt (below : i < n) : next 4096 (archiveOf n listed) (copyAt i) = copyAt (i + 1) := by
  obtain ⟨data, size, -⟩ := @copy_header n listed i below
  rw [next, data, size]
  simp only [Cctools.Lipo.rnd, copyAt]
  omega

theorem next_front : next 4096 (archiveOf n listed) 8 = copyAt 0 := by
  rw [next, front_header.1, front_header.2.1]
  rfl

/-! ## The file -/

/-- With one symbol in the table, only what is asked for is loaded. -/
def fileOf (n listed : Nat) : ArchiveFile Unit where
  base := 4096
  fileContent := archiveOf n listed
  path := ascii "lib.a"
  ordinal := 0
  loadMode := .lazy
  verboseLoad := false
  parsers := {
    isObjectFile := fun _ => true
    parse := fun _ => .ok (some ())
    hasObjCCategories := fun _ => false
    forEachAtom := fun _ => false
    symbolIsDataDefinition := fun _ _ => false
    lto := none }

theorem headers_copies {fuel i : Nat} (within : i ≤ n) (enough : copyAt n ≤ fuel + copyAt i) :
    headersFrom 4096 (archiveOf n listed) fuel (copyAt i) = (List.range' i (n - i)).map copyAt := by
  induction fuel generalizing i with
  | zero =>
    obtain rfl : i = n := by simp only [copyAt] at enough; omega
    rw [Nat.sub_self]
    rfl
  | succ fuel ih =>
    obtain rfl | below := Nat.eq_or_lt_of_le within
    · rw [headersFrom_end (by rw [length_archiveOf]), Nat.sub_self]
      rfl
    · obtain ⟨m, more⟩ : ∃ m, n - i = m + 1 := ⟨n - i - 1, by omega⟩
      have rest : n - (i + 1) = m := by omega
      rw [headersFrom_step (by rw [length_archiveOf]; simp only [copyAt]; omega), next_copyAt below,
        ih below (by simp only [copyAt] at *; omega), more, rest, List.range'_succ]
      rfl

theorem members_fileOf : members (fileOf n listed) = 8 :: (List.range n).map copyAt := by
  have length : (archiveOf n listed).length = 87 + 92 * n + 1 := by
    rw [length_archiveOf, copyAt]
    omega
  have all : members (fileOf n listed) = headersFrom 4096 (archiveOf n listed) (87 + 92 * n + 1) 8 := by
    rw [← length]
    rfl
  rw [all, headersFrom_step (by omega), next_front, headers_copies (Nat.zero_le n) (by simp only [copyAt]; omega),
    Nat.sub_zero, List.range_eq_range']

theorem position_fileOf (below : i < n) : position (fileOf n listed) (copyAt i) = i + 2 := by
  have here : i + 1 < (members (fileOf n listed)).length := by
    rw [members_fileOf, List.length_cons, List.length_map, List.length_range]
    omega
  have isCopy : (members (fileOf n listed))[i + 1] = copyAt i := by
    simp [members_fileOf]
  rw [← isCopy, position_getElem]

/-! ## The table of contents -/

theorem drop_table : (archiveOf n listed).drop 68 = [8, 0, 0, 0] ++ ([0, 0, 0, 0] ++
    ((beBytes 4 (copyAt listed)).reverse ++ ([4, 0, 0, 0] ++ (ascii "_a" ++ ([0, 0] ++ copies n))))) := by
  have before : (armag ++ fileHeader "__.SYMDEF       " "20        ").length = 68 := by decide
  have split : archiveOf n listed = (armag ++ fileHeader "__.SYMDEF       " "20        ") ++ ([8, 0, 0, 0] ++
      ([0, 0, 0, 0] ++ ((beBytes 4 (copyAt listed)).reverse ++ ([4, 0, 0, 0] ++ (ascii "_a" ++ ([0, 0] ++ copies n)))))) := by
    simp only [archiveOf, front, List.append_assoc, List.cons_append, List.nil_append]
  rw [split, List.drop_left' before]

theorem drop_ranlib : (archiveOf n listed).drop 72 = [0, 0, 0, 0] ++
    ((beBytes 4 (copyAt listed)).reverse ++ ([4, 0, 0, 0] ++ (ascii "_a" ++ ([0, 0] ++ copies n)))) := by
  have behind : (archiveOf n listed).drop 72 = ((archiveOf n listed).drop 68).drop 4 := by rw [List.drop_drop]
  rw [behind, drop_table]
  exact List.drop_left' rfl

theorem drop_ranOff : (archiveOf n listed).drop 76 =
    (beBytes 4 (copyAt listed)).reverse ++ ([4, 0, 0, 0] ++ (ascii "_a" ++ ([0, 0] ++ copies n))) := by
  have behind : (archiveOf n listed).drop 76 = ((archiveOf n listed).drop 72).drop 4 := by rw [List.drop_drop]
  rw [behind, drop_ranlib]
  exact List.drop_left' rfl

theorem drop_strings : (archiveOf n listed).drop 84 = ascii "_a" ++ ([0, 0] ++ copies n) := by
  have behind : (archiveOf n listed).drop 84 = (((archiveOf n listed).drop 76).drop 4).drop 4 := by
    rw [List.drop_drop, List.drop_drop]
  rw [behind, drop_ranOff, List.drop_left' (by simp)]
  exact List.drop_left' rfl

theorem tocForm_archiveOf : tocForm (archiveOf n listed) = some .symdef := by
  rw [tocForm, front_header.2.2]
  decide

theorem ranlibArrayLen_archiveOf : ranlibArrayLen .symdef (archiveOf n listed) = 8 := by
  rw [ranlibArrayLen, front_header.1, TocForm.get, drop_table]
  rfl

theorem toc_archiveOf : toc .symdef 4096 (archiveOf n listed) = ⟨72, 1, 4180⟩ := by
  rw [toc, front_header.1, ranlibArrayLen_archiveOf]
  rfl

theorem ranOff_archiveOf (small : copyAt listed < 2 ^ 32) : ranOff .symdef 4096 (archiveOf n listed) 0 = copyAt listed := by
  rw [ranOff, toc_archiveOf]
  show readLe 4 ((archiveOf n listed).drop 76) = _
  rw [drop_ranOff, readLe_reverse_beBytes]
  exact Nat.mod_eq_of_lt small

theorem entryName_archiveOf : entryName .symdef 4096 (archiveOf n listed) 0 = some (ascii "_a") := by
  have strx : ranStrx .symdef 4096 (archiveOf n listed) 0 = 0 := by
    rw [ranStrx, toc_archiveOf]
    show readLe 4 ((archiveOf n listed).drop 72) = 0
    rw [drop_ranlib]
    rfl
  have length : 80 ≤ (archiveOf n listed).length := by
    rw [length_archiveOf]
    simp only [copyAt]
    omega
  have ended : 0 ∈ (archiveOf n listed).drop 84 := by
    rw [drop_strings]
    simp
  rw [entryName, toc_archiveOf, strx]
  refine (if_pos ⟨length, by decide, ended⟩).trans ?_
  show some (cString ((archiveOf n listed).drop 84)) = _
  rw [drop_strings]
  rfl

/-- The table has one name. -/
def oneName (listed : Nat) : NameToOffsetMap := NameToOffsetMap.set (fun _ => none) (ascii "_a") (copyAt listed)

theorem openTableOfContents_archiveOf (below : listed < n) (small : copyAt n < 2 ^ 32) :
    openTableOfContents .symdef 4096 (archiveOf n listed) = .ok (oneName listed) := by
  have offset := ranOff_archiveOf (n := n) (show copyAt listed < 2 ^ 32 by simp only [copyAt] at *; omega)
  have inFile : tocPastEnd .symdef 4096 (archiveOf n listed) = false := by
    rw [tocPastEnd, toc_archiveOf, length_archiveOf]
    simp only [copyAt]
    exact Bool.or_eq_false_iff.mpr ⟨decide_eq_false (by omega), decide_eq_false (by omega)⟩
  have length : content (archiveOf n listed) 8 + TocForm.symdef.word ≤ (archiveOf n listed).length := by
    rw [front_header.1, length_archiveOf, TocForm.word]
    simp only [copyAt]
    omega
  rw [openTableOfContents, if_neg (Nat.not_lt.mpr length), inFile, if_neg Bool.false_ne_true, buildHashTable,
    toc_archiveOf, if_neg (by decide), addEntries, entryName_archiveOf]
  dsimp only
  rw [offset, if_neg (by rw [length_archiveOf]; simp only [copyAt]; omega), addEntries]
  rfl

theorem openFile_fileOf (below : listed < n) (small : copyAt n < 2 ^ 32) :
    openFile (fileOf n listed) = .ok (oneName listed, ⟨[], false, []⟩) := by
  have magic : (archiveOf n listed).take 8 = armag := by
    rw [archiveOf, front]
    simp only [List.append_assoc]
    exact List.take_left' rfl
  have name : getName (fileOf n listed).fileContent 8 = some (ascii "__.SYMDEF") := front_header.2.2
  have form : tocForm (fileOf n listed).fileContent = some .symdef := tocForm_archiveOf
  have table : openTableOfContents .symdef (fileOf n listed).base (fileOf n listed).fileContent = .ok (oneName listed) :=
    openTableOfContents_archiveOf below small
  have noMagic : ¬(fileOf n listed).fileContent.take 8 ≠ armag := not_not.mpr magic
  rw [openFile, if_neg noMagic, memberName, name]
  dsimp only [bind, Except.bind]
  rw [form]
  dsimp only
  rw [table]
  rfl

/-! ## One request -/

theorem oneName_lists (below : listed < n) : ListsMembers (fileOf n listed) (oneName listed) := by
  intro name member found
  rw [oneName, NameToOffsetMap.set] at found
  split at found
  · obtain rfl := Option.some.inj found
    refine ⟨?_, by simp only [copyAt]; omega⟩
    rw [members_fileOf]
    exact List.mem_cons_of_mem _ (List.mem_map.mpr ⟨listed, List.mem_range.mpr below, rfl⟩)
  · cases found

theorem memberName_fileOf (below : listed < n) : memberName (fileOf n listed) (copyAt listed) = .ok (ascii "a.o") := by
  have isName : getName (fileOf n listed).fileContent (copyAt listed) = some (ascii "a.o") := (copy_header below).2.2
  rw [memberName, isName]

theorem makeWithIndex_fileOf (below : listed < n) (state : LoadState Unit) {index : BitVec 32} (notZero : index ≠ 0) :
    makeWithIndex (fileOf n listed) state (copyAt listed) index = .ok { state with
      instantiatedEntries := state.instantiatedEntries.set (copyAt listed)
        ⟨some ⟨(), archiveOrdinalWithMemberIndex 0 (index.setWidth 16)⟩, copyAt listed, false, false, index⟩ } := by
  have inFile : parseMember (fileOf n listed) index (copyAt listed) (ascii "a.o") =
      .ok ⟨(), archiveOrdinalWithMemberIndex 0 (index.setWidth 16)⟩ := by
    have length : (fileOf n listed).fileContent.length = copyAt n := length_archiveOf
    have ends : content (fileOf n listed).fileContent (copyAt listed) +
        contentSize (fileOf n listed).fileContent (copyAt listed) = copyAt (listed + 1) := by
      show content (archiveOf n listed) _ + contentSize (archiveOf n listed) _ = _
      obtain ⟨data, size, -⟩ := @copy_header n listed listed below
      rw [data, size, copyAt, copyAt]
      omega
    rw [parseMember, length, ends, if_neg (by simp only [copyAt]; omega), if_neg (by simp only [copyAt]; omega)]
    rfl
  rw [makeWithIndex, if_neg notZero, memberName_fileOf below]
  dsimp only [bind, Except.bind]
  rw [inFile]
  rfl

/-- Asked for its symbol, ld makes an object file of the member. -/
theorem request_fileOf (below : listed < n) (few : listed + 2 < 2 ^ 32) :
    ∃ state known object, requests (fileOf n listed) (oneName listed) [] ⟨[], false, []⟩
        [.justInTimeforEachAtom (ascii "_a")] = .ok state ∧
      state.instantiatedEntries.get? (copyAt listed) = some known ∧ known.file = some object := by
  have here : listed + 1 < (members (fileOf n listed)).length := by
    rw [members_fileOf, List.length_cons, List.length_map, List.length_range]
    omega
  have isCopy : (members (fileOf n listed))[listed + 1] = copyAt listed := by simp [members_fileOf]
  have first : (members (fileOf n listed))[0] = 8 := members_zero _ (by omega)
  have long := members_length (fileOf n listed)
  have enough : listed + 1 + 2 ≤ (fileOf n listed).fileContent.length + 2 + 0 := by omega
  obtain ⟨entries, added, invariant, found⟩ := addEntriesTo_spec here
    (@invariant_empty _ (fileOf n listed) (oneName listed)) rfl (Nat.zero_le _) enough 0
  rw [isCopy, first] at added
  have notZero : BitVec.ofNat 32 (listed + 1 + 1) ≠ 0 := by
    intro zero
    have := congrArg BitVec.toNat zero
    rw [BitVec.toNat_ofNat, Nat.mod_eq_of_lt (by omega)] at this
    cases this
  have make : makeObjectFileForMember (fileOf n listed) ⟨[], false, []⟩ (copyAt listed) =
      makeWithIndex (fileOf n listed) ⟨entries, false, []⟩ (copyAt listed) (BitVec.ofNat 32 (listed + 1 + 1)) := by
    rw [makeObjectFileForMember]
    dsimp only [OrderedMap.get?]
    show (addEntriesTo (fileOf n listed) (copyAt listed) ((fileOf n listed).fileContent.length + 2) 8 1 [] 0).bind _ = _
    have added' : addEntriesTo (fileOf n listed) (copyAt listed) ((fileOf n listed).fileContent.length + 2) 8 1 [] 0 =
      .ok (entries, BitVec.ofNat 32 (listed + 1 + 1)) := added
    rw [added']
    rfl
  have lookup : oneName listed (ascii "_a") = some (copyAt listed) := by simp [oneName, NameToOffsetMap.set]
  rw [requests, List.foldlM_cons, request, justInTimeforEachAtom]
  dsimp only
  rw [if_neg Bool.false_ne_true, lookup]
  dsimp only [bind, Except.bind]
  rw [make, makeWithIndex_fileOf below _ notZero]
  dsimp only
  rw [memberName_fileOf below]
  dsimp only
  rw [loadMember]
  dsimp only
  rw [OrderedMap.get?_set_self]
  exact ⟨_, _, _, rfl, OrderedMap.get?_set_self _ _ _, rfl⟩

/-- The one member is entry 2. -/
theorem requests_served_oneMember : ∃ state, requests (fileOf 1 0) (oneName 0) [] ⟨[], false, []⟩
    [.justInTimeforEachAtom (ascii "_a")] = .ok state ∧ Served (fileOf 1 0) (oneName 0) state := by
  obtain ⟨state, -, -, ran, -, -⟩ := @request_fileOf 1 0 (by decide) (by decide)
  refine ⟨state, ran, requests_served (openFile_fileOf (by decide) (by decide)) (oneName_lists (by decide))
    (fun p member _ => ?_) ran⟩
  have few : (members (fileOf 1 0)).length = 2 := by rw [members_fileOf]; rfl
  have := List.idxOf_lt_length_of_mem member
  rw [position]
  omega

/-- The counter of entry 65536 is 0. -/
theorem lastOfMany_misnumbered :
    openFile (fileOf 65535 65534) = .ok (oneName 65534, ⟨[], false, []⟩) ∧
      ListsMembers (fileOf 65535 65534) (oneName 65534) ∧
      ∃ state, requests (fileOf 65535 65534) (oneName 65534) [] ⟨[], false, []⟩
        [.justInTimeforEachAtom (ascii "_a")] = .ok state ∧ ¬Served (fileOf 65535 65534) (oneName 65534) state := by
  have opened := @openFile_fileOf 65535 65534 (by decide) (by decide)
  have listed := @oneName_lists 65535 65534 (by decide)
  obtain ⟨state, known, object, ran, found, made⟩ := @request_fileOf 65535 65534 (by decide) (by decide)
  refine ⟨opened, listed, state, ran, fun served => ?_⟩
  have starts : (tocForm (fileOf 65535 65534).fileContent).isSome = true := by
    show (tocForm (archiveOf 65535 65534)).isSome = true
    rw [tocForm_archiveOf]
    rfl
  have invariant := requests_keep starts listed invariant_empty ran
  have small := (invariant.counter_iff found made).mp (served.numbered _ known object found made)
  rw [position_fileOf (by decide)] at small
  exact absurd small (by decide)

end Cctools.Archive.Loading
