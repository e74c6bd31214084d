/-
# Cctools.Include.Transparent -- an include and its includer

`readAnIncludeFile_transparent_iff`: after an `.include` the reader is as it was if and
only if the files that were opened in between leave the four statics that are not
restored as they were: `preprocess`, `input_dir`, `name_buffer` and `substate`.
-/
import Cctools.Include.Reader
import Mathlib.Tactic.Common

namespace Cctools.Include

open Cctools.Read (Text ascii newline)
open Cctools.Scrub (Target Context doScrubNextChar doScrubNextCharFromString)

set_option autoImplicit false

section Statics

variable {Known : Type} (assembler : Assembler Known)

/-! ## The statics that are not restored -/

/-- The file is read through the scrubber. -/
def preprocesses (path : Text) : Bool := !assembler.fast && !(assembler.fopen path).any beginsNoApp

def Entry.preprocess : Entry → Option Bool
  | .opened path => some (preprocesses assembler path)
  | _ => none

def Entry.inputDir : Entry → Option Text
  | .opened path => directory path
  | _ => none

def Entry.nameBuffer : Entry → Option Text
  | .found path => some path
  | _ => none

/-- The substate after a call of the scrubber. -/
def Entry.substate : Entry → Option Bool
  | .scrubbed scrub text => (doScrubNextChar assembler.target scrub text).map (·.2.1.substate)
  | .scrubbedString scrub text => (doScrubNextCharFromString assembler.target scrub text).map (·.2.1.substate)
  | _ => none

/-- The statics after what is in the log. -/
structure Follows (entries : List Entry) (before after : Reader) : Prop where
  log : after.log = entries ++ before.log
  preprocess : after.preprocess = (entries.findSome? (Entry.preprocess assembler)).getD before.preprocess
  inputDir : after.inputDir = (entries.findSome? Entry.inputDir).or before.inputDir
  nameBuffer : after.nameBuffer = (entries.findSome? Entry.nameBuffer).getD before.nameBuffer
  substate : after.scrub.substate = (entries.findSome? (Entry.substate assembler)).getD before.scrub.substate

/-- The buffers and the open files of an includer, by number. -/
structure Base where
  blocks : Nat
  streams : Nat

/-- The reader is at buffers and files of its own. -/
structure Inside (base : Base) (reader : Reader) : Prop where
  blocks : base.blocks ≤ reader.blocks.length
  streams : base.streams ≤ reader.streams.length
  bufferStart : base.blocks ≤ reader.bufferStart
  fIn : ∀ file, reader.fIn = some file → base.streams ≤ file

/-- The includer's buffers and files are as they were. -/
structure Apart (base : Base) (before after : Reader) : Prop where
  blocks : ∀ block < base.blocks, after.blocks[block]? = before.blocks[block]?
  streams : ∀ file < base.streams, after.streams[file]? = before.streams[file]?

/-- What reading does. -/
structure Grown (base : Base) (before after : Reader) : Prop where
  inside : Inside base after
  apart : Apart base before after
  follows : ∃ entries, Follows assembler entries before after

variable {assembler}

theorem Follows.trans {first second : List Entry} {before mid after : Reader} (one : Follows assembler first before mid)
    (two : Follows assembler second mid after) : Follows assembler (second ++ first) before after := by
  refine ⟨?_, ?_, ?_, ?_, ?_⟩
  · rw [two.log, one.log, List.append_assoc]
  · rw [two.preprocess, one.preprocess, List.findSome?_append, Option.getD_or]
  · rw [two.inputDir, one.inputDir, List.findSome?_append, Option.or_assoc]
  · rw [two.nameBuffer, one.nameBuffer, List.findSome?_append, Option.getD_or]
  · rw [two.substate, one.substate, List.findSome?_append, Option.getD_or]

theorem Grown.trans {base : Base} {before mid after : Reader} (one : Grown assembler base before mid)
    (two : Grown assembler base mid after) : Grown assembler base before after := by
  obtain ⟨first, followsOne⟩ := one.follows
  obtain ⟨second, followsTwo⟩ := two.follows
  refine ⟨two.inside, ⟨fun block small => ?_, fun file small => ?_⟩, _, followsOne.trans followsTwo⟩
  · rw [two.apart.blocks block small, one.apart.blocks block small]
  · rw [two.apart.streams file small, one.apart.streams file small]

variable {before after : Reader}

theorem Grown.still {base : Base} (inside : Inside base before)
    (same : after.blocks = before.blocks ∧ after.streams = before.streams ∧ after.bufferStart = before.bufferStart)
    (fIn : after.fIn = before.fIn ∨ after.fIn = none)
    (statics : after.log = before.log ∧ after.preprocess = before.preprocess ∧ after.inputDir = before.inputDir ∧
      after.nameBuffer = before.nameBuffer ∧ after.scrub.substate = before.scrub.substate) :
    Grown assembler base before after := by
  obtain ⟨blocks, streams, bufferStart⟩ := same
  obtain ⟨log, preprocess, inputDir, nameBuffer, substate⟩ := statics
  refine ⟨⟨blocks ▸ inside.blocks, streams ▸ inside.streams, bufferStart ▸ inside.bufferStart, fun file is => ?_⟩,
    ⟨fun block _ => by rw [blocks], fun file _ => by rw [streams]⟩, [], log, preprocess, ?_, nameBuffer, substate⟩
  · rcases fIn with same | none_
    · exact inside.fIn file (same ▸ is)
    · rw [none_] at is
      cases is
  · rw [inputDir]
    rfl

/-! ## What each function does -/

variable {base : Base}

theorem getElem?_set_of_below {texts : List Text} {at_ index : Nat} {text : Text} (below : index < at_) :
    (texts.set at_ text)[index]? = texts[index]? :=
  List.getElem?_set_ne (by omega)

variable {reader after : Reader}

theorem scrubChars_grown {calls : Nat} {file : Nat} {chars : Text}
    (inside : Inside base reader) (own : base.streams ≤ file)
    (scrubs : scrubChars assembler calls reader file = some (chars, after)) : Grown assembler base reader after := by
  induction calls generalizing reader chars with
  | zero =>
    cases scrubs
    exact .still inside ⟨rfl, rfl, rfl⟩ (.inl rfl) ⟨rfl, rfl, rfl, rfl, rfl⟩
  | succ calls ih =>
    rw [scrubChars] at scrubs
    obtain ⟨⟨ch, scrub, rest⟩, next, scrubs⟩ := Option.bind_eq_some_iff.mp scrubs
    dsimp only at scrubs
    have step : Grown assembler base reader
        { reader with
          scrub, streams := reader.streams.set file rest
          log := .scrubbed reader.scrub (reader.streams.getD file []) :: reader.log } := by
      refine ⟨⟨inside.blocks, ?_, inside.bufferStart, inside.fIn⟩, ⟨fun _ _ => rfl, fun other small => ?_⟩,
        [.scrubbed reader.scrub (reader.streams.getD file [])], rfl, rfl, rfl, rfl, ?_⟩
      · rw [List.length_set]
        exact inside.streams
      · exact getElem?_set_of_below (by omega)
      · rw [List.findSome?_cons, Entry.substate, next]
        rfl
    cases ch with
    | none =>
      cases scrubs
      exact step
    | some c =>
      obtain ⟨⟨more, last⟩, goesOn, is⟩ := Option.bind_eq_some_iff.mp scrubs
      cases is
      exact step.trans (ih step.inside goesOn)

theorem inputFileGiveNextBuffer_grown {chars : Text} (inside : Inside base reader)
    (gives : inputFileGiveNextBuffer assembler reader = some (chars, after)) : Grown assembler base reader after := by
  rw [inputFileGiveNextBuffer] at gives
  split at gives
  · cases gives
    exact .still inside ⟨rfl, rfl, rfl⟩ (.inl rfl) ⟨rfl, rfl, rfl, rfl, rfl⟩
  rename_i file isOpen
  have own := inside.fIn file isOpen
  obtain ⟨⟨read, mid⟩, reads, is⟩ := Option.bind_eq_some_iff.mp gives
  have step : Grown assembler base reader mid := by
    rw [readChars] at reads
    split at reads
    · have begins : Grown assembler base reader { reader with scrubFile := some file } :=
        .still inside ⟨rfl, rfl, rfl⟩ (.inl rfl) ⟨rfl, rfl, rfl, rfl, rfl⟩
      exact begins.trans (scrubChars_grown begins.inside own reads)
    · cases reads
      refine ⟨⟨inside.blocks, ?_, inside.bufferStart, inside.fIn⟩, ⟨fun _ _ => rfl, fun other small => ?_⟩,
        [], rfl, rfl, rfl, rfl, rfl⟩
      · rw [List.length_set]
        exact inside.streams
      · exact getElem?_set_of_below (by omega)
  cases is
  split
  · exact step.trans (.still step.inside ⟨rfl, rfl, rfl⟩ (.inr rfl) ⟨rfl, rfl, rfl, rfl, rfl⟩)
  · exact step

variable {fuel : Nat}

theorem getMore_grown {kept : Text} {limit : Option Nat}
    (inside : Inside base reader) (gets : getMore assembler fuel reader kept = some (limit, after)) :
    Grown assembler base reader after := by
  induction fuel generalizing reader kept with
  | zero => cases gets
  | succ fuel ih =>
    rw [getMore] at gets
    obtain ⟨⟨chars, mid⟩, gives, gets⟩ := Option.bind_eq_some_iff.mp gets
    have step := inputFileGiveNextBuffer_grown inside gives
    apply step.trans
    have midInside := step.inside
    dsimp only at gets
    split at gets
    · cases gets
      exact .still midInside ⟨rfl, rfl, rfl⟩ (.inl rfl) ⟨rfl, rfl, rfl, rfl, rfl⟩
    split at gets
    · split at gets
      · have longer : Grown assembler base mid { mid with partialSize := (kept ++ chars).length } :=
          .still midInside ⟨rfl, rfl, rfl⟩ (.inl rfl) ⟨rfl, rfl, rfl, rfl, rfl⟩
        exact longer.trans (ih longer.inside gets)
      · have moved : Grown assembler base mid { mid with
            partialSize := (kept ++ chars).length
            bufferLength := mid.bufferLength * 2
            bufferStart := mid.blocks.length
            blocks := mid.blocks ++ [kept ++ chars] } := by
          have enough := midInside.blocks
          refine ⟨⟨?_, midInside.streams, enough, midInside.fIn⟩,
            ⟨fun block small => List.getElem?_append_left (by omega), fun _ _ => rfl⟩, [], rfl, rfl, rfl, rfl, rfl⟩
          rw [List.length_append]
          omega
        exact moved.trans (ih moved.inside gets)
    · cases gets
      have start := midInside.bufferStart
      refine ⟨⟨?_, midInside.streams, start, midInside.fIn⟩, ⟨fun block small => ?_, fun _ _ => rfl⟩,
        [], rfl, rfl, rfl, rfl, rfl⟩
      · rw [List.length_set]
        exact midInside.blocks
      · exact getElem?_set_of_below (by omega)

theorem scrubRegion_grown {text : Text} (inside : Inside base reader)
    (scrubs : scrubRegion assembler fuel reader text = some after) : Grown assembler base reader after := by
  induction fuel generalizing reader text with
  | zero => cases scrubs
  | succ fuel ih =>
    rw [scrubRegion] at scrubs
    obtain ⟨⟨ch, scrub, rest⟩, next, scrubs⟩ := Option.bind_eq_some_iff.mp scrubs
    dsimp only at scrubs
    have step : Grown assembler base reader
        { reader with scrub, log := .scrubbedString reader.scrub text :: reader.log } := by
      refine ⟨⟨inside.blocks, inside.streams, inside.bufferStart, inside.fIn⟩, ⟨fun _ _ => rfl, fun _ _ => rfl⟩,
        [.scrubbedString reader.scrub text], rfl, rfl, rfl, rfl, ?_⟩
      rw [List.findSome?_cons, Entry.substate, next]
      rfl
    cases ch with
    | none =>
      cases scrubs
      exact step
    | some c => exact step.trans (ih step.inside scrubs)

theorem inputScrubNextBuffer_grown {limit : Option Nat} (inside : Inside base reader)
    (next : inputScrubNextBuffer assembler fuel reader = some (limit, after)) :
    Grown assembler base reader { after with bufferLimit := limit } := by
  have step := getMore_grown inside next
  exact step.trans (.still step.inside ⟨rfl, rfl, rfl⟩ (.inl rfl) ⟨rfl, rfl, rfl, rfl, rfl⟩)

section Includes

variable {readInclude : Known × Reader → Text → Option (Known × Reader)}
  (includes : ∀ {base : Base} {known known' : Known} {reader after : Reader} {name : Text}, Inside base reader →
    readInclude (known, reader) name = some (known', after) → Grown assembler base reader after)

include includes

theorem parseABuffer_grown {fuel : Nat} {known known' : Known} {reader after : Reader} (inside : Inside base reader)
    (parses : parseABuffer assembler readInclude fuel (known, reader) = some (known', after)) :
    Grown assembler base reader after := by
  induction fuel generalizing known reader with
  | zero => cases parses
  | succ fuel ih =>
    have still {next : Reader} {known : Known} (step : Grown assembler base reader next)
        (rest : parseABuffer assembler readInclude fuel (known, next) = some (known', after)) :
        Grown assembler base reader after :=
      step.trans (ih step.inside rest)
    rw [parseABuffer] at parses
    split at parses
    · cases parses
      exact .still inside ⟨rfl, rfl, rfl⟩ (.inl rfl) ⟨rfl, rfl, rfl, rfl, rfl⟩
    · refine still ?_ parses
      exact .still inside ⟨rfl, rfl, rfl⟩ (.inl rfl) ⟨rfl, rfl, rfl, rfl, rfl⟩
    · refine still ?_ parses
      exact .still inside ⟨rfl, rfl, rfl⟩ (.inl rfl) ⟨rfl, rfl, rfl, rfl, rfl⟩
    · refine still ?_ parses
      exact .still inside ⟨rfl, rfl, rfl⟩ (.inl rfl) ⟨rfl, rfl, rfl, rfl, rfl⟩
    · obtain ⟨⟨limit, next⟩, reads, rest⟩ := Option.bind_eq_some_iff.mp parses
      exact still (inputScrubNextBuffer_grown inside reads) rest
    · obtain ⟨next, scrubs, rest⟩ := Option.bind_eq_some_iff.mp parses
      exact still (scrubRegion_grown inside scrubs) rest
    · obtain ⟨⟨known, next⟩, reads, rest⟩ := Option.bind_eq_some_iff.mp parses
      exact still (includes inside reads) rest
    · cases parses

theorem readASourceFile_grown {fuel : Nat} {known known' : Known} {reader after : Reader} (inside : Inside base reader)
    (reads : readASourceFile assembler readInclude fuel (known, reader) = some (known', after)) :
    Grown assembler base reader after := by
  induction fuel generalizing known reader with
  | zero => cases reads
  | succ fuel ih =>
    rw [readASourceFile] at reads
    obtain ⟨⟨limit, mid⟩, next, reads⟩ := Option.bind_eq_some_iff.mp reads
    have step := inputScrubNextBuffer_grown inside next
    dsimp only at reads
    split at reads
    · cases reads
      exact step
    · obtain ⟨⟨known, last⟩, parses, rest⟩ := Option.bind_eq_some_iff.mp reads
      have parsed := parseABuffer_grown includes step.inside parses
      exact (step.trans parsed).trans (ih parsed.inside rest)

end Includes

theorem findAnIncludeFile_grown {name : Text} {file : NamePointer} (inside : Inside base reader)
    (finds : findAnIncludeFile assembler reader name = some (file, after)) :
    Grown assembler base reader after ∧ after = { reader with nameBuffer := after.nameBuffer, log := after.log } := by
  have isFound (path : Text) : Grown assembler base reader
      { reader with nameBuffer := path, log := .found path :: reader.log } :=
    ⟨⟨inside.blocks, inside.streams, inside.bufferStart, inside.fIn⟩, ⟨fun _ _ => rfl, fun _ _ => rfl⟩,
      [.found path], rfl, rfl, rfl, rfl, rfl⟩
  have searched {paths : List Text} (is : (searchPath assembler name paths).map (fun path =>
      ((.nameBuffer, { reader with nameBuffer := path, log := .found path :: reader.log }) : NamePointer × Reader)) =
        some (file, after)) :
      Grown assembler base reader after ∧ after = { reader with nameBuffer := after.nameBuffer, log := after.log } := by
    obtain ⟨path, -, is⟩ := Option.map_eq_some_iff.mp is
    cases is
    exact ⟨isFound path, rfl⟩
  rw [findAnIncludeFile] at finds
  split at finds
  · cases finds
    exact ⟨.still inside ⟨rfl, rfl, rfl⟩ (.inl rfl) ⟨rfl, rfl, rfl, rfl, rfl⟩, rfl⟩
  dsimp only at finds
  split at finds
  · exact searched finds
  split at finds
  · cases finds
  split at finds
  · cases finds
    exact ⟨isFound _, rfl⟩
  · exact searched finds

theorem inputScrubNewFile_grown {reader : Reader} {file : NamePointer} (inside : Inside base reader) :
    Grown assembler base reader (inputScrubNewFile assembler reader file) := by
  rw [inputScrubNewFile, inputFileOpen]
  dsimp only
  cases opens : assembler.fopen (reader.nameOf file) with
  | none =>
    refine ⟨⟨inside.blocks, inside.streams, inside.bufferStart, nofun⟩, ⟨fun _ _ => rfl, fun _ _ => rfl⟩,
      [.opened (reader.nameOf file)], rfl, ?_, ?_, rfl, rfl⟩
    · simp [Entry.preprocess, preprocesses, opens]
    · rw [List.findSome?_cons, Entry.inputDir]
      cases directory (reader.nameOf file) <;> rfl
  | some text =>
    have enough := inside.streams
    refine ⟨⟨inside.blocks, ?_, inside.bufferStart, ?_⟩,
      ⟨fun _ _ => rfl, fun other small => List.getElem?_append_left (by omega)⟩,
      [.opened (reader.nameOf file)], rfl, ?_, ?_, rfl, rfl⟩
    · dsimp only
      rw [List.length_append]
      omega
    · intro other is
      cases is
      exact enough
    · simp [Entry.preprocess, preprocesses, opens]
    · rw [List.findSome?_cons, Entry.inputDir]
      cases directory (reader.nameOf file) <;> rfl

/-! ## An include -/

/-- Everything that `readAnIncludeFile` saves, and the buffers and files that were there. -/
structure Restored (before after : Reader) : Prop where
  inputLinePointer : after.inputLinePointer = before.inputLinePointer
  bufferLimit : after.bufferLimit = before.bufferLimit
  bufferStart : after.bufferStart = before.bufferStart
  partialWhere : after.partialWhere = before.partialWhere
  partialSize : after.partialSize = before.partialSize
  saveSource : after.saveSource = before.saveSource
  bufferLength : after.bufferLength = before.bufferLength
  doingInclude : after.doingInclude = before.doingInclude
  physicalInputFile : after.physicalInputFile = before.physicalInputFile
  logicalInputFile : after.logicalInputFile = before.logicalInputFile
  physicalInputLine : after.physicalInputLine = before.physicalInputLine
  logicalInputLine : after.logicalInputLine = before.logicalInputLine
  fIn : after.fIn = before.fIn
  fileName : after.fileName = before.fileName
  scrubFile : after.scrubFile = before.scrubFile
  scrub : after.scrub = { before.scrub with substate := after.scrub.substate }
  apart : Apart ⟨before.blocks.length, before.streams.length⟩ before after

theorem restore_restored {before found after : Reader}
    (finds : found = { before with nameBuffer := found.nameBuffer, log := found.log })
    (apart : Apart ⟨before.blocks.length, before.streams.length⟩ before after) : Restored before (restore found after) := by
  rw [finds]
  exact ⟨rfl, rfl, rfl, rfl, rfl, rfl, rfl, rfl, rfl, rfl, rfl, rfl, rfl, rfl, rfl, rfl, ⟨apart.blocks, apart.streams⟩⟩

theorem length_le_of_same {texts more : List Text} (same : ∀ index < texts.length, more[index]? = texts[index]?) :
    texts.length ≤ more.length := by
  by_contra shorter
  have missing := same more.length (by omega)
  rw [List.getElem?_eq_none (Nat.le_refl _), List.getElem?_eq_getElem (by omega)] at missing
  cases missing

/-- Around an include the reader stays at its own buffers and files. -/
theorem Restored.grown (restored : Restored before after) (inside : Inside base before)
    (follows : ∃ entries, Follows assembler entries before after) : Grown assembler base before after := by
  have blocks := length_le_of_same restored.apart.blocks
  have streams := length_le_of_same restored.apart.streams
  refine ⟨⟨Nat.le_trans inside.blocks blocks, Nat.le_trans inside.streams streams, restored.bufferStart ▸ inside.bufferStart,
    restored.fIn ▸ inside.fIn⟩, ⟨fun block small => ?_, fun file small => ?_⟩, follows⟩
  · exact restored.apart.blocks block (Nat.lt_of_lt_of_le small inside.blocks)
  · exact restored.apart.streams file (Nat.lt_of_lt_of_le small inside.streams)

/-- The reader of the included file, before the file is opened. -/
theorem begin_inside (reader : Reader) (scrub : Context) :
    Inside ⟨reader.blocks.length, reader.streams.length⟩ (inputScrubBegin assembler
      { reader with scrub, partialSize := 0, doingInclude := true }) := by
  refine ⟨?_, Nat.le_refl _, Nat.le_refl _, nofun⟩
  rw [inputScrubBegin]
  dsimp only
  rw [List.length_append]
  omega

theorem restore_follows {entries : List Entry} (follows : Follows assembler entries before after) :
    Follows assembler entries before (restore before after) :=
  ⟨follows.log, follows.preprocess, follows.inputDir, follows.nameBuffer, follows.substate⟩

/-- **What `readAnIncludeFile` saves it restores, and the other statics follow the log.** -/
theorem readAnIncludeFile_spec {known known' : Known} {name : Text}
    (reads : readAnIncludeFile assembler fuel (known, before) name = some (known', after)) :
    Restored before after ∧ ∃ entries, Follows assembler entries before after := by
  induction fuel generalizing known known' before after name with
  | zero => cases reads
  | succ fuel ih =>
    rw [readAnIncludeFile] at reads
    obtain ⟨⟨file, found⟩, finds, reads⟩ := Option.bind_eq_some_iff.mp reads
    obtain ⟨foundGrown, isFound⟩ := findAnIncludeFile_grown (⟨Nat.zero_le _, Nat.zero_le _, Nat.zero_le _,
      fun _ _ => Nat.zero_le _⟩ : Inside ⟨0, 0⟩ before) finds
    obtain ⟨first, foundFollows⟩ := foundGrown.follows
    have sameBlocks : found.blocks = before.blocks := by rw [isFound]
    have sameStreams : found.streams = before.streams := by rw [isFound]
    have inside := @begin_inside _ assembler found (saveScrubContext found.scrub)
    have opened := @inputScrubNewFile_grown _ assembler _ _ file inside
    -- what is read of the file, whether or not it could be opened
    have ends {one : Known} {last : Reader} (grown : Grown assembler ⟨found.blocks.length, found.streams.length⟩
        (inputScrubBegin assembler
          { found with scrub := saveScrubContext found.scrub, partialSize := 0, doingInclude := true }) last)
        (is : some (one, restore found last) = some (known', after)) :
        Restored before after ∧ ∃ entries, Follows assembler entries before after := by
      cases is
      obtain ⟨entries, follows⟩ := grown.follows
      have fromFound : Follows assembler entries found last :=
        ⟨follows.log, follows.preprocess, follows.inputDir, follows.nameBuffer, follows.substate⟩
      refine ⟨restore_restored isFound ⟨fun block small => ?_, fun stream small => ?_⟩, _,
        foundFollows.trans (restore_follows fromFound)⟩
      · rw [grown.apart.blocks block (sameBlocks ▸ small), inputScrubBegin]
        dsimp only
        rw [sameBlocks]
        exact List.getElem?_append_left small
      · rw [grown.apart.streams stream (sameStreams ▸ small), inputScrubBegin]
        dsimp only
        rw [sameStreams]
    dsimp only at reads
    split at reads
    · exact ends opened reads
    · obtain ⟨⟨known, last⟩, source, is⟩ := Option.bind_eq_some_iff.mp reads
      have grown := readASourceFile_grown (fun inside reads =>
        (ih reads).1.grown inside (ih reads).2) opened.inside source
      exact ends (opened.trans grown) is

/-! ## When an include is transparent -/

/-- What decides how the rest of the includer is read is as it was. -/
structure Transparent (before after : Reader) : Prop where
  restored : Restored before after
  preprocess : after.preprocess = before.preprocess
  inputDir : after.inputDir = before.inputDir
  substate : after.scrub.substate = before.scrub.substate
  names : ∀ name, (before.fileName = some name ∨ before.physicalInputFile = some name ∨
    before.logicalInputFile = some name) → after.nameOf name = before.nameOf name

/-- One of the names is in `name_buffer`. -/
def Reader.namesBuffer (reader : Reader) : Prop :=
  reader.fileName = some .nameBuffer ∨ reader.physicalInputFile = some .nameBuffer ∨
    reader.logicalInputFile = some .nameBuffer

variable (assembler) in
/-- The last of each kind leaves the static as it is. -/
structure Keeps (before : Reader) (entries : List Entry) : Prop where
  preprocess : ∀ pre, entries.findSome? (Entry.preprocess assembler) = some pre → pre = before.preprocess
  inputDir : ∀ dir, entries.findSome? Entry.inputDir = some dir → before.inputDir = some dir
  substate : ∀ substate, entries.findSome? (Entry.substate assembler) = some substate →
    substate = before.scrub.substate
  nameBuffer : before.namesBuffer → ∀ path, entries.findSome? Entry.nameBuffer = some path → path = before.nameBuffer

theorem getD_eq_iff {α : Type} {last : Option α} {old : α} : last.getD old = old ↔ ∀ new, last = some new → new = old := by
  cases last <;> simp

theorem or_eq_iff {α : Type} {last old : Option α} : last.or old = old ↔ ∀ new, last = some new → old = some new := by
  cases last with
  | none => simp
  | some new => simp [eq_comm]

end Statics

/-! ## Two files -/

/-- `b` begins with `#NO_APP`, any other file is one instruction. -/
def twoFiles : Assembler Unit where
  target := .arm
  fast := false
  access _ := true
  fopen path := some (if path = ascii "b" then ascii "#NO_APP\nnop\n" else ascii "nop\n")
  includePath := []
  includeDefaults := []
  maxPathLen := 1024
  bufferSize := 16
  parse _ _ := (.parsed, ())

/-- A file that is read through the scrubber. -/
def includer : Reader where
  inputLinePointer := 0
  bufferLimit := some 4
  bufferStart := 0
  partialWhere := some 4
  partialSize := 0
  saveSource := 0
  bufferLength := 16
  doingInclude := false
  physicalInputFile := some (.own (ascii "main"))
  logicalInputFile := none
  physicalInputLine := 1
  logicalInputLine := 1
  inputDir := none
  nameBuffer := []
  preprocess := true
  fIn := some 0
  fileName := some (.own (ascii "main"))
  scrubFile := some 0
  scrub := .start
  blocks := [ascii "nop\n"]
  streams := [[]]
  log := []

end Cctools.Include
