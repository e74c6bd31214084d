/-
# Cctools.Include.Reader -- the files that the assembler reads

`input-file.c`, `input-scrub.c` and the context of `app.c`: a source file is opened, its
buffers of whole lines are given to the parser, and `.include` reads another file in
between.  `readAnIncludeFile` saves the statics one by one and restores them.

A buffer and an open file are known by a number; what is allocated or opened is a new one.
The parser is the `Assembler`'s: it says what happens next (`Event`).  `fuel` bounds the
loops and the depth of includes, and `none` is a fatal error or a loop that does not end.
-/
import Cctools.Scrub.NextChar

namespace Cctools.Include

open Cctools.Read (Text ascii newline)
open Cctools.Scrub (Target Context doScrubNextChar doScrubNextCharFromString)

set_option autoImplicit false

/-! ## The statics -/

/-- A `char *` to a file's name: a string of its own, or `name_buffer`. -/
inductive NamePointer
  | own (name : Text)
  | nameBuffer
  deriving DecidableEq, Repr

/-- What is not in the source: the files found and opened, and the scrubber's calls. -/
inductive Entry
  | found (path : Text)
  | opened (path : Text)
  | scrubbed (scrub : Context) (text : Text)
  | scrubbedString (scrub : Context) (text : Text)
  deriving DecidableEq, Repr

structure Reader where
  -- read.c
  inputLinePointer : Nat
  bufferLimit : Option Nat
  -- input-scrub.c
  bufferStart : Nat
  partialWhere : Option Nat
  partialSize : Nat
  saveSource : UInt8
  bufferLength : Nat
  doingInclude : Bool
  physicalInputFile : Option NamePointer
  logicalInputFile : Option NamePointer
  physicalInputLine : BitVec 32
  logicalInputLine : BitVec 32
  inputDir : Option Text
  /-- In `find_an_include_file`. -/
  nameBuffer : Text
  -- input-file.c
  preprocess : Bool
  fIn : Option Nat
  fileName : Option NamePointer
  -- app.c
  scrubFile : Option Nat
  scrub : Context
  /-- The buffers, each without the newline before it. -/
  blocks : List Text
  /-- What is left of the open files. -/
  streams : List Text
  /-- The last entry comes first. -/
  log : List Entry
  deriving DecidableEq, Repr

/-- What the parser does to the statics. -/
inductive Event
  | parsed
  | bumpLineCounters
  | newLogicalLine (file : Option Text) (line : Option (BitVec 32))
  | moveTo (inputLinePointer : Nat) (bufferLimit : Option Nat)
  /-- `parse_line_comment` goes on to the next buffer. -/
  | nextBuffer
  /-- `parse_line_comment` scrubs what is between `#APP` and `#NO_APP`. -/
  | scrubRegion (region : Text)
  | includeFile (name : Text)
  | fatal
  deriving DecidableEq, Repr

/-- The parser, with what it knows (`Known`), the files and the command line. -/
structure Assembler (Known : Type) where
  target : Target
  /-- `flagseen['f']` -/
  fast : Bool
  /-- `!access(name, R_OK)` -/
  access : Text → Bool
  /-- What `fopen` finds; nothing is `stdin`. -/
  fopen : Text → Option Text
  includePath : List Text
  includeDefaults : List Text
  maxPathLen : Nat
  bufferSize : Nat
  parse : Known → Reader → Event × Known

def Reader.nameOf (reader : Reader) : NamePointer → Text
  | .own name => name
  | .nameBuffer => reader.nameBuffer

/-! ## input-file.c -/

/-- `fgets(buf, 80, f_in)` -/
def fgetsLine (text : Text) : Text := (text.takeWhile (· ≠ newline) ++ [newline]).take (min 79 text.length)

/-- The file begins with `#NO_APP`. -/
def beginsNoApp : Text → Bool
  | 35 :: 78 :: rest => fgetsLine rest = ascii "O_APP\n"
  | _ => false

/-- The first characters are read, and one of them is put back. -/
def lookedAt : Text → Text
  | 35 :: 78 :: rest =>
    (if newline ∈ fgetsLine rest then newline else 35) :: rest.drop (fgetsLine rest).length
  | 35 :: c :: rest => (if c = newline then newline else 35) :: rest
  | text => text

section Files

variable {Known : Type} (assembler : Assembler Known)

def inputFileOpen (reader : Reader) (file : NamePointer) (pre : Bool) : Reader :=
  let path := reader.nameOf file
  let reader := { reader with
    preprocess := pre
    fileName := some (if path = [] then .own (ascii "{standard input}") else file)
    log := .opened path :: reader.log }
  match assembler.fopen path with
  | none => { reader with fIn := none }
  | some text =>
    { reader with
      preprocess := pre && !beginsNoApp text
      fIn := some reader.streams.length
      streams := reader.streams ++ [lookedAt text] }

/-- Some calls of `do_scrub_next_char`, up to `EOF`. -/
def scrubChars : Nat → Reader → Nat → Option (Text × Reader)
  | 0, reader, _ => some ([], reader)
  | calls + 1, reader, file => do
      let text := reader.streams.getD file []
      let (ch, scrub, rest) ← doScrubNextChar assembler.target reader.scrub text
      let reader := { reader with
        scrub, streams := reader.streams.set file rest, log := .scrubbed reader.scrub text :: reader.log }
      match ch with
      | none => some ([], reader)
      | some c =>
        let (chars, reader) ← scrubChars calls reader file
        some (c :: chars, reader)

/-- A chunk of the open file. -/
def readChars (reader : Reader) (file : Nat) : Option (Text × Reader) :=
  if reader.preprocess then scrubChars assembler assembler.bufferSize { reader with scrubFile := some file } file
  else
    let text := reader.streams.getD file []
    some (text.take assembler.bufferSize,
      { reader with streams := reader.streams.set file (text.drop assembler.bufferSize) })

/-- The characters it places are empty at the end of the file. -/
def inputFileGiveNextBuffer (reader : Reader) : Option (Text × Reader) :=
  match reader.fIn with
  | none => some ([], reader)
  | some file => do
      let (chars, reader) ← readChars assembler reader file
      some (chars, if chars = [] then { reader with fIn := none } else reader)

/-! ## input-scrub.c -/

def inputScrubBegin (reader : Reader) : Reader :=
  { reader with
    fIn := none
    bufferLength := assembler.bufferSize
    bufferStart := reader.blocks.length
    blocks := reader.blocks ++ [[]]
    logicalInputLine := 0
    logicalInputFile := none
    physicalInputFile := none }

/-- The directory of a file's name, with its slash. -/
def directory (path : Text) : Option Text :=
  let base := path.reverse.takeWhile (· ≠ 47)
  if base.length < path.length ∧ base ≠ [] then some (path.take (path.length - base.length)) else none

def inputScrubNewFile (reader : Reader) (file : NamePointer) : Reader :=
  let path := reader.nameOf file
  let reader := inputFileOpen assembler reader file (!assembler.fast)
  { reader with
    physicalInputFile := some (if path = [] then .own (ascii "{standard input}") else file)
    physicalInputLine := 0
    inputDir := (directory path).or reader.inputDir
    partialSize := 0 }

/-- The place behind the last newline. -/
def behindLastNewline (text : Text) : Nat := text.length - (text.reverse.takeWhile (· ≠ newline)).length

/-- `get_more:` -/
def getMore : Nat → Reader → Text → Option (Option Nat × Reader)
  | 0, _, _ => none
  | fuel + 1, reader, kept => do
      let (chars, reader) ← inputFileGiveNextBuffer assembler reader
      if chars = [] then some (none, { reader with partialWhere := none })
      else
        let text := kept ++ chars
        let place := behindLastNewline text
        if place = 0 then
          let reader := { reader with partialSize := text.length }
          -- the buffer is moved when there is no room for another chunk
          if assembler.bufferSize < 1 + reader.bufferLength * 2 - (1 + text.length) then getMore fuel reader text
          else
            getMore fuel { reader with
              bufferLength := reader.bufferLength * 2
              bufferStart := reader.blocks.length
              blocks := reader.blocks ++ [text] } text
        else
          some (some place, { reader with
            partialWhere := some place
            partialSize := text.length - place
            saveSource := text.getD place 0
            blocks := reader.blocks.set reader.bufferStart (text.take place ++ 0 :: text.drop (place + 1)) })

def inputScrubNextBuffer (fuel : Nat) (reader : Reader) : Option (Option Nat × Reader) :=
  let block := reader.blocks.getD reader.bufferStart []
  let kept := (block.drop (reader.partialWhere.getD 0)).take reader.partialSize
  getMore assembler fuel reader (if kept = [] then [] else reader.saveSource :: kept.tail)

def bumpLineCounters (reader : Reader) : Reader :=
  { reader with physicalInputLine := reader.physicalInputLine + 1, logicalInputLine := reader.logicalInputLine + 1 }

def newLogicalLine (reader : Reader) (file : Option Text) (line : Option (BitVec 32)) : Reader :=
  { reader with
    logicalInputFile := (file.map .own).or reader.logicalInputFile
    logicalInputLine := line.getD reader.logicalInputLine }

/-- The first of the names that can be read; `none` is fatal. -/
def searchPath (name : Text) : List Text → Option Text
  | [] => none
  | path :: paths =>
    if assembler.maxPathLen ≤ path.length + name.length then none
    else if assembler.access (path ++ ascii "/" ++ name) then some (path ++ ascii "/" ++ name)
    else searchPath name paths

def findAnIncludeFile (reader : Reader) (name : Text) : Option (NamePointer × Reader) :=
  if assembler.access name then some (.own name, reader)
  else
    let found (path : Text) : NamePointer × Reader :=
      (.nameBuffer, { reader with nameBuffer := path, log := .found path :: reader.log })
    match (if name.head? = some 47 then none else reader.inputDir) with
    | none => (searchPath assembler name (assembler.includePath ++ assembler.includeDefaults)).map found
    | some dir =>
      if assembler.maxPathLen ≤ dir.length + name.length then none
      else if assembler.access (dir ++ name) then some (found (dir ++ name))
      else (searchPath assembler name (assembler.includePath ++ assembler.includeDefaults)).map found

/-! ## app.c -/

def saveScrubContext (scrub : Context) : Context :=
  { scrub with state := .lineStart, oldState := .lineStart, outString := .literal [], outBuf := [], addNewlines := 0 }

def restoreScrubContext (saved scrub : Context) : Context :=
  { scrub with
    state := saved.state, oldState := saved.oldState, outString := saved.outString, outBuf := saved.outBuf,
    addNewlines := saved.addNewlines }

/-! ## Reading -/

/-- `do_scrub_next_char_from_string` until `EOF`. -/
def scrubRegion : Nat → Reader → Text → Option Reader
  | 0, _, _ => none
  | fuel + 1, reader, text => do
      let (ch, scrub, rest) ← doScrubNextCharFromString assembler.target reader.scrub text
      let reader := { reader with scrub, log := .scrubbedString reader.scrub text :: reader.log }
      match ch with
      | none => some reader
      | some _ => scrubRegion fuel reader rest

section Reading

variable (readInclude : Known × Reader → Text → Option (Known × Reader))

/-- `parse_a_buffer` -/
def parseABuffer : Nat → Known × Reader → Option (Known × Reader)
  | 0, _ => none
  | fuel + 1, (known, reader) =>
    match assembler.parse known reader with
    | (.parsed, known) => some (known, reader)
    | (.bumpLineCounters, known) => parseABuffer fuel (known, bumpLineCounters reader)
    | (.newLogicalLine file line, known) => parseABuffer fuel (known, newLogicalLine reader file line)
    | (.moveTo place limit, known) =>
      parseABuffer fuel (known, { reader with inputLinePointer := place, bufferLimit := limit })
    | (.nextBuffer, known) => do
        let (limit, reader) ← inputScrubNextBuffer assembler fuel reader
        parseABuffer fuel (known, { reader with bufferLimit := limit })
    | (.scrubRegion region, known) => do
        let reader ← scrubRegion assembler fuel reader region
        parseABuffer fuel (known, reader)
    | (.includeFile name, known) => do
        let both ← readInclude (known, reader) name
        parseABuffer fuel both
    | (.fatal, _) => none

/-- The loop of `read_a_source_file`. -/
def readASourceFile : Nat → Known × Reader → Option (Known × Reader)
  | 0, _ => none
  | fuel + 1, (known, reader) => do
      let (limit, reader) ← inputScrubNextBuffer assembler fuel reader
      let reader := { reader with bufferLimit := limit }
      if limit = none then some (known, reader)
      else
        let both ← parseABuffer assembler readInclude fuel (known, reader)
        readASourceFile fuel both

end Reading

/-- What `read_an_include_file` restores. -/
def restore (before after : Reader) : Reader :=
  { after with
    bufferLimit := before.bufferLimit
    bufferStart := before.bufferStart
    doingInclude := before.doingInclude
    fIn := before.fIn
    fileName := before.fileName
    inputLinePointer := before.inputLinePointer
    logicalInputFile := before.logicalInputFile
    logicalInputLine := before.logicalInputLine
    partialSize := before.partialSize
    partialWhere := before.partialWhere
    physicalInputFile := before.physicalInputFile
    physicalInputLine := before.physicalInputLine
    saveSource := before.saveSource
    bufferLength := before.bufferLength
    scrubFile := before.scrubFile
    scrub := restoreScrubContext before.scrub after.scrub }

def readAnIncludeFile : Nat → Known × Reader → Text → Option (Known × Reader)
  | 0, _, _ => none
  | fuel + 1, (known, before), name => do
      let (file, before) ← findAnIncludeFile assembler before name
      let reader := { before with
        scrub := saveScrubContext before.scrub, partialSize := 0, doingInclude := true }
      let reader := inputScrubNewFile assembler (inputScrubBegin assembler reader) file
      if reader.fIn = none then some (known, restore before reader)
      else
        let (known, reader) ← readASourceFile assembler (readAnIncludeFile fuel) fuel (known, reader)
        some (known, restore before reader)

end Files

end Cctools.Include
