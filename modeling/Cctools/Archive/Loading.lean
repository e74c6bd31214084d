/-
# Cctools.Archive.Loading -- ld loads the members of an archive

ld makes an object file of a member when it is first needed and gives its atoms to the handler
when it is loaded.  What it knows of the members is in a map with the entries by their addresses.
When a member is needed that is not in there, all entries up to it are put in, numbered from the
last one that is, and without object files.

The readers of Mach-O and of bitcode files are parameters.
-/
import Cctools.Archive.TableOfContents
import Cctools.Theory.OrderedMap

namespace Cctools.Archive.Loading

set_option autoImplicit false

open Cctools.Theory

/-! ## Files -/

inductive ArchiveLoadMode
  | lazy
  | objc
  | forceLoad
  deriving DecidableEq, Repr

/-- The reader of bitcode files. -/
structure Lto (Object : Type) where
  isObjectFile : List UInt8 → Bool
  parse : List UInt8 → Except String (Option Object)
  hasObjCCategory : List UInt8 → Bool

/-- What ld does with the content of a member.  `lto` is there with `LTO_SUPPORT`. -/
structure Parsers (Object : Type) where
  isObjectFile : List UInt8 → Bool
  parse : List UInt8 → Except String (Option Object)
  hasObjCCategories : List UInt8 → Bool
  /-- Whether there are atoms to give to a handler. -/
  forEachAtom : Object → Bool
  symbolIsDataDefinition : Object → List UInt8 → Bool
  lto : Option (Lto Object)

/-- What `File<A>::File` is given. -/
structure ArchiveFile (Object : Type) where
  base : Nat
  fileContent : List UInt8
  path : List UInt8
  ordinal : BitVec 64
  loadMode : ArchiveLoadMode
  verboseLoad : Bool
  parsers : Parsers Object

/-- Partition, major and minor index of the file's ordinal, and a counter of sixteen bits. -/
def archiveOrdinalWithMemberIndex (ordinal : BitVec 64) (memberIndex : BitVec 16) : BitVec 64 :=
  ordinal.extractLsb' 16 48 ++ memberIndex

/-- `Ordinal::counter`. -/
def counter (ordinal : BitVec 64) : BitVec 16 := ordinal.setWidth 16

@[simp] theorem counter_archiveOrdinal (ordinal : BitVec 64) (memberIndex : BitVec 16) :
    counter (archiveOrdinalWithMemberIndex ordinal memberIndex) = memberIndex := by
  rw [counter, archiveOrdinalWithMemberIndex, BitVec.setWidth_append]
  simp

/-- An `ld::relocatable::File`. -/
structure ObjectFile (Object : Type) where
  object : Object
  ordinal : BitVec 64

structure MemberState (Object : Type) where
  file : Option (ObjectFile Object)
  entry : Nat
  logged : Bool
  loaded : Bool
  index : BitVec 32

structure LoadState (Object : Type) where
  instantiatedEntries : OrderedMap Nat (MemberState Object)
  alreadyLoadedAll : Bool
  /-- The members whose atoms the handler was given, the first one first. -/
  handed : List Nat

/-- Why `makeObjectFileForMember` throws. -/
inductive Reason
  /-- "corrupt archive, member starts past end of file" -/
  | startsPastEnd
  /-- "corrupt archive, member contents extends past end of file" -/
  | contentsPastEnd
  /-- "archive member '%s' with length %d is not mach-o or llvm bitcode" -/
  | notAnObject (memberName : List UInt8) (length : Nat)
  | parser (message : String)

inductive Failure
  /-- "not an archive" -/
  | notAnArchive
  /-- "archive has no table of contents" -/
  | noTableOfContents
  | malformedArchive (reason : MalformedArchive)
  /-- "in %s, %s" -/
  | inMember (memberPath : List UInt8) (reason : Reason)
  | assertion (text : String)
  | nullPointer
  | endless

section Loading

variable {Object : Type} (file : ArchiveFile Object)

/-- The content of a member. -/
def memberContent (member : Nat) : List UInt8 :=
  (file.fileContent.drop (content file.fileContent member)).take (contentSize file.fileContent member)

/-- `getName`, which asserts that the name fits. -/
def memberName (member : Nat) : Except Failure (List UInt8) :=
  match getName file.fileContent member with
  | some name => .ok name
  | none => .error (.assertion "bufsz >= len+1")

/-- The first member, if it is a table of contents. -/
def isTableOfContents (member : Nat) : Bool := member = 8 && (tocForm file.fileContent).isSome

def validMachOFile (member : Nat) : Bool := file.parsers.isObjectFile (memberContent file member)

def validLTOFile (lto : Lto Object) (member : Nat) : Bool :=
  let fileContent := memberContent file member
  if fileContent.length < 32 then false
  else if readLe 4 fileContent = 0xfeedface || readLe 4 fileContent = 0xfeedfacf then false
  else lto.isObjectFile fileContent

/-! ## One member -/

/-- The entry behind the last one that is known, and its index. -/
def firstUnknown (state : LoadState Object) : Nat × BitVec 32 :=
  match state.instantiatedEntries.getLast? with
  | none => (8, 1)
  | some (_, lastKnown) => (next file.base file.fileContent lastKnown.entry, lastKnown.index + 1)

/-- The loop that puts entries in, up to `member`. -/
def addEntriesTo (member : Nat) : Nat → Nat → BitVec 32 → OrderedMap Nat (MemberState Object) → BitVec 32 →
    Except Failure (OrderedMap Nat (MemberState Object) × BitVec 32)
  | 0, _, _, _, _ => .error .endless
  | fuel + 1, p, index, entries, memberIndex =>
    if p ≤ member then
      addEntriesTo member fuel (next file.base file.fileContent p) (index + 1)
        (entries.set p ⟨none, p, false, false, index⟩) (if member = p then index else memberIndex)
    else .ok (entries, memberIndex)

/-- What the readers make of a member's content, the one of bitcode files last. -/
def parseContent (fileContent memberName : List UInt8) : Except Reason Object :=
  match file.parsers.parse fileContent with
  | .error message => .error (.parser message)
  | .ok (some object) => .ok object
  | .ok none =>
    match file.parsers.lto with
    | none => .error (.notAnObject memberName fileContent.length)
    | some lto =>
      match lto.parse fileContent with
      | .error message => .error (.parser message)
      | .ok (some object) => .ok object
      | .ok none => .error (.notAnObject memberName fileContent.length)

def parseMember (memberIndex : BitVec 32) (member : Nat) (memberName : List UInt8) : Except Reason (ObjectFile Object) :=
  if file.fileContent.length < member then .error .startsPastEnd
  else if file.fileContent.length < content file.fileContent member + contentSize file.fileContent member then
    .error .contentsPastEnd
  else do
    let object ← parseContent file (memberContent file member) memberName
    return ⟨object, archiveOrdinalWithMemberIndex file.ordinal (memberIndex.setWidth 16)⟩

/-- The second half of `makeObjectFileForMember`, once the index is known. -/
def makeWithIndex (state : LoadState Object) (member : Nat) (memberIndex : BitVec 32) :
    Except Failure (LoadState Object) :=
  if memberIndex = 0 then .error (.assertion "memberIndex != 0")
  else do
    let memberName ← memberName file member
    match parseMember file memberIndex member memberName with
    | .error reason => .error (.inMember (file.path ++ ascii "(" ++ memberName ++ ascii ")") reason)
    | .ok result =>
      return { state with
        instantiatedEntries := state.instantiatedEntries.set member ⟨some result, member, false, false, memberIndex⟩ }

def makeObjectFileForMember (state : LoadState Object) (member : Nat) : Except Failure (LoadState Object) :=
  match state.instantiatedEntries.get? member with
  | some known =>
    if known.file.isSome then .ok state else makeWithIndex file state member known.index
  | none => do
      let start := firstUnknown file state
      let (entries, memberIndex) ←
        addEntriesTo file member (file.fileContent.length + 2) start.1 start.2 state.instantiatedEntries 0
      makeWithIndex file { state with instantiatedEntries := entries } member memberIndex

/-- `loadMember`, which gives the atoms to the handler unless that was done before. -/
def loadMember (state : LoadState Object) (member : Nat) : Except Failure (LoadState Object × Bool) :=
  match state.instantiatedEntries.get? member with
  | none => .error .nullPointer
  | some known =>
    if known.loaded then .ok (state, false)
    else
      match known.file with
      | none => .error .nullPointer
      | some object =>
        .ok ({ state with
          instantiatedEntries := state.instantiatedEntries.set member
            { known with logged := known.logged || file.verboseLoad, loaded := true }
          handed := state.handed ++ [member] }, file.parsers.forEachAtom object.object)

/-! ## All members -/

/-- `for (p = start; p < end; p = p->next())`, without the table of contents. -/
def forMembers {σ : Type} (body : Nat → σ → Except Failure σ) : Nat → Nat → σ → Except Failure σ
  | 0, _, _ => .error .endless
  | fuel + 1, p, state =>
    if p < file.fileContent.length then do
      let _ ← memberName file p
      let state ← (if isTableOfContents file p then .ok state else body p state)
      forMembers body fuel (next file.base file.fileContent p) state
    else .ok state

def forAllMembers {σ : Type} (body : Nat → σ → Except Failure σ) (state : σ) : Except Failure σ :=
  forMembers file body (file.fileContent.length + 1) 8 state

/-- Whether the constructor makes an object file.  Bitcode files are left for later with `-ObjC`. -/
def makesEarly (member : Nat) : Bool :=
  file.loadMode = .forceLoad ||
    match file.parsers.lto with
    | none => false
    | some lto => !validLTOFile file lto member

def makeEarly (member : Nat) (state : LoadState Object) : Except Failure (LoadState Object) :=
  if makesEarly file member then makeObjectFileForMember file state member else .ok state

/-- `File<A>::File`. -/
def openFile : Except Failure (NameToOffsetMap × LoadState Object) :=
  if file.fileContent.take 8 ≠ armag then .error .notAnArchive
  else do
    let _ ← memberName file 8
    match tocForm file.fileContent with
    | none => .error .noTableOfContents
    | some form =>
      match openTableOfContents form file.base file.fileContent with
      | .error reason => .error (.malformedArchive reason)
      | .ok hashTable => do
          let state ← (if file.loadMode = .lazy then .ok ⟨[], false, []⟩
            else forAllMembers file (makeEarly file) ⟨[], false, []⟩)
          return (hashTable, state)

/-- `makeObjectFileForMember`, unless there is an object file. -/
def makeIfNone (state : LoadState Object) (member : Nat) : Except Failure (LoadState Object) :=
  match state.instantiatedEntries.get? member with
  | none => makeObjectFileForMember file state member
  | some known => if known.file.isNone then makeObjectFileForMember file state member else .ok state

/-- `didSome |= loadMember(...)`. -/
def loadAlso (member : Nat) (state : LoadState Object × Bool) : Except Failure (LoadState Object × Bool) := do
  let (loaded, didSomething) ← loadMember file state.1 member
  return (loaded, state.2 || didSomething)

/-- The body of the loop with `-force_load`: only an entry that is not there is made. -/
def forceMember (member : Nat) (state : LoadState Object × Bool) : Except Failure (LoadState Object × Bool) := do
  let made ← (if (state.1.instantiatedEntries.get? member).isNone then makeObjectFileForMember file state.1 member
    else .ok state.1)
  loadAlso file member (made, state.2)

/-- `.objc_c` and `_OBJC_CLASS_$_`. -/
def isObjCName (name : List UInt8) : Bool :=
  (ascii ".objc_c").isPrefixOf name || (ascii "_OBJC_CLASS_$_").isPrefixOf name

/-- The body of the loop over the hash table. -/
def loadObjCName (hashTable : NameToOffsetMap) (state : LoadState Object × Bool) (name : List UInt8) :
    Except Failure (LoadState Object × Bool) :=
  match hashTable name with
  | none => .ok state
  | some member =>
    if isObjCName name then do
      let made ← makeIfNone file state.1 member
      let _ ← memberName file member
      loadAlso file member (made, state.2)
    else .ok state

/-- Whether a member that there is an entry for is loaded. -/
def isLoaded (state : LoadState Object) (member : Nat) : Bool :=
  ((state.instantiatedEntries.get? member).map MemberState.loaded).getD false

/-- The body of the loop that looks for categories. -/
def loadObjCMember (member : Nat) (state : LoadState Object × Bool) : Except Failure (LoadState Object × Bool) :=
  if validMachOFile file member then do
    let made ← makeObjectFileForMember file state.1 member
    if !isLoaded made member && file.parsers.hasObjCCategories (memberContent file member) then
      loadAlso file member (made, state.2)
    else .ok (made, state.2)
  else
    match file.parsers.lto with
    | none => .ok state
    | some lto =>
      if validLTOFile file lto member && lto.hasObjCCategory (memberContent file member) then do
        let made ← makeIfNone file state.1 member
        if isLoaded made member then .ok (made, state.2) else loadAlso file member (made, state.2)
      else .ok state

/-- Whether a member is not loaded.  The loop breaks at one that has an entry. -/
def somethingNotLoaded (state : LoadState Object) : Nat → Nat → Except Failure Bool
  | 0, _ => .error .endless
  | fuel + 1, p =>
    if p < file.fileContent.length then do
      let _ ← memberName file p
      if isTableOfContents file p then somethingNotLoaded state fuel (next file.base file.fileContent p)
      else
        match state.instantiatedEntries.get? p with
        | some known =>
          if known.loaded then somethingNotLoaded state fuel (next file.base file.fileContent p) else return true
        | none => do
            let _ ← somethingNotLoaded state fuel (next file.base file.fileContent p)
            return true
    else .ok false

/-! ## Requests -/

-- The names of the hash table are given in the order that it has them.
variable (hashTable : NameToOffsetMap) (names : List (List UInt8))

def forEachAtom (state : LoadState Object) : Except Failure (LoadState Object × Bool) :=
  match file.loadMode with
  | .lazy => .ok (state, false)
  | .forceLoad => do
      let (state, didSome) ← forAllMembers file (forceMember file) (state, false)
      return ({ state with alreadyLoadedAll := true }, didSome)
  | .objc => do
      let classes ← names.foldlM (loadObjCName file hashTable) (state, false)
      let (state, didSome) ← forAllMembers file (loadObjCMember file) classes
      let notLoaded ← somethingNotLoaded file state (file.fileContent.length + 1) 8
      return ({ state with alreadyLoadedAll := state.alreadyLoadedAll || !notLoaded }, didSome)

def justInTimeforEachAtom (state : LoadState Object) (name : List UInt8) : Except Failure (LoadState Object × Bool) :=
  if state.alreadyLoadedAll then .ok (state, false)
  else
    match hashTable name with
    | none => .ok (state, false)
    | some member => do
        let made ← makeObjectFileForMember file state member
        let _ ← memberName file member
        loadMember file made member

def justInTimeDataOnlyforEachAtom (state : LoadState Object) (name : List UInt8) :
    Except Failure (LoadState Object × Bool) :=
  if state.alreadyLoadedAll then .ok (state, false)
  else
    match hashTable name with
    | none => .ok (state, false)
    | some member => do
        let made ← makeObjectFileForMember file state member
        if isLoaded made member then .ok (made, false)
        else
          match (made.instantiatedEntries.get? member).bind MemberState.file with
          | none => .error .nullPointer
          | some object =>
            if file.parsers.symbolIsDataDefinition object.object name then do
              let _ ← memberName file member
              loadMember file made member
            else .ok (made, false)

inductive Request
  | forEachAtom
  | justInTimeforEachAtom (name : List UInt8)
  | justInTimeDataOnlyforEachAtom (name : List UInt8)

def request (state : LoadState Object) : Request → Except Failure (LoadState Object × Bool)
  | .forEachAtom => forEachAtom file hashTable names state
  | .justInTimeforEachAtom name => justInTimeforEachAtom file hashTable state name
  | .justInTimeDataOnlyforEachAtom name => justInTimeDataOnlyforEachAtom file hashTable state name

/-- Requests one after the other, all of which return. -/
def requests (state : LoadState Object) (list : List Request) : Except Failure (LoadState Object) :=
  list.foldlM (fun state one => do return (← request file hashTable names state one).1) state

end Loading

end Cctools.Archive.Loading
