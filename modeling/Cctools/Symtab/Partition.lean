/-
# Cctools.Symtab.Partition -- which atoms are local, exported and imported symbols

`OutputFile::partitionSymbolTable` goes over the atoms of all sections.  Every atom has
its scope and its symbol table inclusion settled and goes into none, one or (an import
that is exported again) two of the lists of `OutputFile`.  Exports and imports are sorted
by name at the end.

Atoms are reached through references.  What the warnings are about (resolvers, the
`$ld$` names) changes no list and is left out.  Assertions are not modelled: one that
fails stops the link.
-/
import Mathlib.Data.List.Nodup
import Mathlib.Logic.Function.Basic

namespace Cctools.Symtab

set_option autoImplicit false

/-! ## Atoms and sections -/

/-- A C string up to its NUL.  The order of lists is then the order of `strcmp`. -/
abbrev Name := List UInt8

inductive SectionType
  | unclassified | code | pageZero | importProxies | linkEdit | machHeader | stack
  | literal4 | literal8 | literal16 | constants | tempLTO | tempAlias
  | cString | nonStdCString | cStringPointer | utf16Strings | cfString | objC1Classes
  | cfi | lsda | dtraceDOF | unwindInfo | objCClassRefs | objC2CategoryList | objC2ClassList
  | zeroFill | tentativeDefs | lazyPointer | stub | stubObjC | nonLazyPointer | dyldInfo
  | lazyDylibPointer | stubHelper | initializerPointers | terminatorPointers
  | stubClose | lazyPointerClose | absoluteSymbols | threadStarts | chainStarts
  | tlvDefs | tlvZeroFill | tlvInitialValues | tlvInitializerPointers | tlvPointers
  | firstSection | lastSection | debug | sectCreate | initOffsets | interposing | rebaseRLE
  deriving DecidableEq, Repr

inductive Scope
  | translationUnit | linkageUnit | global
  deriving DecidableEq, Repr

inductive Definition
  | regular | tentative | absolute | proxy
  deriving DecidableEq, Repr

inductive Combine
  | never | byName | byNameAndContent | byNameAndReferences
  deriving DecidableEq, Repr

/-- `Atom::ContentType`; only these four are looked at here. -/
inductive ContentType
  | cString | cfi | resolver | other
  deriving DecidableEq, Repr

inductive SymbolTableInclusion
  | notIn | notInFinalLinkedImages | included | inAndNeverStrip | inAsAbsolute
  | inWithRandomAutoStripLabel
  deriving DecidableEq, Repr

inductive FixupKind
  | noneFollowOn | noneGroupSubordinate | other
  deriving DecidableEq, Repr

inductive Binding (Ref : Type)
  | none
  | byNameUnbound (name : Name)
  | directlyBound (target : Ref)
  | byContentBound (target : Ref)
  | indirectlyBound (bindingIndex : Nat)
  deriving DecidableEq, Repr

structure Fixup (Ref : Type) where
  kind : FixupKind
  binding : Binding Ref
  deriving DecidableEq, Repr

/-- The file of an import that is a dylib. -/
structure Dylib where
  /-- `dylibToOrdinal`, -1 for the main executable. -/
  ordinal : Int
  forcedWeakLinked : Bool
  deriving DecidableEq, Repr

structure Atom (Ref : Type) where
  name : Name
  sectionType : SectionType
  scope : Scope
  definition : Definition
  combine : Combine
  contentType : ContentType
  symbolTableInclusion : SymbolTableInclusion
  machoSection : Nat
  outputSymbolIndex : Nat
  objectAddress : Nat
  finalAddress : Nat
  size : Nat
  alignmentPowerOf2 : Nat
  dontDeadStrip : Bool
  isThumb : Bool
  isAlias : Bool
  autoHide : Bool
  cold : Bool
  weakImported : Bool
  dylib : Option Dylib
  fixups : List (Fixup Ref)

structure FinalSection (Ref : Type) where
  segmentName : Name
  sectionName : Name
  type : SectionType
  isSectionHidden : Bool
  fileOffset : Nat
  size : Nat
  atoms : List Ref

structure Stab (Ref : Type) where
  atom : Option Ref
  type : Nat
  other : Nat
  desc : Nat
  value : Nat
  string : Option Name

/-- `ld::Internal`.  An atom stands in one place of one section. -/
structure Internal (Ref : Type) where
  sections : List (FinalSection Ref)
  atom : Ref → Atom Ref
  stabs : List (Stab Ref)
  indirectBindingTable : Nat → Ref
  allObjectFilesScatterable : Bool
  once : (sections.flatMap FinalSection.atoms).Nodup

namespace Internal

variable {Ref : Type}

def atoms (state : Internal Ref) : List Ref := state.sections.flatMap FinalSection.atoms

/-- A bound on the length of a chain of atoms. -/
def fuel (state : Internal Ref) : Nat := state.atoms.length + 1

end Internal

inductive OutputKind
  | dynamicExecutable | staticExecutable | dynamicLibrary | dynamicBundle | objectFile | dyld
  | preload | kextBundle
  deriving DecidableEq, Repr

inductive Architecture
  | i386 | x86_64 | arm | arm64 | arm64_32 | riscv32
  deriving DecidableEq, Repr

structure Options where
  outputKind : OutputKind
  architecture : Architecture
  removeEHLabels : Bool
  makeEncryptable : Bool
  segmentAlignment : Nat
  keepPrivateExterns : Bool
  makeTentativeDefinitionsReal : Bool
  makeCompressedDyldInfo : Bool
  makeThreadedStartsSection : Bool
  positionIndependentExecutable : Bool
  hasExportMaskList : Bool
  hasExportRestrictList : Bool
  twoLevelNameSpace : Bool
  undefinedDynamicLookup : Bool
  deduplicateFunctions : Bool
  shouldExport : Name → Bool
  keepLocalSymbol : Name → Bool
  allowedUndefined : Name → Bool

/-! ## Alternate entries -/

section Partition

variable {Ref : Type} [DecidableEq Ref] (options : Options)

/-- Chains of follow-on fixups have no cycle; `fuel` bounds their length. -/
def chainLeadsTo (atom : Ref → Atom Ref) (targetAtom : Ref) : Nat → Ref → Bool
  | 0, _ => false
  | fuel + 1, startAtom =>
    startAtom = targetAtom || (atom startAtom).fixups.any fun fit =>
      match fit.binding with
      | .directlyBound nextAtom =>
        fit.kind = .noneFollowOn && chainLeadsTo atom targetAtom fuel nextAtom
      | _ => false

def isAltEntry (atom : Ref → Atom Ref) (fuel : Nat) (ref : Ref) : Bool :=
  (atom ref).fixups.any fun fit =>
    match fit.binding with
    | .directlyBound chainStart =>
      fit.kind = .noneGroupSubordinate && chainLeadsTo atom ref fuel chainStart
    | _ => false

/-! ## One atom -/

def shouldSetMachoSectionIndex (sect : FinalSection Ref) : Bool :=
  !sect.isSectionHidden && sect.type ≠ .tentativeDefs

/-- `_machoSection` has eight bits. -/
def setMachoSection (sect : FinalSection Ref) (machoSectionIndex : Nat) (atom : Atom Ref) : Atom Ref :=
  if shouldSetMachoSectionIndex sect then { atom with machoSection := machoSectionIndex % 256 }
  else if sect.type = .machHeader then { atom with machoSection := 1 }
  else if sect.type = .lastSection then { atom with machoSection := machoSectionIndex % 256 }
  else if sect.type = .firstSection then { atom with machoSection := (machoSectionIndex + 1) % 256 }
  else atom

/-- The lists an atom is put into. -/
structure Placement where
  locals : Bool
  exported : Bool
  imported : Bool
  deriving DecidableEq, Repr

namespace Placement

def nowhere : Placement := ⟨false, false, false⟩
def localAtoms : Placement := ⟨true, false, false⟩
def exportedAtoms : Placement := ⟨false, true, false⟩
def importedAtoms : Placement := ⟨false, false, true⟩

end Placement

/-- `-r`: literal strings without a name get a label. -/
def labelsLiteralStrings (sect : FinalSection Ref) (atom : Atom Ref) : Bool :=
  (options.architecture = .x86_64 || options.architecture = .arm64
    || options.architecture = .arm64_32 || options.architecture = .riscv32)
  && sect.type = .cString && atom.combine = .byNameAndContent

/-- `-r`: what `symbolTableNotInFinalLinkedImages` means in an object file. -/
def clarifyInclusion (sect : FinalSection Ref) (atom : Atom Ref) : Atom Ref :=
  if options.outputKind = .objectFile then
    let atom :=
      if sect.type = .cfi then
        { atom with symbolTableInclusion := if options.removeEHLabels then .notIn else .included }
      else atom
    if atom.symbolTableInclusion = .notInFinalLinkedImages then
      { atom with symbolTableInclusion := .included }
    else atom
  else atom

/-- The two changes of scope: never-strip symbols of a dylib, and auto-hidden ones. -/
def settleScope (atom : Atom Ref) : Atom Ref :=
  let atom :=
    if atom.symbolTableInclusion = .inAndNeverStrip ∧ atom.scope = .linkageUnit
        ∧ options.outputKind = .dynamicLibrary then
      { atom with scope := .global }
    else atom
  if atom.autoHide ∧ options.outputKind ≠ .objectFile
      ∧ (!options.hasExportMaskList || !options.shouldExport atom.name) then
    { atom with scope := .linkageUnit }
  else atom

def notInSymbolTable (atom : Atom Ref) : Bool :=
  atom.symbolTableInclusion = .notInFinalLinkedImages || atom.symbolTableInclusion = .notIn
  || (atom.symbolTableInclusion = .inWithRandomAutoStripLabel && options.outputKind ≠ .objectFile)

/-- The `switch` over the scope.  `namesNext` is set when the next atom is a global
alternate entry: the label in front of it is not stripped then. -/
def placeByScope (namesNext : Bool) (atom : Atom Ref) : Atom Ref × Placement :=
  let stripped : Atom Ref := { atom with symbolTableInclusion := .inWithRandomAutoStripLabel }
  match atom.scope with
  | .translationUnit =>
    if options.keepLocalSymbol atom.name then (atom, .localAtoms)
    else if options.outputKind = .objectFile then
      (if namesNext then atom else stripped, .localAtoms)
    else ({ atom with symbolTableInclusion := .notIn }, .nowhere)
  | .global => (atom, .exportedAtoms)
  | .linkageUnit =>
    if options.outputKind = .objectFile then
      if options.keepPrivateExterns then
        if atom.symbolTableInclusion = .inWithRandomAutoStripLabel then
          ({ atom with scope := .translationUnit }, .localAtoms)
        else (atom, .exportedAtoms)
      else if options.keepLocalSymbol atom.name then (atom, .localAtoms)
      else (stripped, .localAtoms)
    else if options.keepLocalSymbol atom.name then (atom, .localAtoms)
    else if atom.symbolTableInclusion = .inAndNeverStrip ∧ !options.makeCompressedDyldInfo
        ∧ !options.makeThreadedStartsSection then (atom, .localAtoms)
    else ({ atom with symbolTableInclusion := .notIn }, .nowhere)

/-- The rest of the loop's body, for an atom that is no literal string and no alias of `-r`. -/
def placeSymbol (sect : FinalSection Ref) (namesNext : Bool) (atom : Atom Ref) :
    Atom Ref × Placement :=
  if sect.type = .importProxies then
    (atom, ⟨false, atom.scope = .global, !atom.isAlias⟩)
  else if notInSymbolTable options atom then (atom, .nowhere)
  else if atom.definition = .tentative ∧ options.outputKind = .objectFile then
    (atom, if options.makeTentativeDefinitionsReal then .exportedAtoms else .importedAtoms)
  else placeByScope options namesNext atom

def place (sect : FinalSection Ref) (namesNext : Bool) (atom : Atom Ref) : Atom Ref × Placement :=
  if options.outputKind = .objectFile ∧ labelsLiteralStrings options sect atom then
    ({ atom with symbolTableInclusion := .included }, .localAtoms)
  else if options.outputKind = .objectFile ∧ sect.type = .tempAlias then (atom, .importedAtoms)
  else placeSymbol options sect namesNext (settleScope options (clarifyInclusion options sect atom))

/-! ## All sections -/

/-- What `partitionSymbolTable` changes: the atoms and members of `OutputFile`. -/
structure SymbolLists (Ref : Type) where
  atom : Ref → Atom Ref
  localAtoms : List Ref
  exportedAtoms : List Ref
  importedAtoms : List Ref
  usesWeakExternalSymbols : Bool
  reExportsWeakDefSymbols : Bool
  encryptedTEXTendOffset : Nat

def appendIf (b : Bool) (list : List Ref) (ref : Ref) : List Ref := if b then list ++ [ref] else list

/-- One round of the inner loop; `after` is what follows the atom in its section. -/
def partitionAtom (fuel : Nat) (sect : FinalSection Ref) (machoSectionIndex : Nat) (ref : Ref)
    (after : List Ref) (lists : SymbolLists Ref) : SymbolLists Ref :=
  let namesNext :=
    match after with
    | nextAtom :: _ => isAltEntry lists.atom fuel nextAtom && (lists.atom nextAtom).scope = .global
    | [] => false
  let placed := place options sect namesNext (setMachoSection sect machoSectionIndex (lists.atom ref))
  let weakProxy := sect.type = .importProxies && placed.1.combine = .byName
  { lists with
    atom := Function.update lists.atom ref placed.1
    localAtoms := appendIf placed.2.locals lists.localAtoms ref
    exportedAtoms := appendIf placed.2.exported lists.exportedAtoms ref
    importedAtoms := appendIf placed.2.imported lists.importedAtoms ref
    usesWeakExternalSymbols := lists.usesWeakExternalSymbols || weakProxy
    reExportsWeakDefSymbols :=
      lists.reExportsWeakDefSymbols || (weakProxy && placed.1.scope = .global) }

def partitionAtoms (fuel : Nat) (sect : FinalSection Ref) (machoSectionIndex : Nat) :
    List Ref → SymbolLists Ref → SymbolLists Ref
  | [], lists => lists
  | ref :: after, lists =>
    partitionAtoms fuel sect machoSectionIndex after
      (partitionAtom options fuel sect machoSectionIndex ref after lists)

/-- `__TEXT`, `__oslogstring`. -/
def textSegment : Name := [95, 95, 84, 69, 88, 84]
def oslogstring : Name := [95, 95, 111, 115, 108, 111, 103, 115, 116, 114, 105, 110, 103]

/-- The alignment is a power of two. -/
def pageAlign (addr : Nat) : Nat :=
  (addr + options.segmentAlignment - 1) / options.segmentAlignment * options.segmentAlignment

def partitionSections (fuel : Nat) :
    Nat → List (FinalSection Ref) → SymbolLists Ref → SymbolLists Ref
  | _, [], lists => lists
  | machoSectionIndex, sect :: sections, lists =>
    let lists :=
      if options.makeEncryptable ∧ sect.segmentName = textSegment
          ∧ sect.sectionName ≠ oslogstring then
        { lists with encryptedTEXTendOffset := pageAlign options (sect.fileOffset + sect.size) }
      else lists
    let machoSectionIndex :=
      if shouldSetMachoSectionIndex sect then machoSectionIndex + 1 else machoSectionIndex
    partitionSections fuel machoSectionIndex sections
      (partitionAtoms options fuel sect machoSectionIndex sect.atoms lists)

/-- The atoms that some fixup of some atom is bound to. -/
def referencedProxyAtoms (state : Internal Ref) (atom : Ref → Atom Ref) : List Ref :=
  state.atoms.flatMap fun ref =>
    (atom ref).fixups.filterMap fun fit =>
      match fit.binding with
      | .indirectlyBound bindingIndex => some (state.indirectBindingTable bindingIndex)
      | .directlyBound target => some target
      | _ => none

/-- What is known of `std::sort` with `AtomByNameSorter`: atoms of one name come in any order. -/
structure NameSort (Ref : Type) where
  sort : (Ref → Name) → List Ref → List Ref
  perm : ∀ name list, (sort name list).Perm list
  sorted : ∀ name list, (sort name list).Pairwise fun left right => name left ≤ name right

def partitionSymbolTable (byName : NameSort Ref) (state : Internal Ref) : SymbolLists Ref :=
  let lists := partitionSections options state.fuel 0 state.sections
    { atom := state.atom, localAtoms := [], exportedAtoms := [], importedAtoms := [],
      usesWeakExternalSymbols := false, reExportsWeakDefSymbols := false,
      encryptedTEXTendOffset := 0 }
  let importedAtoms :=
    if options.outputKind = .kextBundle ∧ options.hasExportRestrictList then
      lists.importedAtoms.filter fun ref => ref ∈ referencedProxyAtoms state lists.atom
    else lists.importedAtoms
  let name := fun ref => (lists.atom ref).name
  { lists with
    exportedAtoms := byName.sort name lists.exportedAtoms
    importedAtoms := byName.sort name importedAtoms }

end Partition

end Cctools.Symtab
