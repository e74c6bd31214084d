/-
# Cctools.Symtab.Entries -- symbol indexes, and the entries of the symbol table

`OutputFile::assignSymbolIndexes` numbers the atoms of the three lists.
`SymbolTableAtom::encode` makes an `nlist` for each of them and for each stab, and
`copyRawContent` copies the three arrays into the table, by the starts and counts of
`OutputFile`.

Indexes and counts are `uint32_t`.  The chunks of the string pool are one list here.
-/
import Cctools.Symtab.Partition
import Cctools.Theory.Bytes
import Cctools.Theory.Decimal

namespace Cctools.Symtab

set_option autoImplicit false

open Cctools.Theory

def uint32 (n : Nat) : Nat := n % 2 ^ 32

section Indexes

variable {Ref : Type} [DecidableEq Ref] (options : Options)

/-! ## assignSymbolIndexes -/

def setOutputSymbolIndex (atom : Ref → Atom Ref) (ref : Ref) (index : Nat) : Ref → Atom Ref :=
  Function.update atom ref { atom ref with outputSymbolIndex := index }

/-- `for (const ld::Atom* atom : list) atom->setOutputSymbolIndex(symbolIndex++)` -/
def numberAtoms : List Ref → Nat → (Ref → Atom Ref) → (Ref → Atom Ref) × Nat
  | [], symbolIndex, atom => (atom, symbolIndex)
  | ref :: list, symbolIndex, atom =>
    numberAtoms list (uint32 (symbolIndex + 1)) (setOutputSymbolIndex atom ref symbolIndex)

/-- The locals that `assignSymbolIndexes` skips. -/
def skipsLocal (atom : Atom Ref) : Bool := options.removeEHLabels && atom.contentType = .cfi

def numberLocals : List Ref → Nat → (Ref → Atom Ref) → (Ref → Atom Ref) × Nat
  | [], symbolIndex, atom => (atom, symbolIndex)
  | ref :: list, symbolIndex, atom =>
    if skipsLocal options (atom ref) then numberLocals list symbolIndex atom
    else numberLocals list (uint32 (symbolIndex + 1)) (setOutputSymbolIndex atom ref symbolIndex)

structure SymbolRanges where
  localSymbolsStartIndex : Nat
  localSymbolsCount : Nat
  globalSymbolsStartIndex : Nat
  globalSymbolsCount : Nat
  importSymbolsStartIndex : Nat
  importSymbolsCount : Nat
  deriving DecidableEq, Repr

def assignSymbolIndexes (state : Internal Ref) (lists : SymbolLists Ref) :
    (Ref → Atom Ref) × SymbolRanges :=
  let localsCount := uint32 (state.stabs.length + lists.localAtoms.length)
  let globals := numberAtoms lists.exportedAtoms localsCount lists.atom
  let imports := numberAtoms lists.importedAtoms globals.2 globals.1
  let locals := numberLocals options lists.localAtoms 0 imports.1
  (locals.1,
    { localSymbolsStartIndex := 0
      localSymbolsCount := locals.2
      globalSymbolsStartIndex := localsCount
      globalSymbolsCount := uint32 (globals.2 + 2 ^ 32 - localsCount)
      importSymbolsStartIndex := globals.2
      importSymbolsCount := uint32 (imports.2 + 2 ^ 32 - globals.2) })

/-! ## The string pool -/

structure StringPool where
  bytes : List UInt8
  uniqueStrings : List (Name × Nat)
  skipUniquing : Bool

namespace StringPool

/-- A blank, so that no offset is zero, and an empty string at offset 1. -/
def empty : StringPool where
  bytes := [32, 0]
  uniqueStrings := []
  skipUniquing := !options.deduplicateFunctions

def currentOffset (pool : StringPool) : Nat := pool.bytes.length

def add (pool : StringPool) (str : Name) : Nat × StringPool :=
  (pool.bytes.length, { pool with bytes := pool.bytes ++ str ++ [0] })

def addUnique (pool : StringPool) (str : Name) : Nat × StringPool :=
  if pool.skipUniquing then pool.add str
  else
    match pool.uniqueStrings.lookup str with
    | some offset => (offset, pool)
    | none =>
      let added := pool.add str
      (added.1, { added.2 with uniqueStrings := (str, added.1) :: added.2.uniqueStrings })

def emptyString : Nat := 1

end StringPool

/-! ## One entry -/

structure Nlist where
  strx : Nat
  type : Nat
  sect : Nat
  desc : Nat
  value : Nat
  deriving DecidableEq, Repr

/-- `P` of `SymbolTableAtom<A>`; every architecture is little-endian. -/
inductive Pointer
  | pointer32 | pointer64
  deriving DecidableEq, Repr

def Pointer.size : Pointer → Nat
  | .pointer32 => 4
  | .pointer64 => 8

/-- `sizeof(macho_nlist<P>)`. -/
def sizeofNlist (P : Pointer) : Nat := 8 + P.size

def Nlist.bytes (P : Pointer) (entry : Nlist) : List UInt8 :=
  (beBytes 4 entry.strx).reverse ++ (beBytes 1 entry.type).reverse
    ++ (beBytes 1 entry.sect).reverse ++ (beBytes 2 entry.desc).reverse
    ++ (beBytes P.size entry.value).reverse

/-- The variables that the entries share: the string pool and `_s_anonNameIndex`. -/
structure Names where
  pool : StringPool
  anonNameIndex : Nat

/-- A text and a number in at least `width` digits, as `%u` and `%03u` print it. -/
def anonName (text : Name) (width n : Nat) : Name :=
  let digits := Decimal.printed 10 n
  text ++ List.replicate (width - digits.length) 48 ++ digits

def dotLlvm : Name := [46, 108, 108, 118, 109, 46]

/-- `rfind`: the last place where `text` stands in `name`. -/
def rfind (text : Name) : Name → Option Nat
  | [] => if text = [] then some 0 else none
  | c :: name =>
    match rfind text name with
    | some pos => some (pos + 1)
    | none => if text.isPrefixOf (c :: name) then some 0 else none

def getUserVisibleName (name : Name) : Name :=
  match rfind dotLlvm name with
  | none => name
  | some pos => name.take pos

def nExt : Nat := 0x01
def nPext : Nat := 0x10
def nUndf : Nat := 0x0
def nAbs : Nat := 0x2
def nSect : Nat := 0xe
def nIndr : Nat := 0xa

def nArmThumbDef : Nat := 0x0008
def referencedDynamically : Nat := 0x0010
def nNoDeadStrip : Nat := 0x0020
def nWeakRef : Nat := 0x0040
def nWeakDef : Nat := 0x0080
def nRefToWeak : Nat := 0x0080
def nSymbolResolver : Nat := 0x0100
def nAltEntry : Nat := 0x0200
def nColdFunc : Nat := 0x0400

/-- `if ( condition ) desc |= bit` for each pair. -/
def orBits (bits : List (Bool × Nat)) : Nat :=
  bits.foldl (fun desc bit => if bit.1 then desc ||| bit.2 else desc) 0

/-- `CIE`, `EH_Frame1`, `func.eh`, `LC` and `l`. -/
def cieName : Name := [67, 73, 69]
def ehFrame1 : Name := [69, 72, 95, 70, 114, 97, 109, 101, 49]
def funcEh : Name := [102, 117, 110, 99, 46, 101, 104]
def literalLabel : Name := [76, 67]
def stripLabel : Name := [108]

variable (state : Internal Ref) (atom : Ref → Atom Ref)

def hasAltEntryBit (ref : Ref) : Bool :=
  options.outputKind = .objectFile && state.allObjectFilesScatterable && isAltEntry atom state.fuel ref

/-- The name that `addLocal` gives the entry; none when there is to be no entry. -/
def localName (a : Atom Ref) (anonNameIndex : Nat) : Option (Name × Nat) :=
  if options.outputKind = .objectFile then
    if a.contentType = .cString then
      if a.combine = .byNameAndContent then
        some (anonName literalLabel 0 anonNameIndex, anonNameIndex + 1)
      else some (getUserVisibleName a.name, anonNameIndex)
    else if a.contentType = .cfi then
      if options.removeEHLabels then none
      else some (if a.name = cieName then ehFrame1 else funcEh, anonNameIndex)
    else if a.symbolTableInclusion = .inWithRandomAutoStripLabel then
      some (anonName stripLabel 3 anonNameIndex, anonNameIndex + 1)
    else some (getUserVisibleName a.name, anonNameIndex)
  else some (getUserVisibleName a.name, anonNameIndex)

def addLocal (ref : Ref) (names : Names) : Option Nlist × Names :=
  let a := atom ref
  match localName options a names.anonNameIndex with
  | none => (none, names)
  | some (symbolName, anonNameIndex) =>
    let strx := names.pool.addUnique symbolName
    let type :=
      if a.definition = .absolute then nAbs
      else if a.sectionType = .objC1Classes ∧ options.outputKind = .objectFile then nAbs
      else nSect
    (some {
      strx := strx.1
      type := if a.scope = .linkageUnit then type ||| nPext else type
      sect := if a.definition = .absolute then 0 else a.machoSection
      desc := orBits [
        (a.symbolTableInclusion = .inAndNeverStrip, referencedDynamically),
        (a.dontDeadStrip && options.outputKind = .objectFile, nNoDeadStrip),
        (a.definition = .regular && a.combine = .byName, nWeakDef),
        (a.isThumb, nArmThumbDef),
        (hasAltEntryBit options state atom ref, nAltEntry)]
      value := if a.definition = .absolute then a.objectAddress else a.finalAddress },
      ⟨strx.2, anonNameIndex⟩)

/-- The re-export of an import under another name: the name of what follows it. -/
def aliasValue (a : Atom Ref) (pool : StringPool) : Nat × StringPool :=
  a.fixups.foldl (fun (value : Nat × StringPool) fit =>
    match fit.kind, fit.binding with
    | .noneFollowOn, .directlyBound target => value.2.add (atom target).name
    | _, _ => value) (0, pool)

def addGlobal (ref : Ref) (names : Names) : Nlist × Names :=
  let a := atom ref
  let strips :=
    options.outputKind = .objectFile && a.symbolTableInclusion = .inWithRandomAutoStripLabel
  let symbolName := if strips then anonName stripLabel 3 names.anonNameIndex else a.name
  let anonNameIndex := if strips then names.anonNameIndex + 1 else names.anonNameIndex
  let strx := names.pool.add symbolName
  let reexport := a.definition = .proxy && a.scope = .global
  let type :=
    if a.definition = .absolute then nExt ||| nAbs
    else if a.sectionType = .objC1Classes ∧ options.outputKind = .objectFile then nExt ||| nAbs
    else if reexport then nExt ||| nIndr
    else if a.scope = .linkageUnit ∧ options.outputKind = .objectFile then
      if options.keepPrivateExterns then nExt ||| nSect ||| nPext else nExt ||| nSect
    else if a.symbolTableInclusion = .inAndNeverStrip ∧ a.sectionType = .machHeader
        ∧ !options.positionIndependentExecutable then nExt ||| nAbs
    else nExt ||| nSect
  let regularByName := a.definition = .regular && a.combine = .byName
  let value :=
    if a.definition = .absolute then (a.objectAddress, strx.2)
    else if reexport then
      if a.isAlias then aliasValue atom a strx.2 else (strx.1, strx.2)
    else (a.finalAddress, strx.2)
  ({ strx := strx.1
     type := type
     sect := if a.definition = .absolute || reexport then 0 else a.machoSection
     desc := orBits [
       (a.isThumb, nArmThumbDef),
       (a.symbolTableInclusion = .inAndNeverStrip, referencedDynamically),
       (a.contentType = .resolver && options.outputKind = .objectFile, nSymbolResolver),
       (a.dontDeadStrip && options.outputKind = .objectFile, nNoDeadStrip),
       (hasAltEntryBit options state atom ref, nAltEntry),
       (options.outputKind = .objectFile && a.cold, nColdFunc),
       (regularByName, nWeakDef),
       (regularByName && a.scope = .global && a.autoHide && options.outputKind = .objectFile,
         nWeakRef)]
     value := value.1 }, ⟨value.2, anonNameIndex⟩)

def dynamicLookupOrdinal : Nat := 0xfe
def executableOrdinal : Nat := 0xff

/-- The ordinal is a `uint8_t`.  An import has a dylib unless it may be undefined. -/
def classicOrdinalForProxy (a : Atom Ref) : Nat :=
  if !options.twoLevelNameSpace then 0
  else
    match a.dylib with
    | none =>
      if options.undefinedDynamicLookup || options.allowedUndefined a.name then
        dynamicLookupOrdinal
      else 0
    | some dylib =>
      if dylib.ordinal = -1 then executableOrdinal else (dylib.ordinal % 256).toNat

/-- The value of an alias of `-r`: the name it stands for. -/
def tempAliasValue (a : Atom Ref) (pool : StringPool) : Nat × StringPool :=
  a.fixups.foldl (fun (value : Nat × StringPool) fit =>
    match fit.binding with
    | .byNameUnbound name => value.2.add name
    | .indirectlyBound bindingIndex =>
      value.2.add (atom (state.indirectBindingTable bindingIndex)).name
    | _ => value) (0, pool)

def addImport (ref : Ref) (names : Names) : Nlist × Names :=
  let a := atom ref
  let strx := names.pool.add a.name
  let type :=
    if options.outputKind = .objectFile then
      if a.sectionType = .tempAlias then
        if a.scope = .linkageUnit then nIndr ||| nExt ||| nPext else nIndr ||| nExt
      else if a.scope = .linkageUnit ∧ a.definition = .tentative then nUndf ||| nExt ||| nPext
      else nUndf ||| nExt
    else nUndf ||| nExt
  let high :=
    if options.outputKind ≠ .objectFile then classicOrdinalForProxy options a % 256 * 256
    else if a.definition = .tentative then a.alignmentPowerOf2 % 16 * 256
    else 0
  let value :=
    if a.definition = .tentative then (a.size, strx.2)
    else if a.sectionType ≠ .tempAlias then (0, strx.2)
    else tempAliasValue state atom a strx.2
  ({ strx := strx.1
     type := type
     sect := 0
     desc := high ||| orBits [
       (options.outputKind ≠ .objectFile && a.definition = .proxy && a.combine = .byName,
         nRefToWeak),
       (a.weakImported || a.dylib.any Dylib.forcedWeakLinked, nWeakRef)]
     value := value.1 }, ⟨value.2, names.anonNameIndex⟩)

/-! ## Stabs -/

def nGsym : Nat := 0x20
def nFun : Nat := 0x24
def nStsym : Nat := 0x26
def nLcsym : Nat := 0x28
def nBnsym : Nat := 0x2e
def nSline : Nat := 0x44
def nEnsym : Nat := 0x4e
def nSo : Nat := 0x64
def nBincl : Nat := 0x82
def nSol : Nat := 0x84
def nLbrac : Nat := 0xc0
def nExcl : Nat := 0xc2
def nRbrac : Nat := 0xe0

def sectionIndexForStab (stab : Stab Ref) : Nat :=
  if stab.type = nFun then stab.other
  else if stab.type = nGsym then 0
  else
    match stab.atom with
    | some ref => (atom ref).machoSection
    | none => stab.other

/-- No string, or an empty one. -/
def noString (stab : Stab Ref) : Bool := stab.string.getD [] = []

def valueForStab (stab : Stab Ref) : Nat :=
  if stab.type = nFun then
    match stab.atom with
    | none => stab.value
    | some ref => if noString stab then (atom ref).size else (atom ref).finalAddress
  else if stab.type = nLbrac ∨ stab.type = nRbrac ∨ stab.type = nSline then
    match stab.atom with
    | none => stab.value
    | some ref => (atom ref).finalAddress + stab.value
  else if stab.type = nStsym ∨ stab.type = nLcsym ∨ stab.type = nBnsym ∨ stab.type = nEnsym then
    match stab.atom with
    | some ref => (atom ref).finalAddress
    | none => 0
  else if stab.type = nSo then
    match stab.atom with
    | none => 0
    | some ref =>
      if noString stab then (atom ref).finalAddress + (atom ref).size
      else (atom ref).finalAddress
  else stab.value

def stringOffsetForStab (stab : Stab Ref) (pool : StringPool) : Nat × StringPool :=
  if stab.type = nSo ∧ noString stab then (StringPool.emptyString, pool)
  else if stab.type = nSo ∨ stab.type = nSol ∨ stab.type = nBincl ∨ stab.type = nExcl then
    pool.addUnique (stab.string.getD [])
  else
    match stab.string with
    | none => (0, pool)
    | some [] => (StringPool.emptyString, pool)
    | some string => pool.add string

def stabEntry (stab : Stab Ref) (names : Names) : Nlist × Names :=
  let strx := stringOffsetForStab stab names.pool
  ({ strx := strx.1
     type := stab.type
     sect := sectionIndexForStab atom stab
     desc := stab.desc
     value := valueForStab atom stab }, ⟨strx.2, names.anonNameIndex⟩)

/-! ## SymbolTableAtom -/

/-- What an entry has been made for.  The source keeps the entry alone. -/
inductive Maker (Ref : Type)
  | atom (ref : Ref)
  | stab (stab : Stab Ref)

structure Entry (Ref : Type) where
  maker : Maker Ref
  nlist : Nlist

/-- One call for each element, each with the names the one before has left. -/
def entriesOf {Source : Type} (maker : Source → Maker Ref) (add : Source → Names → Nlist × Names) :
    List Source → Names → List (Entry Ref) × Names
  | [], names => ([], names)
  | source :: sources, names =>
    let added := add source names
    let after := entriesOf maker add sources added.2
    (⟨maker source, added.1⟩ :: after.1, after.2)

def localEntries : List Ref → Names → List (Entry Ref) × Names
  | [], names => ([], names)
  | ref :: refs, names =>
    let added := addLocal options state atom ref names
    let after := localEntries refs added.2
    match added.1 with
    | none => after
    | some nlist => (⟨.atom ref, nlist⟩ :: after.1, after.2)

structure SymbolTableAtom (Ref : Type) where
  globals : List (Entry Ref)
  locals : List (Entry Ref)
  imports : List (Entry Ref)
  stabsStringsOffsetStart : Nat
  stabsStringsOffsetEnd : Nat
  stabsIndexStart : Nat
  stabsIndexEnd : Nat

/-- `encode`, with the count of `OutputFile` that it raises. -/
def encode (lists : SymbolLists Ref) (ranges : SymbolRanges) : SymbolTableAtom Ref × SymbolRanges :=
  let globals := entriesOf .atom (addGlobal options state atom) lists.exportedAtoms
    ⟨StringPool.empty options, 1⟩
  let imports := entriesOf .atom (addImport options state atom) lists.importedAtoms globals.2
  let locals := localEntries options state atom lists.localAtoms imports.2
  let stabs := entriesOf .stab (stabEntry atom) state.stabs locals.2
  let stabsIndexStart := uint32 (ranges.localSymbolsStartIndex + ranges.localSymbolsCount)
  ({ globals := globals.1
     imports := imports.1
     locals := locals.1 ++ stabs.1
     stabsStringsOffsetStart := uint32 locals.2.pool.currentOffset
     stabsStringsOffsetEnd := uint32 stabs.2.pool.currentOffset
     stabsIndexStart := stabsIndexStart
     stabsIndexEnd := uint32 (stabsIndexStart + state.stabs.length) },
   { ranges with
     localSymbolsCount := uint32 (ranges.localSymbolsCount + state.stabs.length) })

namespace SymbolTableAtom

variable (P : Pointer) (table : SymbolTableAtom Ref)

def size : Nat :=
  sizeofNlist P * (table.locals.length + table.globals.length + table.imports.length)

/-- Whether there are stabs, and where: `ssos`, `ssoe`, `sos`, `soe`. -/
def hasStabs : Bool × Nat × Nat × Nat × Nat :=
  (table.stabsIndexStart ≠ table.stabsIndexEnd
      || table.stabsStringsOffsetStart ≠ table.stabsStringsOffsetEnd,
    table.stabsStringsOffsetStart, table.stabsStringsOffsetEnd,
    uint32 (table.stabsIndexStart * sizeofNlist P), uint32 (table.stabsIndexEnd * sizeofNlist P))

def arrayBytes (entries : List (Entry Ref)) : List UInt8 :=
  entries.flatMap fun entry => entry.nlist.bytes P

/-- `memcpy`, which must stay inside both of its arguments. -/
def memcpy (buffer : List UInt8) (dst : Nat) (src : List UInt8) (n : Nat) : Option (List UInt8) :=
  if dst + n ≤ buffer.length ∧ n ≤ src.length then
    some (buffer.take dst ++ src.take n ++ buffer.drop (dst + n))
  else none

def copyRawContent (ranges : SymbolRanges) (buffer : List UInt8) : Option (List UInt8) := do
  let buffer ← memcpy buffer (ranges.localSymbolsStartIndex * sizeofNlist P)
    (arrayBytes P table.locals) (ranges.localSymbolsCount * sizeofNlist P)
  let buffer ← memcpy buffer (ranges.globalSymbolsStartIndex * sizeofNlist P)
    (arrayBytes P table.globals) (ranges.globalSymbolsCount * sizeofNlist P)
  memcpy buffer (ranges.importSymbolsStartIndex * sizeofNlist P)
    (arrayBytes P table.imports) (ranges.importSymbolsCount * sizeofNlist P)

end SymbolTableAtom

end Indexes

end Cctools.Symtab
