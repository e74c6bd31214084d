/-
# Cctools.Libstuff.CheckObject -- the order of the link-edit tables

`check_object` and `dyld_order` of libstuff's checkout.c: which load commands an object
may have, and where the tables of its link-edit segment must lie.  The arithmetic is that
of the C types, 32 bits in the load commands and 64 in the running offset.

A program that is not for the dynamic linker is checked by `symbol_string_at_end`, which
is a parameter.  What `check_object` only collects (notes, encryption) is left out.
-/
import Mathlib.Tactic.Common
import Mathlib.Algebra.GroupWithZero.Nat

namespace Cctools.Libstuff

set_option autoImplicit false

/-! ## Load commands -/

/-- `symtab_command` -/
structure Symtab where
  symoff : BitVec 32
  nsyms : BitVec 32
  stroff : BitVec 32
  strsize : BitVec 32

/-- `dysymtab_command` -/
structure Dysymtab where
  ilocalsym : BitVec 32
  nlocalsym : BitVec 32
  iextdefsym : BitVec 32
  nextdefsym : BitVec 32
  iundefsym : BitVec 32
  nundefsym : BitVec 32
  tocoff : BitVec 32
  ntoc : BitVec 32
  modtaboff : BitVec 32
  nmodtab : BitVec 32
  extrefsymoff : BitVec 32
  nextrefsyms : BitVec 32
  indirectsymoff : BitVec 32
  nindirectsyms : BitVec 32
  extreloff : BitVec 32
  nextrel : BitVec 32
  locreloff : BitVec 32
  nlocrel : BitVec 32

/-- `twolevel_hints_command` -/
structure TwolevelHints where
  offset : BitVec 32
  nhints : BitVec 32

/-- `linkedit_data_command` -/
structure LinkeditData where
  dataoff : BitVec 32
  datasize : BitVec 32

/-- `dyld_info_command` -/
structure DyldInfo where
  rebaseOff : BitVec 32
  rebaseSize : BitVec 32
  bindOff : BitVec 32
  bindSize : BitVec 32
  weakBindOff : BitVec 32
  weakBindSize : BitVec 32
  lazyBindOff : BitVec 32
  lazyBindSize : BitVec 32
  exportOff : BitVec 32
  exportSize : BitVec 32

/-- `segment_command`, with 32 bits, or `segment_command_64`. -/
structure Segment (bits : Nat) where
  fileoff : BitVec bits
  filesize : BitVec bits
  vmaddr : BitVec bits
  vmsize : BitVec bits

inductive LoadCommand
  | symtab (command : Symtab)
  | dysymtab (command : Dysymtab)
  | twolevelHints (command : TwolevelHints)
  | codeSignature (command : LinkeditData)
  | segmentSplitInfo (command : LinkeditData)
  | functionStarts (command : LinkeditData)
  | dataInCode (command : LinkeditData)
  | atomInfo (command : LinkeditData)
  | dylibCodeSignDrs (command : LinkeditData)
  | linkerOptimizationHint (command : LinkeditData)
  /-- `LC_DYLD_INFO` or `LC_DYLD_INFO_ONLY` -/
  | dyldInfo (command : DyldInfo)
  | dyldExportsTrie (command : LinkeditData)
  | dyldChainedFixups (command : LinkeditData)
  | encryptionInfo
  | encryptionInfo64
  | segment (segname : String) (command : Segment 32)
  | segment64 (segname : String) (command : Segment 64)
  | idDylib (nameOffset cmdsize : BitVec 32)
  | other

/-- `struct object`: its header, and what `check_object` finds among its load commands. -/
structure Object where
  /-- `mh64 != NULL` -/
  is64 : Bool
  filetype : BitVec 32
  flags : BitVec 32
  objectSize : BitVec 32
  st : Option Symtab
  dyst : Option Dysymtab
  hintsCmd : Option TwolevelHints
  codeSigCmd : Option LinkeditData
  splitInfoCmd : Option LinkeditData
  funcStartsInfoCmd : Option LinkeditData
  dataInCodeCmd : Option LinkeditData
  atomInfoCmd : Option LinkeditData
  codeSignDrsCmd : Option LinkeditData
  linkOptHintCmd : Option LinkeditData
  dyldInfo : Option DyldInfo
  dyldExportsTrie : Option LinkeditData
  dyldChainedFixups : Option LinkeditData
  encryptionInfo : Option Unit
  encryptionInfo64 : Option Unit
  segLinkedit : Option (Segment 32)
  segLinkedit64 : Option (Segment 64)
  segBitcode : Option (Segment 32)
  segBitcode64 : Option (Segment 64)
  dlId : Option Unit

def Object.start (is64 : Bool) (filetype flags objectSize : BitVec 32) : Object :=
  ⟨is64, filetype, flags, objectSize, none, none, none, none, none, none, none, none, none, none, none, none, none,
    none, none, none, none, none, none, none⟩

/-- A command that may be there once. -/
def once {α : Type} (name : String) (old : Option α) (new : α) : Except String (Option α) :=
  match old with
  | some _ => .error ("malformed file (more than one " ++ name ++ " load command): ")
  | none => .ok (some new)

/-- A segment of a name that may be there once. -/
def onceSegment {bits : Nat} (name : String) (old : Option (Segment bits)) (new : Segment bits) :
    Except String (Option (Segment bits)) :=
  match old with
  | some _ => .error ("malformed file (more than one " ++ name ++ "segment): ")
  | none => .ok (some new)

namespace Object

def addCommand (object : Object) (i : Nat) : LoadCommand → Except String Object
  | .symtab command => do return { object with st := ← once "LC_SYMTAB" object.st command }
  | .dysymtab command => do return { object with dyst := ← once "LC_DYSYMTAB" object.dyst command }
  | .twolevelHints command => do return { object with hintsCmd := ← once "LC_TWOLEVEL_HINTS" object.hintsCmd command }
  | .codeSignature command => do
      return { object with codeSigCmd := ← once "LC_CODE_SIGNATURE" object.codeSigCmd command }
  | .segmentSplitInfo command => do
      return { object with splitInfoCmd := ← once "LC_SEGMENT_SPLIT_INFO" object.splitInfoCmd command }
  | .functionStarts command => do
      return { object with funcStartsInfoCmd := ← once "LC_FUNCTION_STARTS" object.funcStartsInfoCmd command }
  | .dataInCode command => do
      return { object with dataInCodeCmd := ← once "LC_DATA_IN_CODE" object.dataInCodeCmd command }
  | .atomInfo command => do return { object with atomInfoCmd := ← once "LC_ATOM_INFO" object.atomInfoCmd command }
  | .dylibCodeSignDrs command => do
      return { object with codeSignDrsCmd := ← once "LC_DYLIB_CODE_SIGN_DRS" object.codeSignDrsCmd command }
  | .linkerOptimizationHint command => do
      return { object with linkOptHintCmd := ← once "LC_LINKER_OPTIMIZATION_HINT" object.linkOptHintCmd command }
  | .dyldInfo command => do return { object with dyldInfo := ← once "LC_DYLD_INFO" object.dyldInfo command }
  | .dyldExportsTrie command => do
      return { object with dyldExportsTrie := ← once "LC_DYLD_EXPORTS_TRIE" object.dyldExportsTrie command }
  | .dyldChainedFixups command => do
      return { object with dyldChainedFixups := ← once "LC_DYLD_CHAINED_FIXUPS" object.dyldChainedFixups command }
  | .encryptionInfo => do
      return { object with encryptionInfo := ← once "LC_ENCRYPTION_INFO" object.encryptionInfo () }
  | .encryptionInfo64 => do
      return { object with encryptionInfo64 := ← once "LC_ENCRYPTION_INFO_64" object.encryptionInfo64 () }
  | .segment segname command =>
    if segname = "__LINKEDIT" then do
      return { object with segLinkedit := ← onceSegment "__LINKEDIT" object.segLinkedit command }
    else if segname = "__LLVM" then do
      return { object with segBitcode := ← onceSegment "__LLVM " object.segBitcode command }
    else return object
  | .segment64 segname command =>
    if segname = "__LINKEDIT" then do
      return { object with segLinkedit64 := ← onceSegment "__LINKEDIT" object.segLinkedit64 command }
    else if segname = "__LLVM" then do
      return { object with segBitcode64 := ← onceSegment "__LLVM " object.segBitcode64 command }
    else return object
  | .idDylib nameOffset cmdsize => do
      let dlId ← once "LC_ID_DYLIB" object.dlId ()
      if cmdsize ≤ nameOffset then
        .error ("malformed file (name.offset of load command " ++ toString i ++
          " extends past the end of the load command): ")
      else return { object with dlId }
  | .other => return object

/-- The loop over the load commands. -/
def addCommands : Object → Nat → List LoadCommand → Except String Object
  | object, _, [] => .ok object
  | object, i, command :: commands => do
      let object ← object.addCommand i command
      object.addCommands (i + 1) commands

end Object

/-! ## Tables -/

/-- How a table is checked against the running offset. -/
inductive Order
  /-- A table with entries lies there. -/
  | entries
  /-- Data with an offset lies there. -/
  | data
  /-- Data with an offset lies there, and data without one does not count. -/
  | dataOrNone

/-- `count` entries of `each` bytes at `off`. -/
structure Table where
  order : Order
  off : BitVec 32
  count : BitVec 32
  each : Nat
  outOfPlace : String

def Table.bytes (table : Table) : Nat := table.count.toNat * table.each

/-- The data of a load command; without the command it is empty. -/
def dataTable (order : Order) (command : Option LinkeditData) (outOfPlace : String) : Table :=
  ⟨order, (command.map (·.dataoff)).getD 0, (command.map (·.datasize)).getD 0, 1, outOfPlace⟩

def orderError {α : Type} (reason : String) : Except String α :=
  .error ("file not in an order that can be processed (" ++ reason ++ "): ")

/-- `offset += bytes`, an `uint64_t` -/
def advance (offset bytes : Nat) : Nat := (offset + bytes) % 2 ^ 64

/-- `rnd`, to a power of two -/
def rnd (offset multiple : Nat) : Nat := advance offset (multiple - 1) / multiple * multiple

def Table.check (table : Table) (offset : Nat) : Except String Nat :=
  match table.order with
  | .entries =>
    if table.count ≠ 0 ∧ table.off.toNat ≠ offset then orderError table.outOfPlace
    else .ok (advance offset table.bytes)
  | .data =>
    if table.off ≠ 0 ∧ table.off.toNat ≠ offset then orderError table.outOfPlace
    else .ok (advance offset table.bytes)
  | .dataOrNone =>
    if table.off = 0 then .ok offset
    else if table.off.toNat ≠ offset then orderError table.outOfPlace
    else .ok (table.off + table.count).toNat

def checkTables : List Table → Nat → Except String Nat
  | [], offset => .ok offset
  | table :: tables, offset => (table.check offset).bind (checkTables tables)

/-- The running offset behind the indirect symbols, which may have been rounded. -/
structure Rounded where
  offset : Nat
  roundedOffset : Nat
  /-- `input_indirectsym_pad` -/
  pad : Nat

def Table.checkRounded (table : Table) (at_ : Rounded) : Except String Rounded :=
  if table.count = 0 then .ok at_
  else if table.off.toNat = at_.offset then
    let offset := advance at_.offset table.bytes
    .ok { at_ with offset, roundedOffset := offset }
  else if table.off.toNat = at_.roundedOffset then
    let offset := advance at_.roundedOffset table.bytes
    .ok ⟨offset, offset, at_.roundedOffset - at_.offset⟩
  else orderError table.outOfPlace

def checkRoundedTables : List Table → Rounded → Except String Rounded
  | [], at_ => .ok at_
  | table :: tables, at_ => (table.checkRounded at_).bind (checkRoundedTables tables)

/-- The offset behind the last part of the dyld info that has a size. -/
def DyldInfo.last (info : DyldInfo) : Option (BitVec 32) :=
  if info.exportSize ≠ 0 then some (info.exportOff + info.exportSize)
  else if info.lazyBindSize ≠ 0 then some (info.lazyBindOff + info.lazyBindSize)
  else if info.weakBindSize ≠ 0 then some (info.weakBindOff + info.weakBindSize)
  else if info.bindSize ≠ 0 then some (info.bindOff + info.bindSize)
  else if info.rebaseSize ≠ 0 then some (info.rebaseOff + info.rebaseSize)
  else none

/-- The dyld info starts at the beginning of the link-edit segment. -/
def DyldInfo.isOutOfPlace (info : DyldInfo) (offset : Nat) : Bool :=
  if info.rebaseOff ≠ 0 then info.rebaseOff.toNat ≠ offset
  else if info.bindOff ≠ 0 then info.bindOff.toNat ≠ offset
  else info.exportOff ≠ 0 && info.exportOff.toNat ≠ offset && info.weakBindSize ≠ 0 && info.lazyBindSize ≠ 0

def DyldInfo.check (info : DyldInfo) (offset : Nat) : Except String Nat :=
  if info.isOutOfPlace offset then orderError "dyld_info out of place"
  else .ok ((info.last.map (·.toNat)).getD offset)

namespace Object

/-- The tables up to the symbol table. -/
def tablesToSymbols (object : Object) (st : Symtab) (dyst : Dysymtab) : List Table :=
  [dataTable .dataOrNone object.dyldChainedFixups "dyld chained fixups out of place",
    dataTable .dataOrNone object.dyldExportsTrie "dyld exports trie out of place",
    ⟨.entries, dyst.locreloff, dyst.nlocrel, 8, "local relocation entries out of place"⟩,
    dataTable .data object.splitInfoCmd "split info data out of place",
    dataTable .data object.funcStartsInfoCmd "function starts data out of place",
    dataTable .data object.dataInCodeCmd "data in code info out of place",
    dataTable .data object.atomInfoCmd "atom info out of place",
    dataTable .data object.codeSignDrsCmd "code signing DRs info out of place",
    dataTable .data object.linkOptHintCmd "linker optimization hint info out of place",
    ⟨.entries, st.symoff, st.nsyms, if object.is64 then 16 else 12, "symbol table out of place"⟩]

/-- The tables behind the symbol table, up to the indirect symbols. -/
def tablesToIndirect (object : Object) (dyst : Dysymtab) : List Table :=
  [⟨.entries, (object.hintsCmd.map (·.offset)).getD 0, (object.hintsCmd.map (·.nhints)).getD 0, 4,
      "hints table out of place"⟩,
    ⟨.entries, dyst.extreloff, dyst.nextrel, 8, "external relocation entries out of place"⟩,
    ⟨.entries, dyst.indirectsymoff, dyst.nindirectsyms, 4, "indirect symbol table out of place"⟩]

/-- The tables behind the indirect symbols. -/
def tablesToStrings (object : Object) (st : Symtab) (dyst : Dysymtab) : List Table :=
  [⟨.entries, dyst.tocoff, dyst.ntoc, 8, "table of contents out of place"⟩,
    ⟨.entries, dyst.modtaboff, dyst.nmodtab, if object.is64 then 56 else 52, "module table out of place"⟩,
    ⟨.entries, dyst.extrefsymoff, dyst.nextrefsyms, 4, "reference table out of place"⟩,
    ⟨.entries, st.stroff, st.strsize, 1, "string table out of place"⟩]

end Object

/-- The groups of the symbol table follow each other. -/
def Dysymtab.checkGroups (dyst : Dysymtab) : Except String Unit :=
  let locals := dyst.nlocalsym
  let extdefs := locals + dyst.nextdefsym
  if dyst.nlocalsym ≠ 0 ∧ dyst.ilocalsym ≠ 0 then orderError "local symbols out of place"
  else if dyst.nextdefsym ≠ 0 ∧ dyst.iextdefsym ≠ locals then orderError "externally defined symbols out of place"
  else if dyst.nundefsym ≠ 0 ∧ dyst.iundefsym ≠ extdefs then orderError "undefined symbols out of place"
  else .ok ()

/-- The link-edit segment covers the end of the file, and a `__LLVM` segment lies directly before it. -/
def checkLinkedit {bits : Nat} (linkedit bitcode : Option (Segment bits)) (objectSize : BitVec 32) :
    Except String Nat :=
  match linkedit with
  | none => .error "malformed file (no __LINKEDIT segment): "
  | some linkedit =>
    if linkedit.filesize ≠ 0 ∧ (linkedit.fileoff + linkedit.filesize).toNat ≠ objectSize.toNat then
      .error "the __LINKEDIT segment does not cover the end of the file (can't be processed) in: "
    else
      match bitcode with
      | none => .ok linkedit.fileoff.toNat
      | some bitcode =>
        if bitcode.filesize.toNat < 28 then
          .error "the __LLVM segment too small (less than sizeof(struct xar_header)) in: "
        else if bitcode.fileoff + bitcode.filesize ≠ linkedit.fileoff then
          .error "the __LLVM segment not directly before the __LINKEDIT segment in: "
        else if bitcode.vmaddr + bitcode.vmsize ≠ linkedit.vmaddr then
          .error "the __LLVM segment's vmaddr plus vmsize not directly before the vmaddr of the __LINKEDIT segment in: "
        else .ok linkedit.fileoff.toNat

/-- The code signature is behind the rest at a multiple of 16; this is the offset behind it. -/
def checkSignature (signature : Option LinkeditData) (at_ : Rounded) : Except String Rounded :=
  match signature with
  | none => .ok at_
  | some signature =>
    let roundedOffset := rnd at_.roundedOffset 16
    if signature.dataoff.toNat ≠ roundedOffset then orderError "code signature data out of place"
    else
      let offset := advance roundedOffset signature.datasize.toNat
      .ok { at_ with offset, roundedOffset := offset }

namespace Object

/-- Where the link-edit segment begins in the file. -/
def linkeditStart (object : Object) : Except String Nat :=
  if object.is64 then checkLinkedit object.segLinkedit64 object.segBitcode64 object.objectSize
  else checkLinkedit object.segLinkedit object.segBitcode object.objectSize

/-- The state behind the indirect symbols of a 64-bit object with an odd number of them. -/
def behindIndirect (object : Object) (dyst : Dysymtab) (offset : Nat) : Rounded :=
  ⟨offset, if object.is64 ∧ dyst.nindirectsyms.toNat % 2 ≠ 0 then rnd offset 8 else offset, 0⟩

/-- `dyld_order`; the result is `input_indirectsym_pad`. -/
def dyldOrder (object : Object) (st : Symtab) (dyst : Dysymtab) : Except String Nat := do
  let offset ← object.linkeditStart
  let offset ← (object.dyldInfo.map (·.check offset)).getD (.ok offset)
  let offset ← checkTables (object.tablesToSymbols st dyst) offset
  dyst.checkGroups
  let offset ← checkTables (object.tablesToIndirect dyst) offset
  let strings ← checkRoundedTables (object.tablesToStrings st dyst) (object.behindIndirect dyst offset)
  let end_ ← checkSignature object.codeSigCmd strings
  if end_.offset ≠ object.objectSize.toNat ∧ end_.roundedOffset ≠ object.objectSize.toNat then
    orderError "link edit information does not fill the __LINKEDIT segment"
  else return end_.pad

/-- An object for the dynamic linker: a dynamic library, or one with `MH_DYLDLINK`, or a kext. -/
def isDyldLinked (object : Object) : Bool :=
  object.filetype = 6 || object.flags &&& 4 ≠ 0 || object.filetype = 0xb

/-- `check_object` behind its loop. -/
def checkCommands (symbolStringAtEnd : Object → Except String Nat) (object : Object) (ncmds : Nat) : Except String Nat :=
  if (object.filetype = 6 ∨ (object.filetype = 9 ∧ 0 < ncmds)) ∧ object.dlId.isNone then
    .error ("malformed file (no LC_ID_DYLIB load command in " ++
      (if object.filetype = 6 then "MH_DYLIB" else "MH_DYLIB_STUB") ++ " file): ")
  else if object.hintsCmd.any (·.nhints ≠ 0) ∧ object.dyst.isNone then
    .error "malformed file (LC_TWOLEVEL_HINTS load command present without an LC_DYSYMTAB load command):"
  else if object.hintsCmd.any fun hints => hints.nhints ≠ 0 && object.dyst.any (·.nundefsym ≠ hints.nhints) then
    .error "malformed file (LC_TWOLEVEL_HINTS load command's nhints does not match LC_DYSYMTAB load command's nundefsym):"
  else
    match object.dyst with
    | none => symbolStringAtEnd object
    | some dyst =>
      if object.isDyldLinked then
        match object.st with
        -- `object->st` is not checked
        | none => .error "NULL"
        | some st => object.dyldOrder st dyst
      else symbolStringAtEnd object

end Object

/-- `check_object`: the object with the commands found, and `input_indirectsym_pad`. -/
def checkObject (symbolStringAtEnd : Object → Except String Nat) (is64 : Bool) (filetype flags objectSize : BitVec 32)
    (commands : List LoadCommand) : Except String (Object × Nat) := do
  let object ← (Object.start is64 filetype flags objectSize).addCommands 0 commands
  let pad ← object.checkCommands symbolStringAtEnd commands.length
  return (object, pad)

end Cctools.Libstuff
