/-
# Cctools.WriteObject.Relocations -- relocation entries are counted and written

`nrelocs_for_fix` and `fix_to_relocation_entries` of the assembler's write_object.c, with
`i386_validate_fix` of i386.c and `calc_hppa_HILO` of hppa.c.

The target is what the preprocessor symbols choose when the assembler is built.  `none` is
`as_fatal` or `abort`.
-/
import Cctools.WriteObject.Symbols
import Mathlib.Tactic.Common
import Mathlib.Algebra.GroupWithZero.Nat

namespace Cctools.WriteObject

set_option autoImplicit false

/-! ## Targets -/

/-- `arch64` is that `ARCH64` is defined. -/
inductive Target
  | arm
  | hppa
  | i386 (arch64 : Bool)
  | i860
  | m68k
  | m88k
  | ppc (arch64 : Bool)
  | sparc
  deriving DecidableEq

namespace Target

def arch64 : Target → Bool
  | .i386 arch64 | .ppc arch64 => arch64
  | _ => false

def isPpc : Target → Bool
  | .ppc _ => true
  | _ => false

/-- The width of `sy_value`. -/
def valueWidth (target : Target) : Nat := if target.arch64 then 64 else 32

/-- The types that `nrelocs_for_fix` gives two entries. -/
def countedHalves : Target → List (BitVec 8)
  | .arm => [0x70, 0x71, 0x72, 0x73]
  | .hppa => [2, 3, 4, 6]
  | .i860 => [2, 11]
  | .m88k => [4, 5]
  | .ppc _ => [4, 5, 6, 7, 13]
  | .sparc => [2, 3]
  | .i386 _ | .m68k => []

/-- The types that `fix_to_relocation_entries` writes a second entry for. -/
def writtenHalves : Target → List (BitVec 8)
  | .arm => [0x70, 0x71, 0x72, 0x73]
  | .hppa => [2, 3, 4, 6]
  | .i860 => [2, 11]
  | .m88k => [4, 5]
  | .ppc _ => [4, 5, 6, 7, 13]
  | .sparc => [2, 3]
  | .i386 _ | .m68k => []

/-- The targets that the code of a section difference is compiled for. -/
def hasSectdiff : Target → Bool
  | .arm | .hppa | .ppc _ | .sparc => true
  | .i386 _ | .i860 | .m68k | .m88k => false

/-- The difference of a type that is for half of an address. -/
def halfSectdiff : Target → List (BitVec 8 × BitVec 4)
  | .arm => [(0x70, 9), (0x71, 9), (0x72, 9), (0x73, 9)]
  | .hppa => [(2, 8), (3, 9)]
  | .ppc _ => [(4, 10), (5, 11), (6, 12), (7, 14)]
  | .sparc => [(2, 7), (3, 8)]
  | .i386 _ | .i860 | .m68k | .m88k => []

/-- `RELOC_SECTDIFF` -/
def relocSectdiff : Target → BitVec 4
  | .arm | .i386 _ | .m68k => 2
  | .hppa => 7
  | .i860 => 13
  | .m88k | .sparc => 6
  | .ppc _ => 8

/-- `RELOC_LOCAL_SECTDIFF` -/
def relocLocalSectdiff : Target → BitVec 4
  | .ppc _ => 15
  | .i386 _ | .m68k => 4
  | target => target.relocSectdiff

/-- The types of the first entry of a section difference. -/
def sectdiffs (target : Target) : List (BitVec 4) :=
  target.relocSectdiff :: target.relocLocalSectdiff :: target.halfSectdiff.map Prod.snd

end Target

def relocPair : BitVec 4 := 1
def noReloc : BitVec 8 := 0x10
def genericRelocTlv : BitVec 8 := 5
def ppcRelocBr14Predicted : BitVec 8 := 0x12
def armRelocHalf : BitVec 4 := 8
def x8664RelocUnsigned : BitVec 4 := 0
def x8664RelocGot : BitVec 8 := 4
def x8664RelocSubtractor : BitVec 4 := 5
/-- `X86_64_RELOC_SIGNED` and those with an addend. -/
def x8664RelocSigned : List (BitVec 8) := [1, 6, 7, 8]
def nAbs : BitVec 8 := 0x02
def nSect : BitVec 8 := 0x0e

/-! ## Fixes and entries -/

structure Fix (width : Nat) where
  addsy : Option (Symbol width)
  subsy : Option (Symbol width)
  offset : BitVec 64
  size : BitVec 8
  pcrel : Bool
  rType : BitVec 8
  /-- What was put in the frag. -/
  value : BitVec 32
  fragAddress : BitVec 64
  whereInFrag : BitVec 32

/-- What the functions read besides the fix. -/
structure Env where
  /-- `-k` -/
  flagK : Bool
  /-- `flag_code` is `CODE_64BIT`. -/
  code64Bit : Bool
  gotSymbol : Option Nat
  isSectionCoalesced : BitVec 8 → Bool
  isSectionCstringLiterals : BitVec 8 → Bool
  /-- The section has `S_ATTR_DEBUG`. -/
  debugSection : Bool
  sectAddr : BitVec 64

structure RelocationInfo where
  address : BitVec 32
  symbolnum : BitVec 24
  pcrel : Bool
  length : BitVec 2
  isExtern : Bool
  type : BitVec 4
  deriving DecidableEq

structure ScatteredRelocationInfo where
  pcrel : Bool
  length : BitVec 2
  type : BitVec 4
  address : BitVec 24
  value : BitVec 32
  deriving DecidableEq

/-- `R_SCATTERED` says which one an entry is. -/
inductive Reloc
  | plain (info : RelocationInfo)
  | scattered (info : ScatteredRelocationInfo)
  deriving DecidableEq

section Writing

variable {width : Nat}

/-! ## Counting -/

/-- **`nrelocs_for_fix`** -/
def nrelocsForFix (target : Target) (fix : Fix width) : Nat :=
  if fix.addsy.isNone then 0
  else if fix.subsy.isSome then 2
  else if fix.rType ∈ target.countedHalves then 2
  else 1

/-! ## Writing -/

/-- `is_local_symbol` -/
def isLocalSymbol (symbol : Symbol width) : Bool := symbol.name.any fun name => name.bytes.head? = some 76

/-- `TC_VALIDATE_FIX`, which is only the i386 assemblers'. -/
def validateFix (target : Target) (env : Env) (fix : Fix width) : Option (Fix width) :=
  match target, fix.subsy with
  | .i386 arch64, some sub =>
    if env.gotSymbol = some sub.address then
      if arch64 && fix.rType ∈ x8664RelocSigned then
        if env.code64Bit then some { fix with rType := x8664RelocGot, subsy := none } else none
      else if env.code64Bit then none
      else some { fix with subsy := none }
    else some fix
  | _, _ => some fix

def isArmHalf (target : Target) (rType : BitVec 8) : Bool :=
  target = .arm && rType ∈ Target.arm.writtenHalves

/-- The switch over `fx_size`. -/
def sizeLength (target : Target) (size : BitVec 8) : Option (BitVec 2) :=
  if size = 1 then some 0
  else if size = 2 then some 1
  else if size = 4 then some 2
  else if size = 8 ∧ target.arch64 then some 3
  else none

def firstLength (target : Target) (fix : Fix width) : Option (BitVec 2) :=
  if isArmHalf target fix.rType then some (fix.rType.setWidth 2)
  else if fix.size = 4 ∧ target.isPpc ∧ fix.rType = ppcRelocBr14Predicted then some 3
  else sizeLength target fix.size

def secondLength (target : Target) (fix : Fix width) : Option (BitVec 2) :=
  if isArmHalf target fix.rType then some (fix.rType.setWidth 2) else sizeLength target fix.size

def rAddress (env : Env) (fix : Fix width) : BitVec 32 :=
  (fix.fragAddress + fix.whereInFrag.signExtend 64 - env.sectAddr).setWidth 32

/-- The entry is external. -/
def isExternal (target : Target) (env : Env) (fix : Fix width) (symbol : Symbol width) : Bool :=
  match target with
  | .i386 true =>
    fix.subsy.isNone && (!env.debugSection || symbol.type &&& nType = nUndf) &&
      (!isLocalSymbol symbol || symbol.type &&& nType = nSect && env.isSectionCstringLiterals symbol.sect)
  | _ =>
    symbol.type &&& nType = nUndf ||
      (symbol.type &&& nExt = nExt && symbol.type &&& nType = nSect &&
        (env.isSectionCoalesced symbol.sect || symbol.desc &&& nWeakDef = nWeakDef) && fix.subsy.isNone) ||
      (target = .i386 false && symbol.type &&& nType = nSect && fix.rType = genericRelocTlv)

/-- `left21` and `right14`. -/
def calcHppaHILO (base offset : BitVec 32) : BitVec 32 × BitVec 32 :=
  let rounded := (offset + 0x1000) &&& ~~~0x1fff
  ((base + rounded) &&& 0xfffff800, ((base + rounded) &&& 0x7ff) + (offset - rounded))

/-- The other half of the address, which the second entry has for its address. -/
def otherHalf (target : Target) (env : Env) (fix : Fix width) (symbol : Symbol width) : BitVec 32 :=
  match target with
  | .arm =>
    if fix.rType = 0x71 ∨ fix.rType = 0x73 then 0xffff &&& fix.value else 0xffff &&& (fix.value >>> 16)
  | .hppa =>
    let (left21, right14) := calcHppaHILO (fix.value - fix.offset.setWidth 32) (fix.offset.setWidth 32)
    if fix.rType = 3 ∨ fix.rType = 4 then left21 >>> 11
    else if fix.rType = 2 then right14 &&& 0x3fff
    else if symbol.type &&& nType = nUndf then fix.value &&& 0xffffff
    else (fix.value - env.sectAddr.setWidth 32) &&& 0xffffff
  | .i860 => 0xffff &&& fix.value
  | .m88k => if fix.rType = 4 then 0xffff &&& fix.value else 0xffff &&& (fix.value >>> 16)
  | .ppc _ =>
    if fix.rType = 4 ∨ fix.rType = 6 then 0xffff &&& fix.value
    else if fix.rType = 5 ∨ fix.rType = 7 then 0xffff &&& (fix.value >>> 16)
    else fix.value
  | .sparc => if fix.rType = 2 then fix.value &&& 0x3ff else (fix.value >>> 10) &&& 0x3fffff
  | .i386 _ | .m68k => 0

/-- A target address with the high bit set has a scattered entry. -/
def pairEntry (target : Target) (env : Env) (fix : Fix width) (symbol : Symbol width) (length : BitVec 2) : Reloc :=
  if target.isPpc ∧ fix.rType = 13 ∧ fix.value.msb then
    .scattered ⟨fix.pcrel, length, relocPair, 0, fix.value⟩
  else .plain ⟨otherHalf target env fix symbol, 0xffffff, fix.pcrel, length, false, relocPair⟩

/-- An entry and, for half of an address, that of the other half. -/
def withOtherHalf (target : Target) (env : Env) (fix : Fix width) (symbol : Symbol width) (first : Reloc) :
    Option (List Reloc) :=
  if fix.rType ∈ target.writtenHalves then
    (secondLength target fix).map fun length => [first, pairEntry target env fix symbol length]
  else some [first]

/-- An entry of x86_64 for one of two symbols. -/
def symbolEntry (info : RelocationInfo) (type : BitVec 4) (symbol : Symbol width) : RelocationInfo :=
  if isLocalSymbol symbol then { info with isExtern := false, symbolnum := symbol.sect.setWidth 24, type := type }
  else { info with isExtern := true, symbolnum := symbol.number.setWidth 24, type := type }

def subtractorPair (info : RelocationInfo) (add sub : Symbol width) : List Reloc :=
  [.plain (symbolEntry info x8664RelocSubtractor sub), .plain (symbolEntry info x8664RelocUnsigned add)]

/-- The type of a section difference. -/
def sectdiffType (target : Target) (env : Env) (fix : Fix width) (add : Symbol width) : Option (BitVec 4) :=
  match target.halfSectdiff.lookup fix.rType with
  | some type => some type
  | none =>
    if fix.rType ≠ 0 ∧ fix.rType ≠ noReloc then none
    else if add.type &&& nExt = 0 ∧ env.flagK then some target.relocLocalSectdiff
    else some target.relocSectdiff

/-- The address in the second entry of a section difference of `type`. -/
def sectdiffOther (target : Target) (fix : Fix width) (add sub : Symbol width) (type : BitVec 4) (length : BitVec 2) :
    BitVec 24 :=
  let distance := add.value.setWidth 32 - sub.value.setWidth 32
  let offset := fix.offset.setWidth 32
  let low := (distance + offset).setWidth 24 &&& 0xffff
  let high := ((distance + offset) >>> 16).setWidth 24 &&& 0xffff
  if type = target.relocSectdiff ∨ type = target.relocLocalSectdiff then 0
  else
    match target with
    | .ppc _ => if type = 10 ∨ type = 12 then low else high
    | .hppa =>
      let (left21, right14) := calcHppaHILO distance offset
      if type = 8 then (right14 &&& 0x3fff).setWidth 24 else (left21 >>> 11).setWidth 24
    | .sparc =>
      if type = 7 then (distance + offset).setWidth 24 &&& 0x3ff
      else ((distance + offset) >>> 10).setWidth 24 &&& 0x3fffff
    | .arm => if length &&& 1 = 1 then low else high
    | _ => 0

/-- Two scattered entries; the address has to fit its 24 bits. -/
def sectdiffPair (target : Target) (env : Env) (fix : Fix width) (info : RelocationInfo) (add sub : Symbol width) :
    Option (List Reloc) := do
  let type ← sectdiffType target env fix add
  let address := info.address.setWidth 24
  if address.setWidth 32 ≠ info.address then none
  else
    some
      [.scattered ⟨info.pcrel, info.length, type, address, add.value.setWidth 32⟩,
        .scattered
          ⟨info.pcrel, info.length, relocPair, sectdiffOther target fix add sub type info.length,
            sub.value.setWidth 32⟩]

/-- The branches of the m68k have offsets that are not of the symbol. -/
def isM68kBranch (target : Target) (fix : Fix width) : Bool :=
  target = .m68k && fix.pcrel && (fix.size = 2 && fix.offset = 2 || fix.size = 4 && fix.offset = 4)

/-- A local entry, scattered when the expression is not the symbol alone. -/
def localEntry (target : Target) (fix : Fix width) (info : RelocationInfo) (symbol : Symbol width) : Reloc :=
  if target ≠ .i860 ∧ target ≠ .i386 true ∧ fix.offset ≠ 0 ∧ info.address &&& 0xff000000 = 0 ∧
      symbol.type &&& nType &&& ~~~nExt ≠ nAbs ∧ ¬ isM68kBranch target fix then
    .scattered ⟨info.pcrel, info.length, info.type, info.address.setWidth 24, symbol.value.setWidth 32⟩
  else .plain info

/-- The entries of a valid fix with a symbol to add. -/
def entriesOf (target : Target) (env : Env) (fix : Fix width) (symbol : Symbol width) : Option (List Reloc) := do
  let length ← firstLength target fix
  let type := if isArmHalf target fix.rType then armRelocHalf else fix.rType.setWidth 4
  let info : RelocationInfo := ⟨rAddress env fix, symbol.sect.setWidth 24, fix.pcrel, length, false, type⟩
  if isExternal target env fix symbol then
    withOtherHalf target env fix symbol
      (.plain { info with isExtern := true, symbolnum := symbol.number.setWidth 24 })
  else
    match fix.subsy with
    | some sub =>
      if target = .i386 true then some (subtractorPair info symbol sub)
      else if target.hasSectdiff then sectdiffPair target env fix info symbol sub
      else withOtherHalf target env fix symbol (localEntry target fix info symbol)
    | none => withOtherHalf target env fix symbol (localEntry target fix info symbol)

/-- **`fix_to_relocation_entries`** -/
def fixToRelocationEntries (target : Target) (env : Env) (fix : Fix width) : Option (List Reloc) :=
  match fix.addsy with
  | none => some []
  | some symbol => (validateFix target env fix).bind fun fix => entriesOf target env fix symbol

/-! ## Sections -/

/-- `nreloc` of a section. -/
def nreloc (target : Target) (fixes : List (Fix width)) : Nat := (fixes.map (nrelocsForFix target)).sum

/-- Entries with the offsets that they are put at. -/
def placed (offset : BitVec 32) : List Reloc → List (BitVec 32 × Reloc)
  | [] => []
  | entry :: entries => (offset, entry) :: placed (offset + 8) entries

/-- The entries of a section, from its `reloff`. -/
def putRelocs (target : Target) (env : Env) (offset : BitVec 32) :
    List (Fix width) → Option (List (BitVec 32 × Reloc))
  | [] => some []
  | fix :: fixes => do
      let entries ← fixToRelocationEntries target env fix
      let others ← putRelocs target env (offset + 8 * BitVec.ofNat 32 entries.length) fixes
      some (placed offset entries ++ others)

/-! ## Reading back -/

/-- What an entry says of its symbol. -/
inductive Reference
  | address (value : Nat)
  | number (index : Nat)
  | ordinal (sect : Nat)
  deriving DecidableEq

def RelocationInfo.reference (info : RelocationInfo) : Reference :=
  if info.isExtern then .number info.symbolnum.toNat else .ordinal info.symbolnum.toNat

/-- The symbols that a pair of entries is for, the one to add first. -/
def readBack (target : Target) (entries : List Reloc) : Option (Reference × Reference) :=
  match target, entries with
  | .i386 true, [.plain sub, .plain add] =>
    if sub.type = x8664RelocSubtractor ∧ add.type = x8664RelocUnsigned then some (add.reference, sub.reference)
    else none
  | .i386 true, _ => none
  | target, [.scattered add, .scattered sub] =>
    if add.type ∈ target.sectdiffs ∧ sub.type = relocPair then
      some (.address add.value.toNat, .address sub.value.toNat)
    else none
  | _, _ => none

/-- What the entries have to say of a symbol. -/
def reference (target : Target) (symbol : Symbol width) : Reference :=
  if target = .i386 true then
    if isLocalSymbol symbol then .ordinal symbol.sect.toNat else .number symbol.number.toNat
  else .address symbol.value.toNat

/-- **The entries are as many as were counted, and both symbols are read back from those of a difference.** -/
def Agrees (target : Target) (env : Env) (fix : Fix width) : Prop :=
  ∃ entries, fixToRelocationEntries target env fix = some entries ∧ entries.length = nrelocsForFix target fix ∧
    ∀ add sub, fix.addsy = some add → fix.subsy = some sub →
      readBack target entries = some (reference target add, reference target sub)

/-! ## When they agree -/

/-- `fx_size` has a length. -/
def KnownSize (target : Target) (fix : Fix width) : Prop :=
  isArmHalf target fix.rType ∨ fix.size ∈ [1, 2, 4] ∨ fix.size = 8 ∧ target.arch64

/-- A symbol of x86_64 has an index that fits its entry, or none. -/
def Indexed (symbol : Symbol width) : Prop := isLocalSymbol symbol ∨ symbol.number.toNat < 2 ^ 24

/-- A difference that has entries of its own. -/
def Encodable (target : Target) (env : Env) (fix : Fix width) (add sub : Symbol width) : Prop :=
  match target with
  | .i386 true => env.gotSymbol ≠ some sub.address ∧ Indexed add ∧ Indexed sub
  | .arm | .hppa | .ppc _ | .sparc =>
    add.type &&& nType ≠ nUndf ∧ (fix.rType ∈ target.halfSectdiff.map Prod.fst ∨ fix.rType = 0 ∨ fix.rType = noReloc) ∧
      (rAddress env fix).toNat < 2 ^ 24 ∧ add.value.toNat < 2 ^ 32 ∧ sub.value.toNat < 2 ^ 32
  | .i386 false | .i860 | .m68k | .m88k => False

/-- The fixes that the entries can be of. -/
def Recordable (target : Target) (env : Env) (fix : Fix width) : Prop :=
  match fix.addsy, fix.subsy with
  | none, _ => True
  | some _, none => KnownSize target fix
  | some add, some sub => KnownSize target fix ∧ Encodable target env fix add sub

theorem writtenHalves_counted (target : Target) : target.writtenHalves = target.countedHalves := by
  cases target <;> rfl

theorem sizeLength_isSome (target : Target) (size : BitVec 8) :
    (sizeLength target size).isSome ↔ size ∈ [1, 2, 4] ∨ size = 8 ∧ target.arch64 := by
  unfold sizeLength
  split
  · simp [*]
  · split
    · simp [*]
    · split
      · simp [*]
      · split <;> simp_all

theorem secondLength_isSome (target : Target) (fix : Fix width) :
    (secondLength target fix).isSome ↔ KnownSize target fix := by
  unfold secondLength KnownSize
  split
  · simp [*]
  · simp [*, sizeLength_isSome]

theorem firstLength_isSome (target : Target) (fix : Fix width) :
    (firstLength target fix).isSome ↔ KnownSize target fix := by
  rw [← secondLength_isSome]
  unfold firstLength secondLength
  split
  · rfl
  · split
    case isTrue branch => simp [sizeLength_isSome, branch.1]
    case isFalse => rfl

variable {target : Target} {fix : Fix width}

theorem knownSize_length (known : KnownSize target fix) :
    ∃ length, firstLength target fix = some length :=
  Option.isSome_iff_exists.1 ((firstLength_isSome target fix).2 known)

/-! ## A fix with one symbol -/

variable {env : Env} {entries : List Reloc} {symbol : Symbol width}

theorem withOtherHalf_length {first : Reloc}
    (written : withOtherHalf target env fix symbol first = some entries) :
    entries.length = if fix.rType ∈ target.countedHalves then 2 else 1 := by
  rw [← writtenHalves_counted]
  unfold withOtherHalf at written
  split at written
  case isTrue half =>
    obtain ⟨length, -, rfl⟩ := Option.map_eq_some_iff.1 written
    rw [if_pos half]
    rfl
  case isFalse whole =>
    cases written
    rw [if_neg whole]
    rfl

theorem withOtherHalf_succeeds (env : Env) (symbol : Symbol width) (first : Reloc)
    (known : KnownSize target fix) : ∃ entries, withOtherHalf target env fix symbol first = some entries := by
  obtain ⟨length, second⟩ := Option.isSome_iff_exists.1 ((secondLength_isSome target fix).2 known)
  unfold withOtherHalf
  rw [second]
  split <;> exact ⟨_, rfl⟩

theorem validateFix_single (single : fix.subsy = none) :
    validateFix target env fix = some fix := by
  unfold validateFix
  rw [single]
  cases target <;> rfl

theorem entriesOf_known (written : entriesOf target env fix symbol = some entries) : KnownSize target fix := by
  unfold entriesOf at written
  obtain ⟨length, first, -⟩ := Option.bind_eq_some_iff.1 written
  rw [← firstLength_isSome, first]
  rfl

/-- The entries of a fix with one symbol are those of the half of an address. -/
theorem entriesOf_single (env : Env) (symbol : Symbol width)
    (single : fix.subsy = none) (known : KnownSize target fix) :
    ∃ first, entriesOf target env fix symbol = withOtherHalf target env fix symbol first := by
  obtain ⟨length, first⟩ := knownSize_length known
  unfold entriesOf
  rw [first, single]
  dsimp only [Option.bind_eq_bind, Option.bind_some]
  split <;> exact ⟨_, rfl⟩

theorem agrees_single (adds : fix.addsy = some symbol) (single : fix.subsy = none) :
    Agrees target env fix ↔ KnownSize target fix := by
  have written : fixToRelocationEntries target env fix = entriesOf target env fix symbol := by
    unfold fixToRelocationEntries
    rw [adds]
    dsimp only
    rw [validateFix_single single]
    rfl
  constructor
  · rintro ⟨entries, wrote, -, -⟩
    exact entriesOf_known (written ▸ wrote)
  · intro known
    obtain ⟨first, entry⟩ := entriesOf_single env symbol single known
    obtain ⟨entries, put⟩ := withOtherHalf_succeeds env symbol first known
    refine ⟨entries, by rw [written, entry, put], ?_, fun add sub _ subtracts => ?_⟩
    · simp [withOtherHalf_length put, nrelocsForFix, adds, single]
    · simp [single] at subtracts

/-! ## The difference of x86_64 -/

theorem symbolEntry_reference (info : RelocationInfo) (type : BitVec 4) (symbol : Symbol width) :
    (symbolEntry info type symbol).reference = reference (.i386 true) symbol ↔ Indexed symbol := by
  unfold symbolEntry reference Indexed RelocationInfo.reference
  by_cases unnamed : isLocalSymbol symbol
  · have same : (symbol.sect.setWidth 24).toNat = symbol.sect.toNat := by
      rw [BitVec.toNat_setWidth]
      exact Nat.mod_eq_of_lt (Nat.lt_trans symbol.sect.isLt (by decide))
    simp [unnamed, same, -BitVec.toNat_setWidth]
  · simp [unnamed, BitVec.toNat_setWidth]

theorem symbolEntry_type (info : RelocationInfo) (type : BitVec 4) (symbol : Symbol width) :
    (symbolEntry info type symbol).type = type := by
  unfold symbolEntry
  split <;> rfl

theorem readBack_subtractorPair (info : RelocationInfo) (add sub : Symbol width) :
    readBack (.i386 true) (subtractorPair info add sub) =
      some (reference (.i386 true) add, reference (.i386 true) sub) ↔ Indexed add ∧ Indexed sub := by
  rw [← symbolEntry_reference info x8664RelocUnsigned add, ← symbolEntry_reference info x8664RelocSubtractor sub]
  simp [readBack, subtractorPair, symbolEntry_type]

theorem entriesOf_got {arch64 : Bool} {fix valid : Fix width} {symbol sub : Symbol width}
    (subtracts : fix.subsy = some sub) (got : env.gotSymbol = some sub.address)
    (validated : validateFix (.i386 arch64) env fix = some valid)
    (written : entriesOf (.i386 arch64) env valid symbol = some entries) : entries.length = 1 := by
  have single : valid.subsy = none := by
    unfold validateFix at validated
    rw [subtracts] at validated
    dsimp only at validated
    rw [if_pos got] at validated
    split at validated <;> split at validated <;> cases validated <;> rfl
  obtain ⟨first, entry⟩ := entriesOf_single env symbol single (entriesOf_known written)
  exact withOtherHalf_length (entry ▸ written)

theorem validateFix_difference {sub : Symbol width}
    (subtracts : fix.subsy = some sub) (notGot : env.gotSymbol ≠ some sub.address) :
    validateFix target env fix = some fix := by
  unfold validateFix
  rw [subtracts]
  cases target <;> simp [notGot]

theorem entriesOf_x8664 {sub : Symbol width} (env : Env) (add : Symbol width)
    (subtracts : fix.subsy = some sub) (known : KnownSize (.i386 true) fix) :
    ∃ info, entriesOf (.i386 true) env fix add = some (subtractorPair info add sub) := by
  obtain ⟨length, first⟩ := knownSize_length known
  have inner : isExternal (.i386 true) env fix add = false := by simp [isExternal, subtracts]
  unfold entriesOf
  rw [first, subtracts]
  simp only [Option.bind_eq_bind, Option.bind_some, inner]
  exact ⟨_, rfl⟩

variable {add sub : Symbol width}

theorem agrees_x8664 (adds : fix.addsy = some add) (subtracts : fix.subsy = some sub) :
    Agrees (.i386 true) env fix ↔ KnownSize (.i386 true) fix ∧ Encodable (.i386 true) env fix add sub := by
  have written : fixToRelocationEntries (.i386 true) env fix =
      (validateFix (.i386 true) env fix).bind fun fix => entriesOf (.i386 true) env fix add := by
    unfold fixToRelocationEntries
    rw [adds]
  have counted : nrelocsForFix (.i386 true) fix = 2 := by simp [nrelocsForFix, adds, subtracts]
  by_cases got : env.gotSymbol = some sub.address
  · constructor
    · rintro ⟨entries, wrote, long, -⟩
      obtain ⟨valid, validated, wrote⟩ := Option.bind_eq_some_iff.1 (written ▸ wrote)
      have := entriesOf_got subtracts got validated wrote
      omega
    · rintro ⟨-, notGot, -, -⟩
      exact absurd got notGot
  · rw [validateFix_difference subtracts got, Option.bind_some] at written
    constructor
    · rintro ⟨entries, wrote, -, reads⟩
      have known := entriesOf_known (written ▸ wrote)
      obtain ⟨info, pair⟩ := entriesOf_x8664 env add subtracts known
      rw [written, pair] at wrote
      cases wrote
      exact ⟨known, got, (readBack_subtractorPair info add sub).1 (reads add sub adds subtracts)⟩
    · rintro ⟨known, -, indexed⟩
      obtain ⟨info, pair⟩ := entriesOf_x8664 env add subtracts known
      refine ⟨subtractorPair info add sub, written.trans pair, counted.symm ▸ rfl, ?_⟩
      intro add' sub' adds' subtracts'
      cases adds.symm.trans adds'
      cases subtracts.symm.trans subtracts'
      exact (readBack_subtractorPair info add sub).2 indexed

/-! ## The difference of the other targets -/

/-- Only scattered entries say the values of two symbols. -/
theorem readBack_plain (scattered : target ≠ .i386 true) (info : RelocationInfo)
    (others : List Reloc) : readBack target (.plain info :: others) = none := by
  unfold readBack
  split <;> simp_all

theorem readBack_unpaired (scattered : target ≠ .i386 true) (first : Reloc) (info : RelocationInfo) :
    readBack target [first, .plain info] = none := by
  unfold readBack
  split <;> simp_all

theorem readBack_single (scattered : target ≠ .i386 true) (first : Reloc) :
    readBack target [first] = none := by
  unfold readBack
  split <;> simp_all

theorem readBack_external {info : RelocationInfo} (scattered : target ≠ .i386 true)
    (written : withOtherHalf target env fix symbol (.plain info) = some entries) : readBack target entries = none := by
  unfold withOtherHalf at written
  split at written
  · obtain ⟨length, -, rfl⟩ := Option.map_eq_some_iff.1 written
    exact readBack_plain scattered info _
  · cases written
    exact readBack_plain scattered info _

/-- The other half of an address is not what a difference subtracts. -/
theorem readBack_withOtherHalf {first : Reloc}
    (scattered : target ≠ .i386 true) (bare : target.hasSectdiff = false)
    (written : withOtherHalf target env fix symbol first = some entries) : readBack target entries = none := by
  have notPpc : target.isPpc = false := by cases target <;> simp_all [Target.isPpc, Target.hasSectdiff]
  unfold withOtherHalf at written
  split at written
  · obtain ⟨length, -, rfl⟩ := Option.map_eq_some_iff.1 written
    simp only [pairEntry, notPpc, Bool.false_eq_true, false_and, if_false]
    exact readBack_unpaired scattered first _
  · cases written
    exact readBack_single scattered first

/-- **Without the code of a section difference the entries are those of one symbol.** -/
theorem entriesOf_bare {add : Symbol width}
    (scattered : target ≠ .i386 true) (bare : target.hasSectdiff = false)
    (written : entriesOf target env fix add = some entries) : readBack target entries = none := by
  unfold entriesOf at written
  obtain ⟨length, -, written⟩ := Option.bind_eq_some_iff.1 written
  dsimp only at written
  split at written
  · exact readBack_withOtherHalf scattered bare written
  · rw [bare] at written
    split at written
    · exact readBack_withOtherHalf scattered bare written
    · exact readBack_withOtherHalf scattered bare written

theorem agrees_bare
    (adds : fix.addsy = some add) (subtracts : fix.subsy = some sub) (scattered : target ≠ .i386 true)
    (bare : target.hasSectdiff = false) : ¬ Agrees target env fix := by
  rintro ⟨entries, wrote, -, reads⟩
  unfold fixToRelocationEntries at wrote
  rw [adds] at wrote
  obtain ⟨valid, -, wrote⟩ := Option.bind_eq_some_iff.1 wrote
  have none_read := entriesOf_bare scattered bare wrote
  rw [reads add sub adds subtracts] at none_read
  cases none_read

theorem lookup_some_mem {α β : Type} [BEq α] [LawfulBEq α] {key : α} {value : β} {table : List (α × β)}
    (found : table.lookup key = some value) : (key, value) ∈ table := by
  obtain ⟨before, after, rfl, -⟩ := List.lookup_eq_some_iff.1 found
  simp

theorem sectdiffType_isSome (target : Target) (env : Env) (fix : Fix width) (add : Symbol width) :
    (sectdiffType target env fix add).isSome ↔
      fix.rType ∈ target.halfSectdiff.map Prod.fst ∨ fix.rType = 0 ∨ fix.rType = noReloc := by
  unfold sectdiffType
  cases found : target.halfSectdiff.lookup fix.rType with
  | some type =>
    have half : fix.rType ∈ target.halfSectdiff.map Prod.fst := List.mem_map.2 ⟨_, lookup_some_mem found, rfl⟩
    simp only [half, true_or, iff_true]
    rfl
  | none =>
    have absent : fix.rType ∉ target.halfSectdiff.map Prod.fst := by
      intro half
      obtain ⟨entry, mem, same⟩ := List.mem_map.1 half
      have := List.lookup_eq_none_iff.1 found entry mem
      simp [same] at this
    simp only [absent, false_or]
    split
    case isTrue other => exact ⟨(nomatch ·), fun either => absurd other (by tauto)⟩
    case isFalse either =>
      have either : fix.rType = 0 ∨ fix.rType = noReloc := by tauto
      split <;> exact ⟨fun _ => either, fun _ => rfl⟩

theorem sectdiffType_mem {add : Symbol width} {type : BitVec 4}
    (chosen : sectdiffType target env fix add = some type) : type ∈ target.sectdiffs := by
  unfold sectdiffType at chosen
  unfold Target.sectdiffs
  split at chosen
  case h_1 found =>
    cases chosen
    exact .tail _ (.tail _ (List.mem_map.2 ⟨_, lookup_some_mem found, rfl⟩))
  case h_2 =>
    split at chosen
    · cases chosen
    · split at chosen <;> cases chosen <;> simp

/-! ## Section differences -/

theorem validateFix_other (env : Env) (fix : Fix width) (sectdiff : target.hasSectdiff = true) :
    validateFix target env fix = some fix := by
  cases target <;> simp_all [validateFix, Target.hasSectdiff]

/-- With a symbol to subtract only an undefined symbol is external. -/
theorem isExternal_difference (sectdiff : target.hasSectdiff = true) (subtracts : fix.subsy = some sub) :
    isExternal target env fix add = true ↔ add.type &&& nType = nUndf := by
  cases target <;> simp_all [isExternal, Target.hasSectdiff]

/-- An address that fits 24 bits, and the type that the difference has. -/
theorem sectdiffPair_some {info : RelocationInfo} :
    sectdiffPair target env fix info add sub = some entries ↔
      ∃ type, sectdiffType target env fix add = some type ∧ info.address.toNat < 2 ^ 24 ∧
        entries =
          [.scattered ⟨info.pcrel, info.length, type, info.address.setWidth 24, add.value.setWidth 32⟩,
            .scattered
              ⟨info.pcrel, info.length, relocPair, sectdiffOther target fix add sub type info.length,
                sub.value.setWidth 32⟩] := by
  have fits : (info.address.setWidth 24).setWidth 32 ≠ info.address ↔ ¬ info.address.toNat < 2 ^ 24 := by
    rw [ne_eq, not_iff_not, ← BitVec.toNat_inj]
    simp only [BitVec.toNat_setWidth]
    omega
  unfold sectdiffPair
  simp only [Option.bind_eq_bind, Option.bind_eq_some_iff, fits]
  refine exists_congr fun type => and_congr_right fun _ => ?_
  by_cases short : info.address.toNat < 2 ^ 24
  · simp only [short, not_true, if_false, true_and, Option.some.injEq, eq_comm]
  · simp only [short, not_false_eq_true, if_true, false_and, reduceCtorEq]

theorem readBack_sectdiff {type : BitVec 4} (scattered : target ≠ .i386 true)
    (differs : type ∈ target.sectdiffs) (pcrel : Bool) (length : BitVec 2) (address other : BitVec 24)
    (add sub : Symbol width) :
    readBack target
          [.scattered ⟨pcrel, length, type, address, add.value.setWidth 32⟩,
            .scattered ⟨pcrel, length, relocPair, other, sub.value.setWidth 32⟩] =
        some (reference target add, reference target sub) ↔
      add.value.toNat < 2 ^ 32 ∧ sub.value.toNat < 2 ^ 32 := by
  have reads : readBack target
      [.scattered ⟨pcrel, length, type, address, add.value.setWidth 32⟩,
        .scattered ⟨pcrel, length, relocPair, other, sub.value.setWidth 32⟩] =
      some (.address (add.value.setWidth 32).toNat, .address (sub.value.setWidth 32).toNat) := by
    unfold readBack
    split
    · exact absurd rfl scattered
    · exact absurd rfl scattered
    case h_3 same =>
      cases same
      exact if_pos ⟨differs, rfl⟩
    case h_4 => simp_all
  rw [reads]
  simp only [reference, scattered, if_false, Option.some.injEq, Prod.mk.injEq, Reference.address.injEq,
    BitVec.toNat_setWidth]
  omega

theorem entriesOf_sectdiff
    (sectdiff : target.hasSectdiff = true) (subtracts : fix.subsy = some sub) (defined : add.type &&& nType ≠ nUndf)
    {length : BitVec 2} (first : firstLength target fix = some length) :
    ∃ info : RelocationInfo, info.address = rAddress env fix ∧
      entriesOf target env fix add = sectdiffPair target env fix info add sub := by
  have scattered : target ≠ .i386 true := by rintro rfl; cases sectdiff
  have inner : isExternal target env fix add = false := by
    rw [← Bool.not_eq_true, isExternal_difference sectdiff subtracts]
    exact defined
  unfold entriesOf
  rw [first, subtracts]
  simp only [Option.bind_eq_bind, Option.bind_some, inner, scattered, sectdiff, if_false, if_true]
  exact ⟨_, rfl, rfl⟩

theorem entriesOf_undefined (sectdiff : target.hasSectdiff = true) (subtracts : fix.subsy = some sub)
    (undefined : add.type &&& nType = nUndf) (written : entriesOf target env fix add = some entries) :
    readBack target entries = none := by
  have scattered : target ≠ .i386 true := by rintro rfl; cases sectdiff
  unfold entriesOf at written
  obtain ⟨length, -, written⟩ := Option.bind_eq_some_iff.1 written
  dsimp only at written
  rw [if_pos ((isExternal_difference sectdiff subtracts).2 undefined)] at written
  exact readBack_external scattered written

/-- What `Encodable` says of the targets with section differences. -/
theorem encodable_sectdiff (sectdiff : target.hasSectdiff = true) :
    Encodable target env fix add sub ↔
      add.type &&& nType ≠ nUndf ∧ (sectdiffType target env fix add).isSome ∧
        (rAddress env fix).toNat < 2 ^ 24 ∧ add.value.toNat < 2 ^ 32 ∧ sub.value.toNat < 2 ^ 32 := by
  rw [sectdiffType_isSome]
  cases target with
  | arm | hppa | ppc | sparc => rfl
  | i386 | i860 | m68k | m88k => cases sectdiff

theorem agrees_sectdiff
    (adds : fix.addsy = some add) (subtracts : fix.subsy = some sub) (sectdiff : target.hasSectdiff = true) :
    Agrees target env fix ↔ KnownSize target fix ∧ Encodable target env fix add sub := by
  have scattered : target ≠ .i386 true := by rintro rfl; cases sectdiff
  have written : fixToRelocationEntries target env fix = entriesOf target env fix add := by
    unfold fixToRelocationEntries
    rw [adds]
    dsimp only
    rw [validateFix_other env fix sectdiff]
    rfl
  have counted : nrelocsForFix target fix = 2 := by simp [nrelocsForFix, adds, subtracts]
  rw [encodable_sectdiff sectdiff]
  constructor
  · rintro ⟨entries, wrote, -, reads⟩
    rw [written] at wrote
    have known := entriesOf_known wrote
    have pair := reads add sub adds subtracts
    have defined : add.type &&& nType ≠ nUndf := by
      intro undefined
      rw [entriesOf_undefined sectdiff subtracts undefined wrote] at pair
      cases pair
    obtain ⟨length, first⟩ := knownSize_length known
    obtain ⟨info, here, encoded⟩ := entriesOf_sectdiff sectdiff subtracts defined first
    obtain ⟨type, chosen, fits, rfl⟩ := sectdiffPair_some.1 (encoded ▸ wrote)
    refine ⟨known, defined, by rw [chosen]; rfl, here ▸ fits, ?_⟩
    exact (readBack_sectdiff scattered (sectdiffType_mem chosen) _ _ _ _ add sub).1 pair
  · rintro ⟨known, defined, typed, fits, values⟩
    obtain ⟨length, first⟩ := knownSize_length known
    obtain ⟨info, here, encoded⟩ := entriesOf_sectdiff sectdiff subtracts defined first
    obtain ⟨type, chosen⟩ := Option.isSome_iff_exists.1 typed
    refine ⟨_, written.trans (encoded.trans (sectdiffPair_some.2 ⟨type, chosen, here ▸ fits, rfl⟩)), ?_, ?_⟩
    · exact counted.symm ▸ rfl
    · intro add' sub' adds' subtracts'
      cases adds.symm.trans adds'
      cases subtracts.symm.trans subtracts'
      exact (readBack_sectdiff scattered (sectdiffType_mem chosen) _ _ _ _ add sub).2 values

/-! ## Agreement -/

theorem agrees_recordable (target : Target) (env : Env) (fix : Fix width) :
    Agrees target env fix ↔ Recordable target env fix := by
  unfold Recordable
  cases adds : fix.addsy with
  | none =>
    refine iff_true_intro ⟨[], ?_, ?_, fun add sub impossible => ?_⟩
    · simp [fixToRelocationEntries, adds]
    · simp [nrelocsForFix, adds]
    · cases adds.symm.trans impossible
  | some add =>
    cases subtracts : fix.subsy with
    | none => exact agrees_single adds subtracts
    | some sub =>
      dsimp only
      cases sectdiff : target.hasSectdiff with
      | true => exact agrees_sectdiff adds subtracts sectdiff
      | false =>
        by_cases wide : target = .i386 true
        · subst wide
          exact agrees_x8664 adds subtracts
        · refine iff_of_false (agrees_bare adds subtracts wide sectdiff) fun ⟨_, encodable⟩ => ?_
          cases target <;> simp_all [Encodable, Target.hasSectdiff]

/-! ## The entries of a section -/

theorem offset_add (offset : BitVec 32) (count i : Nat) :
    offset + 8 * BitVec.ofNat 32 (count + i) = offset + 8 * BitVec.ofNat 32 count + 8 * BitVec.ofNat 32 i := by
  rw [BitVec.ofNat_add, BitVec.mul_add, BitVec.add_assoc]

theorem placed_offsets (entries : List Reloc) (offset : BitVec 32) :
    (placed offset entries).map Prod.fst =
      (List.range entries.length).map fun i => offset + 8 * BitVec.ofNat 32 i := by
  induction entries generalizing offset with
  | nil => rfl
  | cons entry entries ih =>
    rw [placed, List.map_cons, ih, List.length_cons, List.range_succ_eq_map, List.map_cons, List.map_map]
    congr 1
    · simp
    · refine List.map_congr_left fun i _ => ?_
      rw [Function.comp_apply, Nat.succ_eq_one_add, offset_add]
      rfl

/-- The entries of a section fill the range that was counted for it. -/
theorem putRelocs_offsets (fixes : List (Fix width)) (offset : BitVec 32)
    (recordable : ∀ fix ∈ fixes, Recordable target env fix) :
    ∃ entries, putRelocs target env offset fixes = some entries ∧
      entries.map Prod.fst = (List.range (nreloc target fixes)).map fun i => offset + 8 * BitVec.ofNat 32 i := by
  induction fixes generalizing offset with
  | nil => exact ⟨[], rfl, rfl⟩
  | cons fix fixes ih =>
    obtain ⟨entries, wrote, long, -⟩ := (agrees_recordable target env fix).2 (recordable fix (by simp))
    obtain ⟨others, put, offsets⟩ :=
      ih (offset + 8 * BitVec.ofNat 32 entries.length) fun fix mem => recordable fix (by simp [mem])
    refine ⟨placed offset entries ++ others, ?_, ?_⟩
    · simp only [putRelocs, wrote, put, Option.bind_eq_bind, Option.bind_some]
    · have total : nreloc target (fix :: fixes) = entries.length + nreloc target fixes := by
        rw [long]
        rfl
      rw [total, List.range_add, List.map_append, List.map_append, placed_offsets, offsets, List.map_map]
      congr 1
      exact List.map_congr_left fun i _ => (offset_add offset entries.length i).symm

end Writing

/-- The entries of a section are at `reloff` and on, one for each that was counted. -/
def Fills (target : Target) (env : Env) (reloff : BitVec 32) (fixes : List (Fix target.valueWidth)) : Prop :=
  ∃ entries, putRelocs target env reloff fixes = some entries ∧
    entries.map Prod.fst = (List.range (nreloc target fixes)).map fun i => reloff + 8 * BitVec.ofNat 32 i

/-- **A section's entries are as counted, and say its differences, exactly when each fix is recordable.** -/
theorem relocations_agree_iff (target : Target) (env : Env) (reloff : BitVec 32)
    (fixes : List (Fix target.valueWidth)) :
    (∀ fix ∈ fixes, Agrees target env fix) ∧ Fills target env reloff fixes ↔
      ∀ fix ∈ fixes, Recordable target env fix := by
  constructor
  · rintro ⟨agree, -⟩ fix mem
    exact (agrees_recordable target env fix).1 (agree fix mem)
  · intro recordable
    exact ⟨fun fix mem => (agrees_recordable target env fix).2 (recordable fix mem),
      putRelocs_offsets fixes reloff recordable⟩

def plainEnv : Env := ⟨false, false, none, fun _ => false, fun _ => false, false, 0⟩

def sectionSymbol (address : Nat) (letter : UInt8) (noNul : 0 ∉ [95, letter]) (sect : BitVec 8) (value : BitVec 32) :
    Symbol 32 :=
  ⟨address, some ⟨[95, letter], noNul⟩, nSect, sect, 0, value, 1, 0, none⟩

/-- `.long _a - _b`, the labels in different sections. -/
def longDifference : Fix 32 :=
  { addsy := some (sectionSymbol 1 97 (by decide) 2 16)
    subsy := some (sectionSymbol 2 98 (by decide) 1 0)
    offset := 0
    size := 4
    pcrel := false
    rType := 0
    value := 16
    fragAddress := 0
    whereInFrag := 0 }

/-- The i386 assembler has no code for a section difference: the entry of the symbol to add is all. -/
theorem longDifference_single : nrelocsForFix (.i386 false) longDifference = 2 ∧
    fixToRelocationEntries (.i386 false) plainEnv longDifference = some [.plain ⟨0, 2, false, 2, false, 0⟩] ∧
    ¬ Agrees (.i386 false) plainEnv longDifference := by
  have written : fixToRelocationEntries (.i386 false) plainEnv longDifference =
      some [.plain ⟨0, 2, false, 2, false, 0⟩] := by decide
  refine ⟨by decide, written, ?_⟩
  rintro ⟨entries, wrote, counted, -⟩
  rw [written] at wrote
  cases wrote
  revert counted
  decide

end Cctools.WriteObject
