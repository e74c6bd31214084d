/-
# Cctools.WriteObject.Symbols -- the symbol table of an object file

`layout_symbols` of the assembler's write_object.c and the parts of `write_object` that
put out the symbols and the strings.

The chain from `symbol_root` is a list, and an array of pointers is the list of what they
point to; a symbol's `address` is for the expressions that name it.  Counters have the
source's 32 bits.  `none` is a null pointer that is read.
-/
import Mathlib.Data.List.Sort

namespace Cctools.WriteObject

set_option autoImplicit false

/-! ## Names -/

/-- The bytes before the NUL. -/
structure CString where
  bytes : List UInt8
  noNul : 0 ∉ bytes

theorem CString.bytes_inj {a b : CString} : a.bytes = b.bytes ↔ a = b := by
  refine ⟨fun same => ?_, congrArg CString.bytes⟩
  cases a
  cases b
  cases same
  rfl

instance : DecidableEq CString := fun _ _ => decidable_of_iff _ CString.bytes_inj

def strcmp : List UInt8 → List UInt8 → Ordering
  | [], [] => .eq
  | [], _ :: _ => .lt
  | _ :: _, [] => .gt
  | a :: as, b :: bs => if a = b then strcmp as bs else if a < b then .lt else .gt

/-! ## Symbols -/

def nStab : BitVec 8 := 0xe0
def nType : BitVec 8 := 0x0e
def nExt : BitVec 8 := 0x01
def nUndf : BitVec 8 := 0x00
def nBincl : BitVec 8 := 0x82
def nEincl : BitVec 8 := 0xa2
def nExcl : BitVec 8 := 0xc2
/-- Line numbers, functions and the like: `N_FUN`, `N_BNSYM`, `N_ENSYM`, `N_LBRAC`, `N_RBRAC`, `N_SLINE`,
`N_STSYM`, `N_LCSYM`. -/
def disqualifying : List (BitVec 8) := [0x24, 0x2e, 0x4e, 0xc0, 0xe0, 0x44, 0x26, 0x28]
def nWeakDef : BitVec 16 := 0x0080

/-- `width` is that of an address of the target. -/
structure Symbol (width : Nat) where
  address : Nat
  /-- `.stabd` has none. -/
  name : Option CString
  type : BitVec 8
  sect : BitVec 8
  desc : BitVec 16
  value : BitVec width
  nameOffset : BitVec 32
  number : BitVec 32
  /-- The symbol to add and the one to subtract. -/
  expression : Option (Nat × Nat)
  deriving DecidableEq

/-- What is written for a symbol. -/
structure Nlist (width : Nat) where
  strx : BitVec 32
  type : BitVec 8
  sect : BitVec 8
  desc : BitVec 16
  value : BitVec width
  deriving DecidableEq

section Symbols

variable {width : Nat}

namespace Symbol

def isStab (symbol : Symbol width) : Bool := symbol.type &&& nStab ≠ 0
def isExtern (symbol : Symbol width) : Bool := symbol.type &&& nExt ≠ 0
def isUndefined (symbol : Symbol width) : Bool := symbol.type &&& nType = nUndf

def isTemporary (symbol : Symbol width) : Bool :=
  !symbol.isStab && symbol.name.any fun name => name.bytes.head? = some 76

def isExtdef (symbol : Symbol width) : Bool := symbol.isExtern && !symbol.isUndefined
def isUndef (symbol : Symbol width) : Bool := symbol.isExtern && symbol.isUndefined
def isLocal (symbol : Symbol width) : Bool := !symbol.isExtern

/-- What a symbol has in the string table. -/
def string (symbol : Symbol width) : List UInt8 :=
  match symbol.name with
  | some name => name.bytes ++ [0]
  | none => []

def stringSize (symbol : Symbol width) : BitVec 32 := BitVec.ofNat 32 symbol.string.length

def placed (symbol : Symbol width) (stringByteCount : BitVec 32) : Symbol width :=
  { symbol with nameOffset := if symbol.name.isSome then stringByteCount else 0 }

end Symbol

/-! ## Laying out -/

structure Options where
  /-- `-L` -/
  keepTemporaries : Bool
  /-- Of the x86_64 assembler; no section is one for the others. -/
  isSectionCstringLiterals : BitVec 8 → Bool

/-- A message, with the names that are printed in it. -/
structure Complaint where
  text : String
  names : List (Option CString)
  deriving DecidableEq

structure Counts where
  symbolNumber : BitVec 32
  stringByteCount : BitVec 32
  nlocalsym : BitVec 32
  nextdefsym : BitVec 32
  nundefsym : BitVec 32
  complaints : List Complaint
  deriving DecidableEq

def Counts.start : Counts := ⟨0, 1, 0, 0, 0, []⟩

/-- A numbered label prints its digit, the second byte of the name. -/
def undefinedLocal (name : Option CString) : Complaint :=
  if name.any fun name => name.bytes[2]? = some 1 then ⟨"Undefined local symbol %c (%cf or %cb)", [name]⟩
  else ⟨"Undefined local symbol %s", [name]⟩

def Counts.countLocal (counts : Counts) : Counts :=
  { counts with nlocalsym := counts.nlocalsym + 1, symbolNumber := counts.symbolNumber + 1 }

/-- One symbol of the first pass, and the symbol as it is kept. -/
def layoutSymbol (options : Options) (counts : Counts) (symbol : Symbol width) : Counts × Option (Symbol width) :=
  if symbol.isTemporary then
    if symbol.isUndefined then
      ({ counts with complaints := counts.complaints ++ [undefinedLocal symbol.name] }, none)
    else if options.keepTemporaries || symbol.isExtern || options.isSectionCstringLiterals symbol.sect then
      if symbol.isExtern then
        ({ counts with
          nextdefsym := counts.nextdefsym + 1
          stringByteCount := counts.stringByteCount + symbol.stringSize },
          some { symbol with nameOffset := counts.stringByteCount })
      else (counts.countLocal, some { symbol with number := counts.symbolNumber })
    else (counts, none)
  else
    let symbol := if symbol.type = nUndf then { symbol with type := symbol.type ||| nExt } else symbol
    if symbol.isExtern then
      let counts := if symbol.isUndefined then { counts with nundefsym := counts.nundefsym + 1 }
        else { counts with nextdefsym := counts.nextdefsym + 1 }
      match symbol.name with
      | some _ =>
        ({ counts with stringByteCount := counts.stringByteCount + symbol.stringSize },
          some { symbol with nameOffset := counts.stringByteCount })
      | none => (counts, some { symbol with nameOffset := 0 })
    else (counts.countLocal, some { symbol with number := counts.symbolNumber })

def firstPass (options : Options) : Counts → List (Symbol width) → Counts × List (Symbol width)
  | counts, [] => (counts, [])
  | counts, symbol :: rest =>
    let (counts, kept) := layoutSymbol options counts symbol
    let (counts, chain) := firstPass options counts rest
    (counts, kept.toList ++ chain)

def weakComplaints (chain : List (Symbol width)) : List Complaint :=
  chain.filterMap fun symbol =>
    if !symbol.isStab && symbol.desc &&& nWeakDef = nWeakDef then
      if !symbol.isExtern then some ⟨"Non-global symbol: %s can't be a weak_definition", [symbol.name]⟩
      else if symbol.isUndefined then some ⟨"Undefined symbol: %s can't be a weak_definition", [symbol.name]⟩
      else none
    else none

/-- The string offsets of local symbols. -/
def secondPass : BitVec 32 → List (Symbol width) → BitVec 32 × List (Symbol width)
  | stringByteCount, [] => (stringByteCount, [])
  | stringByteCount, symbol :: rest =>
    if symbol.isExtern then
      let (stringByteCount, chain) := secondPass stringByteCount rest
      (stringByteCount, symbol :: chain)
    else
      let here := symbol.placed stringByteCount
      let (stringByteCount, chain) := secondPass (stringByteCount + symbol.stringSize) rest
      (stringByteCount, here :: chain)

def Symbol.nameBytes (symbol : Symbol width) : List UInt8 := (symbol.name.map CString.bytes).getD []

def nameLe (left right : Symbol width) : Bool := strcmp left.nameBytes right.nameBytes ≠ .gt

/-- `qsort` compares each of two symbols or more with another, and `strcmp` reads the names. -/
def qsort (symbols : List (Symbol width)) : Option (List (Symbol width)) :=
  if symbols.length ≤ 1 then some symbols
  else if symbols.all fun symbol => symbol.name.isSome then some (symbols.mergeSort nameLe)
  else none

def numberFrom : BitVec 32 → List (Symbol width) → BitVec 32 × List (Symbol width)
  | symbolNumber, [] => (symbolNumber, [])
  | symbolNumber, symbol :: rest =>
    let (next, numbered) := numberFrom (symbolNumber + 1) rest
    (next, { symbol with number := symbolNumber } :: numbered)

/-! ## Checksums -/

structure HeaderRange where
  bincl : Nat
  sum : BitVec 32
  okToChecksum : Bool
  deriving DecidableEq

def isDigit (c : UInt8) : Bool := 48 ≤ c && c ≤ 57

/-- The characters, but not the number behind an open parenthesis; `skipping` it. -/
def sumName : Bool → List UInt8 → BitVec 32
  | _, [] => 0
  | skipping, c :: rest =>
    if skipping && isDigit c then sumName true rest
    else (BitVec.ofNat 8 c.toNat).signExtend 32 + sumName (c = 40) rest

/-- The sums for the `N_BINCL` symbols; the first of `ranges` is `curRange`. -/
def binclChecksums : List HeaderRange → List (Symbol width) → Option (List (Nat × BitVec 32))
  | _, [] => some []
  | ranges, symbol :: rest =>
    if !symbol.isStab then binclChecksums ranges rest
    else if symbol.type = nBincl then
      binclChecksums (⟨symbol.address, 0, symbol.value = 0⟩ :: ranges) rest
    else if symbol.type = nEincl then
      match ranges with
      | [] => binclChecksums [] rest
      | range :: parents =>
        (binclChecksums parents rest).map fun sums =>
          if range.okToChecksum then (range.bincl, range.sum) :: sums else sums
    else if disqualifying.contains symbol.type then
      match ranges with
      | [] => binclChecksums [] rest
      | range :: parents => binclChecksums ({ range with okToChecksum := false } :: parents) rest
    else if symbol.type = nExcl then binclChecksums ranges rest
    else
      match ranges with
      | [] => binclChecksums [] rest
      | range :: parents =>
        if range.okToChecksum then
          symbol.name.bind fun name =>
            binclChecksums ({ range with sum := range.sum + sumName false name.bytes } :: parents) rest
        else binclChecksums ranges rest

def setBinclChecksums (chain : List (Symbol width)) : Option (List (Symbol width)) :=
  (binclChecksums [] chain).map fun sums => chain.map fun symbol =>
    match sums.find? fun entry => entry.1 = symbol.address with
    | some (_, sum) => { symbol with value := sum.setWidth width }
    | none => symbol

/-- In the arrays the symbols have their numbers too. -/
structure Layout (width : Nat) where
  chain : List (Symbol width)
  extdefsyms : List (Symbol width)
  undefsyms : List (Symbol width)
  nlocalsym : BitVec 32
  nextdefsym : BitVec 32
  nundefsym : BitVec 32
  symbolNumber : BitVec 32
  stringByteCount : BitVec 32
  complaints : List Complaint

def layoutSymbols (options : Options) (symbols : List (Symbol width)) : Option (Layout width) := do
  let (counts, kept) := firstPass options .start symbols
  let (stringByteCount, chain) := secondPass counts.stringByteCount kept
  let extdefsyms ← qsort (chain.filter Symbol.isExtdef)
  let undefsyms ← qsort (chain.filter Symbol.isUndef)
  let (symbolNumber, extdefsyms) := numberFrom counts.symbolNumber extdefsyms
  let (symbolNumber, undefsyms) := numberFrom symbolNumber undefsyms
  let seenBincl := chain.any fun symbol => symbol.isLocal && symbol.name.isSome && symbol.type = nBincl
  let chain ← if seenBincl then setBinclChecksums chain else some chain
  return ⟨chain, extdefsyms, undefsyms, counts.nlocalsym, counts.nextdefsym, counts.nundefsym,
    symbolNumber, stringByteCount, counts.complaints ++ weakComplaints kept⟩

/-! ## Writing -/

namespace Layout

variable (layout : Layout width)

def ilocalsym (_ : Layout width) : BitVec 32 := 0
def iextdefsym : BitVec 32 := layout.nlocalsym
def iundefsym : BitVec 32 := layout.nlocalsym + layout.nextdefsym
def nsyms : BitVec 32 := layout.symbolNumber
/-- Before rounding. -/
def strsize : BitVec 32 := if layout.nsyms = 0 then 0 else layout.stringByteCount

end Layout

def rnd32 (value round : BitVec 32) : BitVec 32 := (value + (round - 1)) &&& ~~~(round - 1)

/-- `strsize` of the `symtab_command`. -/
def Layout.symtabStrsize (layout : Layout width) : BitVec 32 := rnd32 layout.strsize 4

def Symbol.entry (symbol : Symbol width) (value : BitVec width) : Nlist width :=
  ⟨symbol.nameOffset, symbol.type, symbol.sect, symbol.desc, value⟩

/-- The symbol that a pointer of an expression is to, as it was read. -/
def referent (symbols : List (Symbol width)) (address : Nat) : Symbol width :=
  (symbols.find? fun symbol => symbol.address = address).getD ⟨address, none, 0, 0, 0, 0, 0, 0, none⟩

/-- The values by address change as local symbols are written. -/
def writeLocals (symbols : List (Symbol width)) :
    (Nat → BitVec width) → List (Symbol width) → Except Complaint (List (Nlist width))
  | _, [] => .ok []
  | values, symbol :: rest =>
    match symbol.expression with
    | none => (writeLocals symbols values rest).map (symbol.entry symbol.value :: ·)
    | some (add, subtract) =>
      if (referent symbols add).isUndefined then
        .error ⟨"undefined symbol '%s' in operation setting '%s'", [(referent symbols add).name, symbol.name]⟩
      else if (referent symbols subtract).isUndefined then
        .error ⟨"undefined symbol '%s' in operation setting '%s'", [(referent symbols subtract).name, symbol.name]⟩
      else if (referent symbols add).sect ≠ (referent symbols subtract).sect then
        .error ⟨"invalid sections for operation on '%s' and '%s' setting '%s'",
          [(referent symbols add).name, (referent symbols subtract).name, symbol.name]⟩
      else
        let value := symbol.value + (values add - values subtract)
        (writeLocals symbols (Function.update values symbol.address value) rest).map (symbol.entry value :: ·)

/-- The symbols in the buffer. -/
def writeSymbols (symbols : List (Symbol width)) (layout : Layout width) : Except Complaint (List (Nlist width)) := do
  let values address := (referent symbols address).value
  let locals ← writeLocals symbols values (layout.chain.filter Symbol.isLocal)
  return locals ++ layout.extdefsyms.map (fun symbol => symbol.entry symbol.value) ++
    layout.undefsyms.map (fun symbol => symbol.entry symbol.value)

/-- The strings in the buffer. -/
def writeStrings (layout : Layout width) : List UInt8 :=
  (if layout.symtabStrsize ≠ 0 then [0] else []) ++
    ((layout.chain.filter Symbol.isExtern).flatMap Symbol.string ++
      (layout.chain.filter Symbol.isLocal).flatMap Symbol.string)

end Symbols

end Cctools.WriteObject
