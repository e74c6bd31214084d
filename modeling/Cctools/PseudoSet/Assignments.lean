/-
# Cctools.PseudoSet.Assignments -- symbols that are assigned expressions

`pseudo_set` of the assembler's read.c, the evaluation of expressions of expr.c, and what
`layout_addresses`, `fixup_section` and `write_object` make of a symbol's value.

A symbol is known by its name and `chain` has the names in the order of their creation.
A target's addresses have `width` bits, expressions 64.  A fragment is a number, and
`none` is `zero_address_frag`.
-/
import Mathlib.Logic.Function.Basic

namespace Cctools.PseudoSet

set_option autoImplicit false

/-! ## Symbols -/

/-- `N_TYPE` of a symbol. -/
inductive SymbolType
  | undf
  | abs
  | sect
  deriving DecidableEq, Repr

inductive Seg
  | absolute
  | sect
  | difference
  | unknown
  deriving DecidableEq, Repr

/-- `expressionS`. -/
structure Expression (Name : Type) where
  seg : Seg
  addSymbol : Option Name
  subtractSymbol : Option Name
  addNumber : BitVec 64
  deriving DecidableEq

/-- An expression that was saved has both symbols. -/
structure Saved (Name : Type) where
  addSymbol : Name
  subtractSymbol : Name
  addNumber : BitVec 64
  deriving DecidableEq

structure Symbol (Name : Type) (width : Nat) where
  type : SymbolType
  /-- `N_EXT` -/
  ext : Bool
  /-- `sy_other` -/
  sect : Nat
  frag : Option Nat
  value : BitVec width
  forward : Option Name
  expression : Option (Saved Name)

/-- `symbol_new(name, N_UNDF, 0, 0, 0, &zero_address_frag)` -/
def Symbol.new {Name : Type} {width : Nat} : Symbol Name width := ⟨.undf, false, 0, none, 0, none, none⟩

structure Table (Name : Type) (width : Nat) where
  chain : List Name
  symbol : Name → Symbol Name width

section Tables

variable {Name : Type} [DecidableEq Name] {width : Nat}

namespace Table

def empty : Table Name width := ⟨[], fun _ => .new⟩

def findOrMake (table : Table Name width) (name : Name) : Table Name width :=
  if name ∈ table.chain then table else { table with chain := table.chain ++ [name] }

def set (table : Table Name width) (name : Name) (symbol : Symbol Name width) : Table Name width :=
  { table with symbol := Function.update table.symbol name symbol }

/-- `N_TYPE_seg` -/
def seg (table : Table Name width) (name : Name) : Seg :=
  match (table.symbol name).type with
  | .undf => .unknown
  | .abs => .absolute
  | .sect => .sect

end Table

/-! ## Expressions -/

/-- A sum or difference, or another operator on 64-bit numbers. -/
inductive Expr (Name : Type)
  | number (value : BitVec 64)
  | symbol (name : Name)
  | add (left right : Expr Name)
  | subtract (left right : Expr Name)
  | minus (operand : Expr Name)
  | unary (apply : BitVec 64 → BitVec 64) (operand : Expr Name)
  /-- `halves` is a division by two. -/
  | binary (apply : BitVec 64 → BitVec 64 → BitVec 64) (halves : Bool) (left right : Expr Name)

def cleanUpExpression (exp : Expression Name) : Expression Name :=
  match exp.seg with
  | .absolute => { exp with addSymbol := none, subtractSymbol := none }
  | .sect | .unknown => { exp with subtractSymbol := none }
  | .difference =>
    if exp.subtractSymbol = exp.addSymbol then
      { exp with seg := .absolute, addSymbol := none, subtractSymbol := none }
    else exp

/-- `none` is the segment -1; the symbol that stays comes second. -/
def exprPart (table : Table Name width) : Option Name → Option Name → Option Seg × Option Name
  | some first, some second =>
    if table.seg first = .unknown || table.seg second = .unknown then (none, none) else (some .absolute, none)
  | some first, none => (some (table.seg first), some first)
  | none, some second => (some (table.seg second), some second)
  | none, none => (some .absolute, none)

/-- A sum before it is cleaned up. -/
def addParts (table : Table Name width) (left right : Expression Name) : Expression Name :=
  let (seg1, addSymbol) := exprPart table left.addSymbol right.addSymbol
  let (seg2, subtractSymbol) := exprPart table left.subtractSymbol right.subtractSymbol
  match seg1, seg2 with
  | some seg1, some seg2 =>
    { seg :=
        if seg2 = .absolute then (if left.seg ≠ .difference then seg1 else left.seg) else .difference
      addSymbol, subtractSymbol
      addNumber := left.addNumber + right.addNumber }
  | _, _ => ⟨.absolute, addSymbol, subtractSymbol, 0 + right.addNumber⟩

/-- No symbol of the operands is dropped from the sum, except for one that cancels another. -/
def keepsParts (left right parts : Expression Name) : Bool :=
  (left.addSymbol.isNone || right.addSymbol.isNone) && (left.subtractSymbol.isNone || right.subtractSymbol.isNone) &&
    match parts.seg with
    | .absolute => parts.addSymbol.isNone && parts.subtractSymbol.isNone
    | .sect | .unknown => parts.subtractSymbol.isNone
    | .difference => true

def addExpressions (table : Table Name width) (left right : Expression Name) : Expression Name × Bool :=
  let right := cleanUpExpression right
  let left := cleanUpExpression left
  let parts := addParts table left right
  (cleanUpExpression parts, keepsParts left right parts)

/-- The operand of a minus: the symbols change places. -/
def exchange (right : Expression Name) : Expression Name :=
  { seg := if right.addSymbol.isSome then .difference else right.seg
    addSymbol := right.subtractSymbol
    subtractSymbol := right.addSymbol
    addNumber := -right.addNumber }

def operandSymbol (table : Table Name width) (name : Name) : Expression Name :=
  let symbol := table.symbol name
  match symbol.type, symbol.expression with
  | .abs, none => ⟨.absolute, none, none, symbol.value.signExtend 64⟩
  | _, none => ⟨table.seg name, some name, none, 0⟩
  | _, some _ => ⟨.difference, some name, none, 0⟩

def minusOperand (operand : Expression Name) : Expression Name × Bool :=
  match operand.seg with
  | .absolute => ({ operand with addNumber := -operand.addNumber }, true)
  | .sect | .unknown =>
    ({ operand with seg := .difference, addSymbol := none, subtractSymbol := operand.addSymbol },
      operand.addNumber = 0)
  | .difference => (operand, false)

def unaryOperand (apply : BitVec 64 → BitVec 64) (operand : Expression Name) : Expression Name × Bool :=
  match operand.seg with
  | .absolute => ({ operand with addNumber := apply operand.addNumber }, true)
  | _ => (operand, false)

def binaryOperands (apply : BitVec 64 → BitVec 64 → BitVec 64) (halves : Bool) (left right : Expression Name) :
    Expression Name × Bool :=
  if left.seg = .unknown || right.seg = .unknown then ({ left with seg := .absolute, addNumber := 0 }, false)
  else if left.seg = .difference && right.seg = .absolute && halves && right.addNumber = 2 then (left, false)
  else if left.seg ≠ .absolute || right.seg ≠ .absolute then (⟨.absolute, none, none, 0⟩, false)
  else (⟨.absolute, none, none, apply left.addNumber right.addNumber⟩, true)

/-- `expr`: names that are new become undefined symbols.  The `Bool` says that nothing of the operands
was dropped on the way. -/
def Expr.evaluate : Expr Name → Table Name width → Table Name width × Expression Name × Bool
  | .number value, table => (table, ⟨.absolute, none, none, value⟩, true)
  | .symbol name, table =>
    let table := table.findOrMake name
    (table, cleanUpExpression (operandSymbol table name), true)
  | .add left right, table =>
    let (table, left, leftKept) := left.evaluate table
    let (table, right, rightKept) := right.evaluate table
    let (sum, kept) := addExpressions table left right
    (table, sum, leftKept && rightKept && kept)
  | .subtract left right, table =>
    let (table, left, leftKept) := left.evaluate table
    let (table, right, rightKept) := right.evaluate table
    let (sum, kept) := addExpressions table left (exchange right)
    (table, sum, leftKept && rightKept && kept)
  | .minus operand, table =>
    let (table, operand, operandKept) := operand.evaluate table
    let (result, kept) := minusOperand operand
    (table, cleanUpExpression result, operandKept && kept)
  | .unary apply operand, table =>
    let (table, operand, operandKept) := operand.evaluate table
    let (result, kept) := unaryOperand apply operand
    (table, cleanUpExpression result, operandKept && kept)
  | .binary apply halves left right, table =>
    let (table, left, leftKept) := left.evaluate table
    let (table, right, rightKept) := right.evaluate table
    let (result, kept) := binaryOperands apply halves left right
    (table, result, leftKept && rightKept && kept)

/-- The segment that `expression` returns: a lone subtracted symbol is too hard. -/
def segment (table : Table Name width) (exp : Expression Name) : Seg :=
  if exp.seg = .difference && exp.addSymbol.isNone && exp.subtractSymbol.any fun name => table.seg name ≠ .unknown then
    .absolute
  else exp.seg

/-! ## Statements -/

inductive Statement (Name : Type)
  | label (name : Name) (frag sect offset : Nat)
  | set (name : Name) (expr : Expr Name)
  | globl (name : Name)

/-- `sy_type == N_UNDF`, with all the bits. -/
def Symbol.isPlainUndefined (symbol : Symbol Name width) : Bool := symbol.type = .undf && !symbol.ext

/-- `none` is an error. -/
def pseudoSet (table : Table Name width) (name : Name) (exp : Expression Name) : Option (Table Name width) :=
  let symbol := table.symbol name
  match segment table exp with
  | .difference =>
    match exp.addSymbol, exp.subtractSymbol with
    | some add, some subtract =>
      if (table.symbol add).frag ≠ (table.symbol subtract).frag || (table.symbol add).isPlainUndefined ||
          (table.symbol subtract).isPlainUndefined then
        some (table.set name { symbol with
          type := .abs, sect := 0, value := exp.addNumber.setWidth width, frag := none,
          expression := some ⟨add, subtract, exp.addNumber⟩ })
      else
        let difference := (table.symbol add).value - (table.symbol subtract).value
        some (table.set name { symbol with
          type := .abs, sect := 0, frag := none,
          value := (exp.addNumber + difference.setWidth 64).setWidth width })
    | some add, none =>
      (table.symbol add).expression.map fun expression =>
        table.set name { symbol with
          type := .abs, sect := 0, value := exp.addNumber.setWidth width, frag := none,
          expression := some expression }
    | none, _ => none
  | .absolute =>
    some (table.set name { symbol with
      type := .abs, sect := 0, value := exp.addNumber.setWidth width, frag := none, expression := none })
  | .sect =>
    exp.addSymbol.map fun add =>
      table.set name { symbol with
        type := .sect
        sect := (table.symbol add).sect
        value := exp.addNumber.setWidth width + (table.symbol add).value
        frag := (table.symbol add).frag }
  | .unknown => some (table.set name { symbol with forward := exp.addSymbol })

/-- `colon` -/
def colon (table : Table Name width) (name : Name) (frag sect offset : Nat) : Option (Table Name width) :=
  let symbol := table.symbol name
  if symbol.type = .undf && symbol.sect = 0 && symbol.value = 0 then
    some ((table.findOrMake name).set name { symbol with
      type := .sect, sect, frag := some frag, value := BitVec.ofNat width offset })
  else none

def Statement.run (table : Table Name width) : Statement Name → Option (Table Name width)
  | .label name frag sect offset => colon table name frag sect offset
  | .set name expr =>
    let (table, exp, _) := expr.evaluate (table.findOrMake name)
    pseudoSet table name exp
  | .globl name =>
    let table := table.findOrMake name
    some (table.set name { table.symbol name with ext := true })

/-! ## The values -/

section Layout

variable (address : Nat → BitVec width)

/-- `fr_address` -/
def fragAddress (frag : Option Nat) : BitVec width := (frag.map address).getD 0

/-- One forward reference. -/
def resolveForward (table : Table Name width) (name : Name) : Table Name width :=
  let symbol := table.symbol name
  match symbol.forward with
  | none => table
  | some other =>
    table.set name { symbol with
      value := symbol.value + ((table.symbol other).value + fragAddress address (table.symbol other).frag)
      forward := none }

/-- The values of the symbols in `layout_addresses`. -/
def layoutValues (table : Table Name width) : Table Name width :=
  let table := table.chain.foldl (resolveForward address) table
  { table with symbol := fun name =>
    let symbol := table.symbol name
    { symbol with value := symbol.value + fragAddress address symbol.frag } }

end Layout

/-- What `fixup_section` adds for a symbol of type `N_ABS`. -/
def fixupValue (table : Table Name width) (name : Name) : BitVec 64 :=
  match (table.symbol name).expression with
  | some exp =>
    (table.symbol exp.addSymbol).value.setWidth 64 + exp.addNumber -
      (table.symbol exp.subtractSymbol).value.setWidth 64
  | none => (table.symbol name).value.setWidth 64

/-- One local symbol is written; `none` is a fatal error. -/
def writeLocal (table : Table Name width) (name : Name) : Option (Table Name width) :=
  let symbol := table.symbol name
  match symbol.expression with
  | none => some table
  | some exp =>
    let add := table.symbol exp.addSymbol
    let subtract := table.symbol exp.subtractSymbol
    if add.type = .undf || subtract.type = .undf || add.sect ≠ subtract.sect then none
    else some (table.set name { symbol with value := symbol.value + (add.value - subtract.value) })

/-- The `n_value`s in the object file; `kept` are the symbols that are not temporary. -/
def writeValues (kept : Name → Bool) (table : Table Name width) : Option (Table Name width) :=
  (table.chain.filter fun name => kept name && !(table.symbol name).ext).foldlM writeLocal table

/-! ## What is meant -/

section Meaning

variable (place : Name → BitVec width)

/-- The value of a symbol: what was assigned to it last, or the place of its label. -/
def meaning (assigned : Name → Option (BitVec width)) (name : Name) : BitVec width :=
  (assigned name).getD (place name)

def Expr.denote (value : Name → BitVec width) : Expr Name → BitVec 64
  | .number constant => constant
  | .symbol name => (value name).signExtend 64
  | .add left right => left.denote value + right.denote value
  | .subtract left right => left.denote value - right.denote value
  | .minus operand => -operand.denote value
  | .unary apply operand => apply (operand.denote value)
  | .binary apply _ left right => apply (left.denote value) (right.denote value)

/-- What a statement assigns. -/
def Statement.assign (assigned : Name → Option (BitVec width)) : Statement Name → Name → Option (BitVec width)
  | .set name expr =>
    Function.update assigned name (some ((expr.denote (meaning place assigned)).setWidth width))
  | _ => assigned

end Meaning

/-- Where the label of a name is at last. -/
def labelPlace (address : Nat → BitVec width) (program : List (Statement Name)) (name : Name) : BitVec width :=
  (program.findSome? fun
    | .label other frag _ offset => if other = name then some (address frag + BitVec.ofNat width offset) else none
    | _ => none).getD 0

end Tables

end Cctools.PseudoSet
