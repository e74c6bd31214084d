/-
# Cctools.Expr.Operand -- reading expressions

`expr` and `operand` of the assembler's expr.c, on the text of a line that the scrubber
left.  A text that is at its end has a NUL there.  The flag `-k` is on, as it is unless
the source is assembled for static code; warnings are left out.

`Assembler` has what is not read here: the current location, the symbols of local labels,
floating point constants, and what the host makes of operations that C leaves undefined.
-/
import Cctools.PseudoSet.Assignments
import Cctools.Scrub.NextChar
import Mathlib.Algebra.GroupWithZero.Nat

namespace Cctools.Expr

open Cctools.Read (Text ascii newline insideQuotes)
open Cctools.Scrub (Target)
open Cctools.PseudoSet

set_option autoImplicit false

/-! ## Operators -/

/-- `operatorT` without the illegal one. -/
inductive Operator
  | multiply
  | divide
  | modulus
  | add
  | subtract
  | rightShift
  | leftShift
  | lessThan
  | greaterThan
  | lessThanOrEqual
  | greaterThanOrEqual
  | equal
  | notEqual
  | bitAnd
  | bitExclusiveOr
  | bitInclusiveOr
  | bitOrNot
  | logicalAnd
  | logicalOr
  deriving DecidableEq, Repr

namespace Operator

/-- `op_size` -/
def size : Operator → Nat
  | multiply | divide | modulus | add | subtract => 1
  | rightShift | leftShift => 2
  | lessThan | greaterThan => 1
  | lessThanOrEqual | greaterThanOrEqual | equal | notEqual => 2
  | bitAnd | bitExclusiveOr | bitInclusiveOr | bitOrNot => 1
  | logicalAnd | logicalOr => 2

/-- `op_rank` -/
def rank : Operator → Nat
  | multiply | divide | modulus => 10
  | add | subtract => 9
  | rightShift | leftShift => 8
  | lessThan | greaterThan | lessThanOrEqual | greaterThanOrEqual => 7
  | equal | notEqual => 6
  | bitAnd => 5
  | bitExclusiveOr => 4
  | bitInclusiveOr | bitOrNot => 3
  | logicalAnd => 2
  | logicalOr => 1

end Operator

def twoCharOpEncoding (first second : Char) : Option Operator :=
  match first with
  | '<' =>
    if second = '<' then some .leftShift
    else if second = '=' then some .lessThanOrEqual
    else if second = '>' then some .notEqual
    else some .lessThan
  | '>' =>
    if second = '>' then some .rightShift
    else if second = '=' then some .greaterThanOrEqual
    else some .greaterThan
  | '=' => if second = '=' then some .equal else none
  | '!' => if second = '=' then some .notEqual else some .notEqual
  | '&' => if second = '&' then some .logicalAnd else some .bitAnd
  | '|' => if second = '|' then some .logicalOr else some .bitInclusiveOr
  | _ => none

/-- `op_encoding`, with the second character where it matters. -/
def opEncoding (first second : Char) : Option Operator :=
  match first with
  | '%' => some .modulus
  | '*' => some .multiply
  | '+' => some .add
  | '-' => some .subtract
  | '/' => some .divide
  | '^' => some .bitExclusiveOr
  | '!' | '&' | '<' | '=' | '>' | '|' => twoCharOpEncoding first second
  | _ => none

def operatorAt (text : Text) : Option Operator :=
  opEncoding (Char.ofUInt8 (text.getD 0 0)) (Char.ofUInt8 (text.getD 1 0))

/-- What the host does where C leaves an operation on `signed_expr_t` undefined: shifts by a negative number or
by more than 63, and the least number divided by -1. -/
structure Host where
  leftShift : BitVec 64 → BitVec 64 → BitVec 64
  rightShift : BitVec 64 → BitVec 64 → BitVec 64
  quotient : BitVec 64
  remainder : BitVec 64

def truth (holds : Bool) : BitVec 64 := if holds then 1 else 0

/-- The operators on absolute numbers. -/
def Operator.apply (host : Host) : Operator → BitVec 64 → BitVec 64 → BitVec 64
  | .multiply, left, right => left * right
  | .divide, left, right =>
    if right = 0 then 0
    else if left = BitVec.intMin 64 ∧ right = -1 then host.quotient
    else left.sdiv right
  | .modulus, left, right =>
    if right = 0 then 0
    else if left = BitVec.intMin 64 ∧ right = -1 then host.remainder
    else left.srem right
  | .add, left, right => left + right
  | .subtract, left, right => left - right
  | .rightShift, left, right => if right.toNat < 64 then left.sshiftRight right.toNat else host.rightShift left right
  | .leftShift, left, right => if right.toNat < 64 then left <<< right.toNat else host.leftShift left right
  | .lessThan, left, right => truth (left.slt right)
  | .greaterThan, left, right => truth (right.slt left)
  | .lessThanOrEqual, left, right => truth (left.sle right)
  | .greaterThanOrEqual, left, right => truth (right.sle left)
  | .equal, left, right => truth (left = right)
  | .notEqual, left, right => truth (left ≠ right)
  | .bitAnd, left, right => left &&& right
  | .bitExclusiveOr, left, right => left ^^^ right
  | .bitInclusiveOr, left, right => left ||| right
  | .bitOrNot, left, right => left ||| ~~~right
  | .logicalAnd, left, right => truth (left ≠ 0 && right ≠ 0)
  | .logicalOr, left, right => truth (left ≠ 0 || right ≠ 0)

inductive Unary
  | minus
  | complement
  | not
  deriving DecidableEq, Repr

def Unary.apply : Unary → BitVec 64 → BitVec 64
  | .minus, number => -number
  | .complement, number => ~~~number
  | .not, number => truth (number = 0)

def unaryAt (c : UInt8) : Option Unary :=
  match Char.ofUInt8 c with
  | '~' => some .complement
  | '-' => some .minus
  | '!' => some .not
  | _ => none

/-! ## Quantities -/

/-- An expression, `SEG_NONE`, or `SEG_BIG` with its `X_add_number`. -/
inductive Quantity
  | exp (exp : Expression Text)
  | absent
  | big (number : Int)

namespace Quantity

def absolute (number : BitVec 64) : Quantity := exp ⟨.absolute, none, none, number⟩

/-- What is left out or too big counts as zero. -/
def part : Quantity → Expression Text
  | exp expression => expression
  | absent | big _ => ⟨.absolute, none, none, 0⟩

def isAbsent : Quantity → Bool
  | absent => true
  | exp _ | big _ => false

def cleanUp : Quantity → Quantity
  | exp expression => exp (cleanUpExpression expression)
  | absent => absent
  | big number => big number

def unary (op : Unary) : Quantity → Quantity
  | exp operand =>
    match op with
    | .minus => exp (minusOperand operand).1
    | .complement | .not => exp (unaryOperand op.apply operand).1
  | absent => absent
  | big number => big number

variable {width : Nat}

/-- One turn of the loop of `expr`.  A right operand that is left out makes the left one zero. -/
def combine (host : Host) (table : Table Text width) (op : Operator) (left right : Quantity) : Quantity :=
  let left := if right.isAbsent then absolute 0 else left
  match op with
  | .subtract => exp (addExpressions table left.part (exchange right.part)).1
  | .add => exp (addExpressions table left.part right.part).1
  | op =>
    if left.isAbsent || right.isAbsent then absolute 0
    else exp (binaryOperands (op.apply host) (op = .divide) left.part right.part).1

end Quantity

/-! ## Operands -/

structure State (width : Nat) where
  table : Table Text width
  /-- The littlenums of `generic_bignum`. -/
  bignum : List Nat

structure Assembler (width : Nat) where
  target : Target
  host : Host
  /-- `.` -/
  location : Table Text width → Expression Text × Table Text width
  /-- `fb_label_name`, backward or forward. -/
  localLabel : BitVec 64 → Bool → Table Text width → Expression Text × Table Text width
  /-- `atof_generic`: what follows the constant, and the littlenums. -/
  atofGeneric : Text → List Nat → Text × List Nat

/-- `md_FLT_CHARS` -/
def floatChars : Target → Text
  | .i386 => ascii "fFdDxX"
  | .i860 => ascii "rRsSfFdDxXpP"
  | .m68k => ascii "rRsSfFdDxXeEpP"
  | _ => ascii "dDfF"

/-- `md_EXP_CHARS` -/
def expChars : Text := ascii "eE"

def isDigit (c : UInt8) : Bool := 48 ≤ c && c ≤ 57

/-- `hex_value` -/
def hexValue (c : UInt8) : Nat :=
  if 48 ≤ c ∧ c ≤ 57 then c.toNat - 48
  else if 65 ≤ c ∧ c ≤ 70 then c.toNat - 55
  else if 97 ≤ c ∧ c ≤ 102 then c.toNat - 87
  else 42

/-- `is_name_beginner`: also `$`, `.`, `_`, the opening brace and what has its high bit set. -/
def isNameBeginner (c : UInt8) : Bool :=
  c = 36 || c = 46 || (65 ≤ c && c ≤ 90) || c = 95 || (97 ≤ c && c ≤ 123) || 128 ≤ c

/-- `is_part_of_name` -/
def isPartOfName (c : UInt8) : Bool := isNameBeginner c || isDigit c

/-- `SKIP_WHITESPACE`: one blank. -/
def skipWhitespace : Text → Text
  | [] => []
  | c :: rest => if c = 32 then rest else c :: rest

def ignoreLlOrUll (text : Text) : Text :=
  if ascii "ULL" <+: text then text.drop 3 else if ascii "LL" <+: text then text.drop 2 else text

structure Result (width : Nat) where
  quantity : Quantity
  rest : Text
  state : State width

/-- The end of `operand`. -/
def Result.finish {width : Nat} (result : Result width) : Result width :=
  { result with quantity := result.quantity.cleanUp, rest := skipWhitespace result.rest }

/-- A radix, its `maxdig` and `too_many_digits`. -/
structure Radix where
  radix : Nat
  maxdig : Nat
  tooManyDigits : Nat

def Radix.decimal : Radix := ⟨10, 10, 11⟩

/-- The digits 8 and 9 are accepted. -/
def Radix.octal : Radix := ⟨8, 10, 11⟩

def Radix.hex : Radix := ⟨16, 16, 9⟩

def Radix.digits (radix : Radix) (text : Text) : Text := text.takeWhile fun c => hexValue c < radix.maxdig

def Radix.scan (radix : Radix) (digits : Text) : BitVec 64 :=
  digits.foldl (fun number c => number * BitVec.ofNat 64 radix.radix + BitVec.ofNat 64 (hexValue c)) 0

/-- `generic_bignum` up to `leader`, and what it has above. -/
structure Bignum where
  used : List Nat
  beyond : List Nat

/-- The littlenums times the radix, plus a digit; the carry that is left comes second. -/
def timesPlus (radix : Nat) : List Nat → Nat → List Nat × Nat
  | [], carry => ([], carry)
  | littlenum :: used, carry =>
    let work := carry + radix * littlenum
    let (used, carry) := timesPlus radix used (work / 2 ^ 16)
    (work % 2 ^ 16 :: used, carry)

def sizeOfLargeNumber : Nat := 20

def Bignum.addDigit (radix : Radix) (bignum : Bignum) (c : UInt8) : Bignum :=
  let (used, carry) := timesPlus radix.radix bignum.used (hexValue c)
  if carry ≠ 0 ∧ used.length < sizeOfLargeNumber then ⟨used ++ [carry], bignum.beyond.drop 1⟩
  else ⟨used, bignum.beyond⟩

def Radix.bignum (radix : Radix) (digits : Text) (littlenums : List Nat) : Bignum :=
  digits.foldl (Bignum.addDigit radix) ⟨[0], littlenums.drop 1⟩

section Operands

variable {width : Nat} (as : Assembler width)

/-- A number that is not big; a `b` or an `f` behind it makes it a local label. -/
def smallNumber (number : BitVec 64) (rest : Text) (state : State width) : Result width :=
  match Char.ofUInt8 (rest.getD 0 0) with
  | 'b' =>
    let (exp, table) := as.localLabel number false state.table
    ⟨.exp exp, rest.drop 1, { state with table }⟩
  | 'f' =>
    let (exp, table) := as.localLabel number true state.table
    ⟨.exp exp, rest.drop 1, { state with table }⟩
  | _ => ⟨.absolute number, ignoreLlOrUll rest, state⟩

/-- An integer constant from its first digit on. -/
def integer (radix : Radix) (forceBignum : Bool) (text : Text) (state : State width) : Result width :=
  let digits := radix.digits text
  let rest := text.drop digits.length
  if digits.length < radix.tooManyDigits * 2 ∧ !forceBignum then smallNumber as (radix.scan digits) rest state
  else
    let bignum := radix.bignum digits state.bignum
    let littlenums := bignum.used ++ bignum.beyond
    let state := { state with bignum := littlenums }
    if bignum.used.length ≤ 2 ∧ !forceBignum then
      -- the C expression is an `int`
      let number := BitVec.ofNat 32 (littlenums.getD 1 0 * 2 ^ 16 + littlenums.getD 0 0)
      smallNumber as (number.signExtend 64) rest state
    else ⟨.big bignum.used.length, ignoreLlOrUll rest, state⟩

/-- `operand` from a digit on. -/
def number (c : UInt8) (text : Text) (state : State width) : Result width :=
  if c ≠ 48 then integer as .decimal false (c :: text) state
  else
    let next := text.getD 0 0
    let after := text.drop 1
    if next = 120 ∨ next = 88 then integer as .hex false after state
    else if (next = 98 ∨ next = 66) ∧ hexValue (after.getD 0 0) < 16 then integer as .hex true after state
    else if next = 102 ∧ (after.getD 0 0 = 0 ∨ after.getD 0 0 ∉ ascii "+-.0123456789" ++ expChars) then
      integer as .decimal false (c :: text) state
    else if next ≠ 0 ∧ next ∈ floatChars as.target then
      let (rest, littlenums) := as.atofGeneric after state.bignum
      let lower := if 65 ≤ next ∧ next ≤ 90 then next + 32 else next
      ⟨.big (-lower.toNat), rest, { state with bignum := littlenums }⟩
    else integer as .octal false text state

/-- `get_symbol_end`: the name and what follows it. -/
def getSymbolEnd (c : UInt8) (text : Text) : Text × Text :=
  if c = 34 then
    let name := text.takeWhile insideQuotes
    let rest := text.drop name.length
    (name, if rest.head? = some 34 then rest.drop 1 else rest)
  else ((c :: text).takeWhile isPartOfName, (c :: text).dropWhile isPartOfName)

def symbol (c : UInt8) (text : Text) (state : State width) : Result width :=
  let (name, rest) := getSymbolEnd c text
  let table := state.table.findOrMake name
  ⟨.exp (operandSymbol table name), rest, { state with table }⟩

/-- `.` alone, and for PPC `$`. -/
def isLocation (c : UInt8) (text : Text) : Bool :=
  (c = 46 || (c = 36 && as.target matches .ppc _)) && !isPartOfName (text.getD 0 0)

/-- `SEG_NONE`, or what needs no other operand. -/
def simpleOperand (c : UInt8) (text : Text) (state : State width) : Result width :=
  if isDigit c then number as c text state
  else if isLocation as c text then
    let (exp, table) := as.location state.table
    ⟨.exp exp, text, { state with table }⟩
  else if isNameBeginner c ∨ c = 34 then symbol c text state
  else if c = 39 then ⟨.absolute ((text.getD 0 0).toBitVec.signExtend 64), text.drop 1, state⟩
  else ⟨.absent, c :: text, state⟩

mutual

def expr : Nat → Nat → Text → State width → Option (Result width)
  | 0, _, _, _ => none
  | fuel + 1, rank, text, state => (operand fuel text state).bind (exprLoop fuel rank)

def exprLoop : Nat → Nat → Result width → Option (Result width)
  | 0, _, _ => none
  | fuel + 1, rank, left =>
    match operatorAt left.rest with
    | none => some left
    | some op =>
      if rank < op.rank then
        (expr fuel op.rank (left.rest.drop op.size) left.state).bind fun right =>
          exprLoop fuel rank
            { right with quantity := .combine as.host right.state.table op left.quantity right.quantity }
      else some left

/-- A text at its end has a NUL there. -/
def operand : Nat → Text → State width → Option (Result width)
  | 0, _, _ => none
  | fuel + 1, text, state =>
    match skipWhitespace text with
    | [] => some ⟨.absent, [], state⟩
    | c :: text =>
      if c = 40 then
        (expr fuel 0 text state).map fun inner =>
          { inner with rest := if inner.rest.head? = some 41 then inner.rest.drop 1 else inner.rest : Result width }.finish
      else
        match unaryAt c with
        | some op =>
          (operand fuel text state).map fun inner =>
            { inner with quantity := inner.quantity.unary op : Result width }.finish
        | none => some (simpleOperand as c text state).finish

end

/-- `expression`: the segment that it returns comes second, `none` for `SEG_NONE` and `SEG_BIG`. -/
def expression (fuel : Nat) (text : Text) (state : State width) : Option (Result width × Option Seg) :=
  (expr as fuel 0 text state).map fun result =>
    (result, match result.quantity with
      | .exp exp => some (segment result.state.table exp)
      | .absent | .big _ => none)

end Operands

end Cctools.Expr
