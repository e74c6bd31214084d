/-
# Cctools.Read.Statements -- the statements of a buffer and conditional assembly

`parse_a_buffer` of the assembler's read.c.  It takes one statement after the other off
the buffer; the pseudo ops `.if`, `.elseif`, `.else` and `.endif` change the condition
state, and in a block that is ignored they are all that is looked for.

What other statements do is the `Source`'s, and so is the value of an expression, which
may depend on the place in the buffer.  Error messages other than fatal ones are left
out, and so is the count of lines.
-/
import Mathlib.Data.List.Basic

namespace Cctools.Read

set_option autoImplicit false

abbrev Text := List UInt8

/-! ## Characters -/

def newline : UInt8 := 10

/-- `atSign` is for the targets where `@` separates statements. -/
def isEndOfLine (atSign : Bool) (c : UInt8) : Bool := c = 0 || c = 10 || c = 59 || (atSign && c = 64)

def isPartOfName (c : UInt8) : Bool :=
  c = 36 || c = 46 || (48 ≤ c && c ≤ 57) || (65 ≤ c && c ≤ 90) || c = 95 || (97 ≤ c && c ≤ 123) || 128 ≤ c

def isNameBeginner (c : UInt8) : Bool := isPartOfName c && !(48 ≤ c && c ≤ 57)

def isBlank (c : UInt8) : Bool := c = 32 || c = 9

def ascii (text : String) : Text := text.toList.map fun c => c.toNat.toUInt8

def insideQuotes (c : UInt8) : Bool := c ≠ 34 && c ≠ 0 && c ≠ newline

/-- The name and what follows it; a name may be in quotes. -/
def getSymbolEnd : Text → Text × Text
  | 34 :: rest =>
    (rest.takeWhile insideQuotes,
      match rest.dropWhile insideQuotes with
      | 34 :: after => after
      | after => after)
  | text => (text.takeWhile isPartOfName, text.dropWhile isPartOfName)

/-! ## The condition state -/

inductive CondType
  | noCond
  | ifCond
  | elseifCond
  | elseCond
  deriving DecidableEq, Repr

/-- `cond_met` is an `int`. -/
structure CondState where
  theCond : CondType
  condMet : BitVec 32
  ignore : Bool
  deriving DecidableEq, Repr

/-- `if_depth` is the length of `lastStates`, whose first is the last. -/
structure ReadState where
  theCondState : CondState
  lastStates : List CondState
  /-- `macro_name` is set. -/
  definingMacro : Bool
  deriving DecidableEq, Repr

def ReadState.start : ReadState := ⟨⟨.noCond, 0, false⟩, [], false⟩

def maxIfDepth : Nat := 20

/-- What the rest of the assembler does with the text at its place in the buffer. -/
structure Source where
  atSign : Bool
  /-- `get_absolute_expression`, with the text behind the expression. -/
  getAbsoluteExpression : Text → BitVec 64 × Text
  /-- A statement that is none of the conditional ones: a label, an assignment, another pseudo op,
  a macro or an instruction. -/
  statement : ReadState → Text → ReadState × Text
  /-- `add_to_macro_definition`, or `s_endmacro`. -/
  macroLine : ReadState → Text → ReadState × Text

section Handlers

variable (source : Source)

def totallyIgnoreLine (text : Text) : Text := (text.dropWhile fun c => !isEndOfLine source.atSign c).drop 1

def ignoreRestOfLine (text : Text) : Text := (text.dropWhile fun c => !isEndOfLine source.atSign c).drop 1

def skipWhitespace : Text → Text
  | 32 :: rest => rest
  | text => text

def demandEmptyRestOfLine (text : Text) : Text :=
  match skipWhitespace text with
  | [] => []
  | c :: rest => if isEndOfLine source.atSign c then rest else ignoreRestOfLine source (c :: rest)

/-- `(int)get_absolute_expression()` decides. -/
def evaluate (state : ReadState) (theCond : CondType) (text : Text) : ReadState × Text :=
  let (value, rest) := source.getAbsoluteExpression text
  let condMet := value.setWidth 32
  ({ state with theCondState := ⟨theCond, condMet, condMet = 0⟩ }, demandEmptyRestOfLine source rest)

def sIf (state : ReadState) (text : Text) : Except String (ReadState × Text) :=
  if maxIfDepth ≤ state.lastStates.length then .error "You can't nest if's more than 20 levels deep"
  else
    let state := { state with
      lastStates := state.theCondState :: state.lastStates
      theCondState := { state.theCondState with theCond := .ifCond } }
    if state.theCondState.ignore then .ok (state, totallyIgnoreLine source text)
    else .ok (evaluate source state .ifCond text)

/-- An enclosing block is ignored. -/
def ReadState.lastIgnore (state : ReadState) : Bool :=
  match state.lastStates with
  | [] => false
  | last :: _ => last.ignore

def ReadState.inArm (state : ReadState) : Bool :=
  state.theCondState.theCond = .ifCond || state.theCondState.theCond = .elseifCond

def sElseif (state : ReadState) (text : Text) : Except String (ReadState × Text) :=
  if state.inArm then
    if state.lastIgnore || state.theCondState.condMet ≠ 0 then
      .ok ({ state with theCondState := { state.theCondState with theCond := .elseifCond, ignore := true } },
        totallyIgnoreLine source text)
    else .ok (evaluate source state .elseifCond text)
  else .error "Encountered a .elseif that doesn't follow a .if or an .elseif"

def sElse (state : ReadState) (text : Text) : Except String (ReadState × Text) :=
  if state.inArm then
    .ok ({ state with theCondState := { state.theCondState with
      theCond := .elseCond
      ignore := state.lastIgnore || state.theCondState.condMet ≠ 0 } }, demandEmptyRestOfLine source text)
  else .error "Encountered a .else that doesn't follow a .if or an .elseif"

def sEndif (state : ReadState) (text : Text) : Except String (ReadState × Text) :=
  match state.theCondState.theCond, state.lastStates with
  | .noCond, _ | _, [] => .error "Encountered a .endif that doesn't follow a .if or .else"
  | _, last :: lastStates =>
    .ok ({ state with theCondState := last, lastStates }, demandEmptyRestOfLine source text)

inductive Conditional
  | sIf
  | sElseif
  | sElse
  | sEndif
  deriving DecidableEq, Repr

def Conditional.handler : Conditional → ReadState → Text → Except String (ReadState × Text)
  | .sIf => Read.sIf source
  | .sElseif => Read.sElseif source
  | .sElse => Read.sElse source
  | .sEndif => Read.sEndif source

def Conditional.name : Conditional → Text
  | .sIf => ascii ".if"
  | .sElseif => ascii ".elseif"
  | .sElse => ascii ".else"
  | .sEndif => ascii ".endif"

/-! ## Statements -/

/-- `hash_find(po_hash, s + 1)`, as far as conditional assembly goes. -/
def findConditional (name : Text) : Option Conditional :=
  [Conditional.sIf, .sElseif, .sElse, .sEndif].find? fun op => op.name = name

/-- One character of white space may come first. -/
def skipLeading : Text → Text
  | c :: rest => if c = 9 || c = 32 || c = 12 then rest else c :: rest
  | [] => []

/-- The name is of a pseudo op and no label or symbol that is assigned to. -/
def isPseudoOp (name after : Text) : Bool :=
  name.head? = some 46 && after.head? ≠ some 58 && after.head? ≠ some 61 &&
    !(after.head?.any isBlank && after[1]? = some 61)

/-- The start of a statement, as far as it is looked at to tell what it is. -/
inductive Head
  /-- A pseudo op and its arguments. -/
  | pseudoOp (name arguments : Text)
  /-- Another name and what follows it. -/
  | name (after : Text)
  | empty (rest : Text)
  /-- What follows the first character. -/
  | other (rest : Text)
  deriving DecidableEq, Repr

def readHead (text : Text) : Head :=
  match skipLeading text with
  | [] => .empty []
  | c :: rest =>
    if isNameBeginner c || c = 34 then
      let (name, after) := getSymbolEnd (c :: rest)
      if isPseudoOp name after then
        .pseudoOp name (match after with
          | d :: arguments => if isBlank d then arguments else d :: arguments
          | [] => [])
      else .name after
    else if isEndOfLine source.atSign c then .empty rest
    else .other rest

def findHead (head : Head) : Option (Conditional × Text) :=
  match head with
  | .pseudoOp name arguments => (findConditional name).map (·, arguments)
  | _ => none

/-- Where a block that is ignored goes on. -/
def skipHead (head : Head) : Text :=
  match head with
  | .pseudoOp _ arguments => totallyIgnoreLine source arguments
  | .name after => totallyIgnoreLine source after
  | .empty rest => rest
  | .other rest => totallyIgnoreLine source rest

/-- One statement, with the text that was assembled. -/
def parseStatement (state : ReadState) (text : Text) : Except String (ReadState × Text × Text) :=
  let head := readHead source text
  if state.theCondState.ignore then
    match findHead head with
    | some (op, arguments) => (op.handler source state arguments).map fun (state, rest) => (state, rest, [])
    | none => .ok (state, skipHead source head, [])
  else
    match head with
    | .empty rest => .ok (state, rest, text.take (text.length - rest.length))
    | _ =>
      if state.definingMacro then
        let (state, rest) := source.macroLine state text
        .ok (state, rest, [])
      else
        match findHead head with
        | some (op, arguments) => (op.handler source state arguments).map fun (state, rest) => (state, rest, [])
        | none =>
          let (state, rest) := source.statement state text
          .ok (state, rest, text.take (text.length - rest.length))

/-- `fuel` bounds the number of statements. -/
def parseABuffer : Nat → ReadState → Text → Except String (ReadState × Text)
  | _, state, [] => .ok (state, [])
  | 0, _, _ :: _ => .error "out of fuel"
  | fuel + 1, state, c :: text => do
      let (state, rest, assembled) ← parseStatement source state (c :: text)
      let (state, more) ← parseABuffer fuel state rest
      return (state, assembled ++ more)

end Handlers

end Cctools.Read
