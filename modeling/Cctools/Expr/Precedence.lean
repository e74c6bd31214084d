/-
# Cctools.Expr.Precedence -- the value of an absolute expression

The texts of absolute expressions, with a blank or none between two tokens, and the tree
of one: operators of a higher rank bind tighter, those of one rank associate to the left.
`expression` reads such a text to its end and finds the value of its tree, if its literals
are plain and no operator in it is a binary `!` (`expression_eval`).

`two_char_op_encoding` takes every `!` for `!=` (`opEncoding_ne_bitOrNot`), with the size
and the rank of that.
-/
import Cctools.Expr.Literals
import Cctools.Theory.Loop
import Cctools.Theory.Precedence

namespace Cctools.Expr

open Cctools.Read (Text ascii newline)
open Cctools.PseudoSet
open Cctools.Theory (Operands RankTree Climbs StopsAt climbs_eval wellRanked_unique)
open Cctools.Theory.Loop (Settles settles_const settles_of_succ)

set_option autoImplicit false

/-! ## Texts of expressions -/

/-- How an operator is written. -/
def Operator.spellings : Operator → List Text
  | .multiply => [ascii "*"]
  | .divide => [ascii "/"]
  | .modulus => [ascii "%"]
  | .add => [ascii "+"]
  | .subtract => [ascii "-"]
  | .rightShift => [ascii ">>"]
  | .leftShift => [ascii "<<"]
  | .lessThan => [ascii "<"]
  | .greaterThan => [ascii ">"]
  | .lessThanOrEqual => [ascii "<="]
  | .greaterThanOrEqual => [ascii ">="]
  | .equal => [ascii "=="]
  | .notEqual => [ascii "!=", ascii "<>"]
  | .bitAnd => [ascii "&"]
  | .bitExclusiveOr => [ascii "^"]
  | .bitInclusiveOr => [ascii "|"]
  | .bitOrNot => [ascii "!"]
  | .logicalAnd => [ascii "&&"]
  | .logicalOr => [ascii "||"]

/-- A binary operator in one of its spellings. -/
structure Sign where
  op : Operator
  text : Text
  spelled : text ∈ op.spellings

def Sign.rank (sign : Sign) : Nat := sign.op.rank

def Unary.text : Unary → Text
  | .minus => ascii "-"
  | .complement => ascii "~"
  | .not => ascii "!"

/-- `true` is a blank. -/
def blank : Bool → Text
  | true => [32]
  | false => []

mutual

/-- An operand, with the blanks in front of it and behind it. -/
inductive Operand
  | literal (lead : Bool) (number : Literal) (trail : Bool)
  | unary (lead : Bool) (op : Unary) (operand : Operand)
  | paren (lead : Bool) (inner : Chain) (trail : Bool)

/-- Operands with operators between them. -/
inductive Chain
  | last (operand : Operand)
  | more (operand : Operand) (sign : Sign) (rest : Chain)

end

mutual

def Operand.text : Operand → Text
  | .literal lead number trail => blank lead ++ (number.text ++ blank trail)
  | .unary lead op operand => blank lead ++ (op.text ++ operand.text)
  | .paren lead inner trail => blank lead ++ (40 :: (inner.text ++ 41 :: blank trail))

def Chain.text : Chain → Text
  | .last operand => operand.text
  | .more operand sign rest => operand.text ++ (sign.text ++ rest.text)

end

def Chain.operands : Chain → Operands Sign Operand
  | .last operand => ⟨operand, []⟩
  | .more operand sign rest => ⟨operand, (sign, rest.operands.first) :: rest.operands.others⟩

def Sign.apply (host : Host) (sign : Sign) : BitVec 64 → BitVec 64 → BitVec 64 := sign.op.apply host

mutual

/-- The value of an operand; one in parentheses has the value of the tree of its operands. -/
def Operand.value (host : Host) : Operand → BitVec 64
  | .literal _ number _ => BitVec.ofNat 64 number.value
  | .unary _ op operand => op.apply (operand.value host)
  | .paren _ inner _ => ((inner.values host).associate Sign.rank).eval (Sign.apply host) id

/-- The values of the operands, with the operators between them. -/
def Chain.values (host : Host) : Chain → Operands Sign (BitVec 64)
  | .last operand => ⟨operand.value host, []⟩
  | .more operand sign rest =>
    ⟨operand.value host, (sign, (rest.values host).first) :: (rest.values host).others⟩

end

def Chain.value (host : Host) (chain : Chain) : BitVec 64 :=
  ((chain.values host).associate Sign.rank).eval (Sign.apply host) id

mutual

/-- The code reads every token as what it is: literals are plain and no operator is a binary `!`. -/
def Operand.Readable : Operand → Prop
  | .literal _ number _ => number.Plain
  | .unary _ _ operand => operand.Readable
  | .paren _ inner _ => inner.Readable

def Chain.Readable : Chain → Prop
  | .last operand => operand.Readable
  | .more operand sign rest => operand.Readable ∧ sign.op ≠ .bitOrNot ∧ rest.Readable

end

/-- What may follow an expression: neither a blank nor what goes on a literal, and no operator. -/
structure Ends (rest : Text) : Prop where
  word : EndsWord rest
  notBlank : rest.getD 0 0 ≠ 32
  noOperator : operatorAt rest = none

/-! ## Operators in the text -/

/-- **No text is taken for a binary `!`.** -/
theorem opEncoding_ne_bitOrNot (first second : Char) : opEncoding first second ≠ some .bitOrNot := by
  unfold opEncoding twoCharOpEncoding
  split <;> first | decide | skip
  all_goals split <;> first | decide | (split_ifs <;> decide)

/-- What an operand begins with. -/
def startsOperand (c : UInt8) : Bool := isDigit c || c ∈ ascii " (-~!"

theorem opEncoding_spelling {op : Operator} (readable : op ≠ .bitOrNot) {sign : Text} (spelled : sign ∈ op.spellings)
    {c : UInt8} (starts : startsOperand c = true) (more : Text) : operatorAt (sign ++ c :: more) = some op := by
  have notSecond : Char.ofUInt8 c ≠ '<' ∧ Char.ofUInt8 c ≠ '=' ∧ Char.ofUInt8 c ≠ '>' ∧ Char.ofUInt8 c ≠ '&' ∧
      Char.ofUInt8 c ≠ '|' := by
    refine ⟨?_, ?_, ?_, ?_, ?_⟩
    · intro same; rw [ofUInt8_inj (d := 60) same] at starts; exact absurd starts (by decide)
    · intro same; rw [ofUInt8_inj (d := 61) same] at starts; exact absurd starts (by decide)
    · intro same; rw [ofUInt8_inj (d := 62) same] at starts; exact absurd starts (by decide)
    · intro same; rw [ofUInt8_inj (d := 38) same] at starts; exact absurd starts (by decide)
    · intro same; rw [ofUInt8_inj (d := 124) same] at starts; exact absurd starts (by decide)
  obtain ⟨notLess, notEqual, notGreater, notAnd, notOr⟩ := notSecond
  have second (a : UInt8) (first : Char) (isFirst : Char.ofUInt8 a = first)
      (encoded : opEncoding first (Char.ofUInt8 c) = some op) : operatorAt ([a] ++ c :: more) = some op := by
    rw [← encoded, ← isFirst]
    rfl
  cases op with
  | bitOrNot => exact absurd rfl readable
  | notEqual =>
    rcases List.mem_pair.mp spelled with rfl | rfl
    · rfl
    · rfl
  | lessThan =>
    rw [List.mem_singleton.mp spelled]
    exact second 60 '<' rfl (by simp [opEncoding, twoCharOpEncoding, notLess, notEqual, notGreater])
  | greaterThan =>
    rw [List.mem_singleton.mp spelled]
    exact second 62 '>' rfl (by simp [opEncoding, twoCharOpEncoding, notEqual, notGreater])
  | bitAnd =>
    rw [List.mem_singleton.mp spelled]
    exact second 38 '&' rfl (by simp [opEncoding, twoCharOpEncoding, notAnd])
  | bitInclusiveOr =>
    rw [List.mem_singleton.mp spelled]
    exact second 124 '|' rfl (by simp [opEncoding, twoCharOpEncoding, notOr])
  | _ =>
    rw [List.mem_singleton.mp spelled]
    rfl

theorem Operator.size_spelling {op : Operator} {sign : Text} (spelled : sign ∈ op.spellings) :
    sign.length = op.size := by
  cases op with
  | notEqual => rcases List.mem_pair.mp spelled with rfl | rfl <;> rfl
  | _ =>
    rw [List.mem_singleton.mp spelled]
    rfl

theorem Sign.ends (sign : Sign) (more : Text) :
    EndsWord (sign.text ++ more) ∧ (sign.text ++ more).getD 0 0 ≠ 32 := by
  have all : ∀ text ∈ sign.op.spellings,
      isAlphanumeric (text.getD 0 0) = false ∧ text.getD 0 0 ≠ 32 ∧ text ≠ [] := by
    cases sign.op <;> decide
  obtain ⟨word, notBlank, some_⟩ := all sign.text sign.spelled
  cases text : sign.text with
  | nil => exact absurd text some_
  | cons c rest =>
    rw [text] at word notBlank
    exact ⟨word, notBlank⟩

theorem Operator.rank_pos (op : Operator) : 0 < op.rank := by
  cases op <;> decide

/-! ## Operands of the text -/

theorem Literal.text_starts (literal : Literal) (more : Text) :
    ∃ c text, literal.text ++ more = c :: text ∧ isDigit c = true := by
  obtain ⟨base, digits, suffix, admits, digits_lt, fits⟩ := literal
  cases base with
  | decimal =>
    cases digits with
    | nil => exact absurd rfl admits.1
    | cons c digits =>
      exact ⟨c, digits ++ (suffix.text ++ more), by simp [Literal.text, Base.text],
        isDigit_of_hexValue (digits_lt c (by simp))⟩
  | octal => exact ⟨48, digits ++ (suffix.text ++ more), by simp [Literal.text, Base.text, ascii], rfl⟩
  | hex upper =>
    cases upper
    · exact ⟨48, 120 :: (digits ++ (suffix.text ++ more)), by simp [Literal.text, Base.text, ascii], rfl⟩
    · exact ⟨48, 88 :: (digits ++ (suffix.text ++ more)), by simp [Literal.text, Base.text, ascii], rfl⟩

theorem Operand.text_starts (operand : Operand) (more : Text) :
    ∃ c text, operand.text ++ more = c :: text ∧ startsOperand c = true := by
  have led (lead : Bool) {core : Text} (starts : ∃ c text, core ++ more = c :: text ∧ startsOperand c = true) :
      ∃ c text, blank lead ++ core ++ more = c :: text ∧ startsOperand c = true := by
    cases lead with
    | false => simpa [blank] using starts
    | true => exact ⟨32, core ++ more, by simp [blank], by decide⟩
  cases operand with
  | literal lead number trail =>
    obtain ⟨c, text, same, digit⟩ := number.text_starts (blank trail ++ more)
    refine led lead ⟨c, text, by simpa using same, ?_⟩
    simp [startsOperand, digit]
  | unary lead op operand =>
    refine led lead ?_
    cases op
    · exact ⟨45, operand.text ++ more, rfl, by decide⟩
    · exact ⟨126, operand.text ++ more, rfl, by decide⟩
    · exact ⟨33, operand.text ++ more, rfl, by decide⟩
  | paren lead inner trail => exact led lead ⟨40, _, rfl, by decide⟩

/-- Operators that each have an operand behind them. -/
def othersText (others : List (Sign × Operand)) : Text := others.flatMap fun other => other.1.text ++ other.2.text

theorem Chain.text_eq : ∀ chain : Chain,
    chain.text = chain.operands.first.text ++ othersText chain.operands.others
  | .last operand => by simp [Chain.text, Chain.operands, othersText]
  | .more operand sign rest => by simp [Chain.text, Chain.operands, rest.text_eq, othersText]

theorem Chain.values_eq (host : Host) : ∀ chain : Chain,
    chain.values host = chain.operands.map (Operand.value host)
  | .last operand => by simp [Chain.values, Chain.operands, Operands.map]
  | .more operand sign rest => by simp [Chain.values, Chain.operands, Operands.map, rest.values_eq host]

theorem Chain.value_eq (host : Host) (chain : Chain) :
    chain.value host = (chain.operands.associate Sign.rank).eval (Sign.apply host) (Operand.value host) := by
  rw [Chain.value, Chain.values_eq, Operands.associate_map, RankTree.eval_map]

theorem othersText_ends (others : List (Sign × Operand)) {more : Text} (ends : Ends more) :
    EndsWord (othersText others ++ more) ∧ (othersText others ++ more).getD 0 0 ≠ 32 := by
  cases others with
  | nil => exact ⟨ends.word, ends.notBlank⟩
  | cons other others =>
    have sign := other.1.ends (other.2.text ++ (othersText others ++ more))
    simpa [othersText] using sign

/-! ## Reading the text -/

section Reading

variable {width : Nat} (as : Assembler width)

theorem skipWhitespace_blank (lead : Bool) {core : Text} (notBlank : core.getD 0 0 ≠ 32) :
    skipWhitespace (blank lead ++ core) = core := by
  cases lead with
  | true => rfl
  | false =>
    cases core with
    | nil => rfl
    | cons c core =>
      have other : c ≠ 32 := notBlank
      simp [blank, skipWhitespace, other]

theorem Quantity.cleanUp_absolute (number : BitVec 64) : (absolute number).cleanUp = absolute number := rfl

theorem Quantity.unary_absolute (op : Unary) (number : BitVec 64) :
    (absolute number).unary op = absolute (op.apply number) := by
  cases op <;> rfl

theorem Quantity.combine_absolute (host : Host) (table : Table Text width) (op : Operator) (left right : BitVec 64) :
    combine host table op (absolute left) (absolute right) = absolute (op.apply host left right) := by
  cases op with
  | subtract => simp [combine, absolute, part, isAbsent, exchange, addExpressions, addParts, exprPart, cleanUpExpression,
      Operator.apply, BitVec.sub_eq_add_neg]
  | add => simp [combine, absolute, part, isAbsent, addExpressions, addParts, exprPart, cleanUpExpression, Operator.apply]
  | _ => simp [combine, absolute, part, isAbsent, binaryOperands]

/-- The operand in a text that neither goes on a literal nor begins with a blank. -/
def Operand.Reads (operand : Operand) : Prop :=
  ∀ (more : Text) (state : State width), EndsWord more → more.getD 0 0 ≠ 32 → ∃ littlenums,
    Settles (fun fuel => Expr.operand as fuel (operand.text ++ more) state)
      ⟨.absolute (operand.value as.host), more, { state with bignum := littlenums }⟩

theorem operand_digit {c : UInt8} (digit : isDigit c = true) (fuel : Nat) (lead : Bool) (text : Text)
    (state : State width) :
    operand as (fuel + 1) (blank lead ++ c :: text) state = some (simpleOperand as c text state).finish := by
  have notBlank : c ≠ 32 := by rintro rfl; exact absurd digit (by decide)
  have notParen : c ≠ 40 := by rintro rfl; exact absurd digit (by decide)
  have notUnary : unaryAt c = none := by
    unfold unaryAt
    split
    · rename_i same; rw [ofUInt8_inj (d := 126) same] at digit; exact absurd digit (by decide)
    · rename_i same; rw [ofUInt8_inj (d := 45) same] at digit; exact absurd digit (by decide)
    · rename_i same; rw [ofUInt8_inj (d := 33) same] at digit; exact absurd digit (by decide)
    · rfl
  have skipped : skipWhitespace (blank lead ++ c :: text) = c :: text := skipWhitespace_blank lead notBlank
  rw [operand, skipped]
  simp [notParen, notUnary]

theorem operand_unary (op : Unary) (fuel : Nat) (lead : Bool) (text : Text) (state : State width) :
    operand as (fuel + 1) (blank lead ++ (op.text ++ text)) state =
      (operand as fuel text state).map fun inner =>
        { inner with quantity := inner.quantity.unary op : Result width }.finish := by
  cases op <;> rw [operand, skipWhitespace_blank lead (by simp [Unary.text, ascii])] <;> rfl

theorem operand_paren (fuel : Nat) (lead : Bool) (text : Text) (state : State width) :
    operand as (fuel + 1) (blank lead ++ 40 :: text) state =
      (expr as fuel 0 text state).map fun inner =>
        { inner with rest := if inner.rest.head? = some 41 then inner.rest.drop 1 else inner.rest : Result width }.finish := by
  rw [operand, skipWhitespace_blank lead (by simp)]
  rfl

theorem Operand.reads_literal (lead : Bool) (number : Literal) (trail : Bool) (plain : number.Plain) :
    (Operand.literal lead number trail).Reads as := by
  intro more state word notBlank
  have trailing : EndsWord (blank trail ++ more) := by
    cases trail with
    | true => rfl
    | false => exact word
  obtain ⟨c, text, littlenums, same, digit, read⟩ := simpleOperand_literal as number plain trailing state
  refine ⟨littlenums, settles_of_succ ?_⟩
  have begins (fuel : Nat) : operand as (fuel + 1) ((Operand.literal lead number trail).text ++ more) state =
      some ⟨.absolute (BitVec.ofNat 64 number.value), more, { state with bignum := littlenums }⟩ := by
    rw [Operand.text, List.append_assoc, List.append_assoc, same, operand_digit as digit, read, Result.finish,
      skipWhitespace_blank trail notBlank, Quantity.cleanUp_absolute]
  simp only [begins, Operand.value]
  exact settles_const _

theorem Operand.reads_unary (lead : Bool) (op : Unary) {inner : Operand} (reads : inner.Reads as) :
    (Operand.unary lead op inner).Reads as := by
  intro more state word notBlank
  obtain ⟨littlenums, settles⟩ := reads more state word notBlank
  refine ⟨littlenums, settles_of_succ ?_⟩
  have begins (fuel : Nat) : operand as (fuel + 1) ((Operand.unary lead op inner).text ++ more) state =
      (operand as fuel (inner.text ++ more) state).bind fun inner =>
        some { inner with quantity := inner.quantity.unary op : Result width }.finish := by
    rw [Operand.text, List.append_assoc, List.append_assoc, operand_unary, Option.map_eq_bind]
    rfl
  simp only [begins, Operand.value]
  refine settles.bind ?_
  have skipped : skipWhitespace more = more := skipWhitespace_blank false notBlank
  simp only [Result.finish, Quantity.unary_absolute, Quantity.cleanUp_absolute, skipped]
  exact settles_const _

/-- Operators above `level` are applied to operands that are read. -/
theorem exprLoop_climbs {level : Nat} {left result : BitVec 64} {others after : List (Sign × Operand)}
    (climbs : Climbs Sign.rank (Sign.apply as.host) (Operand.value as.host) level left others result after)
    (reads : ∀ other ∈ others, other.1.op ≠ .bitOrNot ∧ other.2.Reads as) {more : Text} (ends : Ends more)
    (state : State width) : ∃ littlenums,
      Settles (fun fuel => exprLoop as fuel level ⟨.absolute left, othersText others ++ more, state⟩)
        ⟨.absolute result, othersText after ++ more, { state with bignum := littlenums }⟩ := by
  induction climbs generalizing state with
  | @stops level left others low =>
    refine ⟨state.bignum, settles_of_succ ?_⟩
    have stop (fuel : Nat) : exprLoop as (fuel + 1) level ⟨.absolute left, othersText others ++ more, state⟩ =
        some ⟨.absolute left, othersText others ++ more, state⟩ := by
      rw [exprLoop]
      cases others with
      | nil => simp [othersText, ends.noOperator]
      | cons other others =>
        obtain ⟨c, text, same, starts⟩ := other.2.text_starts (othersText others ++ more)
        have found : operatorAt (othersText (other :: others) ++ more) = some other.1.op := by
          have spelled := opEncoding_spelling (reads other (by simp)).1 other.1.spelled starts text
          rw [← same] at spelled
          simpa [othersText] using spelled
        have notAbove : ¬level < other.1.op.rank := Nat.not_lt.mpr (low other rfl)
        simp only [found, notAbove, if_false]
    simp only [stop]
    exact settles_const _
  | @applies level left right result sign next others after rest high operandClimbs goesOn operandIH goesOnIH =>
    have isRead := reads (sign, next) (by simp)
    obtain ⟨c, text, same, starts⟩ := next.text_starts (othersText others ++ more)
    have found : operatorAt (sign.text ++ (next.text ++ (othersText others ++ more))) = some sign.op := by
      rw [same]
      exact opEncoding_spelling isRead.1 sign.spelled starts text
    obtain ⟨word, notBlank⟩ := othersText_ends others ends
    -- the right operand, climbed above the rank of the operator
    obtain ⟨first, operandSettles⟩ := isRead.2 (othersText others ++ more) state word notBlank
    obtain ⟨second, rightSettles⟩ := operandIH (fun other member => reads other (by simp [member]))
      { state with bignum := first }
    have exprSettles : Settles (fun fuel => expr as fuel sign.op.rank (next.text ++ (othersText others ++ more)) state)
        ⟨.absolute right, othersText after ++ more, { state with bignum := second }⟩ := by
      refine settles_of_succ ?_
      simp only [expr]
      exact operandSettles.bind rightSettles
    obtain ⟨third, restSettles⟩ := goesOnIH
      (fun other member => reads other (by simp [operandClimbs.suffix.subset member])) { state with bignum := second }
    refine ⟨third, settles_of_succ ?_⟩
    have step (fuel : Nat) : exprLoop as (fuel + 1) level
          ⟨.absolute left, othersText ((sign, next) :: others) ++ more, state⟩ =
        (expr as fuel sign.op.rank (next.text ++ (othersText others ++ more)) state).bind fun right =>
          exprLoop as fuel level
            { right with quantity := .combine as.host right.state.table sign.op (.absolute left) right.quantity } := by
      have above : level < sign.op.rank := high
      have texts : othersText ((sign, next) :: others) ++ more =
          sign.text ++ (next.text ++ (othersText others ++ more)) := by simp [othersText]
      rw [exprLoop]
      simp only [texts, found, above, if_true, ← Operator.size_spelling sign.spelled, List.drop_left]
    simp only [step]
    refine exprSettles.bind ?_
    simp only [Quantity.combine_absolute]
    exact restSettles

/-- The operands and signs of a chain. -/
def Chain.Reads (chain : Chain) : Prop :=
  chain.operands.first.Reads as ∧
    ∀ other ∈ chain.operands.others, other.1.op ≠ .bitOrNot ∧ other.2.Reads as

/-- A chain whose operands are read has the value of its tree. -/
theorem expr_chain {chain : Chain} (reads : chain.Reads as) {more : Text} (ends : Ends more) (state : State width) :
    ∃ littlenums, Settles (fun fuel => expr as fuel 0 (chain.text ++ more) state)
      ⟨.absolute (chain.value as.host), more, { state with bignum := littlenums }⟩ := by
  obtain ⟨good, operands⟩ := Operands.associate_wellRanked Sign.rank chain.operands
  have climbs := climbs_eval Sign.rank (Sign.apply as.host) (Operand.value as.host)
    (fun sign => sign.op.rank_pos) good
  have first : (chain.operands.associate Sign.rank).first = chain.operands.first := congrArg Operands.first operands
  have others : (chain.operands.associate Sign.rank).others = chain.operands.others := congrArg Operands.others operands
  rw [first, others, ← Chain.value_eq] at climbs
  obtain ⟨word, notBlank⟩ := othersText_ends chain.operands.others ends
  obtain ⟨before, firstSettles⟩ := reads.1 (othersText chain.operands.others ++ more) state word notBlank
  obtain ⟨littlenums, settles⟩ := exprLoop_climbs as climbs reads.2 ends { state with bignum := before }
  refine ⟨littlenums, settles_of_succ ?_⟩
  rw [Chain.text_eq, List.append_assoc]
  simp only [expr]
  exact firstSettles.bind settles

theorem Operand.reads_paren (lead : Bool) {inner : Chain} (trail : Bool) (reads : inner.Reads as) :
    (Operand.paren lead inner trail).Reads as := by
  intro more state word notBlank
  have ends : Ends (41 :: (blank trail ++ more)) := ⟨rfl, by simp, rfl⟩
  obtain ⟨littlenums, settles⟩ := expr_chain as reads ends state
  refine ⟨littlenums, settles_of_succ ?_⟩
  have begins (fuel : Nat) : operand as (fuel + 1) ((Operand.paren lead inner trail).text ++ more) state =
      (expr as fuel 0 (inner.text ++ 41 :: (blank trail ++ more)) state).bind fun inner => some
        { inner with rest := if inner.rest.head? = some 41 then inner.rest.drop 1 else inner.rest : Result width }.finish := by
    rw [Operand.text, List.append_assoc, List.cons_append, List.append_assoc, List.cons_append, operand_paren,
      Option.map_eq_bind]
    rfl
  simp only [begins, Operand.value]
  refine settles.bind ?_
  simp only [Result.finish, Quantity.cleanUp_absolute, List.head?_cons, if_true, List.drop_one, List.tail_cons,
    skipWhitespace_blank trail notBlank]
  exact settles_const _

mutual

/-- **Readable operands are read to their end and have their value.** -/
theorem Operand.reads : ∀ operand : Operand, operand.Readable → operand.Reads as
  | .literal lead number trail, plain => Operand.reads_literal as lead number trail (by rwa [Operand.Readable] at plain)
  | .unary lead op inner, readable =>
    Operand.reads_unary as lead op (inner.reads (by rwa [Operand.Readable] at readable))
  | .paren lead inner trail, readable =>
    Operand.reads_paren as lead trail (inner.reads (by rwa [Operand.Readable] at readable))

theorem Chain.reads : ∀ chain : Chain, chain.Readable → chain.Reads as
  | .last operand, readable => ⟨operand.reads (by rwa [Chain.Readable] at readable), by simp [Chain.operands]⟩
  | .more operand sign rest, readable => by
      obtain ⟨first, isRead, others⟩ : operand.Readable ∧ sign.op ≠ .bitOrNot ∧ rest.Readable := by
        rwa [Chain.Readable] at readable
      have restReads := rest.reads others
      refine ⟨operand.reads first, fun other member => ?_⟩
      rcases List.mem_cons.mp member with rfl | later
      · exact ⟨isRead, restReads.1⟩
      · exact restReads.2 other later

end

end Reading

/-! ## The value -/

/-- **An absolute expression is read to its end, as the tree of its ranks.**  There is one tree of the operands'
values in which higher ranks bind tighter and equal ranks associate to the left; with enough fuel `expression`
returns its value, `SEG_ABSOLUTE` and what follows the text. -/
theorem expression_eval {width : Nat} (as : Assembler width) (chain : Chain) (readable : chain.Readable)
    (rest : Text) (ends : Ends rest) (state : State width) :
    ∃ tree : RankTree Sign (BitVec 64), tree.WellRanked Sign.rank ∧ tree.operands = chain.values as.host ∧
      (∀ other : RankTree Sign (BitVec 64), other.WellRanked Sign.rank → other.operands = chain.values as.host →
        other = tree) ∧
      ∃ littlenums, Settles (fun fuel => expression as fuel (chain.text ++ rest) state)
        (⟨.absolute (tree.eval (Sign.apply as.host) id), rest, { state with bignum := littlenums }⟩, some .absolute) := by
  obtain ⟨good, operands⟩ := Operands.associate_wellRanked Sign.rank (chain.values as.host)
  obtain ⟨littlenums, settles⟩ := expr_chain as (chain.reads as readable) ends state
  refine ⟨_, good, operands, ?_, littlenums, ?_⟩
  · intro other otherGood otherOperands
    exact wellRanked_unique (fun sign => sign.op.rank_pos) otherGood good (otherOperands.trans operands.symm)
  · simp only [expression, Option.map_eq_bind]
    exact settles.bind (settles_const _)

/-! ## The binary `!` -/

/-- The assembler for i386, with symbols at zero. -/
def plainAssembler : Assembler 32 where
  target := .i386
  host := ⟨fun _ _ => 0, fun _ _ => 0, 0, 0⟩
  location := fun table => (⟨.absolute, none, none, 0⟩, table)
  localLabel := fun _ _ table => (⟨.absolute, none, none, 0⟩, table)
  atofGeneric := fun text littlenums => (text, littlenums)

def plainState : State 32 := ⟨.empty, List.replicate 26 0⟩

theorem digit_admits (c : UInt8) (digit : hexValue c < 10 ∧ c ≠ 48) : Base.Admits .decimal [c] :=
  ⟨by simp, by simpa using digit.2⟩

theorem digit_lt (c : UInt8) (digit : hexValue c < 10 ∧ c ≠ 48) :
    ∀ d ∈ [c], hexValue d < Base.decimal.radix.maxdig := by
  intro d member
  rw [List.mem_singleton.mp member]
  exact digit.1

theorem digit_fits (c : UInt8) (digit : hexValue c < 10 ∧ c ≠ 48) : Base.decimal.radix.value [c] < 2 ^ 64 := by
  have small := digit.1
  simp [Radix.value, Base.radix]
  omega

/-- A decimal digit. -/
def digitOperand (lead : Bool) (c : UInt8) (digit : hexValue c < 10 ∧ c ≠ 48) (trail : Bool) : Operand :=
  .literal lead ⟨.decimal, [c], .none, digit_admits c digit, digit_lt c digit, digit_fits c digit⟩ trail

/-- `1 + 2*3` -/
def onePlusTwoTimesThree : Chain :=
  .more (digitOperand false 49 (by decide) true) ⟨.add, ascii "+", by simp [Operator.spellings]⟩
    (.more (digitOperand true 50 (by decide) false) ⟨.multiply, ascii "*", by simp [Operator.spellings]⟩
      (.last (digitOperand false 51 (by decide) false)))

theorem expression_eval_sum : ∃ littlenums,
    Settles (fun fuel => expression plainAssembler fuel (ascii "1 + 2*3\n") plainState)
      (⟨.absolute 7, [newline], { plainState with bignum := littlenums }⟩, some .absolute) := by
  have readable : onePlusTwoTimesThree.Readable := by
    simp only [onePlusTwoTimesThree, digitOperand, Chain.Readable, Operand.Readable]
    decide
  obtain ⟨tree, -, -, unique, settles⟩ := expression_eval plainAssembler onePlusTwoTimesThree readable [newline]
    ⟨rfl, by decide, rfl⟩ plainState
  let product : RankTree Sign (BitVec 64) := .node ⟨.multiply, ascii "*", by simp [Operator.spellings]⟩ (.leaf 2) (.leaf 3)
  have sum := unique (.node ⟨.add, ascii "+", by simp [Operator.spellings]⟩ (.leaf 1) product)
    ⟨trivial, Nat.lt_succ_self 9, trivial, trivial, trivial, trivial, trivial⟩ rfl
  rw [← sum] at settles
  exact settles

/-- `6!1` -/
def sixOrNotOne : Chain :=
  .more (digitOperand false 54 (by decide) false) ⟨.bitOrNot, ascii "!", by simp [Operator.spellings]⟩
    (.last (digitOperand false 49 (by decide) false))

/-- **The operand behind a binary `!` is swallowed with it**: the value is 0, not that of the tree. -/
theorem bitOrNot_misread :
    sixOrNotOne.text ++ [newline] = ascii "6!1\n" ∧ sixOrNotOne.value plainAssembler.host = -2 ∧
      Settles (fun fuel => expression plainAssembler fuel (sixOrNotOne.text ++ [newline]) plainState)
        (⟨.absolute 0, [newline], plainState⟩, some .absolute) := by
  refine ⟨rfl, by decide, 6, fun fuel enough => ?_⟩
  obtain ⟨less, rfl⟩ : ∃ less, fuel = less + 6 := ⟨fuel - 6, by omega⟩
  rfl

end Cctools.Expr
