/-
# Cctools.PseudoSet.Values -- a symbol has one value

`run_values`: after assignments of the right kind (`Statement.Fine`) the value a fixup
takes, the value in the symbol table and the value that is meant are equal.

A saved expression is not combined with a number (`chain_forgets`), and not added to an
external symbol.
-/
import Cctools.PseudoSet.Assignments
import Cctools.Theory.BitField
import Mathlib.Data.BitVec
import Mathlib.Tactic.Abel
import Mathlib.Tactic.Common

namespace Cctools.PseudoSet

set_option autoImplicit false

/-! ## Expressions -/

section Expressions

variable {Name : Type} [DecidableEq Name] {width : Nat}

set_option linter.unusedSectionVars false

/-- What an expression is worth when its symbols have values. -/
def Expression.worth (value : Name → BitVec 64) (exp : Expression Name) : BitVec 64 :=
  (exp.addSymbol.map value).getD 0 - (exp.subtractSymbol.map value).getD 0 + exp.addNumber

def Expression.Clean (exp : Expression Name) : Prop :=
  match exp.seg with
  | .absolute => exp.addSymbol = none ∧ exp.subtractSymbol = none
  | .sect | .unknown => exp.subtractSymbol = none
  | .difference => exp.subtractSymbol ≠ exp.addSymbol

/-- The segment has room for the symbols. -/
def Expression.fits (exp : Expression Name) : Bool :=
  match exp.seg with
  | .absolute => exp.addSymbol.isNone && exp.subtractSymbol.isNone
  | .sect | .unknown => exp.subtractSymbol.isNone
  | .difference => true

theorem cleanUp_clean (exp : Expression Name) : (cleanUpExpression exp).Clean := by
  obtain ⟨seg, add, subtract, number⟩ := exp
  cases seg with
  | absolute => exact ⟨rfl, rfl⟩
  | sect => exact rfl
  | unknown => exact rfl
  | difference =>
    rw [cleanUpExpression]
    dsimp only
    split
    · exact ⟨rfl, rfl⟩
    · assumption

variable {exp : Expression Name}

theorem cleanUp_of_clean (clean : exp.Clean) : cleanUpExpression exp = exp := by
  obtain ⟨seg, add, subtract, number⟩ := exp
  cases seg with
  | absolute =>
    obtain ⟨rfl, rfl⟩ := clean
    rfl
  | sect | unknown =>
    cases clean
    rfl
  | difference => exact if_neg clean

theorem cleanUp_worth (value : Name → BitVec 64) (fits : exp.fits = true) :
    (cleanUpExpression exp).worth value = exp.worth value := by
  obtain ⟨seg, add, subtract, number⟩ := exp
  cases seg with
  | absolute =>
    simp only [Expression.fits, Bool.and_eq_true, Option.isNone_iff_eq_none] at fits
    rw [fits.1, fits.2]
    rfl
  | sect | unknown =>
    simp only [Expression.fits, Option.isNone_iff_eq_none] at fits
    rw [fits]
    rfl
  | difference =>
    rw [cleanUpExpression]
    dsimp only
    split
    · rename_i same
      rw [Expression.worth, Expression.worth, same]
      simp
    · rfl

/-- Its symbols are not constants. -/
def Expression.Names (P : Name → Prop) (exp : Expression Name) : Prop :=
  (∀ name, exp.addSymbol = some name → P name) ∧ ∀ name, exp.subtractSymbol = some name → P name

variable {P : Name → Prop}

theorem cleanUp_names (names : exp.Names P) :
    (cleanUpExpression exp).Names P := by
  obtain ⟨seg, add, subtract, number⟩ := exp
  cases seg with
  | absolute => exact ⟨nofun, nofun⟩
  | sect => exact ⟨names.1, nofun⟩
  | unknown => exact ⟨names.1, nofun⟩
  | difference =>
    rw [cleanUpExpression]
    dsimp only
    split
    · exact ⟨nofun, nofun⟩
    · exact names

/-- What `expr` finds. -/
structure Evaluated (P : Name → Prop) (value : Name → BitVec 64) (exp : Expression Name) (worth : BitVec 64) : Prop where
  clean : exp.Clean
  worth : exp.worth value = worth
  names : exp.Names P

variable {table : Table Name width} {first second : Option Name}

theorem exprPart_one
    (one : first.isNone || second.isNone) : ∃ seg, exprPart table first second = (some seg, first.or second) := by
  cases first <;> cases second
  · exact ⟨_, rfl⟩
  · exact ⟨_, rfl⟩
  · exact ⟨_, rfl⟩
  · cases one

variable {value : Name → BitVec 64}

theorem or_value (one : first.isNone || second.isNone) :
    ((first.or second).map value).getD 0 = (first.map value).getD 0 + (second.map value).getD 0 := by
  cases first <;> cases second
  · simp
  · simp
  · simp
  · cases one

theorem or_names (left : ∀ name, first = some name → P name)
    (right : ∀ name, second = some name → P name) : ∀ name, first.or second = some name → P name := by
  intro name is
  cases first with
  | none => exact right name is
  | some other => exact left name is

variable {left right : Expression Name}

theorem addParts_of_one (add : left.addSymbol.isNone || right.addSymbol.isNone)
    (subtract : left.subtractSymbol.isNone || right.subtractSymbol.isNone) :
    ∃ seg, addParts table left right = ⟨seg, left.addSymbol.or right.addSymbol,
      left.subtractSymbol.or right.subtractSymbol, left.addNumber + right.addNumber⟩ := by
  obtain ⟨seg1, first⟩ := @exprPart_one _ _ _ table _ _ add
  obtain ⟨seg2, second⟩ := @exprPart_one _ _ _ table _ _ subtract
  rw [addParts, first, second]
  exact ⟨_, rfl⟩

theorem addExpressions_evaluated {leftWorth rightWorth : BitVec 64} (first : Evaluated P value left leftWorth)
    (second : Evaluated P value right rightWorth) (kept : (addExpressions table left right).2 = true) :
    Evaluated P value (addExpressions table left right).1 (leftWorth + rightWorth) := by
  rw [addExpressions, cleanUp_of_clean first.clean, cleanUp_of_clean second.clean] at kept ⊢
  simp only [keepsParts, Bool.and_eq_true] at kept
  obtain ⟨⟨add, subtract⟩, fits⟩ := kept
  obtain ⟨seg, parts⟩ := @addParts_of_one _ _ _ table _ _ add subtract
  dsimp only
  rw [parts] at fits ⊢
  refine ⟨cleanUp_clean _, ?_, cleanUp_names ⟨or_names first.names.1 second.names.1,
    or_names first.names.2 second.names.2⟩⟩
  rw [cleanUp_worth value fits, ← first.worth, ← second.worth, Expression.worth, Expression.worth, Expression.worth]
  dsimp only
  rw [or_value add, or_value subtract]
  abel

variable {worth : BitVec 64}

theorem exchange_evaluated (is : Evaluated P value exp worth) : Evaluated P value (exchange exp) (-worth) := by
  obtain ⟨clean, worths, names⟩ := is
  refine ⟨?_, ?_, names.2, names.1⟩
  · obtain ⟨seg, add, subtract, number⟩ := exp
    cases add with
    | some name =>
      cases seg with
      | absolute => cases clean.1
      | sect =>
        cases clean
        nofun
      | unknown =>
        cases clean
        nofun
      | difference => exact Ne.symm clean
    | none =>
      cases seg with
      | absolute => exact ⟨clean.2, rfl⟩
      | sect => exact rfl
      | unknown => exact rfl
      | difference => exact Ne.symm clean
  · rw [← worths, Expression.worth, Expression.worth, exchange]
    dsimp only
    abel

theorem worth_of_absolute (clean : exp.Clean)
    (absolute : exp.seg = .absolute) : exp.worth value = exp.addNumber := by
  rw [Expression.Clean, absolute] at clean
  rw [Expression.worth, clean.1, clean.2]
  simp

theorem minusOperand_evaluated (is : Evaluated P value exp worth) (kept : (minusOperand exp).2 = true) :
    Evaluated P value (cleanUpExpression (minusOperand exp).1) (-worth) := by
  obtain ⟨clean, worths, names⟩ := is
  obtain ⟨seg, add, subtract, number⟩ := exp
  cases seg with
  | absolute =>
    obtain ⟨rfl, rfl⟩ := clean
    refine ⟨cleanUp_clean _, ?_, cleanUp_names names⟩
    rw [← worths]
    simp [minusOperand, cleanUpExpression, Expression.worth]
  | sect | unknown =>
    cases clean
    have none_ : number = 0 := by simpa [minusOperand] using kept
    subst none_
    refine ⟨cleanUp_clean _, ?_, cleanUp_names ⟨nofun, names.1⟩⟩
    rw [cleanUp_worth value rfl, ← worths]
    simp [minusOperand, Expression.worth]
  | difference => cases kept

theorem unaryOperand_evaluated
    {apply_ : BitVec 64 → BitVec 64} (is : Evaluated P value exp worth) (kept : (unaryOperand apply_ exp).2 = true) :
    Evaluated P value (cleanUpExpression (unaryOperand apply_ exp).1) (apply_ worth) := by
  obtain ⟨clean, worths, names⟩ := is
  obtain ⟨seg, add, subtract, number⟩ := exp
  cases seg with
  | absolute =>
    obtain ⟨rfl, rfl⟩ := clean
    refine ⟨cleanUp_clean _, ?_, cleanUp_names names⟩
    rw [← worths]
    simp [unaryOperand, cleanUpExpression, Expression.worth]
  | sect | unknown | difference => cases kept

variable {apply_ : BitVec 64 → BitVec 64 → BitVec 64}

theorem binaryOperands_evaluated {leftWorth rightWorth : BitVec 64} {halves : Bool}
    (first : Evaluated P value left leftWorth) (second : Evaluated P value right rightWorth)
    (kept : (binaryOperands apply_ halves left right).2 = true) :
    Evaluated P value (binaryOperands apply_ halves left right).1 (apply_ leftWorth rightWorth) := by
  rw [binaryOperands] at kept ⊢
  split at kept
  · cases kept
  split at kept
  · cases kept
  split at kept
  · cases kept
  · rename_i known special absolute
    rw [if_neg known, if_neg special, if_neg absolute]
    simp only [Bool.or_eq_true, decide_eq_true_eq, not_or, ne_eq, not_not] at absolute
    refine ⟨⟨rfl, rfl⟩, ?_, nofun, nofun⟩
    rw [← first.worth, ← second.worth, worth_of_absolute first.clean absolute.1,
      worth_of_absolute second.clean absolute.2]
    simp [Expression.worth]

/-- Not a constant: the value is only known in the end. -/
def Table.Open (table : Table Name width) (name : Name) : Prop :=
  (table.symbol name).type = .abs → (table.symbol name).expression ≠ none

theorem findOrMake_symbol (table : Table Name width) (name : Name) : (table.findOrMake name).symbol = table.symbol := by
  unfold Table.findOrMake
  split <;> rfl

theorem evaluate_symbol (expr : Expr Name) (table : Table Name width) :
    (expr.evaluate table).1.symbol = table.symbol := by
  induction expr generalizing table with
  | number constant => rfl
  | symbol name => exact findOrMake_symbol table name
  | add left right ihLeft ihRight => exact (ihRight _).trans (ihLeft table)
  | subtract left right ihLeft ihRight => exact (ihRight _).trans (ihLeft table)
  | minus operand ih => exact ih table
  | unary apply_ operand ih => exact ih table
  | binary apply_ halves left right ihLeft ihRight => exact (ihRight _).trans (ihLeft table)

theorem findOrMake_chain (table : Table Name width) (name : Name) : ∀ other ∈ table.chain,
    other ∈ (table.findOrMake name).chain := by
  intro other member
  unfold Table.findOrMake
  split
  · exact member
  · exact List.mem_append_left _ member

theorem mem_findOrMake (table : Table Name width) (name : Name) : name ∈ (table.findOrMake name).chain := by
  unfold Table.findOrMake
  split
  · assumption
  · exact List.mem_append_right _ (.head _)

theorem evaluate_chain (expr : Expr Name) (table : Table Name width) : ∀ other ∈ table.chain,
    other ∈ (expr.evaluate table).1.chain := by
  induction expr generalizing table with
  | number constant => exact fun _ member => member
  | symbol name => exact findOrMake_chain table name
  | add left right ihLeft ihRight => exact fun other member => ihRight _ other (ihLeft table other member)
  | subtract left right ihLeft ihRight => exact fun other member => ihRight _ other (ihLeft table other member)
  | minus operand ih => exact ih table
  | unary apply_ operand ih => exact ih table
  | binary apply_ halves left right ihLeft ihRight => exact fun other member => ihRight _ other (ihLeft table other member)

/-- Constants have the value that is meant. -/
def ConstantsAre (table : Table Name width) (value : Name → BitVec width) : Prop :=
  ∀ name, (table.symbol name).type = .abs → (table.symbol name).expression = none →
    (table.symbol name).value = value name

variable {value : Name → BitVec width}

theorem operandSymbol_evaluated (constants : ConstantsAre table value) (name : Name) :
    Evaluated table.Open (fun name => (value name).signExtend 64) (cleanUpExpression (operandSymbol table name))
      ((value name).signExtend 64) := by
  have isName (seg : Seg) (open_ : table.Open name) (symbolic : seg ≠ .absolute) :
      Evaluated table.Open (fun name => (value name).signExtend 64) (cleanUpExpression ⟨seg, some name, none, 0⟩)
        ((value name).signExtend 64) := by
    have fits : (⟨seg, some name, none, 0⟩ : Expression Name).fits = true := by
      cases seg <;> first | rfl | exact absurd rfl symbolic
    refine ⟨cleanUp_clean _, ?_, cleanUp_names ⟨fun other is => ?_, nofun⟩⟩
    · rw [cleanUp_worth _ fits]
      simp [Expression.worth]
    · cases is
      exact open_
  rw [operandSymbol]
  split
  · rename_i type expression
    refine ⟨⟨rfl, rfl⟩, ?_, nofun, nofun⟩
    rw [← constants name type expression]
    simp [Expression.worth, cleanUpExpression]
  · rename_i constant
    have defined : (table.symbol name).type ≠ .abs := constant
    apply isName
    · exact fun type => absurd type defined
    · rw [Table.seg]
      split
      · nofun
      · rename_i type
        exact absurd type defined
      · nofun
  · rename_i expression
    apply isName
    · exact fun _ none_ => by rw [expression] at none_; cases none_
    · nofun

/-- A section or unknown expression has a symbol of that kind. -/
def Expression.Typed (table : Table Name width) (exp : Expression Name) : Prop :=
  exp.seg = .sect ∨ exp.seg = .unknown → ∃ name, exp.addSymbol = some name ∧ table.seg name = exp.seg

theorem cleanUp_typed (typed : exp.Typed table) :
    (cleanUpExpression exp).Typed table := by
  obtain ⟨seg, add, subtract, number⟩ := exp
  cases seg with
  | absolute => rintro (symbolic | symbolic) <;> cases symbolic
  | sect => exact typed
  | unknown => exact typed
  | difference =>
    rw [cleanUpExpression]
    dsimp only
    split
    · rintro (symbolic | symbolic) <;> cases symbolic
    · exact typed

theorem exprPart_typed {first second symbol : Option Name} {seg : Seg}
    (part : exprPart table first second = (some seg, symbol)) (symbolic : seg ≠ .absolute) :
    ∃ name, symbol = some name ∧ table.seg name = seg := by
  rcases first with _ | first <;> rcases second with _ | second
  · cases part
    exact absurd rfl symbolic
  · cases part
    exact ⟨second, rfl, rfl⟩
  · cases part
    exact ⟨first, rfl, rfl⟩
  · rw [exprPart] at part
    split at part
    · cases part
    · cases part
      exact absurd rfl symbolic

theorem addParts_typed (table : Table Name width) (left right : Expression Name) :
    (addParts table left right).Typed table := by
  rw [addParts]
  rcases first : exprPart table left.addSymbol right.addSymbol with ⟨seg1, add⟩
  rcases second : exprPart table left.subtractSymbol right.subtractSymbol with ⟨seg2, subtract⟩
  dsimp only
  split
  · rename_i one two
    intro symbolic
    dsimp only at symbolic ⊢
    split at symbolic
    · rename_i absolute
      rw [if_pos absolute]
      split at symbolic
      · rename_i known
        rw [if_pos known]
        apply exprPart_typed first
        rcases symbolic with symbolic | symbolic <;> rw [symbolic] <;> nofun
      · rename_i known
        rw [not_not.mp known] at symbolic
        rcases symbolic with symbolic | symbolic <;> cases symbolic
    · rcases symbolic with symbolic | symbolic <;> cases symbolic
  · rintro (symbolic | symbolic) <;> cases symbolic

theorem typed_of_not_symbolic (known : exp.seg = .absolute ∨ exp.seg = .difference) : exp.Typed table := by
  rintro (symbolic | symbolic) <;> rcases known with known | known <;> rw [symbolic] at known <;> cases known

theorem operandSymbol_typed (table : Table Name width) (name : Name) : (operandSymbol table name).Typed table := by
  rw [operandSymbol]
  split
  · exact typed_of_not_symbolic (.inl rfl)
  · exact fun _ => ⟨name, rfl, rfl⟩
  · exact typed_of_not_symbolic (.inr rfl)

theorem minusOperand_typed (typed : exp.Typed table) :
    (minusOperand exp).1.Typed table := by
  rw [minusOperand]
  split
  · rename_i absolute
    exact typed_of_not_symbolic (.inl absolute)
  · exact typed_of_not_symbolic (.inr rfl)
  · exact typed_of_not_symbolic (.inr rfl)
  · exact typed

theorem unaryOperand_typed {apply_ : BitVec 64 → BitVec 64}
    (typed : exp.Typed table) : (unaryOperand apply_ exp).1.Typed table := by
  rw [unaryOperand]
  split
  · rename_i absolute
    exact typed_of_not_symbolic (.inl absolute)
  · exact typed

theorem binaryOperands_typed {halves : Bool} (typed : left.Typed table) :
    (binaryOperands apply_ halves left right).1.Typed table := by
  rw [binaryOperands]
  split
  · exact typed_of_not_symbolic (.inl rfl)
  split
  · exact typed
  split
  · exact typed_of_not_symbolic (.inl rfl)
  · exact typed_of_not_symbolic (.inl rfl)

variable {before after : Table Name width}

theorem Expression.Typed.congr (typed : exp.Typed before)
    (same : after.symbol = before.symbol) : exp.Typed after := by
  intro symbolic
  obtain ⟨name, is, seg⟩ := typed symbolic
  exact ⟨name, is, by rwa [Table.seg, same]⟩

theorem evaluate_typed (expr : Expr Name) (table : Table Name width) : (expr.evaluate table).2.1.Typed table := by
  induction expr generalizing table with
  | number constant => exact typed_of_not_symbolic (.inl rfl)
  | symbol name =>
    exact (cleanUp_typed (operandSymbol_typed _ name)).congr (findOrMake_symbol table name).symm
  | add left right ihLeft ihRight =>
    have same := (evaluate_symbol right _).trans (evaluate_symbol left table)
    exact (cleanUp_typed (addParts_typed _ _ _)).congr same.symm
  | subtract left right ihLeft ihRight =>
    have same := (evaluate_symbol right _).trans (evaluate_symbol left table)
    exact (cleanUp_typed (addParts_typed _ _ _)).congr same.symm
  | minus operand ih => exact cleanUp_typed (minusOperand_typed (ih table))
  | unary apply_ operand ih => exact cleanUp_typed (unaryOperand_typed (ih table))
  | binary apply_ halves left right ihLeft ihRight => exact binaryOperands_typed (ihLeft table)

theorem open_congr (same : after.symbol = before.symbol) : after.Open = before.Open := by
  funext name
  unfold Table.Open
  rw [same]

theorem ConstantsAre.congr
    (constants : ConstantsAre before value) (same : after.symbol = before.symbol) : ConstantsAre after value := by
  unfold ConstantsAre
  rw [same]
  exact constants

/-- **An expression from which nothing is dropped is worth what it denotes.** -/
theorem evaluate_evaluated (expr : Expr Name)
    (constants : ConstantsAre table value) (kept : (expr.evaluate table).2.2 = true) :
    Evaluated table.Open (fun name => (value name).signExtend 64) (expr.evaluate table).2.1 (expr.denote value) := by
  induction expr generalizing table with
  | number constant => exact ⟨⟨rfl, rfl⟩, by simp [Expr.evaluate, Expression.worth, Expr.denote], nofun, nofun⟩
  | symbol name =>
    have is := operandSymbol_evaluated (constants.congr (findOrMake_symbol table name)) name
    rwa [open_congr (findOrMake_symbol table name)] at is
  | add left right ihLeft ihRight =>
    simp only [Expr.evaluate, Bool.and_eq_true] at kept
    have same := evaluate_symbol left table
    have second := ihRight (constants.congr same) kept.1.2
    rw [open_congr same] at second
    exact addExpressions_evaluated (ihLeft constants kept.1.1) second kept.2
  | subtract left right ihLeft ihRight =>
    simp only [Expr.evaluate, Bool.and_eq_true] at kept
    have same := evaluate_symbol left table
    have second := ihRight (constants.congr same) kept.1.2
    rw [open_congr same] at second
    rw [Expr.denote, sub_eq_add_neg]
    exact addExpressions_evaluated (ihLeft constants kept.1.1) (exchange_evaluated second) kept.2
  | minus operand ih =>
    simp only [Expr.evaluate, Bool.and_eq_true] at kept
    exact minusOperand_evaluated (ih constants kept.1) kept.2
  | unary apply_ operand ih =>
    simp only [Expr.evaluate, Bool.and_eq_true] at kept
    exact unaryOperand_evaluated (ih constants kept.1) kept.2
  | binary apply_ halves left right ihLeft ihRight =>
    simp only [Expr.evaluate, Bool.and_eq_true] at kept
    have same := evaluate_symbol left table
    have second := ihRight (constants.congr same) kept.1.2
    rw [open_congr same] at second
    exact binaryOperands_evaluated (ihLeft constants kept.1.1) second kept.2

/-! ## Statements of the right kind -/

/-- A label, or a symbol that may become one. -/
def Table.Plain (table : Table Name width) (name : Name) : Prop :=
  (table.symbol name).forward = none ∧ (table.symbol name).expression = none ∧ (table.symbol name).type ≠ .abs

/-- A saved expression or a forward reference has the symbol. -/
def Table.Refers (table : Table Name width) (name : Name) : Prop :=
  ∃ other, (table.symbol other).forward = some name ∨
    ∃ saved, (table.symbol other).expression = some saved ∧ (saved.addSymbol = name ∨ saved.subtractSymbol = name)

/-- The difference of two symbols is known, or it is saved for a local symbol. -/
def FineDifference (table : Table Name width) (name add subtract : Name) : Prop :=
  add ≠ name ∧ subtract ≠ name ∧ table.Plain add ∧ table.Plain subtract ∧
    if (table.symbol add).frag ≠ (table.symbol subtract).frag || (table.symbol add).isPlainUndefined ||
        (table.symbol subtract).isPlainUndefined then (table.symbol name).ext = false
    else (table.symbol add).type = .sect ∧ (table.symbol subtract).type = .sect ∧ (table.symbol name).expression = none

/-- What an expression may be for an assignment. -/
def FineExpression (table : Table Name width) (name : Name) (exp : Expression Name) : Prop :=
  match segment table exp with
  | .absolute => exp.seg = .absolute
  | .sect => (table.symbol name).expression = none
  | .unknown =>
    exp.addNumber.setWidth width = 0 ∧ (table.symbol name).type = .undf ∧ (table.symbol name).expression = none ∧
      ∀ other, exp.addSymbol = some other → other ≠ name ∧ table.Plain other
  | .difference =>
    match exp.addSymbol, exp.subtractSymbol with
    | some add, some subtract => FineDifference table name add subtract
    | some add, none =>
      (table.symbol name).ext = false ∧ exp.addNumber.setWidth width = 0 ∧
        ∀ saved, (table.symbol add).expression = some saved → saved.addNumber.setWidth width = 0
    | none, _ => True

/-- A statement after which every symbol has one value. -/
def Statement.Fine (table : Table Name width) : Statement Name → Prop
  | .label name _ _ _ => (table.symbol name).forward = none
  | .globl name => (table.symbol name).expression = none
  | .set name expr =>
    ¬ table.Refers name ∧ (table.symbol name).forward = none ∧
      (expr.evaluate (table.findOrMake name)).2.2 = true ∧
        FineExpression (expr.evaluate (table.findOrMake name)).1 name (expr.evaluate (table.findOrMake name)).2.1

/-- A run whose statements all are of the right kind. -/
inductive FineRun : Table Name width → List (Statement Name) → Table Name width → Prop
  | done {table : Table Name width} : FineRun table [] table
  | step {table next last : Table Name width} {statement : Statement Name} {rest : List (Statement Name)} :
      statement.Fine table → statement.run table = some next → FineRun next rest last →
      FineRun table (statement :: rest) last

/-! ## What every symbol is -/

section Invariant

variable (address : Nat → BitVec width) (place : Name → BitVec width)

/-- The symbol has the value that is meant, or will have it. -/
inductive Holds (table : Table Name width) (assigned : Name → Option (BitVec width)) (name : Name) : Prop
  | undefined : assigned name = none → (table.symbol name).type = .undf → (table.symbol name).forward = none →
      (table.symbol name).expression = none → (table.symbol name).value = 0 → (table.symbol name).frag = none →
      Holds table assigned name
  | sect : (table.symbol name).type = .sect → (table.symbol name).forward = none →
      (table.symbol name).expression = none →
      meaning place assigned name = fragAddress address (table.symbol name).frag + (table.symbol name).value →
      Holds table assigned name
  | constant : (table.symbol name).type = .abs → (table.symbol name).forward = none →
      (table.symbol name).expression = none → (table.symbol name).frag = none →
      assigned name = some (table.symbol name).value → Holds table assigned name
  | difference (saved : Saved Name) : (table.symbol name).type = .abs → (table.symbol name).forward = none →
      (table.symbol name).expression = some saved → (table.symbol name).frag = none →
      (table.symbol name).ext = false → (table.symbol name).value = saved.addNumber.setWidth width →
      table.Plain saved.addSymbol → table.Plain saved.subtractSymbol →
      assigned name = some (meaning place assigned saved.addSymbol - meaning place assigned saved.subtractSymbol
        + saved.addNumber.setWidth width) → Holds table assigned name
  | forward (other : Name) : (table.symbol name).type = .undf → (table.symbol name).forward = some other →
      (table.symbol name).expression = none → (table.symbol name).value = 0 → (table.symbol name).frag = none →
      table.Plain other → assigned name = some (meaning place assigned other) → Holds table assigned name

variable {address place} {assigned : Name → Option (BitVec width)} {name : Name}

theorem meaning_of_assigned {value : BitVec width}
    (is : assigned name = some value) : meaning place assigned name = value := by
  rw [meaning, is, Option.getD_some]

variable {before after : Table Name width} {assigned assignedAfter : Name → Option (BitVec width)}

theorem Holds.congr
    (holds : Holds address place before assigned name) (symbol : after.symbol name = before.symbol name)
    (same : assignedAfter name = assigned name)
    (others : ∀ other, before.Plain other → ((before.symbol name).forward = some other ∨
      ∃ saved, (before.symbol name).expression = some saved ∧
        (saved.addSymbol = other ∨ saved.subtractSymbol = other)) →
      after.Plain other ∧ meaning place assignedAfter other = meaning place assigned other) :
    Holds address place after assignedAfter name := by
  have meant : meaning place assignedAfter name = meaning place assigned name := by rw [meaning, meaning, same]
  cases holds with
  | undefined unassigned type forward expression value frag =>
    exact .undefined (same.trans unassigned) (symbol ▸ type) (symbol ▸ forward) (symbol ▸ expression)
      (symbol ▸ value) (symbol ▸ frag)
  | sect type forward expression is =>
    exact .sect (symbol ▸ type) (symbol ▸ forward) (symbol ▸ expression) (by rw [meant, symbol, is])
  | constant type forward expression frag is =>
    exact .constant (symbol ▸ type) (symbol ▸ forward) (symbol ▸ expression) (symbol ▸ frag)
      (by rw [same, symbol, is])
  | difference saved type forward expression frag ext value add subtract is =>
    obtain ⟨plainAdd, sameAdd⟩ := others _ add (.inr ⟨saved, expression, .inl rfl⟩)
    obtain ⟨plainSubtract, sameSubtract⟩ := others _ subtract (.inr ⟨saved, expression, .inr rfl⟩)
    exact .difference saved (symbol ▸ type) (symbol ▸ forward) (symbol ▸ expression) (symbol ▸ frag)
      (symbol ▸ ext) (symbol ▸ value) plainAdd plainSubtract (by rw [same, is, sameAdd, sameSubtract])
  | forward other type forward expression value frag plain is =>
    obtain ⟨plainAfter, sameOther⟩ := others _ plain (.inl forward)
    exact .forward other (symbol ▸ type) (symbol ▸ forward) (symbol ▸ expression) (symbol ▸ value) (symbol ▸ frag)
      plainAfter (by rw [same, is, sameOther])

variable (address place) in
/-- Every symbol holds, and what is still to be labelled is undefined. -/
structure Invariant (table : Table Name width) (assigned : Name → Option (BitVec width))
    (rest : List (Statement Name)) : Prop where
  holds : ∀ name, Holds address place table assigned name
  member : ∀ name, (table.symbol name).forward ≠ none ∨ (table.symbol name).expression ≠ none → name ∈ table.chain
  nodup : table.chain.Nodup
  pending : ∀ name, (table.symbol name).type = .undf → place name = labelPlace address rest name

variable {table : Table Name width}

theorem findOrMake_nodup (nodup : table.chain.Nodup) (name : Name) :
    (table.findOrMake name).chain.Nodup := by
  unfold Table.findOrMake
  split
  · exact nodup
  · rename_i new
    apply List.nodup_append.mpr ⟨nodup, List.nodup_singleton name, ?_⟩
    rintro other member _ isName rfl
    exact new (List.mem_singleton.mp isName ▸ member)

theorem evaluate_nodup (expr : Expr Name) (nodup : table.chain.Nodup) :
    (expr.evaluate table).1.chain.Nodup := by
  induction expr generalizing table with
  | number constant => exact nodup
  | symbol name => exact findOrMake_nodup nodup name
  | add left right ihLeft ihRight => exact ihRight (ihLeft nodup)
  | subtract left right ihLeft ihRight => exact ihRight (ihLeft nodup)
  | minus operand ih => exact ih nodup
  | unary apply_ operand ih => exact ih nodup
  | binary apply_ halves left right ihLeft ihRight => exact ihRight (ihLeft nodup)

theorem Plain.congr (plain : before.Plain name)
    (same : after.symbol name = before.symbol name) : after.Plain name := by
  unfold Table.Plain
  rw [same]
  exact plain

variable {rest : List (Statement Name)}

theorem Invariant.grow (invariant : Invariant address place before assigned rest)
    (same : after.symbol = before.symbol) (more : ∀ name ∈ before.chain, name ∈ after.chain)
    (nodup : after.chain.Nodup) : Invariant address place after assigned rest := by
  refine ⟨fun name => ?_, fun name symbolic => more name (invariant.member name (same ▸ symbolic)), nodup,
    same ▸ invariant.pending⟩
  exact (invariant.holds name).congr (congrFun same name) rfl
    fun other plain _ => ⟨Plain.congr plain (congrFun same other), rfl⟩

theorem set_same (table : Table Name width) (name : Name) (symbol : Symbol Name width) :
    (table.set name symbol).symbol name = symbol := by
  simp [Table.set]

theorem set_other {name other : Name} (different : other ≠ name)
    (symbol : Symbol Name width) : (table.set name symbol).symbol other = table.symbol other := by
  simp [Table.set, different]

/-- A symbol that nothing refers to, or that stays plain, is set. -/
theorem Invariant.set
    {rest after : List (Statement Name)} (invariant : Invariant address place table assigned rest)
    {symbol : Symbol Name width} (member : name ∈ table.chain)
    (sameAssigned : ∀ other, other ≠ name → assignedAfter other = assigned other)
    (unreferred : ¬ table.Refers name ∨
      (table.set name symbol).Plain name ∧ assignedAfter name = assigned name)
    (holds : Holds address place (table.set name symbol) assignedAfter name)
    (pending : ∀ other, ((table.set name symbol).symbol other).type = .undf → (table.symbol other).type = .undf)
    (later : ∀ other, ((table.set name symbol).symbol other).type = .undf →
      labelPlace address after other = labelPlace address rest other) :
    Invariant address place (table.set name symbol) assignedAfter after := by
  refine ⟨fun one => ?_, fun one symbolic => ?_, invariant.nodup,
    fun one type => (invariant.pending one (pending one type)).trans (later one type).symm⟩
  · by_cases is : one = name
    · rwa [is]
    apply (invariant.holds one).congr (set_other is symbol) (sameAssigned one is)
    intro other plain refers
    by_cases isName : other = name
    · subst isName
      rcases unreferred with unreferred | ⟨plainAfter, same⟩
      · exact absurd ⟨one, refers⟩ unreferred
      · exact ⟨plainAfter, by rw [meaning, meaning, same]⟩
    · exact ⟨Plain.congr plain (set_other isName symbol), by rw [meaning, meaning, sameAssigned other isName]⟩
  · by_cases is : one = name
    · rwa [is]
    · rw [set_other is] at symbolic
      exact invariant.member one symbolic

theorem Invariant.constants (invariant : Invariant address place table assigned rest) :
    ConstantsAre table (meaning place assigned) := by
  intro name type expression
  cases invariant.holds name with
  | undefined _ undf _ _ _ _ => rw [undf] at type; cases type
  | sect sect _ _ _ => rw [sect] at type; cases type
  | constant _ _ _ _ is => rw [meaning, is]; rfl
  | difference saved _ _ saves _ _ _ _ _ _ => rw [saves] at expression; cases expression
  | forward other undf _ _ _ _ _ _ => rw [undf] at type; cases type

theorem Invariant.defined (invariant : Invariant address place table assigned rest)
    (sect : (table.symbol name).type = .sect) :
    meaning place assigned name = fragAddress address (table.symbol name).frag + (table.symbol name).value := by
  cases invariant.holds name with
  | sect _ _ _ is => exact is
  | undefined _ undf _ _ _ _ => rw [undf] at sect; cases sect
  | constant abs _ _ _ _ => rw [abs] at sect; cases sect
  | difference saved abs _ _ _ _ _ _ _ _ => rw [abs] at sect; cases sect
  | forward other undf _ _ _ _ _ _ => rw [undf] at sect; cases sect

theorem Invariant.undefined (invariant : Invariant address place table assigned rest)
    (undf : (table.symbol name).type = .undf) (forward : (table.symbol name).forward = none) :
    assigned name = none ∧ (table.symbol name).expression = none ∧ (table.symbol name).value = 0 ∧
      (table.symbol name).frag = none := by
  cases invariant.holds name with
  | undefined unassigned _ _ expression value frag => exact ⟨unassigned, expression, value, frag⟩
  | sect sect _ _ _ => rw [undf] at sect; cases sect
  | constant abs _ _ _ _ => rw [undf] at abs; cases abs
  | difference saved abs _ _ _ _ _ _ _ _ => rw [undf] at abs; cases abs
  | forward other _ has _ _ _ _ _ => rw [forward] at has; cases has

/-! ## One statement -/

variable {table next : Table Name width}

theorem label_step {frag sect offset : Nat}
    (invariant : Invariant address place table assigned (.label name frag sect offset :: rest))
    (fine : (table.symbol name).forward = none) (labelled : colon table name frag sect offset = some next) :
    Invariant address place next assigned rest := by
  rw [colon] at labelled
  split at labelled
  · rename_i undefined
    cases labelled
    simp only [Bool.and_eq_true, decide_eq_true_eq] at undefined
    obtain ⟨⟨undf, -⟩, -⟩ := undefined
    obtain ⟨unassigned, expression, value, -⟩ := invariant.undefined undf fine
    have isPlace : place name = address frag + BitVec.ofNat width offset := by
      rw [invariant.pending name undf]
      simp [labelPlace]
    have grown := invariant.grow (findOrMake_symbol table name) (findOrMake_chain table name)
      (findOrMake_nodup invariant.nodup name)
    apply grown.set (mem_findOrMake table name) fun _ _ => rfl
    · exact .inr ⟨by rw [Table.Plain, set_same]; exact ⟨fine, expression, nofun⟩, rfl⟩
    · apply Holds.sect <;> rw [set_same]
      · exact fine
      · exact expression
      · rw [meaning, unassigned]
        exact isPlace
    · intro other type
      by_cases is : other = name
      · rw [is, set_same] at type
        cases type
      · rwa [set_other is] at type
    · intro other type
      have is : other ≠ name := by
        rintro rfl
        rw [set_same] at type
        cases type
      simp [labelPlace, is.symm]
  · cases labelled

theorem globl_step (invariant : Invariant address place table assigned (.globl name :: rest))
    (fine : (table.symbol name).expression = none) :
    Invariant address place
      ((table.findOrMake name).set name { (table.findOrMake name).symbol name with ext := true }) assigned rest := by
  have grown := invariant.grow (findOrMake_symbol table name) (findOrMake_chain table name)
    (findOrMake_nodup invariant.nodup name)
  rw [← findOrMake_symbol table name] at fine
  generalize table.findOrMake name = table at grown fine ⊢
  have plainAfter (other : Name) (plain : table.Plain other) :
      (table.set name { table.symbol name with ext := true }).Plain other := by
    by_cases is : other = name
    · subst is
      rw [Table.Plain, set_same]
      exact plain
    · exact Plain.congr plain (set_other is _)
  refine ⟨fun one => ?_, fun one symbolic => grown.member one ?_, grown.nodup, fun one type => ?_⟩
  · by_cases is : one = name
    · subst is
      cases grown.holds one with
      | undefined unassigned type forward _ value frag =>
        apply Holds.undefined unassigned <;> rw [set_same] <;> assumption
      | sect type forward _ is =>
        apply Holds.sect <;> rw [set_same] <;> assumption
      | constant type forward _ frag is =>
        apply Holds.constant <;> rw [set_same] <;> assumption
      | difference saved _ _ expression _ _ _ _ _ _ =>
        rw [expression] at fine
        cases fine
      | forward other type forward _ value frag plain is =>
        apply Holds.forward other _ _ _ _ _ (plainAfter other plain) is <;> rw [set_same] <;> assumption
    · exact (grown.holds one).congr (set_other is _) rfl fun other plain _ => ⟨plainAfter other plain, rfl⟩
  · by_cases is : one = name
    · subst is
      rwa [set_same] at symbolic
    · rwa [set_other is] at symbolic
  · apply grown.pending one
    by_cases is : one = name
    · subst is
      rwa [set_same] at type
    · rwa [set_other is] at type

section Numbers

variable (fits : width ≤ 64)

include fits

theorem setWidth_sub (first second : BitVec 64) :
    (first - second).setWidth width = first.setWidth width - second.setWidth width := by
  rw [BitVec.sub_eq_add_neg, BitVec.setWidth_add _ _ fits, BitVec.setWidth_neg_of_le fits, ← BitVec.sub_eq_add_neg]

theorem setWidth_back (value : BitVec width) : (value.setWidth 64).setWidth width = value := by
  rw [BitVec.setWidth_setWidth_of_le _ fits, BitVec.setWidth_eq]

theorem worth_setWidth (value : Name → BitVec width) (exp : Expression Name) :
    (exp.worth fun name => (value name).signExtend 64).setWidth width =
      (exp.addSymbol.map value).getD 0 - (exp.subtractSymbol.map value).getD 0 + exp.addNumber.setWidth width := by
  obtain ⟨seg, add, subtract, number⟩ := exp
  rw [Expression.worth, BitVec.setWidth_add _ _ fits, setWidth_sub fits]
  cases add <;> cases subtract <;> simp [Theory.BitField.setWidth_signExtend fits]

end Numbers

theorem seg_of_segment {exp : Expression Name} {seg : Seg} (is : segment table exp = seg)
    (symbolic : seg ≠ .absolute) : exp.seg = seg := by
  rw [segment] at is
  split at is
  · exact absurd is.symm symbolic
  · exact is

theorem seg_eq :
    (table.seg name = .sect → (table.symbol name).type = .sect) ∧
      (table.seg name = .unknown → (table.symbol name).type = .undf) := by
  rw [Table.seg]
  cases (table.symbol name).type with
  | undf => exact ⟨nofun, fun _ => rfl⟩
  | abs => exact ⟨nofun, nofun⟩
  | sect => exact ⟨fun _ => rfl, nofun⟩

section Assignment

variable {table : Table Name width} {assigned : Name → Option (BitVec width)} {rest : List (Statement Name)} {name : Name}

theorem meaning_other {other : Name} (different : other ≠ name) (value : Option (BitVec width)) :
    meaning place (Function.update assigned name value) other = meaning place assigned other := by
  rw [meaning, meaning, Function.update_of_ne different]

theorem meaning_self (value : BitVec width) : meaning place (Function.update assigned name (some value)) name = value := by
  rw [meaning, Function.update_self, Option.getD_some]

/-- The difference of two symbols of one fragment is known. -/
theorem difference_known (fits : width ≤ 64) (invariant : Invariant address place table assigned rest)
    {add subtract : Name} (sectAdd : (table.symbol add).type = .sect)
    (sectSubtract : (table.symbol subtract).type = .sect)
    (same : (table.symbol add).frag = (table.symbol subtract).frag) (number : BitVec 64) :
    (number + ((table.symbol add).value - (table.symbol subtract).value).setWidth 64).setWidth width =
      meaning place assigned add - meaning place assigned subtract + number.setWidth width := by
  rw [BitVec.setWidth_add _ _ fits, setWidth_back fits, invariant.defined sectAdd, invariant.defined sectSubtract, same]
  abel

variable {symbol : Symbol Name width} {value : BitVec width}

theorem saved_holds (saved : Saved Name) (type : symbol.type = .abs)
    (forward : symbol.forward = none) (expression : symbol.expression = some saved) (frag : symbol.frag = none)
    (ext : symbol.ext = false) (number : symbol.value = saved.addNumber.setWidth width)
    (isAdd : saved.addSymbol ≠ name) (isSubtract : saved.subtractSymbol ≠ name) (plainAdd : table.Plain saved.addSymbol)
    (plainSubtract : table.Plain saved.subtractSymbol)
    (is : value = meaning place assigned saved.addSymbol - meaning place assigned saved.subtractSymbol +
      saved.addNumber.setWidth width) :
    Holds address place (table.set name symbol) (Function.update assigned name (some value)) name := by
  apply Holds.difference saved <;> try rw [set_same]
  · exact type
  · exact forward
  · exact expression
  · exact frag
  · exact ext
  · exact number
  · exact Plain.congr plainAdd (set_other isAdd symbol)
  · exact Plain.congr plainSubtract (set_other isSubtract symbol)
  · rw [Function.update_self, meaning_other isAdd, meaning_other isSubtract, is]

theorem constant_holds (type : symbol.type = .abs)
    (forward : symbol.forward = none) (expression : symbol.expression = none) (frag : symbol.frag = none)
    (is : symbol.value = value) :
    Holds address place (table.set name symbol) (Function.update assigned name (some value)) name := by
  apply Holds.constant <;> rw [set_same]
  · exact type
  · exact forward
  · exact expression
  · exact frag
  · rw [Function.update_self, is]

theorem sect_holds (type : symbol.type = .sect)
    (forward : symbol.forward = none) (expression : symbol.expression = none)
    (is : value = fragAddress address symbol.frag + symbol.value) :
    Holds address place (table.set name symbol) (Function.update assigned name (some value)) name := by
  apply Holds.sect <;> rw [set_same]
  · exact type
  · exact forward
  · exact expression
  · rw [meaning_self, is]

theorem forward_holds {other : Name} (type : symbol.type = .undf)
    (forward : symbol.forward = some other) (expression : symbol.expression = none) (zero : symbol.value = 0)
    (frag : symbol.frag = none) (isOther : other ≠ name) (plain : table.Plain other)
    (is : value = meaning place assigned other) :
    Holds address place (table.set name symbol) (Function.update assigned name (some value)) name := by
  apply Holds.forward other <;> try rw [set_same]
  · exact type
  · exact forward
  · exact expression
  · exact zero
  · exact frag
  · exact Plain.congr plain (set_other isOther symbol)
  · rw [Function.update_self, meaning_other isOther, is]

variable {next : Table Name width} {exp : Expression Name} {worth : BitVec 64}

theorem difference_step {add subtract : Name}
    (fits : width ≤ 64) (invariant : Invariant address place table assigned rest)
    (forward : (table.symbol name).forward = none) (isAdd : exp.addSymbol = some add)
    (isSubtract : exp.subtractSymbol = some subtract) (fine : FineDifference table name add subtract)
    (segmentIs : segment table exp = .difference)
    (is : worth.setWidth width =
      meaning place assigned add - meaning place assigned subtract + exp.addNumber.setWidth width)
    (set : pseudoSet table name exp = some next) :
    ∃ symbol, next = table.set name symbol ∧ symbol.type = .abs ∧
      Holds address place (table.set name symbol) (Function.update assigned name (some (worth.setWidth width))) name := by
  rw [pseudoSet, segmentIs, isAdd, isSubtract] at set
  obtain ⟨otherAdd, otherSubtract, plainAdd, plainSubtract, kind⟩ := fine
  dsimp only at set
  split at set
  · rename_i saves
    rw [if_pos saves] at kind
    cases set
    exact ⟨_, rfl, rfl, saved_holds ⟨add, subtract, exp.addNumber⟩ rfl forward rfl rfl kind rfl otherAdd otherSubtract
      plainAdd plainSubtract is⟩
  · rename_i known
    rw [if_neg known] at kind
    obtain ⟨sectAdd, sectSubtract, expression⟩ := kind
    have same : (table.symbol add).frag = (table.symbol subtract).frag := by
      by_contra different
      apply known
      rw [decide_eq_true different]
      rfl
    cases set
    refine ⟨_, rfl, rfl, constant_holds rfl forward expression rfl ?_⟩
    rw [is]
    exact difference_known fits invariant sectAdd sectSubtract same exp.addNumber

theorem copy_step {add : Name}
    (invariant : Invariant address place table assigned rest) (unreferred : ¬ table.Refers name)
    (forward : (table.symbol name).forward = none) (isAdd : exp.addSymbol = some add)
    (isSubtract : exp.subtractSymbol = none) (ext : (table.symbol name).ext = false)
    (zero : exp.addNumber.setWidth width = 0)
    (savedZero : ∀ saved, (table.symbol add).expression = some saved → saved.addNumber.setWidth width = 0)
    (segmentIs : segment table exp = .difference) (is : worth.setWidth width = meaning place assigned add)
    (set : pseudoSet table name exp = some next) :
    ∃ symbol, next = table.set name symbol ∧ symbol.type = .abs ∧
      Holds address place (table.set name symbol) (Function.update assigned name (some (worth.setWidth width))) name := by
  rw [pseudoSet, segmentIs, isAdd, isSubtract] at set
  dsimp only at set
  cases holds : invariant.holds add with
  | difference saved type _ expression _ _ _ plainAdd plainSubtract value =>
    rw [expression] at set
    cases set
    have otherAdd : saved.addSymbol ≠ name := fun same => unreferred ⟨add, .inr ⟨saved, expression, .inl same⟩⟩
    have otherSubtract : saved.subtractSymbol ≠ name := fun same =>
      unreferred ⟨add, .inr ⟨saved, expression, .inr same⟩⟩
    refine ⟨_, rfl, rfl, saved_holds saved rfl forward rfl rfl ext ?_ otherAdd otherSubtract plainAdd plainSubtract ?_⟩
    · rw [savedZero saved expression]
      exact zero
    · rw [is, meaning_of_assigned value]
  | undefined _ _ _ expression _ _ => rw [expression] at set; cases set
  | sect _ _ expression _ => rw [expression] at set; cases set
  | constant _ _ expression _ _ => rw [expression] at set; cases set
  | forward other _ _ expression _ _ _ _ => rw [expression] at set; cases set

/-- **After an assignment of the right kind the symbol holds its value.** -/
theorem pseudoSet_holds (fits : width ≤ 64)
    (invariant : Invariant address place table assigned rest) (unreferred : ¬ table.Refers name)
    (forward : (table.symbol name).forward = none) (fine : FineExpression table name exp) (typed : exp.Typed table)
    (evaluated : Evaluated table.Open (fun name => (meaning place assigned name).signExtend 64) exp worth)
    (set : pseudoSet table name exp = some next) :
    ∃ symbol, next = table.set name symbol ∧ (symbol.type = .undf → (table.symbol name).type = .undf) ∧
      Holds address place (table.set name symbol) (Function.update assigned name (some (worth.setWidth width))) name := by
  have is : worth.setWidth width = ((exp.addSymbol.map (meaning place assigned)).getD 0 -
      (exp.subtractSymbol.map (meaning place assigned)).getD 0 + exp.addNumber.setWidth width) := by
    rw [← evaluated.worth, worth_setWidth fits]
  have clean := evaluated.clean
  rw [FineExpression] at fine
  cases segmentIs : segment table exp with
  | absolute =>
    rw [segmentIs] at fine
    rw [Expression.Clean, fine] at clean
    rw [pseudoSet, segmentIs] at set
    cases set
    refine ⟨_, rfl, nofun, constant_holds rfl forward rfl rfl ?_⟩
    rw [is, clean.1, clean.2]
    simp
  | sect =>
    have seg := seg_of_segment segmentIs nofun
    obtain ⟨add, isAdd, sect⟩ := typed (.inl seg)
    rw [seg] at sect
    rw [Expression.Clean, seg] at clean
    rw [segmentIs] at fine
    rw [pseudoSet, segmentIs, isAdd] at set
    cases set
    refine ⟨_, rfl, nofun, sect_holds rfl forward fine ?_⟩
    rw [is, isAdd, clean]
    simp only [Option.map_some, Option.map_none, Option.getD_some, Option.getD_none]
    rw [invariant.defined (seg_eq.1 sect)]
    simp only [BitVec.ofNat_eq_ofNat, BitVec.sub_zero]
    abel
  | unknown =>
    have seg := seg_of_segment segmentIs nofun
    obtain ⟨other, isOther, unknown⟩ := typed (.inr seg)
    rw [segmentIs] at fine
    rw [Expression.Clean, seg] at clean
    obtain ⟨zero, undf, expression, others⟩ := fine
    obtain ⟨different, plain⟩ := others other isOther
    obtain ⟨-, -, value, frag⟩ := invariant.undefined undf forward
    rw [pseudoSet, segmentIs] at set
    cases set
    refine ⟨_, rfl, fun _ => undf, forward_holds undf isOther expression value frag different plain ?_⟩
    rw [is, isOther, clean, zero]
    simp
  | difference =>
    suffices absolute : ∃ symbol, next = table.set name symbol ∧ symbol.type = .abs ∧ Holds address place
        (table.set name symbol) (Function.update assigned name (some (worth.setWidth width))) name by
      obtain ⟨symbol, same, abs, holds⟩ := absolute
      exact ⟨symbol, same, fun undf => SymbolType.noConfusion (abs.symm.trans undf), holds⟩
    rw [segmentIs] at fine
    rcases isAdd : exp.addSymbol with _ | add
    · rw [pseudoSet, segmentIs, isAdd] at set
      cases set
    · rcases isSubtract : exp.subtractSymbol with _ | subtract <;> rw [isAdd, isSubtract] at fine is
      · apply copy_step invariant unreferred forward isAdd isSubtract fine.1 fine.2.1 fine.2.2 segmentIs _ set
        rw [is, fine.2.1]
        simp
      · exact difference_step fits invariant forward isAdd isSubtract fine segmentIs is set

end Assignment

theorem set_step {expr : Expr Name} (fits : width ≤ 64)
    (invariant : Invariant address place table assigned (.set name expr :: rest))
    (fine : (Statement.set name expr).Fine table) (ran : (Statement.set name expr).run table = some next) :
    Invariant address place next ((Statement.set name expr).assign place assigned) rest := by
  obtain ⟨unreferred, forward, kept, fine⟩ := fine
  have same : (expr.evaluate (table.findOrMake name)).1.symbol = table.symbol :=
    (evaluate_symbol expr _).trans (findOrMake_symbol table name)
  have member := evaluate_chain expr _ name (mem_findOrMake table name)
  have grown := invariant.grow same
    (fun other member => evaluate_chain expr _ other (findOrMake_chain table name other member))
    (evaluate_nodup expr (findOrMake_nodup invariant.nodup name))
  have typed : (expr.evaluate (table.findOrMake name)).2.1.Typed (expr.evaluate (table.findOrMake name)).1 :=
    (evaluate_typed expr _).congr (evaluate_symbol expr _)
  have evaluated := evaluate_evaluated expr (invariant.constants.congr (findOrMake_symbol table name)) kept
  rw [open_congr (evaluate_symbol expr _).symm] at evaluated
  have unreferredAfter : ¬ (expr.evaluate (table.findOrMake name)).1.Refers name := by
    rwa [Table.Refers, same]
  obtain ⟨symbol, rfl, undf, holds⟩ := pseudoSet_holds fits grown unreferredAfter (same ▸ forward) fine typed evaluated ran
  apply grown.set member (fun other different => Function.update_of_ne different _ _) (.inl unreferredAfter) holds
  · intro other type
    by_cases is : other = name
    · subst is
      rw [set_same] at type
      exact undf type
    · rwa [set_other is] at type
  · intro other _
    rfl

theorem statement_step {statement : Statement Name} (fits : width ≤ 64)
    (invariant : Invariant address place table assigned (statement :: rest)) (fine : statement.Fine table)
    (ran : statement.run table = some next) : Invariant address place next (statement.assign place assigned) rest := by
  cases statement with
  | label name frag sect offset => exact label_step invariant fine ran
  | set name expr => exact set_step fits invariant fine ran
  | globl name =>
    cases ran
    exact globl_step invariant fine

theorem run_invariant {table last : Table Name width}
    {program : List (Statement Name)} (fits : width ≤ 64) (run : FineRun table program last)
    (invariant : Invariant address place table assigned program) :
    Invariant address place last (program.foldl (Statement.assign place) assigned) [] := by
  induction run generalizing assigned with
  | done => exact invariant
  | step fine ran _ ih => exact ih (statement_step fits invariant fine ran)

theorem empty_invariant (program : List (Statement Name)) :
    Invariant address (labelPlace address program) Table.empty (fun _ => none) program := by
  refine ⟨fun name => .undefined rfl rfl rfl rfl rfl rfl, fun name symbolic => ?_, List.nodup_nil, fun _ _ => rfl⟩
  rcases symbolic with symbolic | symbolic <;> exact absurd rfl symbolic

/-! ## The layout -/

variable (address) in
theorem resolveForward_other (none_ : (table.symbol name).forward = none)
    (other : Name) : (resolveForward address table other).symbol name = table.symbol name := by
  rw [resolveForward]
  split
  · rfl
  · rename_i is
    apply set_other
    rintro rfl
    rw [none_] at is
    cases is

variable (address) in
theorem resolveAll_other (none_ : (table.symbol name).forward = none)
    (names : List Name) : (names.foldl (resolveForward address) table).symbol name = table.symbol name := by
  induction names generalizing table with
  | nil => rfl
  | cons other names ih =>
    have same := resolveForward_other address none_ other
    rw [List.foldl_cons, ih (by rw [same, none_]), same]

variable {names : List Name}

variable (address) in
theorem resolveAll_forward {name other : Name} (is : (table.symbol name).forward = some other)
    (none_ : (table.symbol other).forward = none) (member : name ∈ names) :
    (names.foldl (resolveForward address) table).symbol name =
      { table.symbol name with
        value := (table.symbol name).value +
          ((table.symbol other).value + fragAddress address (table.symbol other).frag)
        forward := none } := by
  induction names generalizing table with
  | nil => cases member
  | cons first names ih =>
    rw [List.foldl_cons]
    by_cases same : first = name
    · have resolved : resolveForward address table first = table.set name { table.symbol name with
          value := (table.symbol name).value +
            ((table.symbol other).value + fragAddress address (table.symbol other).frag)
          forward := none } := by
        rw [same, resolveForward]
        simp only [is]
      rw [resolved, resolveAll_other address (by rw [set_same]), set_same]
    · have kept : (resolveForward address table first).symbol name = table.symbol name := by
        rw [resolveForward]
        split
        · rfl
        · exact set_other (Ne.symm same) _
      have keptOther := resolveForward_other address none_ first
      rw [ih (by rw [kept, is]) (by rw [keptOther, none_]) ((List.mem_cons.mp member).resolve_left (Ne.symm same)),
        kept, keptOther]

theorem layoutValues_symbol (table : Table Name width) (name : Name) :
    (layoutValues address table).symbol name =
      { (table.chain.foldl (resolveForward address) table).symbol name with
        value := ((table.chain.foldl (resolveForward address) table).symbol name).value +
          fragAddress address ((table.chain.foldl (resolveForward address) table).symbol name).frag } := rfl

theorem layoutValues_plain (invariant : Invariant address place table assigned [])
    (plain : (table.symbol name).expression = none) :
    ((layoutValues address table).symbol name).value = meaning place assigned name := by
  have direct {name : Name} (forward : (table.symbol name).forward = none) :
      ((layoutValues address table).symbol name).value =
        (table.symbol name).value + fragAddress address (table.symbol name).frag := by
    rw [layoutValues_symbol, resolveAll_other address forward]
  have undefined {name : Name} (unassigned : assigned name = none) (type : (table.symbol name).type = .undf)
      (value : (table.symbol name).value = 0) (frag : (table.symbol name).frag = none) :
      (table.symbol name).value + fragAddress address (table.symbol name).frag = meaning place assigned name := by
    rw [value, frag, meaning, unassigned, invariant.pending name type]
    simp [labelPlace, fragAddress]
  cases invariant.holds name with
  | undefined unassigned type forward _ value frag =>
    rw [direct forward]
    exact undefined unassigned type value frag
  | sect _ forward _ is => rw [direct forward, is, add_comm]
  | constant _ forward _ frag is =>
    rw [direct forward, frag, meaning, is]
    simp [fragAddress]
  | difference saved _ _ expression _ _ _ _ _ _ =>
    rw [expression] at plain
    cases plain
  | forward other _ forward _ value frag isPlain is =>
    have none_ := isPlain.1
    rw [layoutValues_symbol, resolveAll_forward address forward none_ (invariant.member name (.inl (by rw [forward]; nofun)))]
    dsimp only
    have otherIs : (table.symbol other).value + fragAddress address (table.symbol other).frag =
        meaning place assigned other := by
      cases invariant.holds other with
      | undefined unassigned type _ _ value frag => exact undefined unassigned type value frag
      | sect _ _ _ is => rw [is, add_comm]
      | constant abs _ _ _ _ => exact absurd abs isPlain.2.2
      | difference _ abs _ _ _ _ _ _ _ _ => exact absurd abs isPlain.2.2
      | forward _ _ has _ _ _ _ _ => rw [none_] at has; cases has
    rw [otherIs, value, frag]
    simp [fragAddress, meaning, is]

variable (address) in
theorem resolveAll_fields (table : Table Name width) (names : List Name) (name : Name) :
    ((names.foldl (resolveForward address) table).symbol name).expression = (table.symbol name).expression ∧
      ((names.foldl (resolveForward address) table).symbol name).ext = (table.symbol name).ext ∧
        (names.foldl (resolveForward address) table).chain = table.chain := by
  induction names generalizing table with
  | nil => exact ⟨rfl, rfl, rfl⟩
  | cons first names ih =>
    have one : ((resolveForward address table first).symbol name).expression = (table.symbol name).expression ∧
        ((resolveForward address table first).symbol name).ext = (table.symbol name).ext ∧
          (resolveForward address table first).chain = table.chain := by
      rw [resolveForward]
      split
      · exact ⟨rfl, rfl, rfl⟩
      · by_cases is : name = first
        · rw [is, set_same]
          exact ⟨rfl, rfl, rfl⟩
        · rw [set_other is]
          exact ⟨rfl, rfl, rfl⟩
    obtain ⟨expression, ext, chain⟩ := ih (resolveForward address table first)
    exact ⟨expression.trans one.1, ext.trans one.2.1, chain.trans one.2.2⟩

variable (address) in
theorem layoutValues_fields (table : Table Name width) (name : Name) :
    ((layoutValues address table).symbol name).expression = (table.symbol name).expression ∧
      ((layoutValues address table).symbol name).ext = (table.symbol name).ext ∧
        (layoutValues address table).chain = table.chain :=
  resolveAll_fields address table table.chain name

theorem layoutValues_difference (forward : (table.symbol name).forward = none)
    (frag : (table.symbol name).frag = none) :
    ((layoutValues address table).symbol name).value = (table.symbol name).value := by
  rw [layoutValues_symbol, resolveAll_other address forward, frag]
  simp [fragAddress]

/-! ## The two readers of the values -/

theorem fixupValue_absolute (fits : width ≤ 64)
    (invariant : Invariant address place table assigned []) (abs : (table.symbol name).type = .abs) :
    (fixupValue (layoutValues address table) name).setWidth width = meaning place assigned name := by
  rw [fixupValue, (layoutValues_fields address table name).1]
  cases invariant.holds name with
  | undefined _ undf _ _ _ _ => rw [undf] at abs; cases abs
  | sect sect _ _ _ => rw [sect] at abs; cases abs
  | forward other undf _ _ _ _ _ _ => rw [undf] at abs; cases abs
  | constant _ _ expression _ _ =>
    rw [expression]
    dsimp only
    rw [setWidth_back fits, layoutValues_plain invariant expression]
  | difference saved _ _ expression _ _ _ add subtract is =>
    rw [expression]
    dsimp only
    rw [setWidth_sub fits, BitVec.setWidth_add _ _ fits, setWidth_back fits, setWidth_back fits,
      layoutValues_plain invariant add.2.1, layoutValues_plain invariant subtract.2.1, meaning_of_assigned is]
    abel

theorem writeLocal_other {written name : Name} (wrote : writeLocal table written = some next)
    (same : written ≠ name ∨ (table.symbol name).expression = none) : next.symbol name = table.symbol name := by
  rw [writeLocal] at wrote
  split at wrote
  · cases wrote
    rfl
  · rename_i saved
    dsimp only at wrote
    split at wrote
    · cases wrote
    · cases wrote
      apply set_other
      rintro rfl
      rcases same with same | same
      · exact same rfl
      · rw [saved] at same
        cases same

variable {table written : Table Name width}

theorem writeAll_other (wrote : names.foldlM writeLocal table = some written)
    (same : name ∉ names ∨ (table.symbol name).expression = none) : written.symbol name = table.symbol name := by
  induction names generalizing table with
  | nil =>
    cases wrote
    rfl
  | cons first names ih =>
    obtain ⟨next, one, rest⟩ := Option.bind_eq_some_iff.mp wrote
    have kept : next.symbol name = table.symbol name :=
      writeLocal_other one (same.imp (fun out is => out (is ▸ List.mem_cons_self)) id)
    rw [ih rest (same.imp (fun out member => out (List.mem_cons_of_mem first member)) (kept ▸ ·)), kept]

theorem writeAll_saved {saved : Saved Name}
    (wrote : names.foldlM writeLocal table = some written) (nodup : names.Nodup) (member : name ∈ names)
    (saves : (table.symbol name).expression = some saved)
    (add : (table.symbol saved.addSymbol).expression = none)
    (subtract : (table.symbol saved.subtractSymbol).expression = none) :
    (written.symbol name).value = (table.symbol name).value +
      ((table.symbol saved.addSymbol).value - (table.symbol saved.subtractSymbol).value) := by
  induction names generalizing table with
  | nil => cases member
  | cons first names ih =>
    obtain ⟨next, one, rest⟩ := Option.bind_eq_some_iff.mp wrote
    by_cases same : first = name
    · have out : name ∉ names := same ▸ (List.nodup_cons.mp nodup).1
      rw [writeAll_other rest (.inl out)]
      rw [writeLocal, same, saves] at one
      dsimp only at one
      split at one
      · cases one
      · cases one
        rw [set_same]
    · have kept := writeLocal_other one (.inl same)
      have keptAdd := writeLocal_other one (.inr add)
      have keptSubtract := writeLocal_other one (.inr subtract)
      rw [ih rest (List.nodup_cons.mp nodup).2 ((List.mem_cons.mp member).resolve_left (Ne.symm same))
        (by rw [kept, saves]) (by rw [keptAdd, add]) (by rw [keptSubtract, subtract]), kept, keptAdd, keptSubtract]

theorem writeValues_symbol {kept : Name → Bool} (invariant : Invariant address place table assigned [])
    (wrote : writeValues kept (layoutValues address table) = some written)
    (inTable : kept name = true ∨ (table.symbol name).ext = true) :
    (written.symbol name).value = meaning place assigned name := by
  rw [writeValues] at wrote
  by_cases expression : (table.symbol name).expression = none
  · rw [writeAll_other wrote (.inr ((layoutValues_fields address table name).1.trans expression)),
      layoutValues_plain invariant expression]
  · have inChain := invariant.member name (.inr expression)
    cases invariant.holds name with
    | undefined _ _ _ none_ _ _ => exact absurd none_ expression
    | sect _ _ none_ _ => exact absurd none_ expression
    | constant _ _ none_ _ _ => exact absurd none_ expression
    | forward other _ _ none_ _ _ _ _ => exact absurd none_ expression
    | difference saved _ forward saves frag ext value add subtract is =>
      have isKept : kept name = true := inTable.resolve_right (by rw [ext]; nofun)
      obtain ⟨sameExpression, sameExt, sameChain⟩ := layoutValues_fields address table name
      have listed : name ∈ (layoutValues address table).chain.filter fun name =>
          kept name && !((layoutValues address table).symbol name).ext := by
        apply List.mem_filter.mpr ⟨sameChain ▸ inChain, _⟩
        rw [isKept, sameExt, ext]
        rfl
      have nodup : (layoutValues address table).chain.Nodup := sameChain ▸ invariant.nodup
      rw [writeAll_saved wrote (nodup.filter _) listed (sameExpression.trans saves)
          ((layoutValues_fields address table _).1.trans add.2.1)
          ((layoutValues_fields address table _).1.trans subtract.2.1),
        layoutValues_difference forward frag, value, layoutValues_plain invariant add.2.1,
        layoutValues_plain invariant subtract.2.1, meaning_of_assigned is, add_comm]

end Invariant

/-- What a program assigns, under the last addresses. -/
def assignedBy (address : Nat → BitVec width) (program : List (Statement Name)) : Name → Option (BitVec width) :=
  program.foldl (Statement.assign (labelPlace address program)) fun _ => none

/-- **After statements of the right kind a symbol has one value**: the one that is meant is in the symbol
table, and a fixup takes it for an absolute symbol. -/
theorem run_values {address : Nat → BitVec width} {kept : Name → Bool} {program : List (Statement Name)}
    {table written : Table Name width} (fits : width ≤ 64) (run : FineRun .empty program table)
    (wrote : writeValues kept (layoutValues address table) = some written) (name : Name) :
    (kept name = true ∨ (table.symbol name).ext = true →
      (written.symbol name).value = meaning (labelPlace address program) (assignedBy address program) name) ∧
    ((table.symbol name).type = .abs →
      (fixupValue (layoutValues address table) name).setWidth width =
        meaning (labelPlace address program) (assignedBy address program) name) := by
  have invariant : Invariant address (labelPlace address program) table (assignedBy address program) [] :=
    run_invariant fits run (empty_invariant program)
  exact ⟨writeValues_symbol invariant wrote, fixupValue_absolute fits invariant⟩

end Expressions

/-! ## Programs -/

/-- Fragments of 16 bytes. -/
def spread (frag : Nat) : BitVec 32 := BitVec.ofNat 32 (16 * frag)

/-- `1:` is at the start of the first fragment, `0:` in the second, and `2 = 0 - 1 + 2`. -/
def differenceProgram : List (Statement Nat) :=
  [.label 1 0 1 0, .label 0 1 1 4, .set 2 (.add (.subtract (.symbol 0) (.symbol 1)) (.number 2))]

theorem not_refers {table : Table Nat 32} {name : Nat}
    (bare : ∀ other, (table.symbol other).forward = none ∧ (table.symbol other).expression = none) :
    ¬ table.Refers name := by
  rintro ⟨other, forward | ⟨saved, expression, _⟩⟩
  · rw [(bare other).1] at forward
    cases forward
  · rw [(bare other).2] at expression
    cases expression

theorem set_bare {table : Table Nat 32} {name : Nat} {symbol : Symbol Nat 32}
    (bare : ∀ other, (table.symbol other).forward = none ∧ (table.symbol other).expression = none)
    (plain : symbol.forward = none ∧ symbol.expression = none) (other : Nat) :
    ((table.set name symbol).symbol other).forward = none ∧ ((table.set name symbol).symbol other).expression = none := by
  by_cases is : other = name
  · rwa [is, set_same]
  · rw [set_other is]
    exact bare other

theorem differenceProgram_fine : ∃ table : Table Nat 32, FineRun .empty differenceProgram table ∧
    (table.symbol 2).type = .abs ∧ (writeValues (fun _ => true) (layoutValues spread table)).isSome := by
  refine ⟨_, .step rfl rfl (.step rfl rfl (.step ⟨not_refers ?_, rfl, rfl, ?_⟩ rfl .done)), rfl, rfl⟩
  · apply set_bare _ ⟨rfl, rfl⟩
    exact set_bare (fun _ => ⟨rfl, rfl⟩) ⟨rfl, rfl⟩
  · change FineDifference _ 2 0 1
    exact ⟨by decide, by decide, ⟨rfl, rfl, nofun⟩, ⟨rfl, rfl, nofun⟩, rfl⟩

theorem run_values_difference : ∃ table written : Table Nat 32, FineRun .empty differenceProgram table ∧
    writeValues (fun _ => true) (layoutValues spread table) = some written ∧ (written.symbol 2).value = 22 ∧
      (fixupValue (layoutValues spread table) 2).setWidth 32 = 22 := by
  obtain ⟨table, fine, abs, wrote⟩ := differenceProgram_fine
  obtain ⟨written, wrote⟩ := Option.isSome_iff_exists.mp wrote
  obtain ⟨value, fixup⟩ := run_values (by decide) fine wrote 2
  have meant : meaning (labelPlace spread differenceProgram) (assignedBy spread differenceProgram) 2 = 22 := by decide
  exact ⟨table, written, fine, wrote, (value (.inl rfl)).trans meant, (fixup abs).trans meant⟩

/-- `3 = 2 + 4` as well. -/
def chainProgram : List (Statement Nat) := differenceProgram ++ [.set 3 (.add (.symbol 2) (.number 4))]

/-- A saved expression is not combined with the number that is added to its symbol: `3` should be 26. -/
theorem chain_forgets :
    ((chainProgram.foldlM Statement.run (.empty : Table Nat 32)).map fun table =>
        ((fixupValue (layoutValues spread table) 3).setWidth 32,
          (writeValues (fun _ => true) (layoutValues spread table)).map fun written => (written.symbol 3).value)) =
        some (22#32, some 24#32) ∧
      meaning (labelPlace spread chainProgram) (assignedBy spread chainProgram) 3 = 26#32 := by
  constructor
  · rfl
  · rfl

end Cctools.PseudoSet
