/-
# Cctools.Read.Conditionals -- which lines of nested conditionals are assembled

`parseABuffer_block`: of well nested lines exactly those in selected arms are assembled,
and the condition state afterwards is the one before, if no value of an expression is
lost when it becomes an `int` and no ignored line looks like a conditional behind a
separator.

A value that is a multiple of 2^32 counts as zero (`narrow_value_ignored`), and a
separator in a string ends an ignored statement (`string_ends_block`).
-/
import Cctools.Read.Statements
import Mathlib.Data.List.TakeWhile
import Mathlib.Tactic.Common

namespace Cctools.Read

set_option autoImplicit false

/-! ## Texts that end with a newline -/

variable {p : UInt8 → Bool}

theorem takeWhile_append_of_stop {text : Text} (stops : ∃ c ∈ text, p c = false) (more : Text) :
    (text ++ more).takeWhile p = text.takeWhile p ∧ (text ++ more).dropWhile p = text.dropWhile p ++ more := by
  induction text with
  | nil => simp at stops
  | cons c rest ih =>
    rw [List.cons_append, List.takeWhile_cons, List.takeWhile_cons, List.dropWhile_cons, List.dropWhile_cons]
    cases inside : p c with
    | false => simp
    | true =>
      obtain ⟨d, member, stop⟩ := stops
      rcases List.mem_cons.mp member with rfl | later
      · rw [inside] at stop
        cases stop
      · obtain ⟨taken, dropped⟩ := ih ⟨d, later, stop⟩
        simp [taken, dropped]

/-- Lines, or the rest of one. -/
def Closed (text : Text) : Prop := text = [] ∨ text.getLast? = some newline

variable {c : UInt8} {rest : Text}

theorem Closed.tail (closed : Closed (c :: rest)) : Closed rest := by
  rcases closed with none_ | last
  · cases none_
  · cases rest with
    | nil => exact .inl rfl
    | cons d more => exact .inr (by rwa [List.getLast?_cons_cons] at last)

theorem Closed.suffix {text rest : Text} (closed : Closed text) (isSuffix : rest <:+ text) : Closed rest := by
  obtain ⟨before, rfl⟩ := isSuffix
  induction before with
  | nil => exact closed
  | cons c before ih => exact ih (Closed.tail closed)

theorem Closed.stops {text : Text} (closed : Closed text) (some_ : text ≠ [])
    (stop : p newline = false) : ∃ c ∈ text, p c = false := by
  rcases closed with none_ | last
  · exact absurd none_ some_
  · exact ⟨newline, List.mem_of_getLast? last, stop⟩

theorem Closed.dropWhile_ne_nil {text : Text} (closed : Closed text) (some_ : text ≠ [])
    (stop : p newline = false) : text.dropWhile p ≠ [] := by
  obtain ⟨c, member, outside⟩ := closed.stops some_ stop
  intro none_
  have all : ∀ d ∈ text, p d = true := by simpa using List.dropWhile_eq_nil_iff.mp none_
  rw [all c member] at outside
  cases outside

variable {source : Source}

theorem totallyIgnoreLine_append {text : Text} (closed : Closed text) (some_ : text ≠ []) (more : Text) :
    totallyIgnoreLine source (text ++ more) = totallyIgnoreLine source text ++ more := by
  have stop : (fun c => !isEndOfLine source.atSign c) newline = false := by
    cases source.atSign <;> rfl
  rw [totallyIgnoreLine, (takeWhile_append_of_stop (closed.stops some_ stop) more).2, totallyIgnoreLine,
    List.drop_append_of_le_length]
  exact List.length_pos_iff.mpr (closed.dropWhile_ne_nil some_ stop)

theorem totallyIgnoreLine_suffix (text : Text) : totallyIgnoreLine source text <:+ text :=
  (List.drop_suffix _ _).trans (List.dropWhile_suffix _)

theorem Closed.more (closed : Closed (c :: rest)) (inside : c ≠ newline) : rest ≠ [] := by
  rintro rfl
  rcases closed with none_ | last
  · cases none_
  · exact inside (Option.some.inj last)

/-! ## Heads -/

def Head.append (more : Text) : Head → Head
  | .pseudoOp op arguments => .pseudoOp op (arguments ++ more)
  | .name after => .name (after ++ more)
  | .empty rest => .empty (rest ++ more)
  | .other rest => .other (rest ++ more)

/-- What follows is the rest of the text, and a newline if the statement can go on. -/
def Head.Within (text : Text) : Head → Prop
  | .pseudoOp _ rest | .name rest | .other rest => rest <:+ text ∧ rest ≠ []
  | .empty rest => rest <:+ text

theorem getSymbolEnd_quote (rest : Text) : getSymbolEnd (34 :: rest) =
    (rest.takeWhile insideQuotes,
      match rest.dropWhile insideQuotes with
      | 34 :: after => after
      | after => after) := rfl

theorem getSymbolEnd_of_ne (rest : Text) (plain : c ≠ 34) :
    getSymbolEnd (c :: rest) = ((c :: rest).takeWhile isPartOfName, (c :: rest).dropWhile isPartOfName) := by
  unfold getSymbolEnd
  split
  · rename_i same
    exact absurd (List.cons.inj same).1 plain
  · rfl

theorem getSymbolEnd_append (closed : Closed (c :: rest)) (more : Text) :
    getSymbolEnd (c :: rest ++ more) = ((getSymbolEnd (c :: rest)).1, (getSymbolEnd (c :: rest)).2 ++ more) ∧
      (getSymbolEnd (c :: rest)).2 <:+ c :: rest ∧ (getSymbolEnd (c :: rest)).2 ≠ [] := by
  rw [List.cons_append]
  by_cases quote : c = 34
  · subst quote
    have some_ := closed.more (by decide)
    have stop : insideQuotes newline = false := by decide
    obtain ⟨taken, dropped⟩ := takeWhile_append_of_stop (closed.tail.stops some_ stop) more
    have left := closed.tail.dropWhile_ne_nil some_ stop
    have isSuffix : rest.dropWhile insideQuotes <:+ rest := List.dropWhile_suffix _
    rw [getSymbolEnd_quote, getSymbolEnd_quote, taken, dropped]
    revert left isSuffix
    generalize rest.dropWhile insideQuotes = after
    intro left isSuffix
    cases after with
    | nil => exact absurd rfl left
    | cons d others =>
      by_cases ends : d = 34
      · subst ends
        have wide := isSuffix.trans (List.suffix_cons 34 rest)
        refine ⟨rfl, (List.suffix_cons _ _).trans wide, (closed.suffix wide).more (by decide)⟩
      · have keeps (tail : Text) : (match d :: tail with | 34 :: after => after | after => after) = d :: tail := by
          split
          · rename_i same
            exact absurd (List.cons.inj same).1 ends
          · rfl
        rw [List.cons_append, keeps, keeps]
        exact ⟨rfl, isSuffix.trans (List.suffix_cons _ _), nofun⟩
  · have stop : isPartOfName newline = false := by decide
    obtain ⟨taken, dropped⟩ := takeWhile_append_of_stop (closed.stops nofun stop) more
    rw [getSymbolEnd_of_ne _ quote, getSymbolEnd_of_ne _ quote, ← List.cons_append, taken, dropped]
    exact ⟨rfl, List.dropWhile_suffix _, closed.dropWhile_ne_nil nofun stop⟩

theorem isPseudoOp_append {name after : Text} (closed : Closed after) (some_ : after ≠ []) (more : Text) :
    isPseudoOp name (after ++ more) = isPseudoOp name after := by
  cases after with
  | nil => exact absurd rfl some_
  | cons c rest =>
    cases rest with
    | cons d others => rfl
    | nil =>
      have isNewline : c = newline := by
        by_contra inside
        exact closed.more inside rfl
      subst isNewline
      cases more <;> simp [isPseudoOp, isBlank, newline]

theorem skipLeading_append {text : Text} (closed : Closed text) (some_ : text ≠ []) (more : Text) :
    skipLeading (text ++ more) = skipLeading text ++ more ∧ skipLeading text <:+ text ∧ skipLeading text ≠ [] := by
  cases text with
  | nil => exact absurd rfl some_
  | cons c rest =>
    rw [List.cons_append, skipLeading, skipLeading]
    split
    · rename_i blank
      refine ⟨rfl, List.suffix_cons _ _, closed.more ?_⟩
      rintro rfl
      exact absurd blank (by decide)
    · exact ⟨rfl, List.suffix_rfl, nofun⟩

/-- The head of a statement in a closed text does not depend on what follows the text. -/
theorem readHead_append {text : Text} (closed : Closed text) (some_ : text ≠ []) (more : Text) :
    readHead source (text ++ more) = (readHead source text).append more ∧ (readHead source text).Within text := by
  obtain ⟨skipped, isSuffix, left⟩ := skipLeading_append closed some_ more
  rw [readHead, readHead, skipped]
  revert isSuffix left
  generalize skipLeading text = start
  intro isSuffix left
  cases start with
  | nil => exact absurd rfl left
  | cons c rest =>
    have closedHere := closed.suffix isSuffix
    have further := closedHere.tail
    obtain ⟨symbol, symbolSuffix, symbolLeft⟩ := getSymbolEnd_append closedHere more
    rw [List.cons_append]
    dsimp only
    rw [← List.cons_append, symbol]
    dsimp only
    rw [isPseudoOp_append (closedHere.suffix symbolSuffix) symbolLeft]
    split
    · split
      · have closedAfter := closedHere.suffix symbolSuffix
        revert symbolSuffix symbolLeft closedAfter
        generalize (getSymbolEnd (c :: rest)).2 = after
        intro symbolSuffix symbolLeft closedAfter
        cases after with
        | nil => exact absurd rfl symbolLeft
        | cons d arguments =>
          rw [List.cons_append]
          dsimp only
          split
          · rename_i blank
            refine ⟨rfl, ?_, closedAfter.more ?_⟩
            · exact (List.suffix_cons _ _).trans (symbolSuffix.trans isSuffix)
            · rintro rfl
              exact absurd blank (by decide)
          · exact ⟨rfl, symbolSuffix.trans isSuffix, nofun⟩
      · exact ⟨rfl, symbolSuffix.trans isSuffix, symbolLeft⟩
    · split
      · exact ⟨rfl, (List.suffix_cons _ _).trans isSuffix⟩
      · rename_i inside
        refine ⟨rfl, (List.suffix_cons _ _).trans isSuffix, closedHere.more ?_⟩
        rintro rfl
        exact inside (by cases source.atSign <;> rfl)

theorem skipHead_append {text : Text} (closed : Closed text) {head : Head} (within : head.Within text) (more : Text) :
    skipHead source (head.append more) = skipHead source head ++ more ∧ skipHead source head <:+ text := by
  cases head with
  | pseudoOp op rest =>
    exact ⟨totallyIgnoreLine_append (closed.suffix within.1) within.2 more,
      (totallyIgnoreLine_suffix rest).trans within.1⟩
  | name rest =>
    exact ⟨totallyIgnoreLine_append (closed.suffix within.1) within.2 more,
      (totallyIgnoreLine_suffix rest).trans within.1⟩
  | other rest =>
    exact ⟨totallyIgnoreLine_append (closed.suffix within.1) within.2 more,
      (totallyIgnoreLine_suffix rest).trans within.1⟩
  | empty rest => exact ⟨rfl, within⟩

/-! ## Nested conditionals -/

inductive Indent
  | none
  | tab
  | space
  | formFeed
  deriving DecidableEq, Repr

def Indent.text : Indent → Text
  | .none => []
  | .tab => [9]
  | .space => [32]
  | .formFeed => [12]

structure Expression where
  text : Text
  value : BitVec 64
  deriving DecidableEq, Repr

mutual

/-- Lines, and groups of lines from `.if` to `.endif`. -/
inductive Block
  | done
  | other (text : Text) (rest : Block)
  | group (indent : Indent) (condition : Expression) (body : Block) (arms : Arms) (rest : Block)

/-- What follows the first arm of a group. -/
inductive Arms
  | endif (indent : Indent)
  | else_ (indent : Indent) (body : Block) (endIndent : Indent)
  | elseif (indent : Indent) (condition : Expression) (body : Block) (arms : Arms)

end

def bareLine (indent : Indent) (op : Conditional) : Text := indent.text ++ (op.name ++ [newline])

def conditionLine (indent : Indent) (op : Conditional) (condition : Expression) : Text :=
  indent.text ++ (op.name ++ 32 :: (condition.text ++ [newline]))

mutual

def Block.text : Block → Text
  | .done => []
  | .other text rest => text ++ rest.text
  | .group indent condition body arms rest =>
    conditionLine indent .sIf condition ++ (body.text ++ (arms.text ++ rest.text))

def Arms.text : Arms → Text
  | .endif indent => bareLine indent .sEndif
  | .else_ indent body endIndent => bareLine indent .sElse ++ (body.text ++ bareLine endIndent .sEndif)
  | .elseif indent condition body arms => conditionLine indent .sElseif condition ++ (body.text ++ arms.text)

end

mutual

/-- The lines of the first arm whose value is not zero, or of `.else`. -/
def Block.selected : Block → Text
  | .done => []
  | .other text rest => text ++ rest.selected
  | .group _ condition body arms rest =>
    (if condition.value = 0 then arms.selected else body.selected) ++ rest.selected

def Arms.selected : Arms → Text
  | .endif _ => []
  | .else_ _ body _ => body.selected
  | .elseif _ condition body arms => if condition.value = 0 then arms.selected else body.selected

end

mutual

def Block.depth : Block → Nat
  | .done => 0
  | .other _ rest => rest.depth
  | .group _ _ body arms rest => max (max body.depth arms.depth + 1) rest.depth

def Arms.depth : Arms → Nat
  | .endif _ => 0
  | .else_ _ body _ => body.depth
  | .elseif _ _ body arms => max body.depth arms.depth

end

/-! ## The lines a program may have -/

section WellFormed

variable (source : Source)

/-- One expression, which has its value at this place. -/
structure Expression.Reads (condition : Expression) (evaluated : Bool) (more : Text) : Prop where
  clean : ∀ c ∈ condition.text, isEndOfLine source.atSign c = false
  notAssigned : condition.text.head? ≠ some 61
  value : evaluated = true →
    source.getAbsoluteExpression (condition.text ++ newline :: more) = (condition.value, newline :: more)

/-- Statements that the assembler takes one by one, and that leave the condition state alone. -/
inductive Assembles (more : Text) : Text → Prop
  | done : Assembles more []
  | empty {text rest : Text} : text ≠ [] → readHead source text = .empty rest → rest <:+ text →
      Assembles more rest → Assembles more text
  | statement {text rest : Text} : text ≠ [] → (∀ rest, readHead source text ≠ .empty rest) →
      findHead (readHead source text) = none → rest <:+ text →
      (∀ state : ReadState, state.theCondState.ignore = false → state.definingMacro = false →
        source.statement state (text ++ more) = (state, rest ++ more)) →
      Assembles more rest → Assembles more text

mutual

/-- `assembling` says whether the lines are to be assembled, `more` is what follows. -/
def Block.WellFormed : Block → Bool → Text → Prop
  | .done, _, _ => True
  | .other text rest, assembling, more =>
    Closed text ∧ (assembling = true → Assembles source (rest.text ++ more) text) ∧ rest.WellFormed assembling more
  | .group _ condition body arms rest, assembling, more =>
    condition.Reads source assembling (body.text ++ (arms.text ++ (rest.text ++ more))) ∧
      body.WellFormed (assembling && condition.value ≠ 0) (arms.text ++ (rest.text ++ more)) ∧
      arms.WellFormed (assembling && condition.value = 0) (rest.text ++ more) ∧ rest.WellFormed assembling more

def Arms.WellFormed : Arms → Bool → Text → Prop
  | .endif _, _, _ => True
  | .else_ _ body endIndent, assembling, more => body.WellFormed assembling (bareLine endIndent .sEndif ++ more)
  | .elseif _ condition body arms, assembling, more =>
    condition.Reads source assembling (body.text ++ (arms.text ++ more)) ∧
      body.WellFormed (assembling && condition.value ≠ 0) (arms.text ++ more) ∧
      arms.WellFormed (assembling && condition.value = 0) more

end

/-! ## What the reader gets right -/

/-- No statement of a text, as separators cut it, is a conditional one. -/
inductive Ignores : Text → Prop
  | done : Ignores []
  | statement {text : Text} : text ≠ [] → findHead (readHead source text) = none →
      Ignores (skipHead source (readHead source text)) → Ignores text

/-- A value that is not zero is not zero as an `int`. -/
def Expression.Narrow (condition : Expression) : Prop :=
  condition.value.setWidth 32 = 0 → condition.value = 0

mutual

def Block.Plain : Block → Bool → Prop
  | .done, _ => True
  | .other text rest, assembling => (assembling = false → Ignores source text) ∧ rest.Plain assembling
  | .group _ condition body arms rest, assembling =>
    (assembling = true → condition.Narrow) ∧ body.Plain (assembling && condition.value ≠ 0) ∧
      arms.Plain (assembling && condition.value = 0) ∧ rest.Plain assembling

def Arms.Plain : Arms → Bool → Prop
  | .endif _, _ => True
  | .else_ _ body _, assembling => body.Plain assembling
  | .elseif _ condition body arms, assembling =>
    (assembling = true → condition.Narrow) ∧ body.Plain (assembling && condition.value ≠ 0) ∧
      arms.Plain (assembling && condition.value = 0)

end

end WellFormed

/-! ## Steps -/

/-- The reader gets from one place to another and assembles a text on its way. -/
inductive Goes (source : Source) : ReadState → Text → ReadState → Text → Text → Prop
  | done {state : ReadState} {text : Text} : Goes source state text state text []
  | step {state next last : ReadState} {text rest end_ assembled more : Text} : text ≠ [] →
      parseStatement source state text = .ok (next, rest, assembled) → Goes source next rest last end_ more →
      Goes source state text last end_ (assembled ++ more)

variable {first second third : ReadState}

theorem Goes.trans {text middle end_ before after : Text}
    (here : Goes source first text second middle before) (there : Goes source second middle third end_ after) :
    Goes source first text third end_ (before ++ after) := by
  induction here with
  | done => exact there
  | step some_ parsed _ ih =>
    rw [List.append_assoc]
    exact .step some_ parsed (ih there)

variable {text middle end_ assembled : Text}

theorem Goes.silently
    (here : Goes source first text second middle []) (there : Goes source second middle third end_ assembled) :
    Goes source first text third end_ assembled := here.trans there

theorem Goes.ends
    (here : Goes source first text second middle assembled) (there : Goes source second middle third end_ []) :
    Goes source first text third end_ assembled := by
  have whole := here.trans there
  rwa [List.append_nil] at whole

theorem Goes.parse {state last : ReadState} {text assembled : Text} (goes : Goes source state text last [] assembled) :
    ∃ fuel, ∀ enough ≥ fuel, parseABuffer source enough state text = .ok (last, assembled) := by
  generalize ended : ([] : Text) = end_ at goes
  induction goes with
  | done =>
    subst ended
    exact ⟨0, fun enough _ => by cases enough <;> rfl⟩
  | step some_ parsed _ ih =>
    obtain ⟨fuel, runs⟩ := ih ended
    refine ⟨fuel + 1, fun enough least => ?_⟩
    obtain ⟨less, rfl⟩ : ∃ less, enough = less + 1 := ⟨enough - 1, by omega⟩
    rename_i text _ _ _ _ _
    cases text with
    | nil => exact absurd rfl some_
    | cons c others =>
      rw [parseABuffer, parsed]
      show (parseABuffer source less _ _).bind _ = _
      rw [runs less (by omega)]
      rfl

/-! ## Conditional lines -/

theorem skipLeading_indent (indent : Indent) (text : Text) : skipLeading (indent.text ++ 46 :: text) = 46 :: text := by
  cases indent <;> rfl

theorem name_parts (op : Conditional) : ∃ letters, op.name = 46 :: letters := by
  cases op <;> exact ⟨_, rfl⟩

theorem name_inside (op : Conditional) : ∀ c ∈ op.name, isPartOfName c = true := by
  cases op <;> decide +kernel

theorem findConditional_name (op : Conditional) : findConditional op.name = some op := by
  cases op <;> decide

theorem getSymbolEnd_name (op : Conditional) (outside : isPartOfName c = false) (rest : Text) :
    getSymbolEnd (op.name ++ c :: rest) = (op.name, c :: rest) := by
  have inside := name_inside op
  obtain ⟨letters, named⟩ := name_parts op
  rw [named] at inside ⊢
  rw [List.cons_append, getSymbolEnd_of_ne _ (by decide), ← List.cons_append,
    List.takeWhile_append_of_pos inside, List.dropWhile_append_of_pos inside,
    List.takeWhile_cons_of_neg (by simp [outside]), List.dropWhile_cons_of_neg (by simp [outside]), List.append_nil]

/-- A conditional pseudo op is found, and its arguments are behind one blank. -/
theorem findHead_line (indent : Indent) (op : Conditional) (outside : isPartOfName c = false)
    (isOp : isPseudoOp op.name (c :: rest) = true) :
    readHead source (indent.text ++ (op.name ++ c :: rest))
      = .pseudoOp op.name (if isBlank c then rest else c :: rest) := by
  obtain ⟨letters, named⟩ := name_parts op
  have symbol := getSymbolEnd_name op outside rest
  rw [named] at symbol isOp ⊢
  rw [readHead, List.cons_append, skipLeading_indent]
  dsimp only
  rw [← List.cons_append, symbol, if_pos (by decide)]
  dsimp only
  rw [if_pos isOp]

theorem readHead_bareLine (indent : Indent) (op : Conditional) (more : Text) :
    readHead source (bareLine indent op ++ more) = .pseudoOp op.name (newline :: more) := by
  rw [bareLine, List.append_assoc, List.append_assoc]
  refine findHead_line indent op (by decide) ?_
  cases op <;> rfl

variable {condition : Expression}

theorem readHead_conditionLine (indent : Indent) (op : Conditional)
    (notAssigned : condition.text.head? ≠ some 61) (more : Text) :
    readHead source (conditionLine indent op condition ++ more)
      = .pseudoOp op.name (condition.text ++ newline :: more) := by
  rw [conditionLine, List.append_assoc, List.append_assoc, List.cons_append, List.append_assoc]
  refine findHead_line indent op (by decide) ?_
  cases first : condition.text with
  | nil => cases op <;> rfl
  | cons c rest =>
    have other : c ≠ 61 := fun same => notAssigned (by rw [first, same]; rfl)
    cases op <;> simp [isPseudoOp, Conditional.name, ascii, other]

theorem skip_clean {text : Text} (clean : ∀ c ∈ text, isEndOfLine source.atSign c = false) (more : Text) :
    totallyIgnoreLine source (text ++ newline :: more) = more := by
  have stop : isEndOfLine source.atSign newline = true := by cases source.atSign <;> rfl
  rw [totallyIgnoreLine, List.dropWhile_append_of_pos (by simpa using clean),
    List.dropWhile_cons_of_neg (by simp [stop])]
  rfl

theorem demandEmptyRestOfLine_newline (more : Text) : demandEmptyRestOfLine source (newline :: more) = more := by
  have stop : isEndOfLine source.atSign newline = true := by cases source.atSign <;> rfl
  have kept : skipWhitespace (newline :: more) = newline :: more := rfl
  rw [demandEmptyRestOfLine, kept]
  exact if_pos stop

variable {state next : ReadState}

theorem parseStatement_conditional {text arguments rest : Text} {op : Conditional}
    (found : readHead source text = .pseudoOp op.name arguments)
    (reading : state.theCondState.ignore = true ∨ state.definingMacro = false)
    (handled : op.handler source state arguments = .ok (next, rest)) :
    parseStatement source state text = .ok (next, rest, []) := by
  have isOp : findHead (Head.pseudoOp op.name arguments) = some (op, arguments) := by
    rw [findHead, findConditional_name]
    rfl
  rw [parseStatement, found, isOp]
  dsimp only
  rw [handled]
  split
  · rfl
  · rename_i assembling
    rw [if_neg (by rcases reading with ignored | noMacro; exact absurd ignored assembling; simp [noMacro])]
    rfl

/-! ## Lines that are ignored -/

variable {state : ReadState}

theorem Ignores.goes {text : Text} (ignored : state.theCondState.ignore = true)
    (closed : Closed text) (ignores : Ignores source text) (more : Text) :
    Goes source state (text ++ more) state more [] := by
  induction ignores with
  | done => exact .done
  | @statement text some_ notFound _ ih =>
    obtain ⟨head, within⟩ := @readHead_append source _ closed some_ more
    obtain ⟨skipped, isSuffix⟩ := @skipHead_append source _ closed _ within more
    have parsed : parseStatement source state (text ++ more)
        = .ok (state, skipHead source (readHead source text) ++ more, []) := by
      have none_ : findHead ((readHead source text).append more) = none := by
        revert notFound
        cases readHead source text <;> simp [findHead, Head.append]
      rw [parseStatement, head, none_]
      dsimp only
      rw [if_pos ignored, skipped]
    exact .step (by simp [some_]) parsed (ih (closed.suffix isSuffix))

/-- A group begins. -/
def ReadState.enter (state : ReadState) : ReadState :=
  { state with
    lastStates := state.theCondState :: state.lastStates
    theCondState := { state.theCondState with theCond := .ifCond } }

/-- An arm begins whose expression is not evaluated. -/
def ReadState.arm (state : ReadState) (theCond : CondType) (ignore : Bool) : ReadState :=
  { state with theCondState := { state.theCondState with theCond, ignore } }

theorem sIf_ignored (room : state.lastStates.length < maxIfDepth)
    (ignored : state.theCondState.ignore = true) (text : Text) :
    sIf source state text = .ok (state.enter, totallyIgnoreLine source text) := by
  rw [sIf, if_neg (Nat.not_le.mpr room)]
  exact if_pos ignored

theorem sIf_assembling (room : state.lastStates.length < maxIfDepth)
    (assembling : state.theCondState.ignore = false) (text : Text) :
    sIf source state text = .ok (evaluate source state.enter .ifCond text) := by
  rw [sIf, if_neg (Nat.not_le.mpr room)]
  exact if_neg (by rw [assembling]; nofun)

variable {last : CondState} {others : List CondState}

theorem sEndif_stack
    (inside : state.theCondState.theCond ≠ .noCond) (stack : state.lastStates = last :: others) (more : Text) :
    sEndif source state (newline :: more) = .ok ({ state with theCondState := last, lastStates := others }, more) := by
  unfold sEndif
  rw [stack]
  cases here : state.theCondState.theCond with
  | noCond => exact absurd here inside
  | ifCond | elseifCond | elseCond =>
    dsimp only
    rw [demandEmptyRestOfLine_newline]

/-- Inside a group, between its arms. -/
structure InGroup (state : ReadState) (last : CondState) (others : List CondState) : Prop where
  stack : state.lastStates = last :: others
  inArm : state.inArm = true

theorem InGroup.inside (group : InGroup state last others) : state.theCondState.theCond ≠ .noCond := by
  intro none_
  have := group.inArm
  rw [ReadState.inArm, none_] at this
  cases this

def ReadState.leave (state : ReadState) (last : CondState) (others : List CondState) : ReadState :=
  { state with theCondState := last, lastStates := others }

theorem goes_endif (inside : state.theCondState.theCond ≠ .noCond) (stack : state.lastStates = last :: others)
    (reading : state.theCondState.ignore = true ∨ state.definingMacro = false) (indent : Indent) (more : Text) :
    Goes source state (bareLine indent .sEndif ++ more) (state.leave last others) more [] := by
  have some_ : bareLine indent .sEndif ++ more ≠ [] := by cases indent <;> nofun
  exact .step some_ (parseStatement_conditional (readHead_bareLine indent .sEndif more) reading
    (sEndif_stack inside stack more)) .done

theorem InGroup.lastIgnore (group : InGroup state last others) : state.lastIgnore = last.ignore := by
  rw [ReadState.lastIgnore, group.stack]

theorem goes_if {indent : Indent} {evaluated : Bool} {more : Text}
    (reads : condition.Reads source evaluated more)
    (reading : state.theCondState.ignore = true ∨ state.definingMacro = false)
    (handled : sIf source state (condition.text ++ newline :: more) = .ok (next, more)) :
    Goes source state (conditionLine indent .sIf condition ++ more) next more [] := by
  have some_ : conditionLine indent .sIf condition ++ more ≠ [] := by cases indent <;> nofun
  exact .step some_ (parseStatement_conditional (readHead_conditionLine indent .sIf reads.notAssigned more)
    reading handled) .done

theorem goes_elseif {indent : Indent} {evaluated : Bool}
    {more : Text} (reads : condition.Reads source evaluated more)
    (reading : state.theCondState.ignore = true ∨ state.definingMacro = false)
    (handled : sElseif source state (condition.text ++ newline :: more) = .ok (next, more)) :
    Goes source state (conditionLine indent .sElseif condition ++ more) next more [] := by
  have some_ : conditionLine indent .sElseif condition ++ more ≠ [] := by cases indent <;> nofun
  exact .step some_ (parseStatement_conditional (readHead_conditionLine indent .sElseif reads.notAssigned more)
    reading handled) .done

theorem goes_else (group : InGroup state last others)
    (reading : state.theCondState.ignore = true ∨ state.definingMacro = false) (indent : Indent) (more : Text) :
    Goes source state (bareLine indent .sElse ++ more)
      (state.arm .elseCond (last.ignore || state.theCondState.condMet ≠ 0)) more [] := by
  have some_ : bareLine indent .sElse ++ more ≠ [] := by cases indent <;> nofun
  refine .step some_ (parseStatement_conditional (readHead_bareLine indent .sElse more) reading ?_) .done
  rw [Conditional.handler, sElse, if_pos group.inArm, group.lastIgnore, demandEmptyRestOfLine_newline]
  rfl

theorem sElseif_ignored
    (group : InGroup state last others) (met : (last.ignore || decide (state.theCondState.condMet ≠ 0)) = true)
    (text : Text) :
    sElseif source state text = .ok (state.arm .elseifCond true, totallyIgnoreLine source text) := by
  rw [sElseif, if_pos group.inArm, group.lastIgnore, if_pos met]
  rfl

mutual

theorem Block.goes_ignored (block : Block) {state : ReadState} {more : Text}
    (ignored : state.theCondState.ignore = true) (room : state.lastStates.length + block.depth ≤ maxIfDepth)
    (wellFormed : block.WellFormed source false more) (plain : block.Plain source false) :
    Goes source state (block.text ++ more) state more [] := by
  match block with
  | .done => exact .done
  | .other text rest =>
    obtain ⟨closed, -, restFormed⟩ := wellFormed
    obtain ⟨ignores, restPlain⟩ := plain
    rw [Block.text, List.append_assoc]
    exact ((ignores rfl).goes ignored closed _).trans (rest.goes_ignored ignored room restFormed restPlain)
  | .group indent condition body arms rest =>
    obtain ⟨reads, bodyFormed, armsFormed, restFormed⟩ := wellFormed
    obtain ⟨-, bodyPlain, armsPlain, restPlain⟩ := plain
    rw [Block.depth] at room
    have deeper : state.enter.lastStates.length = state.lastStates.length + 1 := rfl
    have handled (after : Text) : sIf source state (condition.text ++ newline :: after) = .ok (state.enter, after) := by
      rw [sIf_ignored (by omega) ignored, skip_clean reads.clean]
    have bodyGoes : Goes source state.enter (body.text ++ _) state.enter _ [] :=
      body.goes_ignored ignored (by omega) bodyFormed bodyPlain
    have armsGoes : Goes source state.enter (arms.text ++ (rest.text ++ more)) state (rest.text ++ more) [] :=
      arms.goes_ignored ⟨rfl, rfl⟩ (by rw [ignored, Bool.true_or]) (.inl ignored) (by omega) armsFormed armsPlain
    have restGoes := rest.goes_ignored ignored (by omega) restFormed restPlain
    rw [Block.text, List.append_assoc, List.append_assoc, List.append_assoc]
    exact (goes_if reads (.inl ignored) (handled _)).trans (bodyGoes.trans (armsGoes.trans restGoes))

theorem Arms.goes_ignored (arms : Arms) {state : ReadState} {last : CondState} {others : List CondState} {more : Text}
    (group : InGroup state last others) (met : (last.ignore || decide (state.theCondState.condMet ≠ 0)) = true)
    (reading : state.theCondState.ignore = true ∨ state.definingMacro = false)
    (room : state.lastStates.length + arms.depth ≤ maxIfDepth)
    (wellFormed : arms.WellFormed source false more) (plain : arms.Plain source false) :
    Goes source state (arms.text ++ more) (state.leave last others) more [] := by
  match arms with
  | .endif indent => exact goes_endif group.inside group.stack reading indent more
  | .else_ indent body endIndent =>
    have elseGoes := @goes_else source _ _ _ group reading indent (body.text ++ (bareLine endIndent .sEndif ++ more))
    rw [met] at elseGoes
    have bodyGoes : Goes source (state.arm .elseCond true) (body.text ++ _) (state.arm .elseCond true) _ [] :=
      body.goes_ignored rfl room wellFormed plain
    have endGoes : Goes source (state.arm .elseCond true) (bareLine endIndent .sEndif ++ more)
        (state.leave last others) more [] :=
      @goes_endif source (state.arm .elseCond true) last others (by nofun) group.stack (.inl rfl) endIndent more
    rw [Arms.text, List.append_assoc, List.append_assoc]
    exact elseGoes.trans (bodyGoes.trans endGoes)
  | .elseif indent condition body arms =>
    obtain ⟨reads, bodyFormed, armsFormed⟩ := wellFormed
    obtain ⟨-, bodyPlain, armsPlain⟩ := plain
    rw [Arms.depth] at room
    have sameDepth : (state.arm .elseifCond true).lastStates.length = state.lastStates.length := rfl
    have handled (after : Text) : sElseif source state (condition.text ++ newline :: after)
        = .ok (state.arm .elseifCond true, after) := by
      rw [sElseif_ignored group met, skip_clean reads.clean]
    have bodyGoes : Goes source (state.arm .elseifCond true) (body.text ++ _) (state.arm .elseifCond true) _ [] :=
      body.goes_ignored rfl (by omega) bodyFormed bodyPlain
    have armsGoes : Goes source (state.arm .elseifCond true) (arms.text ++ more) (state.leave last others) more [] :=
      arms.goes_ignored ⟨group.stack, rfl⟩ met (.inl rfl) (by omega) armsFormed armsPlain
    rw [Arms.text, List.append_assoc, List.append_assoc]
    exact (goes_elseif reads reading (handled _)).trans (bodyGoes.trans armsGoes)

end

/-! ## Lines that are assembled -/

theorem take_of_suffix {text rest more part : Text} (parts : part ++ rest = text) :
    (text ++ more).take ((text ++ more).length - (rest ++ more).length) = part := by
  subst parts
  rw [List.append_assoc, List.length_append, Nat.add_sub_cancel, List.take_left]

theorem Assembles.goes {text more : Text} (assembling : state.theCondState.ignore = false)
    (noMacro : state.definingMacro = false) (closed : Closed text) (assembles : Assembles source more text) :
    Goes source state (text ++ more) state more text := by
  have on : ¬ state.theCondState.ignore = true := by rw [assembling]; nofun
  induction assembles with
  | done => exact .done
  | @empty text rest some_ isEmpty isSuffix _ ih =>
    obtain ⟨part, parts⟩ := isSuffix
    obtain ⟨head, -⟩ := @readHead_append source _ closed some_ more
    have parsed : parseStatement source state (text ++ more) = .ok (state, rest ++ more, part) := by
      rw [parseStatement, head, isEmpty]
      dsimp only [Head.append]
      rw [if_neg on, take_of_suffix parts]
    have whole := Goes.step (by simp [some_]) parsed (ih (closed.suffix ⟨part, parts⟩))
    rwa [parts] at whole
  | @statement text rest some_ notEmpty notFound isSuffix handled _ ih =>
    obtain ⟨part, parts⟩ := isSuffix
    obtain ⟨head, -⟩ := @readHead_append source _ closed some_ more
    have parsed : parseStatement source state (text ++ more) = .ok (state, rest ++ more, part) := by
      have none_ : findHead ((readHead source text).append more) = none := by
        revert notFound
        cases readHead source text <;> simp [findHead, Head.append]
      have isStatement : ∀ rest, (readHead source text).append more ≠ .empty rest := by
        intro rest
        revert notEmpty
        cases readHead source text <;> simp [Head.append]
      rw [parseStatement, head, none_]
      dsimp only
      rw [if_neg on]
      split
      · rename_i isEmpty
        exact absurd isEmpty (isStatement _)
      · rw [if_neg (by rw [noMacro]; nofun)]
        show Except.ok ((source.statement state (text ++ more)).1, (source.statement state (text ++ more)).2,
          (text ++ more).take ((text ++ more).length - (source.statement state (text ++ more)).2.length)) = _
        rw [handled state assembling noMacro, take_of_suffix parts]
    have whole := Goes.step (by simp [some_]) parsed (ih (closed.suffix ⟨part, parts⟩))
    rwa [parts] at whole

/-- The expression of an arm decides. -/
def ReadState.decided (state : ReadState) (theCond : CondType) (condition : Expression) : ReadState :=
  { state with theCondState :=
    ⟨theCond, condition.value.setWidth 32, decide (condition.value.setWidth 32 = (0 : BitVec 32))⟩ }

theorem evaluate_reads {theCond : CondType} {more : Text} (reads : condition.Reads source true more) :
    evaluate source state theCond (condition.text ++ newline :: more) = (state.decided theCond condition, more) := by
  rw [evaluate, reads.value rfl]
  dsimp only
  rw [demandEmptyRestOfLine_newline]
  rfl

mutual

theorem Block.goes_assembling (block : Block) {state : ReadState} {more : Text}
    (assembling : state.theCondState.ignore = false) (noMacro : state.definingMacro = false)
    (room : state.lastStates.length + block.depth ≤ maxIfDepth) (wellFormed : block.WellFormed source true more)
    (plain : block.Plain source true) : Goes source state (block.text ++ more) state more block.selected := by
  match block with
  | .done => exact .done
  | .other text rest =>
    obtain ⟨closed, assembles, restFormed⟩ := wellFormed
    obtain ⟨-, restPlain⟩ := plain
    rw [Block.text, List.append_assoc]
    exact ((assembles rfl).goes assembling noMacro closed).trans
      (rest.goes_assembling assembling noMacro room restFormed restPlain)
  | .group indent condition body arms rest =>
    obtain ⟨reads, bodyFormed, armsFormed, restFormed⟩ := wellFormed
    obtain ⟨narrow, bodyPlain, armsPlain, restPlain⟩ := plain
    rw [Block.depth] at room
    have deeper : (state.enter.decided .ifCond condition).lastStates.length = state.lastStates.length + 1 := rfl
    have enter : Goes source state (conditionLine indent .sIf condition ++ (body.text ++ (arms.text ++ (rest.text ++ more))))
        (state.enter.decided .ifCond condition) (body.text ++ (arms.text ++ (rest.text ++ more))) [] := by
      refine goes_if reads (.inr noMacro) ?_
      rw [sIf_assembling (by omega) assembling, evaluate_reads reads]
    have restGoes := rest.goes_assembling assembling noMacro (by omega) restFormed restPlain
    rw [Block.text, List.append_assoc, List.append_assoc, List.append_assoc, Block.selected]
    refine enter.silently ?_
    by_cases zero : condition.value = 0
    · have ignored : (state.enter.decided .ifCond condition).theCondState.ignore = true := by
        rw [ReadState.decided, zero]
        rfl
      simp only [zero, ne_eq, not_true_eq_false, decide_false, decide_true, Bool.and_false, Bool.and_true,
        if_true] at bodyFormed bodyPlain armsFormed armsPlain ⊢
      have bodyGoes := body.goes_ignored ignored (by omega) bodyFormed bodyPlain
      have armsGoes : Goes source (state.enter.decided .ifCond condition) (arms.text ++ (rest.text ++ more)) state
          (rest.text ++ more) arms.selected :=
        arms.goes_assembling ⟨rfl, rfl⟩ assembling (by rw [ReadState.decided, zero]; rfl) noMacro (by omega)
          armsFormed armsPlain
      exact bodyGoes.silently (armsGoes.trans restGoes)
    · have some_ : condition.value.setWidth 32 ≠ (0 : BitVec 32) := fun same => zero (narrow rfl same)
      have selected : (state.enter.decided .ifCond condition).theCondState.ignore = false := decide_eq_false some_
      simp only [zero, ne_eq, not_false_eq_true, decide_false, decide_true, Bool.and_false, Bool.and_true,
        if_false] at bodyFormed bodyPlain armsFormed armsPlain ⊢
      have bodyGoes := body.goes_assembling selected noMacro (by omega) bodyFormed bodyPlain
      have armsGoes : Goes source (state.enter.decided .ifCond condition) (arms.text ++ (rest.text ++ more)) state
          (rest.text ++ more) [] :=
        arms.goes_ignored ⟨rfl, rfl⟩ (by rw [assembling, Bool.false_or]; exact decide_eq_true some_) (.inr noMacro)
          (by omega) armsFormed armsPlain
      exact (bodyGoes.ends armsGoes).trans restGoes

theorem Arms.goes_assembling (arms : Arms) {state : ReadState} {last : CondState} {others : List CondState}
    {more : Text} (group : InGroup state last others) (assembling : last.ignore = false)
    (notMet : state.theCondState.condMet = 0) (noMacro : state.definingMacro = false)
    (room : state.lastStates.length + arms.depth ≤ maxIfDepth) (wellFormed : arms.WellFormed source true more)
    (plain : arms.Plain source true) :
    Goes source state (arms.text ++ more) (state.leave last others) more arms.selected := by
  match arms with
  | .endif indent => exact goes_endif group.inside group.stack (.inr noMacro) indent more
  | .else_ indent body endIndent =>
    have elseGoes := @goes_else source _ _ _ group (.inr noMacro) indent
      (body.text ++ (bareLine endIndent .sEndif ++ more))
    rw [assembling, notMet] at elseGoes
    have bodyGoes : Goes source (state.arm .elseCond false) (body.text ++ _) (state.arm .elseCond false) _
        body.selected := body.goes_assembling rfl noMacro room wellFormed plain
    have endGoes : Goes source (state.arm .elseCond false) (bareLine endIndent .sEndif ++ more)
        (state.leave last others) more [] :=
      @goes_endif source (state.arm .elseCond false) last others (by nofun) group.stack (.inr noMacro) endIndent more
    rw [Arms.text, List.append_assoc, List.append_assoc, Arms.selected]
    exact elseGoes.silently (bodyGoes.ends endGoes)
  | .elseif indent condition body arms =>
    obtain ⟨reads, bodyFormed, armsFormed⟩ := wellFormed
    obtain ⟨narrow, bodyPlain, armsPlain⟩ := plain
    rw [Arms.depth] at room
    have sameDepth : (state.decided .elseifCond condition).lastStates.length = state.lastStates.length := rfl
    have next : Goes source state (conditionLine indent .sElseif condition ++ (body.text ++ (arms.text ++ more)))
        (state.decided .elseifCond condition) (body.text ++ (arms.text ++ more)) [] := by
      refine goes_elseif reads (.inr noMacro) ?_
      rw [sElseif, if_pos group.inArm, group.lastIgnore, assembling, notMet]
      exact congrArg Except.ok (evaluate_reads reads)
    rw [Arms.text, List.append_assoc, List.append_assoc, Arms.selected]
    refine next.silently ?_
    by_cases zero : condition.value = 0
    · have ignored : (state.decided .elseifCond condition).theCondState.ignore = true := by
        rw [ReadState.decided, zero]
        rfl
      simp only [zero, ne_eq, not_true_eq_false, decide_false, decide_true, Bool.and_false, Bool.and_true,
        if_true] at bodyFormed bodyPlain armsFormed armsPlain ⊢
      have bodyGoes := body.goes_ignored ignored (by omega) bodyFormed bodyPlain
      have armsGoes : Goes source (state.decided .elseifCond condition) (arms.text ++ more)
          (state.leave last others) more arms.selected :=
        arms.goes_assembling ⟨group.stack, rfl⟩ assembling (by rw [ReadState.decided, zero]; rfl)
          noMacro (by omega) armsFormed armsPlain
      exact bodyGoes.silently armsGoes
    · have some_ : condition.value.setWidth 32 ≠ (0 : BitVec 32) := fun same => zero (narrow rfl same)
      have selected : (state.decided .elseifCond condition).theCondState.ignore = false := decide_eq_false some_
      simp only [zero, ne_eq, not_false_eq_true, decide_false, decide_true, Bool.and_false, Bool.and_true,
        if_false] at bodyFormed bodyPlain armsFormed armsPlain ⊢
      have bodyGoes := body.goes_assembling selected noMacro (by omega) bodyFormed bodyPlain
      have armsGoes : Goes source (state.decided .elseifCond condition) (arms.text ++ more)
          (state.leave last others) more [] :=
        arms.goes_ignored ⟨group.stack, rfl⟩ (by rw [assembling, Bool.false_or]; exact decide_eq_true some_)
          (.inr noMacro) (by omega) armsFormed armsPlain
      exact bodyGoes.ends armsGoes

end

/-- **Exactly the lines of selected arms are assembled, and the condition state is restored.** -/
theorem parseABuffer_block {block : Block} {state : ReadState} (assembling : state.theCondState.ignore = false)
    (noMacro : state.definingMacro = false) (room : state.lastStates.length + block.depth ≤ maxIfDepth)
    (wellFormed : block.WellFormed source true []) (plain : block.Plain source true) :
    ∃ fuel, ∀ enough ≥ fuel, parseABuffer source enough state block.text = .ok (state, block.selected) := by
  have goes := block.goes_assembling assembling noMacro room wellFormed plain
  rw [List.append_nil] at goes
  exact goes.parse

/-! ## Two programs -/

def decimalValue (text : Text) : BitVec 64 :=
  text.foldl (fun value c => value * 10 + BitVec.ofNat 64 (c.toNat - 48)) 0

def isDigit (c : UInt8) : Bool := 48 ≤ c && c ≤ 57

/-- Expressions are decimal numbers, and a statement is a line. -/
def decimalSource : Source where
  atSign := false
  getAbsoluteExpression text := (decimalValue (text.takeWhile isDigit), text.dropWhile isDigit)
  statement state text := (state, (text.dropWhile (· ≠ newline)).drop 1)
  macroLine state text := (state, (text.dropWhile (· ≠ newline)).drop 1)

def nopIf (condition : Expression) : Block :=
  .group .none condition (.other (ascii "nop\n") .done) (.endif .none) .done

def four : Expression := ⟨ascii "4", 4⟩

/-- `.if 4294967296` -/
def wide : Expression := ⟨ascii "4294967296", 4294967296⟩

theorem assembles_nop (more : Text) : Assembles decimalSource more (ascii "nop\n") :=
  .statement (by decide) (fun _ => by nofun) (by decide) List.nil_suffix (fun _ _ _ => rfl) .done

theorem nopIf_wellFormed (reads : ∀ more, condition.Reads decimalSource true more) :
    (nopIf condition).WellFormed decimalSource true [] :=
  ⟨reads _, ⟨.inr (by decide), fun _ => assembles_nop _, trivial⟩, trivial, trivial⟩

theorem four_reads (more : Text) : four.Reads decimalSource true more :=
  ⟨by decide +kernel, by decide +kernel, fun _ => rfl⟩

theorem wide_reads (more : Text) : wide.Reads decimalSource true more :=
  ⟨by decide +kernel, by decide +kernel, fun _ => rfl⟩

theorem parseABuffer_block_four : ∃ fuel, ∀ enough ≥ fuel,
    parseABuffer decimalSource enough .start (nopIf four).text = .ok (.start, (nopIf four).selected) :=
  parseABuffer_block rfl rfl (by decide) (nopIf_wellFormed four_reads)
    ⟨fun _ same => absurd same (by decide), ⟨nofun, trivial⟩, trivial, trivial⟩

/-- **A value that is not zero but a multiple of 2^32 does not select its arm.** -/
theorem narrow_value_ignored : (nopIf wide).WellFormed decimalSource true [] ∧
    (nopIf wide).selected = ascii "nop\n" ∧
    ∀ fuel, parseABuffer decimalSource (fuel + 3) .start (nopIf wide).text = .ok (.start, []) :=
  ⟨nopIf_wellFormed wide_reads, by decide, fun fuel => by cases fuel <;> rfl⟩

/-- A string with a separator and `.endif` in a block that is ignored. -/
def hiddenEndif : Block :=
  .group .none ⟨ascii "0", 0⟩ (.other (ascii ".ascii \"a;.endif\"\n") .done) (.endif .none) .done

theorem string_ends_block : hiddenEndif.selected = [] ∧ ∀ fuel, parseABuffer decimalSource (fuel + 4) .start
    hiddenEndif.text = .error "Encountered a .endif that doesn't follow a .if or .else" :=
  ⟨rfl, fun _ => rfl⟩

end Cctools.Read
