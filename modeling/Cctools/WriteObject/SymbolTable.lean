/-
# Cctools.WriteObject.SymbolTable -- the symbol table is consistent

The passes over the symbols classify each alike, so numbers and string offsets are where
the writer puts entries and strings (`Layout.Consistent`).

`layoutSymbols_consistent_iff` has the condition: counters that do not wrap, and no name
that is read of a symbol without one.  `.stabd` makes such symbols, also external ones
(`stabd_sorted`).
-/
import Cctools.WriteObject.Symbols
import Mathlib.Tactic.Common
import Mathlib.Algebra.GroupWithZero.Nat

namespace Cctools.WriteObject

set_option autoImplicit false

/-! ## strcmp -/

theorem strcmp_total (left right : List UInt8) : strcmp left right ≠ .gt ∨ strcmp right left ≠ .gt := by
  induction left generalizing right with
  | nil => cases right <;> simp [strcmp]
  | cons a as ih =>
    cases right with
    | nil => simp [strcmp]
    | cons b bs =>
      by_cases same : a = b
      · subst same
        simpa [strcmp] using ih bs
      · rcases UInt8.lt_or_lt_of_ne same with less | less
        · exact .inl (by simp [strcmp, same, less])
        · exact .inr (by simp [strcmp, Ne.symm same, less])

theorem strcmp_cons {a b : UInt8} {as bs : List UInt8} :
    strcmp (a :: as) (b :: bs) ≠ .gt ↔ a < b ∨ a = b ∧ strcmp as bs ≠ .gt := by
  rw [strcmp]
  by_cases same : a = b
  · subst same
    simp
  · by_cases less : a < b <;> simp [same, less]

theorem strcmp_trans {first second third : List UInt8} (here : strcmp first second ≠ .gt)
    (there : strcmp second third ≠ .gt) : strcmp first third ≠ .gt := by
  induction first generalizing second third with
  | nil => cases third <;> simp [strcmp]
  | cons a as ih =>
    cases second with
    | nil => simp [strcmp] at here
    | cons b bs =>
      cases third with
      | nil => simp [strcmp] at there
      | cons c cs =>
        rw [strcmp_cons] at here there ⊢
        rcases here with less | ⟨rfl, here⟩
        · rcases there with further | ⟨rfl, -⟩
          · exact .inl (UInt8.lt_trans less further)
          · exact .inl less
        · exact there.imp id fun ⟨same, there⟩ => ⟨same, ih here there⟩

section Table

variable {width : Nat} {symbols sorted : List (Symbol width)}

theorem qsort_perm (sorts : qsort symbols = some sorted) :
    sorted.Perm symbols := by
  unfold qsort at sorts
  split at sorts
  · cases sorts
    exact .refl _
  · split at sorts
    · cases sorts
      exact List.mergeSort_perm _ _
    · cases sorts

theorem qsort_sorted (sorts : qsort symbols = some sorted) :
    sorted.Pairwise fun left right => nameLe left right = true := by
  unfold qsort at sorts
  split at sorts
  · rename_i short
    cases sorts
    match symbols, short with
    | [], _ => exact .nil
    | [symbol], _ => exact List.pairwise_singleton _ _
  · split at sorts
    · cases sorts
      apply List.pairwise_mergeSort
      · intro first second third here there
        simp only [nameLe, decide_eq_true_eq, ne_eq] at here there ⊢
        exact strcmp_trans here there
      · intro left right
        simpa [nameLe] using strcmp_total left.nameBytes right.nameBytes
    · cases sorts

/-- Two symbols or more have names. -/
def Sortable (symbols : List (Symbol width)) : Prop :=
  symbols.length ≤ 1 ∨ ∀ symbol ∈ symbols, symbol.name.isSome = true

theorem qsort_isSome_iff (symbols : List (Symbol width)) : (∃ sorted, qsort symbols = some sorted) ↔ Sortable symbols := by
  unfold qsort Sortable
  split
  · rename_i short
    exact ⟨fun _ => .inl short, fun _ => ⟨_, rfl⟩⟩
  · rename_i long
    split
    · rename_i named
      exact ⟨fun _ => .inr (by simpa using named), fun _ => ⟨_, rfl⟩⟩
    · rename_i nameless
      refine ⟨nofun, fun sortable => ?_⟩
      rcases sortable with short | named
      · exact absurd short long
      · exact absurd (List.all_eq_true.mpr named) nameless

/-! ## What is kept -/

/-- Without what `layout_symbols` assigns. -/
def Symbol.bare (symbol : Symbol width) : Symbol width := { symbol with nameOffset := 0, number := 0 }

def Symbol.settled (symbol : Symbol width) : Symbol width :=
  if !symbol.isTemporary && symbol.type = nUndf then { symbol with type := symbol.type ||| nExt } else symbol

def Symbol.survives (options : Options) (symbol : Symbol width) : Bool :=
  !symbol.isTemporary ||
    !symbol.isUndefined && (options.keepTemporaries || symbol.isExtern || options.isSectionCstringLiterals symbol.sect)

/-- The symbols that the table is of. -/
def keptSymbols (options : Options) (symbols : List (Symbol width)) : List (Symbol width) :=
  (symbols.filter (Symbol.survives options)).map Symbol.settled

def strings (symbols : List (Symbol width)) : List UInt8 := symbols.flatMap Symbol.string

def Counts.tally (counts : Counts) (kept : List (Symbol width)) : Counts :=
  { counts with
    symbolNumber := counts.symbolNumber + BitVec.ofNat 32 (kept.countP Symbol.isLocal)
    stringByteCount := counts.stringByteCount + BitVec.ofNat 32 (strings (kept.filter Symbol.isExtern)).length
    nlocalsym := counts.nlocalsym + BitVec.ofNat 32 (kept.countP Symbol.isLocal)
    nextdefsym := counts.nextdefsym + BitVec.ofNat 32 (kept.countP Symbol.isExtdef)
    nundefsym := counts.nundefsym + BitVec.ofNat 32 (kept.countP Symbol.isUndef) }

def Symbol.assign (symbol : Symbol width) (stringByteCount symbolNumber : BitVec 32) : Symbol width :=
  if symbol.isExtern then symbol.placed stringByteCount else { symbol with number := symbolNumber }

/-- Local symbols are numbered, external ones have their strings placed. -/
def place (stringByteCount symbolNumber : BitVec 32) : List (Symbol width) → List (Symbol width)
  | [] => []
  | symbol :: rest =>
    symbol.assign stringByteCount symbolNumber ::
      place (stringByteCount + (if symbol.isExtern then symbol.stringSize else 0))
        (symbolNumber + (if symbol.isExtern then 0 else 1)) rest

/-! ## The first pass -/

variable {symbol : Symbol width}

theorem settled_of_temporary (temporary : symbol.isTemporary = true) :
    symbol.settled = symbol := by
  simp [Symbol.settled, temporary]

theorem placed_of_name {name : CString} (named : symbol.name = some name)
    (stringByteCount : BitVec 32) : symbol.placed stringByteCount = { symbol with nameOffset := stringByteCount } := by
  simp [Symbol.placed, named]

theorem stringSize_of_nameless (nameless : symbol.name = none) : symbol.stringSize = 0 := by
  simp [Symbol.stringSize, Symbol.string, nameless]

theorem isTemporary_name (temporary : symbol.isTemporary = true) :
    ∃ name, symbol.name = some name := by
  simp only [Symbol.isTemporary, Bool.and_eq_true, Option.any_eq_true] at temporary
  obtain ⟨-, name, named, -⟩ := temporary
  exact ⟨name, named⟩

theorem tally_single (counts : Counts) (symbol : Symbol width) :
    counts.tally [symbol] =
      if symbol.isExtern then
        { counts with
          stringByteCount := counts.stringByteCount + symbol.stringSize
          nextdefsym := counts.nextdefsym + (if symbol.isUndefined then 0 else 1)
          nundefsym := counts.nundefsym + (if symbol.isUndefined then 1 else 0) }
      else counts.countLocal := by
  cases extern_ : symbol.isExtern <;> cases undefined : symbol.isUndefined <;>
    simp [Counts.tally, Counts.countLocal, Symbol.isLocal, Symbol.isExtdef, Symbol.isUndef, strings,
      Symbol.stringSize, extern_, undefined]

theorem survives_of_temporary {options : Options} (temporary : symbol.isTemporary = true)
    (defined : symbol.isUndefined = false) : symbol.survives options =
      (options.keepTemporaries || symbol.isExtern || options.isSectionCstringLiterals symbol.sect) := by
  simp [Symbol.survives, temporary, defined]

/-- One symbol is counted in its class and placed, or left out. -/
theorem layoutSymbol_spec (options : Options) (counts : Counts) (symbol : Symbol width) :
    ∃ complaints, layoutSymbol options counts symbol =
      if symbol.survives options then
        ({ counts.tally [symbol.settled] with complaints },
          some (symbol.settled.assign counts.stringByteCount counts.symbolNumber))
      else ({ counts with complaints }, none) := by
  by_cases temporary : symbol.isTemporary = true
  · obtain ⟨name, named⟩ := isTemporary_name temporary
    rw [settled_of_temporary temporary, layoutSymbol, if_pos temporary, tally_single]
    cases undefined : symbol.isUndefined with
    | true => exact ⟨_, by rw [if_pos rfl, if_neg (by simp [Symbol.survives, temporary, undefined])]⟩
    | false =>
      refine ⟨counts.complaints, ?_⟩
      rw [survives_of_temporary temporary undefined, if_neg Bool.false_ne_true]
      split
      · cases extern_ : symbol.isExtern <;>
          simp [Symbol.assign, extern_, placed_of_name named, Counts.countLocal]
      · rfl
  · refine ⟨counts.complaints, ?_⟩
    have settles : (if symbol.type = nUndf then { symbol with type := symbol.type ||| nExt } else symbol)
        = symbol.settled := by
      rw [Symbol.settled]
      simp only [Bool.not_eq_true] at temporary
      simp only [temporary, Bool.not_false, Bool.true_and, decide_eq_true_eq]
    have survives : symbol.survives options = true := by
      simp only [Bool.not_eq_true] at temporary
      rw [Symbol.survives, temporary, Bool.not_false, Bool.true_or]
    rw [layoutSymbol, if_neg temporary, settles, if_pos survives, tally_single]
    dsimp only
    generalize symbol.settled = symbol
    cases extern_ : symbol.isExtern with
    | false => simp [Symbol.assign, extern_, Counts.countLocal]
    | true =>
      cases named : symbol.name with
      | none =>
        cases undefined : symbol.isUndefined <;>
          simp [Symbol.assign, extern_, Symbol.placed, named, stringSize_of_nameless named]
      | some name =>
        cases undefined : symbol.isUndefined <;>
          simp [Symbol.assign, extern_, placed_of_name named, named]

theorem tally_append (counts : Counts) (before after : List (Symbol width)) :
    counts.tally (before ++ after) = (counts.tally before).tally after := by
  simp [Counts.tally, strings, List.countP_append, BitVec.ofNat_add, BitVec.add_assoc]

theorem place_cons (counts : Counts) (symbol : Symbol width) (rest : List (Symbol width)) :
    place counts.stringByteCount counts.symbolNumber (symbol :: rest) =
      symbol.assign counts.stringByteCount counts.symbolNumber ::
        place (counts.tally [symbol]).stringByteCount (counts.tally [symbol]).symbolNumber rest := by
  rw [tally_single, place]
  cases symbol.isExtern <;> simp [Counts.countLocal]

theorem firstPass_spec (options : Options) (counts : Counts) (symbols : List (Symbol width)) :
    ∃ complaints, firstPass options counts symbols =
      ({ counts.tally (keptSymbols options symbols) with complaints },
        place counts.stringByteCount counts.symbolNumber (keptSymbols options symbols)) := by
  induction symbols generalizing counts with
  | nil => exact ⟨counts.complaints, by simp [firstPass, keptSymbols, Counts.tally, strings, place]⟩
  | cons symbol rest ih =>
    obtain ⟨here, laid⟩ := layoutSymbol_spec options counts symbol
    rw [firstPass, laid]
    by_cases survives : symbol.survives options = true
    · obtain ⟨complaints, later⟩ := ih { counts.tally [symbol.settled] with complaints := here }
      have kept : keptSymbols options (symbol :: rest) = [symbol.settled] ++ keptSymbols options rest := by
        simp [keptSymbols, survives]
      refine ⟨complaints, ?_⟩
      rw [if_pos survives]
      dsimp only
      rw [later, kept, tally_append, List.singleton_append, place_cons]
      rfl
    · obtain ⟨complaints, later⟩ := ih { counts with complaints := here }
      have kept : keptSymbols options (symbol :: rest) = keptSymbols options rest := by
        simp [keptSymbols, survives]
      refine ⟨complaints, ?_⟩
      rw [if_neg survives]
      dsimp only
      rw [later, kept]
      rfl

/-! ## Strings -/

/-- The selected symbols have their strings in order. -/
def Located (select : Symbol width → Bool) : BitVec 32 → List (Symbol width) → Prop
  | _, [] => True
  | start, symbol :: rest =>
    (select symbol = true → symbol.nameOffset = if symbol.name.isSome then start else 0) ∧
      Located select (start + if select symbol then symbol.stringSize else 0) rest

@[simp] theorem assign_isExtern (symbol : Symbol width) (stringByteCount symbolNumber : BitVec 32) :
    (symbol.assign stringByteCount symbolNumber).isExtern = symbol.isExtern := by
  unfold Symbol.assign
  split <;> rfl

@[simp] theorem assign_bare (symbol : Symbol width) (stringByteCount symbolNumber : BitVec 32) :
    (symbol.assign stringByteCount symbolNumber).bare = symbol.bare := by
  unfold Symbol.assign
  split <;> rfl

theorem assign_stringSize (symbol : Symbol width) (stringByteCount symbolNumber : BitVec 32) :
    (symbol.assign stringByteCount symbolNumber).stringSize = symbol.stringSize := by
  unfold Symbol.assign
  split <;> rfl

theorem place_located (stringByteCount symbolNumber : BitVec 32) (symbols : List (Symbol width)) :
    Located Symbol.isExtern stringByteCount (place stringByteCount symbolNumber symbols) := by
  induction symbols generalizing stringByteCount symbolNumber with
  | nil => trivial
  | cons symbol rest ih =>
    rw [place, Located, assign_isExtern, assign_stringSize]
    refine ⟨fun extern_ => ?_, ih _ _⟩
    rw [Symbol.assign, if_pos extern_]
    rfl

theorem place_bare (stringByteCount symbolNumber : BitVec 32) (symbols : List (Symbol width)) :
    (place stringByteCount symbolNumber symbols).map Symbol.bare = symbols.map Symbol.bare := by
  induction symbols generalizing stringByteCount symbolNumber with
  | nil => rfl
  | cons symbol rest ih => rw [place, List.map_cons, List.map_cons, ih, assign_bare]

theorem secondPass_bare (stringByteCount : BitVec 32) (chain : List (Symbol width)) :
    (secondPass stringByteCount chain).2.map Symbol.bare = chain.map Symbol.bare := by
  induction chain generalizing stringByteCount with
  | nil => rfl
  | cons symbol rest ih =>
    rw [secondPass]
    split
    · exact congrArg (symbol.bare :: ·) (ih _)
    · exact congrArg (symbol.bare :: ·) (ih _)

variable {chain : List (Symbol width)}

theorem secondPass_externs (stringByteCount start : BitVec 32) (located : Located Symbol.isExtern start chain) :
    Located Symbol.isExtern start (secondPass stringByteCount chain).2 := by
  induction chain generalizing stringByteCount start with
  | nil => exact located
  | cons symbol rest ih =>
    obtain ⟨here, later⟩ := located
    rw [secondPass]
    split
    · exact ⟨here, ih _ _ later⟩
    · rename_i isLocal
      exact ⟨fun extern_ => absurd extern_ isLocal, ih _ _ later⟩

theorem secondPass_local (stringByteCount : BitVec 32) (chain : List (Symbol width)) :
    Located Symbol.isLocal stringByteCount (secondPass stringByteCount chain).2 := by
  induction chain generalizing stringByteCount with
  | nil => trivial
  | cons symbol rest ih =>
    rw [secondPass]
    split
    · rename_i extern_
      refine ⟨fun isLocal => absurd isLocal (by simp [Symbol.isLocal, extern_]), ?_⟩
      simpa [Symbol.isLocal, extern_] using ih stringByteCount
    · rename_i isLocal
      refine ⟨fun _ => rfl, ?_⟩
      have here : (symbol.placed stringByteCount).isLocal = true := by
        simpa [Symbol.isLocal, Symbol.isExtern, Symbol.placed] using isLocal
      rw [if_pos here]
      exact ih _

theorem secondPass_count (stringByteCount : BitVec 32) (chain : List (Symbol width)) :
    (secondPass stringByteCount chain).1 =
      stringByteCount + BitVec.ofNat 32 (strings (chain.filter Symbol.isLocal)).length := by
  induction chain generalizing stringByteCount with
  | nil => simp [secondPass, strings]
  | cons symbol rest ih =>
    rw [secondPass]
    split
    · rename_i extern_
      rw [List.filter_cons_of_neg (by simp [Symbol.isLocal, extern_])]
      exact ih _
    · rename_i isLocal
      rw [List.filter_cons_of_pos (by simpa [Symbol.isLocal] using isLocal)]
      refine (ih _).trans ?_
      simp [strings, Symbol.stringSize, BitVec.ofNat_add, BitVec.add_assoc]

theorem Located.string {select : Symbol width → Bool} {start : BitVec 32}
    (located : Located select start chain) (member : symbol ∈ chain)
    (selected : select symbol = true) :
    ∃ before after, strings (chain.filter select) = before ++ (symbol.string ++ after) ∧
      symbol.nameOffset = if symbol.name.isSome then start + BitVec.ofNat 32 before.length else 0 := by
  induction chain generalizing start with
  | nil => cases member
  | cons first rest ih =>
    obtain ⟨here, later⟩ := located
    rcases List.mem_cons.mp member with rfl | further
    · refine ⟨[], strings (rest.filter select), ?_, ?_⟩
      · rw [List.filter_cons_of_pos selected]
        rfl
      · rw [here selected]
        simp
    · obtain ⟨before, after, parts, offset⟩ := ih later further
      cases chosen : select first with
      | true =>
        refine ⟨first.string ++ before, after, ?_, ?_⟩
        · rw [List.filter_cons_of_pos chosen, List.append_assoc, ← parts]
          rfl
        · rw [offset, chosen]
          simp [Symbol.stringSize, BitVec.ofNat_add, BitVec.add_assoc]
      | false =>
        refine ⟨before, after, ?_, ?_⟩
        · rw [List.filter_cons_of_neg (by simp [chosen]), parts]
        · rw [offset, chosen]
          simp

/-! ## Numbers -/

def Numbered : BitVec 32 → List (Symbol width) → Prop
  | _, [] => True
  | symbolNumber, symbol :: rest => symbol.number = symbolNumber ∧ Numbered (symbolNumber + 1) rest

variable {symbolNumber : BitVec 32}

theorem Numbered.append {before after : List (Symbol width)}
    (first : Numbered symbolNumber before) (second : Numbered (symbolNumber + BitVec.ofNat 32 before.length) after) :
    Numbered symbolNumber (before ++ after) := by
  induction before generalizing symbolNumber with
  | nil => simpa using second
  | cons symbol rest ih =>
    refine ⟨first.1, ih first.2 ?_⟩
    rw [List.length_cons, Nat.add_comm, BitVec.ofNat_add, ← BitVec.add_assoc] at second
    exact second

variable {symbols : List (Symbol width)}

theorem Numbered.get (numbered : Numbered symbolNumber symbols) {i : Nat} (at_ : symbols[i]? = some symbol) :
    symbol.number = symbolNumber + BitVec.ofNat 32 i := by
  induction symbols generalizing symbolNumber i with
  | nil => cases at_
  | cons first rest ih =>
    cases i with
    | zero =>
      cases at_
      simpa using numbered.1
    | succ i =>
      rw [ih numbered.2 at_, Nat.add_comm i 1, BitVec.ofNat_add, BitVec.add_assoc]
      rfl

theorem place_numbered (stringByteCount symbolNumber : BitVec 32) (symbols : List (Symbol width)) :
    Numbered symbolNumber ((place stringByteCount symbolNumber symbols).filter Symbol.isLocal) := by
  induction symbols generalizing stringByteCount symbolNumber with
  | nil => trivial
  | cons symbol rest ih =>
    rw [place]
    cases extern_ : symbol.isExtern with
    | true =>
      rw [List.filter_cons_of_neg (by simp [Symbol.isLocal, extern_])]
      simpa using ih _ symbolNumber
    | false =>
      rw [List.filter_cons_of_pos (by simp [Symbol.isLocal, extern_])]
      exact ⟨by simp [Symbol.assign, extern_], ih _ _⟩

theorem secondPass_numbered (stringByteCount symbolNumber : BitVec 32)
    (numbered : Numbered symbolNumber (chain.filter Symbol.isLocal)) :
    Numbered symbolNumber ((secondPass stringByteCount chain).2.filter Symbol.isLocal) := by
  induction chain generalizing stringByteCount symbolNumber with
  | nil => exact numbered
  | cons symbol rest ih =>
    rw [secondPass]
    split
    · rename_i extern_
      have skipped : ¬ symbol.isLocal = true := by simp [Symbol.isLocal, extern_]
      rw [List.filter_cons_of_neg skipped] at numbered ⊢
      exact ih _ _ numbered
    · rename_i isLocal
      have taken : symbol.isLocal = true := by simpa [Symbol.isLocal] using isLocal
      have placed : (symbol.placed stringByteCount).isLocal = true := taken
      rw [List.filter_cons_of_pos taken] at numbered
      rw [List.filter_cons_of_pos placed]
      exact ⟨numbered.1, ih _ _ numbered.2⟩

theorem numberFrom_numbered (symbolNumber : BitVec 32) (symbols : List (Symbol width)) :
    Numbered symbolNumber (numberFrom symbolNumber symbols).2 := by
  induction symbols generalizing symbolNumber with
  | nil => trivial
  | cons symbol rest ih => exact ⟨rfl, ih _⟩

theorem numberFrom_count (symbolNumber : BitVec 32) (symbols : List (Symbol width)) :
    (numberFrom symbolNumber symbols).1 = symbolNumber + BitVec.ofNat 32 symbols.length := by
  induction symbols generalizing symbolNumber with
  | nil => simp [numberFrom]
  | cons symbol rest ih =>
    rw [List.length_cons, Nat.add_comm, BitVec.ofNat_add, ← BitVec.add_assoc]
    exact ih _

/-! ## Checksums -/

/-- The names that are summed are there; `ranges` says which ranges are summed. -/
def sumsNamed : List Bool → List (Symbol width) → Bool
  | _, [] => true
  | ranges, symbol :: rest =>
    if !symbol.isStab then sumsNamed ranges rest
    else if symbol.type = nBincl then sumsNamed (decide (symbol.value = 0) :: ranges) rest
    else if symbol.type = nEincl then sumsNamed ranges.tail rest
    else if disqualifying.contains symbol.type then
      match ranges with
      | [] => sumsNamed [] rest
      | _ :: parents => sumsNamed (false :: parents) rest
    else if symbol.type = nExcl then sumsNamed ranges rest
    else (ranges.head? = some true → symbol.name.isSome) && sumsNamed ranges rest

theorem binclChecksums_isSome (ranges : List HeaderRange) (chain : List (Symbol width)) :
    (binclChecksums ranges chain).isSome = sumsNamed (ranges.map HeaderRange.okToChecksum) chain := by
  induction chain generalizing ranges with
  | nil => rfl
  | cons symbol rest ih =>
    rw [binclChecksums.eq_def, sumsNamed.eq_def]
    dsimp only
    split
    · exact ih ranges
    split
    · exact ih _
    split
    · cases ranges with
      | nil => exact ih []
      | cons range parents => simpa using ih parents
    split
    · cases ranges with
      | nil => exact ih []
      | cons range parents => exact ih _
    split
    · exact ih ranges
    · cases ranges with
      | nil => simpa using ih []
      | cons range parents =>
        cases ok : range.okToChecksum with
        | false => simpa [ok] using ih (range :: parents)
        | true =>
          cases named : symbol.name with
          | none => simp [ok]
          | some name => simpa [ok] using ih ({ range with sum := range.sum + sumName false name.bytes } :: parents)

variable {left right : List (Symbol width)}

theorem sumsNamed_congr (ranges : List Bool)
    (same : left.map Symbol.bare = right.map Symbol.bare) : sumsNamed ranges left = sumsNamed ranges right := by
  have bare (ranges : List Bool) (chain : List (Symbol width)) :
      sumsNamed ranges (chain.map Symbol.bare) = sumsNamed ranges chain := by
    induction chain generalizing ranges with
    | nil => rfl
    | cons symbol rest ih =>
      rw [List.map_cons, sumsNamed.eq_def, sumsNamed.eq_def ranges (symbol :: rest)]
      cases ranges <;> simp only [ih] <;> rfl
  rw [← bare, same, bare]

theorem setBinclChecksums_value {chain after : List (Symbol width)} (sets : setBinclChecksums chain = some after) :
    ∃ value : Symbol width → BitVec width, after = chain.map fun symbol => { symbol with value := value symbol } := by
  obtain ⟨sums, -, rfl⟩ := Option.map_eq_some_iff.mp sets
  refine ⟨fun symbol =>
    ((sums.find? fun entry => entry.1 = symbol.address).map fun entry => entry.2.setWidth width).getD symbol.value,
    List.map_congr_left fun symbol _ => ?_⟩
  dsimp only
  cases sums.find? fun entry => entry.1 = symbol.address <;> rfl

/-! ## The layout -/

/-- Without values too. -/
def Symbol.core (symbol : Symbol width) : Symbol width := { symbol.bare with value := 0 }

/-- The chain before the checksums. -/
def placedChain (kept : List (Symbol width)) : List (Symbol width) :=
  (secondPass (Counts.start.tally kept).stringByteCount (place 1 0 kept)).2

def hasBincl (symbols : List (Symbol width)) : Bool :=
  symbols.any fun symbol => symbol.isLocal && symbol.name.isSome && symbol.type = nBincl

theorem placedChain_bare (kept : List (Symbol width)) : (placedChain kept).map Symbol.bare = kept.map Symbol.bare := by
  rw [placedChain, secondPass_bare, place_bare]

variable {p : Symbol width → Bool}

theorem any_congr (blind : ∀ symbol : Symbol width, p symbol.bare = p symbol)
    (same : left.map Symbol.bare = right.map Symbol.bare) :
    left.any p = right.any p := by
  have bare (symbols : List (Symbol width)) : (symbols.map Symbol.bare).any p = symbols.any p := by
    rw [List.any_map]
    exact congrArg (List.any symbols) (funext blind)
  rw [← bare, same, bare]

theorem layoutSymbols_eq (options : Options) (symbols : List (Symbol width)) :
    ∃ complaints, layoutSymbols options symbols =
      (qsort ((placedChain (keptSymbols options symbols)).filter Symbol.isExtdef)).bind fun extdefsyms =>
        (qsort ((placedChain (keptSymbols options symbols)).filter Symbol.isUndef)).bind fun undefsyms =>
          (if hasBincl (keptSymbols options symbols) then setBinclChecksums (placedChain (keptSymbols options symbols))
            else some (placedChain (keptSymbols options symbols))).map fun chain =>
              let counts := Counts.start.tally (keptSymbols options symbols)
              let afterExtdef := numberFrom counts.symbolNumber extdefsyms
              let afterUndef := numberFrom afterExtdef.1 undefsyms
              ⟨chain, afterExtdef.2, afterUndef.2, counts.nlocalsym, counts.nextdefsym, counts.nundefsym,
                afterUndef.1, (secondPass counts.stringByteCount (place 1 0 (keptSymbols options symbols))).1,
                complaints⟩ := by
  obtain ⟨complaints, passed⟩ := firstPass_spec options Counts.start symbols
  refine ⟨complaints ++ weakComplaints (place 1 0 (keptSymbols options symbols)), ?_⟩
  have seen : hasBincl (placedChain (keptSymbols options symbols)) = hasBincl (keptSymbols options symbols) :=
    any_congr (fun _ => rfl) (placedChain_bare _)
  rw [layoutSymbols, passed, ← seen]
  refine Option.bind_congr fun extdefsyms _ => Option.bind_congr fun undefsyms _ => ?_
  rw [Option.map_eq_bind]
  change (if hasBincl (placedChain (keptSymbols options symbols)) then _ else _) = _
  cases hasBincl (placedChain (keptSymbols options symbols)) <;> rfl

/-- An array with the symbols of a class. -/
structure ArrayOf (isClass : Symbol width → Bool) (start : BitVec 32) (kept chain array : List (Symbol width)) : Prop where
  numbered : Numbered start array
  sorted : array.Pairwise fun left right => nameLe left right = true
  core : (array.map Symbol.core).Perm ((kept.filter isClass).map Symbol.core)
  member : ∀ symbol ∈ array, isClass symbol = true ∧
    ∃ same ∈ chain, isClass same = true ∧ symbol.name = same.name ∧ symbol.nameOffset = same.nameOffset

theorem numberFrom_core (symbolNumber : BitVec 32) (symbols : List (Symbol width)) :
    (numberFrom symbolNumber symbols).2.map Symbol.core = symbols.map Symbol.core := by
  induction symbols generalizing symbolNumber with
  | nil => rfl
  | cons symbol rest ih => exact congrArg (symbol.core :: ·) (ih _)

theorem numberFrom_member (member : symbol ∈ (numberFrom symbolNumber symbols).2) :
    ∃ before ∈ symbols, symbol = { before with number := symbol.number } := by
  induction symbols generalizing symbolNumber with
  | nil => cases member
  | cons first rest ih =>
    rcases List.mem_cons.mp member with rfl | later
    · exact ⟨first, List.mem_cons_self, rfl⟩
    · obtain ⟨before, inside, same⟩ := ih later
      exact ⟨before, List.mem_cons_of_mem _ inside, same⟩

/-- What does not look at what is assigned chooses alike. -/
theorem filter_core (blind : ∀ symbol : Symbol width, p symbol.core = p symbol)
    (same : left.map Symbol.core = right.map Symbol.core) :
    (left.filter p).map Symbol.core = (right.filter p).map Symbol.core := by
  have commute (symbols : List (Symbol width)) :
      (symbols.filter p).map Symbol.core = (symbols.map Symbol.core).filter p := by
    rw [List.filter_map]
    exact congrArg _ (List.filter_congr fun symbol _ => (blind symbol).symm)
  rw [commute, commute, same]

theorem map_core_of_bare (same : left.map Symbol.bare = right.map Symbol.bare) :
    left.map Symbol.core = right.map Symbol.core := by
  have further := congrArg (List.map fun symbol : Symbol width => ({ symbol with value := 0 } : Symbol width)) same
  rwa [List.map_map, List.map_map] at further

theorem countP_congr (blind : ∀ symbol : Symbol width, p symbol.core = p symbol)
    (same : left.map Symbol.core = right.map Symbol.core) :
    left.countP p = right.countP p := by
  have filtered := congrArg List.length (filter_core blind same)
  rwa [List.length_map, List.length_map, ← List.countP_eq_length_filter, ← List.countP_eq_length_filter] at filtered

theorem arrayOf_qsort {isClass : Symbol width → Bool} (blind : ∀ symbol : Symbol width, isClass symbol.core = isClass symbol)
    {kept sorted : List (Symbol width)} (start : BitVec 32) (value : Symbol width → BitVec width)
    (sorts : qsort ((placedChain kept).filter isClass) = some sorted) :
    ArrayOf isClass start kept ((placedChain kept).map fun symbol => { symbol with value := value symbol })
      (numberFrom start sorted).2 where
  numbered := numberFrom_numbered start sorted
  sorted := by
    have ordered : (sorted.map Symbol.core).Pairwise fun left right => nameLe left right = true :=
      List.pairwise_map.mpr (qsort_sorted sorts)
    rw [← numberFrom_core start] at ordered
    exact List.pairwise_map.mp ordered
  core := by
    rw [numberFrom_core]
    refine ((qsort_perm sorts).map _).trans (.of_eq ?_)
    exact filter_core blind (map_core_of_bare (placedChain_bare kept))
  member := by
    intro symbol member
    obtain ⟨before, inside, same⟩ := numberFrom_member member
    obtain ⟨placed, isClass_⟩ := List.mem_filter.mp ((qsort_perm sorts).mem_iff.mp inside)
    have sameCore : symbol.core = before.core := by rw [same]; rfl
    refine ⟨by rw [← blind, sameCore, blind, isClass_], _, List.mem_map_of_mem placed, ?_, ?_, ?_⟩
    · rw [← blind]
      exact (blind before).trans isClass_
    · rw [same]
    · rw [same]

theorem class_counts (symbols : List (Symbol width)) :
    symbols.countP Symbol.isLocal + symbols.countP Symbol.isExtdef + symbols.countP Symbol.isUndef = symbols.length := by
  induction symbols with
  | nil => rfl
  | cons symbol rest ih =>
    rw [List.countP_cons, List.countP_cons, List.countP_cons, List.length_cons]
    cases extern_ : symbol.isExtern <;> cases undefined : symbol.isUndefined <;>
      simp [Symbol.isLocal, Symbol.isExtdef, Symbol.isUndef, extern_, undefined] <;> omega

/-- What the passes leave behind. -/
structure Built (kept : List (Symbol width)) (layout : Layout width) : Prop where
  core : layout.chain.map Symbol.core = kept.map Symbol.core
  externs : Located Symbol.isExtern 1 layout.chain
  locals : Located Symbol.isLocal (1 + BitVec.ofNat 32 (strings (kept.filter Symbol.isExtern)).length) layout.chain
  numbered : Numbered 0#32 (layout.chain.filter Symbol.isLocal)
  extdefs : ArrayOf Symbol.isExtdef (BitVec.ofNat 32 (kept.countP Symbol.isLocal)) kept layout.chain layout.extdefsyms
  undefs : ArrayOf Symbol.isUndef (BitVec.ofNat 32 (kept.countP Symbol.isLocal + kept.countP Symbol.isExtdef)) kept
    layout.chain layout.undefsyms
  nlocalsym : layout.nlocalsym = BitVec.ofNat 32 (kept.countP Symbol.isLocal)
  nextdefsym : layout.nextdefsym = BitVec.ofNat 32 (kept.countP Symbol.isExtdef)
  nundefsym : layout.nundefsym = BitVec.ofNat 32 (kept.countP Symbol.isUndef)
  symbolNumber : layout.symbolNumber = BitVec.ofNat 32 kept.length
  stringByteCount : layout.stringByteCount = BitVec.ofNat 32
    (1 + (strings (kept.filter Symbol.isExtern)).length + (strings (kept.filter Symbol.isLocal)).length)

/-- A change of values changes nothing of where things are. -/
theorem Located.values {select : Symbol width → Bool} (blind : ∀ symbol : Symbol width, select symbol.core = select symbol)
    (value : Symbol width → BitVec width) {start : BitVec 32}
    (located : Located select start chain) :
    Located select start (chain.map fun symbol => { symbol with value := value symbol }) := by
  induction chain generalizing start with
  | nil => trivial
  | cons symbol rest ih =>
    have same : select { symbol with value := value symbol } = select symbol := by
      rw [← blind, ← blind symbol]
      rfl
    rw [List.map_cons, Located, same]
    exact ⟨located.1, ih located.2⟩

theorem Numbered.values (value : Symbol width → BitVec width) (numbered : Numbered symbolNumber chain) :
    Numbered symbolNumber (chain.map fun symbol => { symbol with value := value symbol }) := by
  induction chain generalizing symbolNumber with
  | nil => trivial
  | cons symbol rest ih => exact ⟨numbered.1, ih numbered.2⟩

theorem tally_start (kept : List (Symbol width)) : Counts.start.tally kept =
    ⟨BitVec.ofNat 32 (kept.countP Symbol.isLocal), 1 + BitVec.ofNat 32 (strings (kept.filter Symbol.isExtern)).length,
      BitVec.ofNat 32 (kept.countP Symbol.isLocal), BitVec.ofNat 32 (kept.countP Symbol.isExtdef),
      BitVec.ofNat 32 (kept.countP Symbol.isUndef), []⟩ := by
  simp [Counts.tally, Counts.start]

theorem strings_congr (same : left.map Symbol.core = right.map Symbol.core) :
    strings left = strings right := by
  have core (symbols : List (Symbol width)) : strings symbols = strings (symbols.map Symbol.core) := by
    rw [strings, strings, List.flatMap_map]
    rfl
  rw [core, same, ← core]

theorem layoutSymbols_built {options : Options} {layout : Layout width}
    (lays : layoutSymbols options symbols = some layout) : Built (keptSymbols options symbols) layout := by
  obtain ⟨complaints, is⟩ := layoutSymbols_eq options symbols
  rw [is] at lays
  generalize keptSymbols options symbols = kept at lays
  obtain ⟨extdefsyms, extdefSorts, lays⟩ := Option.bind_eq_some_iff.mp lays
  obtain ⟨undefsyms, undefSorts, lays⟩ := Option.bind_eq_some_iff.mp lays
  obtain ⟨chain, summed, rfl⟩ := Option.map_eq_some_iff.mp lays
  obtain ⟨value, rfl⟩ : ∃ value : Symbol width → BitVec width,
      chain = (placedChain kept).map fun symbol => { symbol with value := value symbol } := by
    split at summed
    · exact setBinclChecksums_value summed
    · cases summed
      exact ⟨Symbol.value, (List.map_id _).symm⟩
  have core := map_core_of_bare (placedChain_bare kept)
  have extdefCount : extdefsyms.length = kept.countP Symbol.isExtdef := by
    rw [(qsort_perm extdefSorts).length_eq, ← List.countP_eq_length_filter]
    exact countP_congr (fun _ => rfl) core
  have undefCount : undefsyms.length = kept.countP Symbol.isUndef := by
    rw [(qsort_perm undefSorts).length_eq, ← List.countP_eq_length_filter]
    exact countP_congr (fun _ => rfl) core
  constructor
  · rw [List.map_map]
    exact core
  · exact (secondPass_externs _ _ (place_located 1 0 kept)).values (fun _ => rfl) value
  · have located := secondPass_local (Counts.start.tally kept).stringByteCount (place 1 0 kept)
    rw [tally_start] at located
    exact located.values (fun _ => rfl) value
  · rw [List.filter_map]
    exact (secondPass_numbered _ _ (place_numbered 1 0 kept)).values value
  · have built := arrayOf_qsort (fun _ => rfl) (Counts.start.tally kept).symbolNumber value extdefSorts
    rw [tally_start] at built ⊢
    exact built
  · have built := arrayOf_qsort (fun _ => rfl)
      (numberFrom (Counts.start.tally kept).symbolNumber extdefsyms).1 value undefSorts
    rw [numberFrom_count, tally_start] at built
    dsimp only
    rw [numberFrom_count, tally_start, BitVec.ofNat_add, ← extdefCount]
    exact built
  · rw [tally_start]
  · rw [tally_start]
  · rw [tally_start]
  · dsimp only
    rw [numberFrom_count, numberFrom_count, tally_start, extdefCount, undefCount, ← class_counts, BitVec.ofNat_add,
      BitVec.ofNat_add]
  · dsimp only
    rw [secondPass_count, tally_start, BitVec.ofNat_add, BitVec.ofNat_add,
      strings_congr (filter_core (p := Symbol.isLocal) (fun _ => rfl)
        (map_core_of_bare (place_bare 1 0 kept)))]
    rfl

/-! ## When there is a layout -/

theorem sortable_congr (same : left.map Symbol.core = right.map Symbol.core) :
    Sortable left ↔ Sortable right := by
  have core (symbols : List (Symbol width)) : Sortable symbols ↔ Sortable (symbols.map Symbol.core) := by
    rw [Sortable, Sortable, List.length_map, List.forall_mem_map]
    rfl
  rw [core, same, ← core]

theorem layoutSymbols_isSome_iff (options : Options) (symbols : List (Symbol width)) :
    (∃ layout, layoutSymbols options symbols = some layout) ↔
      Sortable ((keptSymbols options symbols).filter Symbol.isExtdef) ∧
        Sortable ((keptSymbols options symbols).filter Symbol.isUndef) ∧
          (hasBincl (keptSymbols options symbols) = true → sumsNamed [] (keptSymbols options symbols) = true) := by
  obtain ⟨complaints, is⟩ := layoutSymbols_eq options symbols
  rw [is]
  generalize keptSymbols options symbols = kept
  have bare := placedChain_bare kept
  have core := map_core_of_bare bare
  have extdef := sortable_congr (filter_core (p := Symbol.isExtdef) (fun _ => rfl) core)
  have undef := sortable_congr (filter_core (p := Symbol.isUndef) (fun _ => rfl) core)
  rw [← extdef, ← undef, ← sumsNamed_congr [] bare, ← qsort_isSome_iff, ← qsort_isSome_iff]
  have checksums : (∃ chain, (if hasBincl kept then setBinclChecksums (placedChain kept) else some (placedChain kept))
      = some chain) ↔ (hasBincl kept = true → sumsNamed [] (placedChain kept) = true) := by
    rw [← Option.isSome_iff_exists]
    cases hasBincl kept with
    | false => simp
    | true =>
      rw [if_pos rfl, setBinclChecksums, Option.isSome_map, binclChecksums_isSome]
      simp
  rw [← checksums]
  constructor
  · rintro ⟨layout, lays⟩
    obtain ⟨extdefsyms, extdefSorts, lays⟩ := Option.bind_eq_some_iff.mp lays
    obtain ⟨undefsyms, undefSorts, lays⟩ := Option.bind_eq_some_iff.mp lays
    obtain ⟨chain, summed, -⟩ := Option.map_eq_some_iff.mp lays
    exact ⟨⟨_, extdefSorts⟩, ⟨_, undefSorts⟩, ⟨_, summed⟩⟩
  · rintro ⟨⟨extdefsyms, extdefSorts⟩, ⟨undefsyms, undefSorts⟩, ⟨chain, summed⟩⟩
    rw [extdefSorts, undefSorts, summed]
    exact ⟨_, rfl⟩

/-! ## What is consistent -/

namespace Layout

variable (layout : Layout width)

/-- The symbols of the table. -/
def kept : List (Symbol width) := layout.chain.filter Symbol.isLocal ++ layout.extdefsyms ++ layout.undefsyms

/-- The symbols, the entries and strings that are written for them and the ranges. -/
structure Consistent (options : Options) (symbols : List (Symbol width)) : Prop where
  same : (layout.kept.map Symbol.core).Perm ((keptSymbols options symbols).map Symbol.core)
  count : layout.kept.length = layout.nsyms.toNat
  entries : ∀ entries, writeSymbols symbols layout = .ok entries → entries.length = layout.nsyms.toNat ∧
    ∀ symbol ∈ layout.kept, ∃ value, entries[symbol.number.toNat]? = some (symbol.entry value) ∧
      (symbol.isExtern = true ∨ symbol.expression = none → value = symbol.value)
  named : ∀ symbol ∈ layout.kept, ∀ name, symbol.name = some name → ∃ before after,
    writeStrings layout = before ++ (name.bytes ++ 0 :: after) ∧ symbol.nameOffset.toNat = before.length
  nameless : ∀ symbol ∈ layout.kept, symbol.name = none → symbol.nameOffset = 0
  ranges : layout.ilocalsym.toNat = 0 ∧ layout.iextdefsym.toNat = layout.ilocalsym.toNat + layout.nlocalsym.toNat ∧
    layout.iundefsym.toNat = layout.iextdefsym.toNat + layout.nextdefsym.toNat ∧
      layout.nsyms.toNat = layout.iundefsym.toNat + layout.nundefsym.toNat
  locals : ∀ symbol ∈ layout.kept, symbol.isLocal = true → layout.ilocalsym.toNat ≤ symbol.number.toNat ∧
    symbol.number.toNat < layout.iextdefsym.toNat
  extdefs : ∀ symbol ∈ layout.kept, symbol.isExtdef = true → layout.iextdefsym.toNat ≤ symbol.number.toNat ∧
    symbol.number.toNat < layout.iundefsym.toNat
  undefs : ∀ symbol ∈ layout.kept, symbol.isUndef = true → layout.iundefsym.toNat ≤ symbol.number.toNat ∧
    symbol.number.toNat < layout.nsyms.toNat
  sorted : ∀ left ∈ layout.kept, ∀ right ∈ layout.kept,
    (left.isExtdef = true ∧ right.isExtdef = true ∨ left.isUndef = true ∧ right.isUndef = true) →
      left.number.toNat < right.number.toNat → nameLe left right = true
  strings : (writeStrings layout).length = layout.strsize.toNat

end Layout

/-- Before rounding, with the byte that comes first. -/
def stringBytes (kept : List (Symbol width)) : Nat :=
  1 + (strings (kept.filter Symbol.isExtern)).length + (strings (kept.filter Symbol.isLocal)).length

/-- Counters do not wrap, also when they are rounded. -/
structure Fits (kept : List (Symbol width)) : Prop where
  few : kept.length < 2 ^ 32
  short : stringBytes kept ≤ 2 ^ 32 - 4

theorem and_not_three_eq_zero_iff (sum : BitVec 32) : sum &&& ~~~3#32 = 0 ↔ sum.toNat < 4 := by
  have bits (i : Nat) : (3#32).getLsbD i = decide (i < 2) := by
    match i with
    | 0 | 1 => rfl
    | i + 2 =>
      rw [BitVec.getLsbD_ofNat, Nat.testBit_lt_two_pow]
      · simp
      · exact Nat.lt_of_lt_of_le (by decide : 3 < 2 ^ 2) (Nat.pow_le_pow_right (by decide) (Nat.le_add_left 2 i))
  have shifts : sum &&& ~~~3#32 = 0 ↔ sum >>> 2 = 0 := by
    generalize 3#32 = mask at bits
    constructor
    · intro none_
      apply BitVec.eq_of_getLsbD_eq
      intro i inside
      have bit := congrArg (BitVec.getLsbD · (2 + i)) none_
      rw [BitVec.getLsbD_ushiftRight]
      by_cases wide : 2 + i < 32
      · simp only [BitVec.getLsbD_and, BitVec.getLsbD_not, bits] at bit
        simpa [wide, show ¬ 2 + i < 2 by omega] using bit
      · simp [BitVec.getLsbD_of_ge sum (2 + i) (by omega)]
    · intro none_
      apply BitVec.eq_of_getLsbD_eq
      intro i inside
      by_cases low : i < 2
      · simp [BitVec.getLsbD_and, BitVec.getLsbD_not, bits, low]
      · have bit := congrArg (BitVec.getLsbD · (i - 2)) none_
        rw [BitVec.getLsbD_ushiftRight, Nat.add_sub_cancel' (by omega)] at bit
        rw [BitVec.getLsbD_and, bit]
        simp
  rw [shifts, ← BitVec.toNat_inj, BitVec.toNat_ushiftRight, Nat.shiftRight_eq_div_pow]
  simp only [BitVec.ofNat_eq_ofNat, BitVec.toNat_ofNat, Nat.zero_mod]
  omega

theorem rnd32_eq_zero_iff (value : BitVec 32) : rnd32 value 4 = 0 ↔ value.toNat = 0 ∨ 2 ^ 32 - 3 ≤ value.toNat := by
  have three : (4 - 1 : BitVec 32) = 3#32 := by decide
  rw [rnd32, three, and_not_three_eq_zero_iff, BitVec.toNat_add]
  have bound := value.isLt
  simp only [BitVec.toNat_ofNat]
  omega

theorem classes_perm (symbols : List (Symbol width)) :
    (symbols.filter Symbol.isLocal ++ symbols.filter Symbol.isExtdef ++ symbols.filter Symbol.isUndef).Perm symbols := by
  induction symbols with
  | nil => exact .refl _
  | cons symbol rest ih =>
    cases extern_ : symbol.isExtern <;> cases undefined : symbol.isUndefined <;>
      simp only [List.filter_cons, Symbol.isLocal, Symbol.isExtdef, Symbol.isUndef, extern_, undefined,
        Bool.not_false, Bool.not_true, Bool.and_true, Bool.and_false, if_true, Bool.false_eq_true, if_false]
    · exact ih.cons symbol
    · exact ih.cons symbol
    · refine List.Perm.trans ?_ (ih.cons symbol)
      rw [List.append_assoc, List.append_assoc, List.cons_append]
      exact List.perm_middle
    · exact List.perm_middle.trans (ih.cons symbol)

namespace Built

variable {kept : List (Symbol width)} {layout : Layout width}

theorem locals_core (built : Built kept layout) :
    (layout.chain.filter Symbol.isLocal).map Symbol.core = (kept.filter Symbol.isLocal).map Symbol.core :=
  filter_core (fun _ => rfl) built.core

theorem same (built : Built kept layout) : (layout.kept.map Symbol.core).Perm (kept.map Symbol.core) := by
  rw [Layout.kept, List.map_append, List.map_append, built.locals_core]
  refine (((List.Perm.refl _).append built.extdefs.core).append built.undefs.core).trans ?_
  rw [← List.map_append, ← List.map_append]
  exact (classes_perm kept).map _

theorem length (built : Built kept layout) : layout.kept.length = kept.length := by
  have lengths := built.same.length_eq
  rwa [List.length_map, List.length_map] at lengths

theorem locals_length (built : Built kept layout) :
    (layout.chain.filter Symbol.isLocal).length = kept.countP Symbol.isLocal := by
  rw [← List.countP_eq_length_filter]
  exact countP_congr (fun _ => rfl) built.core

theorem extdefs_length (built : Built kept layout) : layout.extdefsyms.length = kept.countP Symbol.isExtdef := by
  have lengths := built.extdefs.core.length_eq
  rwa [List.length_map, List.length_map, ← List.countP_eq_length_filter] at lengths

theorem undefs_length (built : Built kept layout) : layout.undefsyms.length = kept.countP Symbol.isUndef := by
  have lengths := built.undefs.core.length_eq
  rwa [List.length_map, List.length_map, ← List.countP_eq_length_filter] at lengths

theorem kept_numbered (built : Built kept layout) : Numbered 0#32 layout.kept := by
  refine (built.numbered.append ?_).append ?_
  · rw [built.locals_length, BitVec.zero_add]
    exact built.extdefs.numbered
  · rw [List.length_append, built.locals_length, built.extdefs_length, BitVec.zero_add]
    exact built.undefs.numbered

variable {symbol : Symbol width}

theorem number (built : Built kept layout) (few : kept.length < 2 ^ 32) {i : Nat}
    (at_ : layout.kept[i]? = some symbol) : symbol.number.toNat = i := by
  have inside : i < kept.length := built.length ▸ (List.getElem?_eq_some_iff.mp at_).1
  rw [built.kept_numbered.get at_, BitVec.zero_add, BitVec.toNat_ofNat, Nat.mod_eq_of_lt (by omega)]

theorem local_at (built : Built kept layout) (member : symbol ∈ layout.kept)
    (isLocal : symbol.isLocal = true) : symbol ∈ layout.chain.filter Symbol.isLocal := by
  rw [Layout.kept, List.mem_append, List.mem_append] at member
  rcases member with (here | extdef) | undef
  · exact here
  · have class_ := (built.extdefs.member symbol extdef).1
    simp [Symbol.isExtdef, Symbol.isLocal] at class_ isLocal
    simp [isLocal] at class_
  · have class_ := (built.undefs.member symbol undef).1
    simp [Symbol.isUndef, Symbol.isLocal] at class_ isLocal
    simp [isLocal] at class_

theorem extdef_at (built : Built kept layout) (member : symbol ∈ layout.kept)
    (isExtdef : symbol.isExtdef = true) : symbol ∈ layout.extdefsyms := by
  rw [Layout.kept, List.mem_append, List.mem_append] at member
  simp only [Symbol.isExtdef, Bool.and_eq_true, Bool.not_eq_true'] at isExtdef
  rcases member with (here | extdef) | undef
  · have class_ := (List.mem_filter.mp here).2
    simp [Symbol.isLocal, isExtdef.1] at class_
  · exact extdef
  · have class_ := (built.undefs.member symbol undef).1
    simp [Symbol.isUndef, isExtdef.2] at class_

theorem undef_at (built : Built kept layout) (member : symbol ∈ layout.kept)
    (isUndef : symbol.isUndef = true) : symbol ∈ layout.undefsyms := by
  rw [Layout.kept, List.mem_append, List.mem_append] at member
  simp only [Symbol.isUndef, Bool.and_eq_true] at isUndef
  rcases member with (here | extdef) | undef
  · have class_ := (List.mem_filter.mp here).2
    simp [Symbol.isLocal, isUndef.1] at class_
  · have class_ := (built.extdefs.member symbol extdef).1
    simp [Symbol.isExtdef, isUndef.2] at class_
  · exact undef

end Built

/-! ## Entries -/

/-- One entry is of one symbol. -/
def EntryOf (symbol : Symbol width) (entry : Nlist width) : Prop :=
  ∃ value, entry = symbol.entry value ∧ (symbol.isExtern = true ∨ symbol.expression = none → value = symbol.value)

theorem map_eq_ok {α β : Type} {f : α → β} {result : Except Complaint α} {value : β}
    (is : result.map f = .ok value) : ∃ before, result = .ok before ∧ f before = value := by
  cases result with
  | error complaint => cases is
  | ok before => exact ⟨before, rfl, Except.ok.inj is⟩

theorem writeLocals_entries {values : Nat → BitVec width} {locals : List (Symbol width)}
    {entries : List (Nlist width)} (isLocal : ∀ symbol ∈ locals, symbol.isLocal = true)
    (writes : writeLocals symbols values locals = .ok entries) : List.Forall₂ EntryOf locals entries := by
  induction locals generalizing values entries with
  | nil =>
    cases writes
    exact .nil
  | cons symbol rest ih =>
    have later : ∀ symbol ∈ rest, symbol.isLocal = true := fun other member => isLocal other (.tail _ member)
    have here : symbol.isExtern = false := by simpa [Symbol.isLocal] using isLocal symbol (.head _)
    rw [writeLocals] at writes
    split at writes
    · obtain ⟨more, written, rfl⟩ := map_eq_ok writes
      exact .cons ⟨_, rfl, fun _ => rfl⟩ (ih later written)
    · rename_i expression
      split at writes
      · cases writes
      split at writes
      · cases writes
      split at writes
      · cases writes
      · obtain ⟨more, written, rfl⟩ := map_eq_ok writes
        refine .cons ⟨_, rfl, fun plain => ?_⟩ (ih later written)
        rcases plain with extern_ | none_
        · rw [here] at extern_
          cases extern_
        · rw [expression] at none_
          cases none_

theorem entries_values (symbols : List (Symbol width)) :
    List.Forall₂ EntryOf symbols (symbols.map fun symbol => symbol.entry symbol.value) := by
  rw [List.forall₂_map_right_iff, List.forall₂_same]
  exact fun symbol _ => ⟨_, rfl, fun _ => rfl⟩

theorem writeSymbols_entries {layout : Layout width} {entries : List (Nlist width)}
    (writes : writeSymbols symbols layout = .ok entries) : List.Forall₂ EntryOf layout.kept entries := by
  obtain ⟨locals, written, rfl⟩ := map_eq_ok writes
  have first := writeLocals_entries (fun symbol member => (List.mem_filter.mp member).2) written
  exact List.rel_append (List.rel_append first (entries_values _)) (entries_values _)

namespace Built

variable {kept : List (Symbol width)} {layout : Layout width}

theorem extern_strings (built : Built kept layout) :
    strings (layout.chain.filter Symbol.isExtern) = strings (kept.filter Symbol.isExtern) :=
  strings_congr (filter_core (fun _ => rfl) built.core)

theorem local_strings (built : Built kept layout) :
    strings (layout.chain.filter Symbol.isLocal) = strings (kept.filter Symbol.isLocal) :=
  strings_congr (filter_core (fun _ => rfl) built.core)

theorem string_of_isExtern (built : Built kept layout) {symbol same : Symbol width} (member : same ∈ layout.chain)
    (extern_ : same.isExtern = true) (name : symbol.name = same.name) (offset : symbol.nameOffset = same.nameOffset) :
    ∃ before after, strings (layout.chain.filter Symbol.isExtern) ++ strings (layout.chain.filter Symbol.isLocal)
        = before ++ (symbol.string ++ after) ∧
      symbol.nameOffset = if symbol.name.isSome then BitVec.ofNat 32 (1 + before.length) else 0 := by
  obtain ⟨before, after, parts, is⟩ := built.externs.string member extern_
  have string : symbol.string = same.string := by rw [Symbol.string, Symbol.string, name]
  refine ⟨before, after ++ strings (layout.chain.filter Symbol.isLocal), ?_, ?_⟩
  · rw [parts, string, List.append_assoc, List.append_assoc]
  · rw [offset, is, name, BitVec.ofNat_add]
    rfl

/-- The offset of a symbol of the table leads to its string. -/
theorem string (built : Built kept layout) {symbol : Symbol width} (member : symbol ∈ layout.kept) :
    ∃ before after, strings (layout.chain.filter Symbol.isExtern) ++ strings (layout.chain.filter Symbol.isLocal)
        = before ++ (symbol.string ++ after) ∧
      symbol.nameOffset = if symbol.name.isSome then BitVec.ofNat 32 (1 + before.length) else 0 := by
  rw [Layout.kept, List.mem_append, List.mem_append] at member
  rcases member with (here | extdef) | undef
  · obtain ⟨inside, isLocal⟩ := List.mem_filter.mp here
    obtain ⟨before, after, parts, is⟩ := built.locals.string inside isLocal
    refine ⟨strings (layout.chain.filter Symbol.isExtern) ++ before, after, ?_, ?_⟩
    · rw [parts, List.append_assoc]
    · rw [is, List.length_append, built.extern_strings, ← Nat.add_assoc, BitVec.ofNat_add, BitVec.ofNat_add]
      rfl
  · obtain ⟨-, same, inside, class_, name, offset⟩ := built.extdefs.member symbol extdef
    simp only [Symbol.isExtdef, Bool.and_eq_true] at class_
    exact built.string_of_isExtern inside class_.1 name offset
  · obtain ⟨-, same, inside, class_, name, offset⟩ := built.undefs.member symbol undef
    simp only [Symbol.isUndef, Bool.and_eq_true] at class_
    exact built.string_of_isExtern inside class_.1 name offset

theorem nsyms_toNat (built : Built kept layout) (few : kept.length < 2 ^ 32) : layout.nsyms.toNat = kept.length := by
  rw [Layout.nsyms, built.symbolNumber, BitVec.toNat_ofNat, Nat.mod_eq_of_lt few]

theorem strings_length (built : Built kept layout) : (writeStrings layout).length =
    (if layout.symtabStrsize ≠ 0 then 1 else 0) + (stringBytes kept - 1) := by
  have extern_ := congrArg List.length built.extern_strings
  have local_ := congrArg List.length built.local_strings
  rw [strings] at extern_ local_
  rw [writeStrings, List.length_append, List.length_append, extern_, local_, stringBytes]
  split
  · rw [List.length_singleton]
    omega
  · rw [List.length_nil]
    omega

theorem strsize_toNat (built : Built kept layout) (few : kept.length < 2 ^ 32) (some_ : kept ≠ []) :
    layout.strsize.toNat = stringBytes kept % 2 ^ 32 := by
  have counted : layout.nsyms ≠ 0 := by
    intro none_
    have zero := congrArg BitVec.toNat none_
    rw [built.nsyms_toNat few] at zero
    exact some_ (List.length_eq_zero_iff.mp zero)
  rw [Layout.strsize, if_neg counted, built.stringByteCount, BitVec.toNat_ofNat]
  rfl

theorem symtabStrsize_eq_zero_iff (built : Built kept layout) (few : kept.length < 2 ^ 32) (some_ : kept ≠ []) :
    layout.symtabStrsize = 0 ↔ stringBytes kept % 2 ^ 32 = 0 ∨ 2 ^ 32 - 3 ≤ stringBytes kept % 2 ^ 32 := by
  rw [Layout.symtabStrsize, rnd32_eq_zero_iff, built.strsize_toNat few some_]

theorem empty_strings (built : Built kept layout) (none_ : kept = []) :
    (writeStrings layout).length = 0 ∧ layout.strsize.toNat = 0 := by
  subst none_
  have counted : layout.nsyms = 0 := built.symbolNumber
  have strsize : layout.strsize = 0 := if_pos counted
  have symtab : layout.symtabStrsize = 0 := by
    rw [Layout.symtabStrsize, strsize]
    decide
  refine ⟨?_, congrArg BitVec.toNat strsize⟩
  rw [built.strings_length, if_neg (not_not_intro symtab)]
  rfl

theorem number_pairs (_built : Built kept layout) (few : kept.length < 2 ^ 32) {isClass : Symbol width → Bool}
    {start : BitVec 32} {array : List (Symbol width)} (is : ArrayOf isClass start kept layout.chain array)
    (fits : start.toNat + array.length ≤ kept.length) {left right : Symbol width} (leftMember : left ∈ array)
    (rightMember : right ∈ array) (less : left.number.toNat < right.number.toNat) : nameLe left right = true := by
  obtain ⟨i, insideI, rfl⟩ := List.getElem_of_mem leftMember
  obtain ⟨j, insideJ, rfl⟩ := List.getElem_of_mem rightMember
  have number (k : Nat) (inside : k < array.length) : array[k].number.toNat = start.toNat + k := by
    rw [is.numbered.get (List.getElem?_eq_getElem inside), BitVec.toNat_add, BitVec.toNat_ofNat]
    rw [Nat.mod_eq_of_lt (by omega : k < 2 ^ 32), Nat.mod_eq_of_lt (by omega)]
  rw [number i insideI, number j insideJ] at less
  exact List.pairwise_iff_getElem.mp is.sorted i j insideI insideJ (by omega)

/-- **Without a wrap the table is consistent.** -/
theorem consistent {options : Options} {symbols : List (Symbol width)}
    (built : Built (keptSymbols options symbols) layout) (fits : Fits (keptSymbols options symbols)) :
    layout.Consistent options symbols := by
  obtain ⟨few, short⟩ := fits
  have classes := class_counts (keptSymbols options symbols)
  have nsyms := built.nsyms_toNat few
  have nlocalsym : layout.nlocalsym.toNat = (keptSymbols options symbols).countP Symbol.isLocal := by
    rw [built.nlocalsym, BitVec.toNat_ofNat, Nat.mod_eq_of_lt (by omega)]
  have nextdefsym : layout.nextdefsym.toNat = (keptSymbols options symbols).countP Symbol.isExtdef := by
    rw [built.nextdefsym, BitVec.toNat_ofNat, Nat.mod_eq_of_lt (by omega)]
  have nundefsym : layout.nundefsym.toNat = (keptSymbols options symbols).countP Symbol.isUndef := by
    rw [built.nundefsym, BitVec.toNat_ofNat, Nat.mod_eq_of_lt (by omega)]
  have iundefsym : layout.iundefsym.toNat = layout.nlocalsym.toNat + layout.nextdefsym.toNat := by
    rw [Layout.iundefsym, BitVec.toNat_add, nlocalsym, nextdefsym, Nat.mod_eq_of_lt (by omega)]
  have ilocalsym : layout.ilocalsym.toNat = 0 := rfl
  have iextdefsym : layout.iextdefsym.toNat = layout.nlocalsym.toNat := rfl
  -- Where the three parts of the table lie.
  have range (before after : List (Symbol width)) {part : List (Symbol width)} {symbol : Symbol width}
      (parts : layout.kept = before ++ part ++ after) (member : symbol ∈ part) : before.length ≤ symbol.number.toNat ∧
        symbol.number.toNat < before.length + part.length := by
    obtain ⟨i, inside, rfl⟩ := List.getElem_of_mem member
    have at_ : layout.kept[before.length + i]? = some part[i] := by
      rw [parts, List.append_assoc, List.getElem?_append_right (by omega), Nat.add_sub_cancel_left,
        List.getElem?_append_left inside, List.getElem?_eq_getElem inside]
    rw [built.number few at_]
    omega
  have index {symbol : Symbol width} (member : symbol ∈ layout.kept) : layout.kept[symbol.number.toNat]? = some symbol := by
    obtain ⟨i, inside, rfl⟩ := List.getElem_of_mem member
    have at_ := List.getElem?_eq_getElem inside
    rw [built.number few at_, at_]
  constructor
  · exact built.same
  · rw [built.length, nsyms]
  · intro entries writes
    have matched := writeSymbols_entries writes
    refine ⟨by rw [← matched.length_eq, built.length, nsyms], fun symbol member => ?_⟩
    obtain ⟨inside, is⟩ := List.getElem?_eq_some_iff.mp (index member)
    obtain ⟨value, entry, plain⟩ := matched.get inside (matched.length_eq ▸ inside)
    rw [List.get_eq_getElem, List.get_eq_getElem] at entry
    dsimp only at entry
    rw [is] at entry
    refine ⟨value, ?_, ?_⟩
    · rw [List.getElem?_eq_getElem (matched.length_eq ▸ inside), entry]
    · rw [List.get_eq_getElem] at plain
      dsimp only at plain
      rwa [is] at plain
  · intro symbol member name named
    obtain ⟨before, after, parts, offset⟩ := built.string member
    have some_ : keptSymbols options symbols ≠ [] := by
      intro none_
      have zero := built.length
      rw [none_] at zero
      rw [List.length_eq_zero_iff.mp zero] at member
      cases member
    have first : layout.symtabStrsize ≠ 0 := by
      rw [Ne, built.symtabStrsize_eq_zero_iff few some_, Nat.mod_eq_of_lt (by omega)]
      have positive : 1 ≤ stringBytes (keptSymbols options symbols) := by
        rw [stringBytes]
        omega
      omega
    have string : symbol.string = name.bytes ++ [0] := by rw [Symbol.string, named]
    refine ⟨0 :: before, after, ?_, ?_⟩
    · rw [writeStrings, if_pos first]
      change [0] ++ (strings _ ++ strings _) = _
      rw [parts, string]
      simp
    · have lengths := congrArg List.length parts
      rw [built.extern_strings, built.local_strings] at lengths
      simp only [List.length_append] at lengths
      rw [stringBytes] at short
      rw [offset, named, Option.isSome_some, if_pos rfl, BitVec.toNat_ofNat, Nat.mod_eq_of_lt (by omega),
        List.length_cons]
      omega
  · intro symbol member nameless
    obtain ⟨before, after, parts, offset⟩ := built.string member
    rw [offset, nameless]
    rfl
  · omega
  · intro symbol member isLocal
    have place := range [] _ (by rw [Layout.kept, List.nil_append, List.append_assoc])
      (built.local_at member isLocal)
    rw [built.locals_length] at place
    simp only [List.length_nil] at place
    omega
  · intro symbol member isExtdef
    have place := range _ _ rfl (built.extdef_at member isExtdef)
    rw [built.locals_length, built.extdefs_length] at place
    omega
  · intro symbol member isUndef
    have place := range _ [] (by rw [Layout.kept, List.append_nil]) (built.undef_at member isUndef)
    rw [List.length_append, built.locals_length, built.extdefs_length, built.undefs_length] at place
    omega
  · intro left leftMember right rightMember class_ less
    rcases class_ with ⟨leftIs, rightIs⟩ | ⟨leftIs, rightIs⟩
    · refine built.number_pairs few built.extdefs ?_ (built.extdef_at leftMember leftIs)
        (built.extdef_at rightMember rightIs) less
      rw [built.extdefs_length, BitVec.toNat_ofNat, Nat.mod_eq_of_lt (by omega)]
      omega
    · refine built.number_pairs few built.undefs ?_ (built.undef_at leftMember leftIs)
        (built.undef_at rightMember rightIs) less
      rw [built.undefs_length, BitVec.toNat_ofNat, Nat.mod_eq_of_lt (by omega)]
      omega
  · by_cases some_ : keptSymbols options symbols = []
    · obtain ⟨written, strsize⟩ := built.empty_strings some_
      rw [written, strsize]
    · have positive : 1 ≤ stringBytes (keptSymbols options symbols) := by
        rw [stringBytes]
        omega
      have wraps := built.symtabStrsize_eq_zero_iff few some_
      rw [Nat.mod_eq_of_lt (by omega)] at wraps
      rw [built.strings_length, built.strsize_toNat few some_, Nat.mod_eq_of_lt (by omega),
        if_pos (by rw [Ne, wraps]; omega)]
      omega

theorem fits {options : Options} {symbols : List (Symbol width)} (built : Built (keptSymbols options symbols) layout)
    (consistent : layout.Consistent options symbols) : Fits (keptSymbols options symbols) := by
  have few : (keptSymbols options symbols).length < 2 ^ 32 := by
    have count := consistent.count
    rw [built.length] at count
    rw [count]
    exact layout.nsyms.isLt
  refine ⟨few, ?_⟩
  by_cases some_ : keptSymbols options symbols = []
  · simp [some_, stringBytes, strings]
  · have written := consistent.strings
    have wraps := built.symtabStrsize_eq_zero_iff few some_
    rw [built.strings_length, built.strsize_toNat few some_] at written
    by_contra long
    split at written
    · rename_i rounded
      rw [Ne, wraps] at rounded
      omega
    · rename_i rounded
      rw [not_not, wraps] at rounded
      omega

end Built

/-- What the table needs: small sizes, and names where names are read. -/
structure Sound (kept : List (Symbol width)) : Prop extends Fits kept where
  extdefs : Sortable (kept.filter Symbol.isExtdef)
  undefs : Sortable (kept.filter Symbol.isUndef)
  sums : hasBincl kept = true → sumsNamed [] kept = true

/-- **The table is consistent exactly if sizes fit and no null name is read.** -/
theorem layoutSymbols_consistent_iff (options : Options) (symbols : List (Symbol width)) :
    (∃ layout, layoutSymbols options symbols = some layout ∧ layout.Consistent options symbols) ↔
      Sound (keptSymbols options symbols) := by
  constructor
  · rintro ⟨layout, lays, consistent⟩
    obtain ⟨extdefs, undefs, sums⟩ := (layoutSymbols_isSome_iff options symbols).mp ⟨layout, lays⟩
    exact ⟨(layoutSymbols_built lays).fits consistent, extdefs, undefs, sums⟩
  · rintro ⟨fits, extdefs, undefs, sums⟩
    obtain ⟨layout, lays⟩ := (layoutSymbols_isSome_iff options symbols).mpr ⟨extdefs, undefs, sums⟩
    exact ⟨layout, lays, (layoutSymbols_built lays).consistent fits⟩

end Table

/-- `.stabd 0,0,0` -/
def stabd (address : Nat) : Symbol 64 := ⟨address, none, nUndf, 1, 0, 0, 0, 0, none⟩

def plainOptions : Options := ⟨false, fun _ => false⟩

/-- **Two external symbols without a name are compared.** -/
theorem stabd_sorted : ¬ ∃ layout, layoutSymbols plainOptions [stabd 0, stabd 1] = some layout ∧
    layout.Consistent plainOptions [stabd 0, stabd 1] := by
  rintro ⟨layout, lays, -⟩
  have undefs := ((layoutSymbols_isSome_iff plainOptions _).mp ⟨layout, lays⟩).2.1
  have kept : (keptSymbols plainOptions [stabd 0, stabd 1]).filter Symbol.isUndef
      = [(stabd 0).settled, (stabd 1).settled] := rfl
  rw [kept] at undefs
  rcases undefs with short | named
  · exact absurd short (by decide)
  · exact absurd (named _ (.head _)) (by decide)

end Cctools.WriteObject
