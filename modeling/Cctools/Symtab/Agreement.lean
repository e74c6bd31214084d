/-
# Cctools.Symtab.Agreement -- the indexes of the atoms are places in the written table

Space for the locals is reserved before some of them are skipped: those whose content is
call frame information, when the labels of frames are not wanted.  In `-r` a frame is
kept out of the lists by the type of its final section, and `-rename_section` or another
section of that name can put it into a section of another type.  Then the globals start
behind a gap and the table is written past its end.

`symbolIndexes_agree_iff` says that this is the only way the two can part.
-/
import Cctools.Symtab.Indexes
import Mathlib.Data.List.Sort

namespace Cctools.Symtab

set_option autoImplicit false

open SymbolTableAtom

/-! ## The statement -/

/-- `OutputFile` and its symbol table after the three stages. -/
structure Linked (Ref : Type) where
  lists : SymbolLists Ref
  atom : Ref → Atom Ref
  ranges : SymbolRanges
  table : SymbolTableAtom Ref

section Linked

variable {Ref : Type}

/-- The name an entry is sorted by. -/
def entryName (link : Linked Ref) (entry : Entry Ref) : Name :=
  match entry.maker with
  | .atom ref => (link.atom ref).name
  | .stab stab => stab.string.getD []

/-- Entry `index` of the written table has been made for the atom. -/
def StandsAt (P : Pointer) (raw : List UInt8) (entries : List (Entry Ref)) (ref : Ref) (index : Nat) :
    Prop :=
  ∃ entry ∈ entries, entry.maker = .atom ref ∧ nlistAt P raw index = entry.nlist.bytes P

def Linked.entries (link : Linked Ref) : List (Entry Ref) :=
  link.table.locals ++ link.table.globals ++ link.table.imports

/-- The symbol indexes and ranges agree with the bytes of the table. -/
structure Agrees (P : Pointer) (link : Linked Ref) (raw : List UInt8) : Prop where
  whole : raw = arrayBytes P link.entries
  locals : ∀ ref ∈ link.lists.localAtoms,
    StandsAt P raw link.table.locals ref (link.atom ref).outputSymbolIndex
  exported : ∀ ref ∈ link.lists.exportedAtoms, ref ∉ link.lists.importedAtoms →
    StandsAt P raw link.table.globals ref (link.atom ref).outputSymbolIndex
  imported : ∀ ref ∈ link.lists.importedAtoms,
    StandsAt P raw link.table.imports ref (link.atom ref).outputSymbolIndex
  localStart : link.ranges.localSymbolsStartIndex = 0
  localCount : link.ranges.localSymbolsCount = link.table.locals.length
  globalStart : link.ranges.globalSymbolsStartIndex
    = link.ranges.localSymbolsStartIndex + link.ranges.localSymbolsCount
  globalCount : link.ranges.globalSymbolsCount = link.table.globals.length
  importStart : link.ranges.importSymbolsStartIndex
    = link.ranges.globalSymbolsStartIndex + link.ranges.globalSymbolsCount
  importCount : link.ranges.importSymbolsCount = link.table.imports.length
  covers : raw.length
    = (link.ranges.importSymbolsStartIndex + link.ranges.importSymbolsCount) * sizeofNlist P
  globalsSorted : link.table.globals.Pairwise fun left right => entryName link left ≤ entryName link right
  importsSorted : link.table.imports.Pairwise fun left right => entryName link left ≤ entryName link right
  /-- `hasStabs` gives the offsets of the entries of stabs, and of no others. -/
  stabs : ∀ (index : Nat) (inside : index < link.entries.length),
    (∃ stab, (link.entries[index]).maker = .stab stab)
      ↔ (link.table.hasStabs P).2.2.2.1 ≤ index * sizeofNlist P
        ∧ index * sizeofNlist P < (link.table.hasStabs P).2.2.2.2

variable [DecidableEq Ref] (options : Options) (byName : NameSort Ref) (state : Internal Ref)

def buildSymbolTable : Linked Ref :=
  let lists := partitionSymbolTable options byName state
  let assigned := assignSymbolIndexes options state lists
  let encoded := encode options state assigned.1 lists assigned.2
  { lists := lists, atom := assigned.1, ranges := encoded.2, table := encoded.1 }

/-- The table that is written, into a buffer of its size, agrees with the indexes. -/
def IndexesAgree (P : Pointer) : Prop :=
  let link := buildSymbolTable options byName state
  ∀ buffer : List UInt8, buffer.length = link.table.size P →
    ∃ raw, link.table.copyRawContent P link.ranges buffer = some raw ∧ Agrees P link raw

/-- The bytes of an entry for every stab and for every element of the three lists. -/
def reservedSize (P : Pointer) : Nat :=
  let lists := partitionSymbolTable options byName state
  sizeofNlist P * (state.stabs.length + lists.localAtoms.length + lists.exportedAtoms.length
    + lists.importedAtoms.length)

/-- With `-no_eh_labels` no call frame information becomes a local symbol. -/
def NoFrameSymbols : Prop :=
  options.removeEHLabels = true → ∀ sect ∈ state.sections, ∀ ref ∈ sect.atoms,
    (state.atom ref).contentType = .cfi → keepsFrame options sect (state.atom ref) = false

end Linked

/-! ## Places of entries -/

section Places

variable {Ref : Type}

theorem getElem_maker {Source : Type} {entries : List (Entry Ref)} {sources : List Source}
    {maker : Source → Maker Ref} (makers : entries.map Entry.maker = sources.map maker) {i : Nat}
    (inside : i < entries.length) (inside' : i < sources.length) :
    (entries[i]).maker = maker sources[i] := by
  have both : (entries.map Entry.maker)[i]? = (sources.map maker)[i]? := by rw [makers]
  simpa [inside, inside'] using both

theorem standsAt_of_maker (P : Pointer) (before list after : List (Entry Ref)) {ref : Ref} {i : Nat}
    (made : (list.map Entry.maker)[i]? = some (.atom ref)) :
    StandsAt P (arrayBytes P (before ++ list ++ after)) list ref (before.length + i) := by
  rw [List.getElem?_map] at made
  obtain ⟨entry, here, maker⟩ := Option.map_eq_some_iff.mp made
  obtain ⟨inside, same⟩ := List.getElem?_eq_some_iff.mp here
  refine ⟨entry, List.mem_of_getElem? here, maker, ?_⟩
  have position : before.length + i < (before ++ list ++ after).length := by
    simp only [List.length_append]
    omega
  rw [nlistAt_arrayBytes P _ _ position]
  simp [inside, same]

/-- Entries stand in the order of the names of their atoms. -/
theorem entries_sorted {link : Linked Ref} {entries : List (Entry Ref)} {refs : List Ref}
    (makers : entries.map Entry.maker = refs.map Maker.atom)
    (sorted : refs.Pairwise fun left right => (link.atom left).name ≤ (link.atom right).name) :
    entries.Pairwise fun left right => entryName link left ≤ entryName link right := by
  have count : entries.length = refs.length := by simpa using congrArg List.length makers
  rw [List.pairwise_iff_getElem] at sorted ⊢
  intro i j insideI insideJ before
  have order := sorted i j (by omega) (by omega) before
  rw [entryName, entryName, getElem_maker makers insideI (by omega),
    getElem_maker makers insideJ (by omega)]
  exact order

end Places

/-! ## The three stages together -/

section Stages

variable {Ref : Type} [DecidableEq Ref] {options : Options} {byName : NameSort Ref}
  {state : Internal Ref}

theorem assignSymbolIndexes_onlyIndex (lists : SymbolLists Ref) :
    OnlyIndex lists.atom (assignSymbolIndexes options state lists).1 := by
  unfold assignSymbolIndexes
  extract_lets localsCount globals imports locals
  have last : OnlyIndex imports.1 locals.1 := by
    simp only [locals, numberLocals_eq]
    exact numberAtoms_onlyIndex _ _ _
  exact ((numberAtoms_onlyIndex _ _ _).trans (numberAtoms_onlyIndex _ _ _)).trans last

omit [DecidableEq Ref] in
theorem skipsLocal_same {before after : Ref → Atom Ref} (only : OnlyIndex before after) (ref : Ref) :
    skipsLocal options (after ref) = skipsLocal options (before ref) := by
  rw [only ref]
  rfl

/-- The ranges that `assignSymbolIndexes` finds: locals that are skipped are not counted. -/
theorem assignSymbolIndexes_ranges (options : Options) (state : Internal Ref) (lists : SymbolLists Ref)
    (fits : state.stabs.length + lists.localAtoms.length + lists.exportedAtoms.length
      + lists.importedAtoms.length < 2 ^ 32) :
    (assignSymbolIndexes options state lists).2 = {
      localSymbolsStartIndex := 0
      localSymbolsCount :=
        (lists.localAtoms.filter fun ref => !skipsLocal options (lists.atom ref)).length
      globalSymbolsStartIndex := state.stabs.length + lists.localAtoms.length
      globalSymbolsCount := lists.exportedAtoms.length
      importSymbolsStartIndex :=
        state.stabs.length + lists.localAtoms.length + lists.exportedAtoms.length
      importSymbolsCount := lists.importedAtoms.length } := by
  unfold assignSymbolIndexes
  extract_lets localsCount globals imports locals
  have reserved : localsCount = state.stabs.length + lists.localAtoms.length := uint32_of_lt (by omega)
  have globalsEnd : globals.2 = localsCount + lists.exportedAtoms.length :=
    numberAtoms_end _ _ _ (by omega)
  have importsEnd : imports.2 = globals.2 + lists.importedAtoms.length :=
    numberAtoms_end _ _ _ (by omega)
  have unskipped : ∀ ref, skipsLocal options (imports.1 ref) = skipsLocal options (lists.atom ref) :=
    skipsLocal_same ((numberAtoms_onlyIndex _ _ _).trans (numberAtoms_onlyIndex _ _ _))
  have localsEnd : locals.2
      = (lists.localAtoms.filter fun ref => !skipsLocal options (lists.atom ref)).length := by
    have few := List.length_filter_le (fun ref => !skipsLocal options (lists.atom ref)) lists.localAtoms
    simp only [locals, numberLocals_eq, unskipped]
    rw [numberAtoms_end _ _ _ (by omega), Nat.zero_add]
  have exportedCount : uint32 (globals.2 + 2 ^ 32 - localsCount) = lists.exportedAtoms.length := by
    unfold uint32
    omega
  have importedCount : uint32 (imports.2 + 2 ^ 32 - globals.2) = lists.importedAtoms.length := by
    unfold uint32
    omega
  rw [localsEnd, exportedCount, importedCount, globalsEnd, reserved]

theorem assignSymbolIndexes_indexes {lists : SymbolLists Ref} (facts : ListsOf options state lists)
    (fits : state.stabs.length + lists.localAtoms.length + lists.exportedAtoms.length
      + lists.importedAtoms.length < 2 ^ 32)
    (keeps : ∀ ref ∈ lists.localAtoms, skipsLocal options (lists.atom ref) = false) :
    let atom := (assignSymbolIndexes options state lists).1
    (∀ (i : Nat) (inside : i < lists.localAtoms.length),
      (atom lists.localAtoms[i]).outputSymbolIndex = i)
    ∧ (∀ (i : Nat) (inside : i < lists.exportedAtoms.length),
      lists.exportedAtoms[i] ∉ lists.importedAtoms →
      (atom lists.exportedAtoms[i]).outputSymbolIndex
        = state.stabs.length + lists.localAtoms.length + i)
    ∧ (∀ (i : Nat) (inside : i < lists.importedAtoms.length),
      (atom lists.importedAtoms[i]).outputSymbolIndex
        = state.stabs.length + lists.localAtoms.length + lists.exportedAtoms.length + i) := by
  unfold assignSymbolIndexes
  extract_lets localsCount globals imports locals atom
  have reserved : localsCount = state.stabs.length + lists.localAtoms.length := uint32_of_lt (by omega)
  have globalsEnd : globals.2 = localsCount + lists.exportedAtoms.length :=
    numberAtoms_end _ _ _ (by omega)
  have unskipped : ∀ ref, skipsLocal options (imports.1 ref) = skipsLocal options (lists.atom ref) :=
    skipsLocal_same ((numberAtoms_onlyIndex _ _ _).trans (numberAtoms_onlyIndex _ _ _))
  have all : locals = numberAtoms lists.localAtoms 0 imports.1 := by
    simp only [locals, numberLocals_eq, unskipped]
    rw [List.filter_eq_self.mpr (fun ref member => by rw [keeps ref member]; rfl)]
  have numbered : atom = (numberAtoms lists.localAtoms 0 imports.1).1 := congrArg Prod.fst all
  rw [numbered]
  -- The locals are numbered last, but none of them is in the other lists.
  refine ⟨?_, ?_, ?_⟩
  · intro i inside
    rw [numberAtoms_index _ _ _ facts.localsOnce (by omega) i inside, Nat.zero_add]
  · intro i inside notImported
    have notLocal : lists.exportedAtoms[i] ∉ lists.localAtoms :=
      fun isLocal => (facts.apart _ isLocal).1 (List.getElem_mem inside)
    rw [numberAtoms_other _ _ _ notLocal, numberAtoms_other _ _ _ notImported,
      numberAtoms_index _ _ _ facts.exportedOnce (by omega) i inside, reserved]
  · intro i inside
    have notLocal : lists.importedAtoms[i] ∉ lists.localAtoms :=
      fun isLocal => (facts.apart _ isLocal).2 (List.getElem_mem inside)
    rw [numberAtoms_other _ _ _ notLocal,
      numberAtoms_index _ _ _ facts.importedOnce (by omega) i inside, globalsEnd, reserved]

theorem sizeofNlist_pos (P : Pointer) : 0 < sizeofNlist P := by
  cases P <;> decide

variable {P : Pointer}

theorem symbols_fit (fits : reservedSize options byName state P < 2 ^ 32) :
    let lists := partitionSymbolTable options byName state
    state.stabs.length + lists.localAtoms.length + lists.exportedAtoms.length
      + lists.importedAtoms.length < 2 ^ 32 := by
  intro lists
  have whole := Nat.le_mul_of_pos_left (state.stabs.length + lists.localAtoms.length
    + lists.exportedAtoms.length + lists.importedAtoms.length) (sizeofNlist_pos P)
  exact Nat.lt_of_le_of_lt whole fits

/-- A local is skipped exactly if it is a frame that is not wanted. -/
theorem keeps_iff (facts : ListsOf options state (partitionSymbolTable options byName state)) :
    (∀ ref ∈ (partitionSymbolTable options byName state).localAtoms,
        skipsLocal options ((partitionSymbolTable options byName state).atom ref) = false)
      ↔ NoFrameSymbols options state := by
  have content : ∀ ref, skipsLocal options ((partitionSymbolTable options byName state).atom ref)
      = (options.removeEHLabels && (state.atom ref).contentType = .cfi) := by
    intro ref
    rw [skipsLocal, (facts.same ref).contentType]
  constructor
  · intro keeps removes sect inside ref here frame
    have isLocal := facts.mem_locals removes sect inside ref here
    by_contra kept
    have skipped := keeps ref (isLocal.mpr (Bool.eq_true_of_not_eq_false kept))
    rw [content, removes, frame] at skipped
    exact Bool.noConfusion skipped
  · intro none ref isLocal
    rw [content]
    cases removes : options.removeEHLabels with
    | false => rfl
    | true =>
      obtain ⟨sect, inside, here⟩ := facts.locals_mem ref isLocal
      have kept := (facts.mem_locals removes sect inside ref here).mp isLocal
      rw [Bool.true_and, decide_eq_false_iff_not]
      intro frame
      rw [none removes sect inside ref here frame] at kept
      exact Bool.noConfusion kept

/-- The entries of the table are those of the lists, in their order. -/
theorem encode_makers (options : Options) (state : Internal Ref) {lists : SymbolLists Ref}
    {atom : Ref → Atom Ref} (ranges : SymbolRanges)
    (keeps : ∀ ref ∈ lists.localAtoms, skipsLocal options (atom ref) = false) :
    let table := (encode options state atom lists ranges).1
    table.locals.map Entry.maker = lists.localAtoms.map Maker.atom ++ state.stabs.map Maker.stab
    ∧ table.globals.map Entry.maker = lists.exportedAtoms.map Maker.atom
    ∧ table.imports.map Entry.maker = lists.importedAtoms.map Maker.atom := by
  unfold encode
  extract_lets globals imports locals stabs stabsIndexStart table
  refine ⟨?_, entriesOf_makers _ _ _ _, entriesOf_makers _ _ _ _⟩
  show (locals.1 ++ stabs.1).map Entry.maker = _
  rw [List.map_append]
  congr 1
  · exact localEntries_makers options state atom _ _ keeps
  · exact entriesOf_makers _ _ _ _

/-- The numbers of a link that skips no local. -/
structure Numbered (state : Internal Ref) (link : Linked Ref) : Prop where
  localMakers : link.table.locals.map Entry.maker
    = link.lists.localAtoms.map Maker.atom ++ state.stabs.map Maker.stab
  globalMakers : link.table.globals.map Entry.maker = link.lists.exportedAtoms.map Maker.atom
  importMakers : link.table.imports.map Entry.maker = link.lists.importedAtoms.map Maker.atom
  localIndex : ∀ (i : Nat) (inside : i < link.lists.localAtoms.length),
    (link.atom link.lists.localAtoms[i]).outputSymbolIndex = i
  exportedIndex : ∀ (i : Nat) (inside : i < link.lists.exportedAtoms.length),
    link.lists.exportedAtoms[i] ∉ link.lists.importedAtoms →
    (link.atom link.lists.exportedAtoms[i]).outputSymbolIndex
      = state.stabs.length + link.lists.localAtoms.length + i
  importedIndex : ∀ (i : Nat) (inside : i < link.lists.importedAtoms.length),
    (link.atom link.lists.importedAtoms[i]).outputSymbolIndex
      = state.stabs.length + link.lists.localAtoms.length + link.lists.exportedAtoms.length + i
  ranges : link.ranges = {
    localSymbolsStartIndex := 0
    localSymbolsCount := link.lists.localAtoms.length + state.stabs.length
    globalSymbolsStartIndex := state.stabs.length + link.lists.localAtoms.length
    globalSymbolsCount := link.lists.exportedAtoms.length
    importSymbolsStartIndex :=
      state.stabs.length + link.lists.localAtoms.length + link.lists.exportedAtoms.length
    importSymbolsCount := link.lists.importedAtoms.length }
  stabsStart : link.table.stabsIndexStart = link.lists.localAtoms.length
  stabsEnd : link.table.stabsIndexEnd = link.lists.localAtoms.length + state.stabs.length
  exportedSorted : link.lists.exportedAtoms.Pairwise fun left right =>
    (link.atom left).name ≤ (link.atom right).name
  importedSorted : link.lists.importedAtoms.Pairwise fun left right =>
    (link.atom left).name ≤ (link.atom right).name

theorem buildSymbolTable_numbered (fits : reservedSize options byName state P < 2 ^ 32)
    (keeps : ∀ ref ∈ (partitionSymbolTable options byName state).localAtoms,
      skipsLocal options ((partitionSymbolTable options byName state).atom ref) = false) :
    Numbered state (buildSymbolTable options byName state) := by
  have facts := partitionSymbolTable_lists options byName state
  unfold buildSymbolTable
  extract_lets lists assigned encoded
  have few : state.stabs.length + lists.localAtoms.length + lists.exportedAtoms.length
      + lists.importedAtoms.length < 2 ^ 32 := symbols_fit fits
  change ∀ ref ∈ lists.localAtoms, skipsLocal options (lists.atom ref) = false at keeps
  have only : OnlyIndex lists.atom assigned.1 := assignSymbolIndexes_onlyIndex lists
  have name : ∀ ref, (assigned.1 ref).name = (lists.atom ref).name := by
    intro ref
    rw [only ref]
  have ranges := assignSymbolIndexes_ranges options state lists few
  rw [List.filter_eq_self.mpr (fun ref member => by rw [keeps ref member]; rfl)] at ranges
  have counted : assigned.2.localSymbolsStartIndex = 0
      ∧ assigned.2.localSymbolsCount = lists.localAtoms.length := by
    exact ⟨congrArg SymbolRanges.localSymbolsStartIndex ranges,
      congrArg SymbolRanges.localSymbolsCount ranges⟩
  obtain ⟨localIndex, exportedIndex, importedIndex⟩ := assignSymbolIndexes_indexes facts few keeps
  obtain ⟨localMakers, globalMakers, importMakers⟩ := encode_makers options state
    assigned.2 (fun ref member => (skipsLocal_same only ref).trans (keeps ref member))
  have stabsStart : encoded.1.stabsIndexStart = lists.localAtoms.length := by
    show uint32 (assigned.2.localSymbolsStartIndex + assigned.2.localSymbolsCount) = _
    rw [counted.1, counted.2, Nat.zero_add, uint32_of_lt (by omega)]
  refine ⟨localMakers, globalMakers, importMakers, localIndex, exportedIndex, importedIndex, ?_,
    stabsStart, ?_, ?_, ?_⟩
  · show { assigned.2 with
      localSymbolsCount := uint32 (assigned.2.localSymbolsCount + state.stabs.length) } = _
    rw [counted.2, uint32_of_lt (by omega)]
    show { (assignSymbolIndexes options state lists).2 with
      localSymbolsCount := lists.localAtoms.length + state.stabs.length } = _
    rw [ranges]
  · show uint32 (encoded.1.stabsIndexStart + state.stabs.length) = _
    rw [stabsStart, uint32_of_lt (by omega)]
  · simp only [name]
    exact facts.exportedSorted
  · simp only [name]
    exact facts.importedSorted

omit [DecidableEq Ref] in
/-- Position `index` is a stab's between the locals and the globals. -/
theorem Numbered.isStab_iff {link : Linked Ref} (numbered : Numbered state link) (index : Nat)
    (inside : index < link.entries.length) :
    (∃ stab, (link.entries[index]).maker = .stab stab)
      ↔ link.lists.localAtoms.length ≤ index
        ∧ index < link.lists.localAtoms.length + state.stabs.length := by
  have makers : link.entries.map Entry.maker
      = link.lists.localAtoms.map Maker.atom ++ (state.stabs.map Maker.stab
        ++ (link.lists.exportedAtoms ++ link.lists.importedAtoms).map Maker.atom) := by
    rw [Linked.entries, List.map_append, List.map_append, numbered.localMakers,
      numbered.globalMakers, numbered.importMakers, List.map_append]
    simp only [List.append_assoc]
  have here : (link.entries.map Entry.maker)[index]? = some (link.entries[index]).maker := by
    rw [List.getElem?_map, List.getElem?_eq_getElem inside]
    rfl
  rw [makers] at here
  constructor
  · rintro ⟨stab, isStab⟩
    rw [isStab] at here
    by_cases early : index < link.lists.localAtoms.length
    · rw [List.getElem?_append_left (by rwa [List.length_map])] at here
      simp [early] at here
    refine ⟨by omega, ?_⟩
    by_contra late
    rw [List.getElem?_append_right (by rw [List.length_map]; omega), List.length_map,
      List.getElem?_append_right (by rw [List.length_map]; omega), List.length_map,
      List.getElem?_map] at here
    obtain ⟨_, _, wrong⟩ := Option.map_eq_some_iff.mp here
    cases wrong
  · intro ⟨late, early⟩
    rw [List.getElem?_append_right (by rwa [List.length_map]), List.length_map,
      List.getElem?_append_left (by rw [List.length_map]; omega), List.getElem?_map] at here
    obtain ⟨stab, _, isStab⟩ := Option.map_eq_some_iff.mp here
    exact ⟨stab, isStab.symm⟩

omit [DecidableEq Ref] in
theorem Numbered.agrees {link : Linked Ref} (numbered : Numbered state link)
    (fits : sizeofNlist P * (state.stabs.length + link.lists.localAtoms.length
      + link.lists.exportedAtoms.length + link.lists.importedAtoms.length) < 2 ^ 32)
    {buffer : List UInt8} (whole : buffer.length = link.table.size P) :
    ∃ raw, link.table.copyRawContent P link.ranges buffer = some raw ∧ Agrees P link raw := by
  have localCount : link.table.locals.length
      = link.lists.localAtoms.length + state.stabs.length := by
    simpa using congrArg List.length numbered.localMakers
  have globalCount : link.table.globals.length = link.lists.exportedAtoms.length := by
    simpa using congrArg List.length numbered.globalMakers
  have importCount : link.table.imports.length = link.lists.importedAtoms.length := by
    simpa using congrArg List.length numbered.importMakers
  have ranges := numbered.ranges
  have localStart : link.ranges.localSymbolsStartIndex = 0 := by rw [ranges]
  have locals : link.ranges.localSymbolsCount = link.table.locals.length := by rw [ranges, localCount]
  have globalStart : link.ranges.globalSymbolsStartIndex = link.table.locals.length := by
    rw [ranges, localCount, Nat.add_comm]
  have globals : link.ranges.globalSymbolsCount = link.table.globals.length := by
    rw [ranges, globalCount]
  have importStart : link.ranges.importSymbolsStartIndex
      = link.table.locals.length + link.table.globals.length := by
    rw [ranges, localCount, globalCount, Nat.add_comm link.lists.localAtoms.length]
  have imports : link.ranges.importSymbolsCount = link.table.imports.length := by
    rw [ranges, importCount]
  have copied := copyRawContent_eq P link.table link.ranges whole localStart locals globalStart globals
    importStart imports
  refine ⟨_, copied, rfl, ?_, ?_, ?_, localStart, locals, by omega, globals, by omega, imports, ?_,
    entries_sorted numbered.globalMakers numbered.exportedSorted,
    entries_sorted numbered.importMakers numbered.importedSorted, ?_⟩
  · intro ref isLocal
    obtain ⟨i, inside, rfl⟩ := List.getElem_of_mem isLocal
    have maker : (link.table.locals.map Entry.maker)[i]? = some (.atom link.lists.localAtoms[i]) := by
      rw [numbered.localMakers, List.getElem?_append_left (by simpa using inside)]
      simp [inside]
    have made := standsAt_of_maker P [] link.table.locals (link.table.globals ++ link.table.imports) maker
    rw [List.nil_append, ← List.append_assoc, List.length_nil, Nat.zero_add] at made
    rw [numbered.localIndex i inside]
    exact made
  · intro ref isExported notImported
    obtain ⟨i, inside, rfl⟩ := List.getElem_of_mem isExported
    have maker : (link.table.globals.map Entry.maker)[i]? = some (.atom link.lists.exportedAtoms[i]) := by
      rw [numbered.globalMakers]
      simp [inside]
    have made := standsAt_of_maker P link.table.locals link.table.globals link.table.imports maker
    rw [numbered.exportedIndex i inside notImported, Nat.add_comm state.stabs.length, ← localCount]
    exact made
  · intro ref isImported
    obtain ⟨i, inside, rfl⟩ := List.getElem_of_mem isImported
    have maker : (link.table.imports.map Entry.maker)[i]? = some (.atom link.lists.importedAtoms[i]) := by
      rw [numbered.importMakers]
      simp [inside]
    have made := standsAt_of_maker P (link.table.locals ++ link.table.globals) link.table.imports []
      maker
    rw [List.append_nil, List.length_append] at made
    rw [numbered.importedIndex i inside, Nat.add_comm state.stabs.length, ← localCount, ← globalCount]
    exact made
  · rw [length_arrayBytes, importStart, imports]
    simp only [List.length_append]
  · intro index inside
    have positive := sizeofNlist_pos P
    have stabsEnd : (link.lists.localAtoms.length + state.stabs.length) * sizeofNlist P < 2 ^ 32 := by
      refine Nat.lt_of_le_of_lt ?_ fits
      rw [Nat.mul_comm]
      exact Nat.mul_le_mul_left _ (by omega)
    have stabsStart : link.lists.localAtoms.length * sizeofNlist P < 2 ^ 32 :=
      Nat.lt_of_le_of_lt (Nat.mul_le_mul_right _ (Nat.le_add_right _ _)) stabsEnd
    show _ ↔ uint32 (link.table.stabsIndexStart * sizeofNlist P) ≤ _
      ∧ _ < uint32 (link.table.stabsIndexEnd * sizeofNlist P)
    rw [numbered.isStab_iff index inside, numbered.stabsStart, numbered.stabsEnd,
      uint32_of_lt stabsStart, uint32_of_lt stabsEnd, Nat.mul_le_mul_right_iff positive,
      Nat.mul_lt_mul_right positive]

/-- A local that is skipped leaves a gap in front of the globals. -/
theorem keeps_of_agrees (fits : reservedSize options byName state P < 2 ^ 32)
    (agree : IndexesAgree options byName state P) :
    ∀ ref ∈ (partitionSymbolTable options byName state).localAtoms,
      skipsLocal options ((partitionSymbolTable options byName state).atom ref) = false := by
  obtain ⟨raw, -, agrees⟩ := agree
    (List.replicate ((buildSymbolTable options byName state).table.size P) 0) List.length_replicate
  have few := symbols_fit fits
  have ranges := assignSymbolIndexes_ranges options state _ few
  have gap := agrees.globalStart
  simp only [buildSymbolTable, encode, ranges] at gap
  have fewer := List.length_filter_le (fun ref => !skipsLocal options
    ((partitionSymbolTable options byName state).atom ref))
    (partitionSymbolTable options byName state).localAtoms
  rw [Nat.zero_add, uint32_of_lt (by omega)] at gap
  have same : ((partitionSymbolTable options byName state).localAtoms.filter fun ref =>
      !skipsLocal options ((partitionSymbolTable options byName state).atom ref)).length
      = (partitionSymbolTable options byName state).localAtoms.length := by
    omega
  intro ref isLocal
  have kept := List.filter_eq_self.mp (List.filter_sublist.eq_of_length same) ref isLocal
  simpa using kept

end Stages

/-! ## The result -/

section Result

variable {Ref : Type} [DecidableEq Ref]

/-- **Indexes and table agree exactly if no unwanted frame becomes a local symbol.** -/
theorem symbolIndexes_agree_iff (options : Options) (byName : NameSort Ref) (state : Internal Ref)
    (P : Pointer) (fits : reservedSize options byName state P < 2 ^ 32) :
    IndexesAgree options byName state P ↔ NoFrameSymbols options state := by
  have facts := partitionSymbolTable_lists options byName state
  rw [← keeps_iff facts]
  constructor
  · exact keeps_of_agrees fits
  · intro keeps buffer whole
    exact (buildSymbolTable_numbered fits keeps).agrees fits whole

end Result

/-! ### A link that agrees and one that does not -/

def insertionByName : NameSort Nat where
  sort name list := list.insertionSort fun left right => name left ≤ name right
  perm name list := List.perm_insertionSort _ list
  sorted name list := by
    have : Std.Total fun left right : Nat => name left ≤ name right :=
      ⟨fun left right => List.le_total (name left) (name right)⟩
    have : IsTrans Nat fun left right => name left ≤ name right :=
      ⟨fun _ _ _ first second => List.le_trans first second⟩
    exact List.pairwise_insertionSort _ list

def plainOptions (outputKind : OutputKind) : Options where
  outputKind := outputKind
  architecture := .x86_64
  removeEHLabels := true
  makeEncryptable := false
  segmentAlignment := 4096
  keepPrivateExterns := false
  makeTentativeDefinitionsReal := false
  makeCompressedDyldInfo := true
  makeThreadedStartsSection := false
  positionIndependentExecutable := true
  hasExportMaskList := false
  hasExportRestrictList := false
  twoLevelNameSpace := true
  undefinedDynamicLookup := false
  deduplicateFunctions := true
  shouldExport := fun _ => true
  keepLocalSymbol := fun _ => true
  allowedUndefined := fun _ => false

def plainAtom (name : Name) (scope : Scope) : Atom Nat where
  name := name
  sectionType := .code
  scope := scope
  definition := .regular
  combine := .never
  contentType := .other
  symbolTableInclusion := .included
  machoSection := 0
  outputSymbolIndex := 2 ^ 32 - 1
  objectAddress := 0
  finalAddress := 4096
  size := 4
  alignmentPowerOf2 := 2
  dontDeadStrip := false
  isThumb := false
  isAlias := false
  autoHide := false
  cold := false
  weakImported := false
  dylib := none
  fixups := []

def sectionOf (type : SectionType) (atoms : List Nat) : FinalSection Nat where
  segmentName := textSegment
  sectionName := []
  type := type
  isSectionHidden := false
  fileOffset := 0
  size := 0
  atoms := atoms

/-- `_l` and `_m`, an import `_p` and a stab. -/
def smallExecutable : Internal Nat where
  sections := [sectionOf .code [0, 1], sectionOf .importProxies [2]]
  atom := fun ref =>
    if ref = 0 then plainAtom [95, 108] .translationUnit
    else if ref = 1 then plainAtom [95, 109] .global
    else { plainAtom [95, 112] .linkageUnit with definition := .proxy, dylib := some ⟨1, false⟩ }
  stabs := [⟨none, nSo, 0, 0, 0, none⟩]
  indirectBindingTable := id
  allObjectFilesScatterable := true
  once := by decide

theorem smallExecutable_agrees :
    IndexesAgree (plainOptions .dynamicExecutable) insertionByName smallExecutable .pointer64 :=
  (symbolIndexes_agree_iff (plainOptions .dynamicExecutable) insertionByName smallExecutable .pointer64
    (by decide)).mpr (by
      intro _ sect inside ref here frame
      have content : ∀ r, (smallExecutable.atom r).contentType = .other := by
        intro r
        simp only [smallExecutable]
        split_ifs <;> rfl
      rw [content ref] at frame
      cases frame)

/-- `-r -no_eh_labels`: a frame that has come into a section of another type, and `_f`. -/
def renamedFrames : Internal Nat where
  sections := [sectionOf .code [0, 1]]
  atom := fun ref =>
    if ref = 0 then
      { plainAtom cieName .translationUnit with
        sectionType := .cfi, contentType := .cfi, symbolTableInclusion := .notInFinalLinkedImages }
    else plainAtom [95, 102] .global
  stabs := []
  indirectBindingTable := id
  allObjectFilesScatterable := true
  once := by decide

/-- The index of `_f` is 1, but its entry is the first, and the copy runs past the table. -/
theorem renamedFrames_overrun :
    ¬ IndexesAgree (plainOptions .objectFile) insertionByName renamedFrames .pointer64 := by
  intro agree
  obtain ⟨raw, copied, -⟩ := agree (List.replicate 16 0) (by decide)
  have overrun : (buildSymbolTable (plainOptions .objectFile) insertionByName renamedFrames).table.copyRawContent
      .pointer64 (buildSymbolTable (plainOptions .objectFile) insertionByName renamedFrames).ranges
      (List.replicate 16 0) = none := by
    decide
  rw [overrun] at copied
  cases copied

end Cctools.Symtab
