/-
# Cctools.Symtab.Lists -- what the partition leaves in the three lists

No atom comes twice, so what happens to one depends on the atom as it was before the
pass.  The lists are the atoms of all sections in order, filtered by where each is put
(`partitionSections_filters`), and an atom that is a local is in neither other list.

`keepsFrame` is the part of the rule for call frame information when `-no_eh_labels` is
on, as a condition on the atom and its section.
-/
import Cctools.Symtab.Partition
import Mathlib.Data.List.Pairwise
import Mathlib.Tactic.Common

namespace Cctools.Symtab

set_option autoImplicit false

section Place

variable {Ref : Type} (options : Options)

/-! ## One atom -/

/-- Only the `machoSection`, the scope and the inclusion of an atom change. -/
structure SameSymbol (before after : Atom Ref) : Prop where
  name : after.name = before.name
  contentType : after.contentType = before.contentType

theorem setMachoSection_same (sect : FinalSection Ref) (index : Nat) (atom : Atom Ref) :
    SameSymbol atom (setMachoSection sect index atom) := by
  unfold setMachoSection
  split_ifs <;> exact ⟨rfl, rfl⟩

theorem clarifyInclusion_same (sect : FinalSection Ref) (atom : Atom Ref) :
    SameSymbol atom (clarifyInclusion options sect atom) := by
  simp only [clarifyInclusion]
  split_ifs <;> exact ⟨rfl, rfl⟩

theorem settleScope_same (atom : Atom Ref) : SameSymbol atom (settleScope options atom) := by
  simp only [settleScope]
  split_ifs <;> exact ⟨rfl, rfl⟩

theorem placeByScope_same (namesNext : Bool) (atom : Atom Ref) :
    SameSymbol atom (placeByScope options namesNext atom).1 := by
  unfold placeByScope
  split
  · split_ifs <;> exact ⟨rfl, rfl⟩
  · exact ⟨rfl, rfl⟩
  · split_ifs <;> exact ⟨rfl, rfl⟩

theorem placeSymbol_same (sect : FinalSection Ref) (namesNext : Bool) (atom : Atom Ref) :
    SameSymbol atom (placeSymbol options sect namesNext atom).1 := by
  unfold placeSymbol
  split
  · exact ⟨rfl, rfl⟩
  split
  · exact ⟨rfl, rfl⟩
  split
  · exact ⟨rfl, rfl⟩
  · exact placeByScope_same options namesNext atom

theorem SameSymbol.trans {before between after : Atom Ref} (first : SameSymbol before between)
    (second : SameSymbol between after) : SameSymbol before after :=
  ⟨second.name.trans first.name, second.contentType.trans first.contentType⟩

theorem place_same (sect : FinalSection Ref) (namesNext : Bool) (atom : Atom Ref) :
    SameSymbol atom (place options sect namesNext atom).1 := by
  unfold place
  split_ifs
  · exact ⟨rfl, rfl⟩
  · exact ⟨rfl, rfl⟩
  · exact ((clarifyInclusion_same options sect atom).trans (settleScope_same options _)).trans
      (placeSymbol_same options sect namesNext _)

/-- A local symbol is neither exported nor imported. -/
def Placement.Exclusive (placement : Placement) : Prop :=
  placement.locals = true → placement.exported = false ∧ placement.imported = false

namespace Placement

theorem exclusive_localAtoms : localAtoms.Exclusive := fun _ => ⟨rfl, rfl⟩

theorem exclusive_of_not_local {placement : Placement} (other : placement.locals = false) :
    placement.Exclusive := by
  intro isLocal
  rw [other] at isLocal
  cases isLocal

end Placement

open Placement in
theorem placeByScope_exclusive (namesNext : Bool) (atom : Atom Ref) :
    (placeByScope options namesNext atom).2.Exclusive := by
  unfold placeByScope
  split
  · split
    · exact exclusive_localAtoms
    split
    · exact exclusive_localAtoms
    · exact exclusive_of_not_local rfl
  · exact exclusive_of_not_local rfl
  · split_ifs <;> first | exact exclusive_localAtoms | exact exclusive_of_not_local rfl

open Placement in
theorem placeSymbol_exclusive (sect : FinalSection Ref) (namesNext : Bool) (atom : Atom Ref) :
    (placeSymbol options sect namesNext atom).2.Exclusive := by
  unfold placeSymbol
  split
  · exact exclusive_of_not_local rfl
  split
  · exact exclusive_of_not_local rfl
  split
  · split <;> exact exclusive_of_not_local rfl
  · exact placeByScope_exclusive options namesNext atom

open Placement in
theorem place_exclusive (sect : FinalSection Ref) (namesNext : Bool) (atom : Atom Ref) :
    (place options sect namesNext atom).2.Exclusive := by
  unfold place
  split
  · exact exclusive_localAtoms
  split
  · exact exclusive_of_not_local rfl
  · exact placeSymbol_exclusive options sect namesNext _

/-! ## Call frame information -/

/-- Whether an atom becomes a local symbol when `-no_eh_labels` is on. -/
def keepsFrame (sect : FinalSection Ref) (atom : Atom Ref) : Bool :=
  if options.outputKind = .objectFile then
    labelsLiteralStrings options sect atom
    || (sect.type ≠ .tempAlias && sect.type ≠ .importProxies && sect.type ≠ .cfi
      && atom.symbolTableInclusion ≠ .notIn && atom.definition ≠ .tentative
      && (atom.scope = .translationUnit
        || (atom.scope = .linkageUnit && (!options.keepPrivateExterns
          || atom.symbolTableInclusion = .inWithRandomAutoStripLabel))))
  else
    sect.type ≠ .importProxies && !notInSymbolTable options atom
    && match (settleScope options atom).scope with
      | .translationUnit => options.keepLocalSymbol atom.name
      | .linkageUnit => options.keepLocalSymbol atom.name
          || (atom.symbolTableInclusion = .inAndNeverStrip && !options.makeCompressedDyldInfo
            && !options.makeThreadedStartsSection)
      | .global => false

variable {options}

theorem keepsFrame_setMachoSection (sect : FinalSection Ref) (index : Nat) (atom : Atom Ref) :
    keepsFrame options sect (setMachoSection sect index atom) = keepsFrame options sect atom := by
  have same : ∀ m, keepsFrame options sect { atom with machoSection := m }
      = keepsFrame options sect atom := by
    intro m
    simp only [keepsFrame, settleScope]
    split_ifs <;> rfl
  unfold setMachoSection
  split_ifs
  · exact same _
  · exact same _
  · exact same _
  · exact same _
  · rfl

theorem settleScope_objectFile (relocatable : options.outputKind = .objectFile) (atom : Atom Ref) :
    settleScope options atom = atom := by
  simp [settleScope, relocatable]

theorem settleScope_inclusion (atom : Atom Ref) :
    (settleScope options atom).symbolTableInclusion = atom.symbolTableInclusion := by
  simp only [settleScope]
  split_ifs <;> rfl

theorem clarifyInclusion_final (final : options.outputKind ≠ .objectFile) (sect : FinalSection Ref)
    (atom : Atom Ref) : clarifyInclusion options sect atom = atom := by
  simp [clarifyInclusion, final]

theorem placeByScope_objectFile (relocatable : options.outputKind = .objectFile) (namesNext : Bool)
    (atom : Atom Ref) :
    (placeByScope options namesNext atom).2.locals
      = (atom.scope = .translationUnit || (atom.scope = .linkageUnit && (!options.keepPrivateExterns
          || atom.symbolTableInclusion = .inWithRandomAutoStripLabel))) := by
  cases scope : atom.scope with
  | translationUnit =>
    simp only [placeByScope, scope, relocatable]
    split <;> rfl
  | linkageUnit =>
    simp only [placeByScope, scope, relocatable, if_true]
    split_ifs <;> simp [Placement.localAtoms, Placement.exportedAtoms, *]
  | global => simp [placeByScope, scope, Placement.exportedAtoms]

theorem placeByScope_final (final : options.outputKind ≠ .objectFile) (namesNext : Bool)
    (atom : Atom Ref) :
    (placeByScope options namesNext atom).2.locals
      = match atom.scope with
        | .translationUnit => options.keepLocalSymbol atom.name
        | .linkageUnit => options.keepLocalSymbol atom.name
            || (atom.symbolTableInclusion = .inAndNeverStrip && !options.makeCompressedDyldInfo
              && !options.makeThreadedStartsSection)
        | .global => false := by
  cases scope : atom.scope with
  | translationUnit =>
    simp only [placeByScope, scope, final]
    split <;> simp [Placement.localAtoms, Placement.nowhere, *]
  | linkageUnit =>
    simp only [placeByScope, scope, final]
    split_ifs <;> simp_all [Placement.localAtoms, Placement.nowhere]
  | global => simp [placeByScope, scope, Placement.exportedAtoms]

/-- **With `-no_eh_labels` the locals are those of `keepsFrame`.** -/
theorem place_locals (removes : options.removeEHLabels = true) (sect : FinalSection Ref)
    (namesNext : Bool) (atom : Atom Ref) :
    (place options sect namesNext atom).2.locals = keepsFrame options sect atom := by
  by_cases kind : options.outputKind = .objectFile
  · have label : ∀ a : Atom Ref, notInSymbolTable options a
        = (a.symbolTableInclusion = .notInFinalLinkedImages || a.symbolTableInclusion = .notIn) := by
      intro a
      simp [notInSymbolTable, kind]
    by_cases literal : labelsLiteralStrings options sect atom = true
    · simp [place, keepsFrame, kind, literal, Placement.localAtoms]
    by_cases temp : sect.type = .tempAlias
    · simp [place, keepsFrame, kind, literal, temp, Placement.importedAtoms]
    by_cases proxies : sect.type = .importProxies
    · simp [place, placeSymbol, keepsFrame, kind, literal, proxies]
    by_cases frames : sect.type = .cfi
    · simp [place, placeSymbol, keepsFrame, kind, literal, frames, settleScope_objectFile,
        clarifyInclusion, removes, label, Placement.nowhere]
    · have clear : (clarifyInclusion options sect atom).symbolTableInclusion
          ≠ .notInFinalLinkedImages := by
        simp only [clarifyInclusion, kind, frames, if_true, if_false]
        split_ifs with absent
        · exact nofun
        · exact absent
      have same : ∀ inclusion, inclusion ≠ .notInFinalLinkedImages → inclusion ≠ .included →
          ((clarifyInclusion options sect atom).symbolTableInclusion = inclusion
            ↔ atom.symbolTableInclusion = inclusion) := by
        intro inclusion notFinal notIncluded
        simp only [clarifyInclusion, kind, frames, if_true, if_false]
        split_ifs with absent
        · simp [absent, notFinal.symm, notIncluded.symm]
        · rfl
      have rest : (clarifyInclusion options sect atom).definition = atom.definition
          ∧ (clarifyInclusion options sect atom).scope = atom.scope := by
        simp only [clarifyInclusion, kind, frames, if_true, if_false]
        split_ifs <;> exact ⟨rfl, rfl⟩
      rw [place, if_neg (fun both => literal both.2), if_neg (fun both => temp both.2),
        settleScope_objectFile kind, placeSymbol, if_neg proxies, keepsFrame, if_pos kind]
      by_cases absent : atom.symbolTableInclusion = .notIn
      · simp [label, same .notIn nofun nofun, absent, literal, Placement.nowhere]
      rw [if_neg (by simp [label, same .notIn nofun nofun, absent, clear])]
      by_cases tentative : atom.definition = .tentative
      · rw [if_pos ⟨rest.1.trans tentative, kind⟩]
        cases options.makeTentativeDefinitionsReal <;>
          simp [literal, tentative, Placement.exportedAtoms, Placement.importedAtoms]
      · rw [if_neg (fun both => tentative (rest.1.symm.trans both.1)), placeByScope_objectFile kind]
        simp [literal, temp, proxies, frames, absent, tentative, rest.2,
          same .inWithRandomAutoStripLabel nofun nofun]
  · rw [place, if_neg (fun both => kind both.1), if_neg (fun both => kind both.1),
      clarifyInclusion_final kind, placeSymbol, keepsFrame, if_neg kind]
    have label : notInSymbolTable options (settleScope options atom) = notInSymbolTable options atom := by
      simp [notInSymbolTable, settleScope_inclusion]
    by_cases proxies : sect.type = .importProxies
    · simp [proxies]
    rw [if_neg proxies, label]
    by_cases absent : notInSymbolTable options atom = true
    · simp [absent, Placement.nowhere]
    rw [if_neg absent, if_neg (fun both => kind both.2), placeByScope_final kind,
      settleScope_inclusion, (settleScope_same options atom).name]
    simp [proxies, absent]

theorem section_unique (state : Internal Ref) {sect sect' : FinalSection Ref} {ref : Ref}
    (inside : sect ∈ state.sections) (here : ref ∈ sect.atoms) (inside' : sect' ∈ state.sections)
    (here' : ref ∈ sect'.atoms) : sect = sect' := by
  by_contra different
  have apart := (List.nodup_flatMap.mp state.once).2
  have : Std.Symm (Function.onFun List.Disjoint (@FinalSection.atoms Ref)) :=
    ⟨fun _ _ disjoint _ here here_ => disjoint here_ here⟩
  exact apart.forall inside inside' different here here'

end Place

/-! ## All atoms -/

section Partitioned

variable {Ref : Type} [DecidableEq Ref] {options : Options}

/-- Where `place` may put an atom that stands in `sect`, before anything is known of it. -/
def PlacedIn (options : Options) (atom : Ref → Atom Ref) (sections : List (FinalSection Ref))
    (ref : Ref) (placement : Placement) : Prop :=
  ∃ sect ∈ sections, ref ∈ sect.atoms ∧ ∃ namesNext index,
    placement = (place options sect namesNext (setMachoSection sect index (atom ref))).2

/-- The lists after the atoms `done`. -/
structure Partitioned (options : Options) (state : Internal Ref) (placement : Ref → Placement)
    (done : List Ref) (lists : SymbolLists Ref) : Prop where
  locals : lists.localAtoms = done.filter fun ref => (placement ref).locals
  exported : lists.exportedAtoms = done.filter fun ref => (placement ref).exported
  imported : lists.importedAtoms = done.filter fun ref => (placement ref).imported
  placed : ∀ ref ∈ done, PlacedIn options state.atom state.sections ref (placement ref)
  untouched : ∀ ref ∉ done, lists.atom ref = state.atom ref
  same : ∀ ref, SameSymbol (state.atom ref) (lists.atom ref)

theorem appendIf_filter {done : List Ref} {ref : Ref} (fresh : ref ∉ done)
    (placement : Ref → Placement) (new : Placement) (which : Placement → Bool) :
    appendIf (which new) (done.filter fun r => which (placement r)) ref
      = (done ++ [ref]).filter fun r => which (Function.update placement ref new r) := by
  have old : (done.filter fun r => which (Function.update placement ref new r))
      = done.filter fun r => which (placement r) := by
    apply List.filter_congr
    intro r inside
    rw [Function.update_of_ne (ne_of_mem_of_not_mem inside fresh)]
  rw [List.filter_append, old, appendIf]
  cases kept : which new <;> simp [kept]

/-- One round of the inner loop, for an atom that has not come yet. -/
theorem partitionAtom_partitioned {state : Internal Ref} {placement : Ref → Placement}
    {done : List Ref} {lists : SymbolLists Ref} {sect : FinalSection Ref} {ref : Ref}
    (partitioned : Partitioned options state placement done lists) (inside : sect ∈ state.sections)
    (here : ref ∈ sect.atoms) (fresh : ref ∉ done) (fuel index : Nat) (after : List Ref) :
    ∃ placement', Partitioned options state placement' (done ++ [ref])
      (partitionAtom options fuel sect index ref after lists) := by
  unfold partitionAtom
  extract_lets namesNext placed weakProxy
  have from_ : placed = place options sect namesNext (setMachoSection sect index (state.atom ref)) := by
    rw [← partitioned.untouched ref fresh]
  refine ⟨Function.update placement ref placed.2, ?_, ?_, ?_, ?_, ?_, ?_⟩
  · show appendIf placed.2.locals lists.localAtoms ref = _
    rw [partitioned.locals]
    exact appendIf_filter fresh placement placed.2 Placement.locals
  · show appendIf placed.2.exported lists.exportedAtoms ref = _
    rw [partitioned.exported]
    exact appendIf_filter fresh placement placed.2 Placement.exported
  · show appendIf placed.2.imported lists.importedAtoms ref = _
    rw [partitioned.imported]
    exact appendIf_filter fresh placement placed.2 Placement.imported
  · intro r member
    rcases List.mem_append.mp member with old | new
    · rw [Function.update_of_ne (ne_of_mem_of_not_mem old fresh)]
      exact partitioned.placed r old
    · obtain rfl := List.mem_singleton.mp new
      rw [Function.update_self, from_]
      exact ⟨sect, inside, here, namesNext, index, rfl⟩
  · intro r absent
    have other : r ≠ ref := fun same => absent (by simp [same])
    show Function.update lists.atom ref placed.1 r = _
    rw [Function.update_of_ne other]
    exact partitioned.untouched r (fun old => absent (List.mem_append_left _ old))
  · intro r
    show SameSymbol _ (Function.update lists.atom ref placed.1 r)
    by_cases same : r = ref
    · rw [same, Function.update_self, from_]
      exact (setMachoSection_same sect index _).trans (place_same options sect namesNext _)
    · rw [Function.update_of_ne same]
      exact partitioned.same r

theorem partitionAtoms_partitioned {state : Internal Ref} {sect : FinalSection Ref}
    (inside : sect ∈ state.sections) (fuel index : Nat) :
    ∀ (rest : List Ref) (placement : Ref → Placement) (done : List Ref) (lists : SymbolLists Ref),
      Partitioned options state placement done lists → (∀ ref ∈ rest, ref ∈ sect.atoms) →
      (done ++ rest).Nodup → ∃ placement', Partitioned options state placement' (done ++ rest)
        (partitionAtoms options fuel sect index rest lists)
  | [], placement, done, lists, partitioned, _, _ => by
      rw [List.append_nil]
      exact ⟨placement, partitioned⟩
  | ref :: after, placement, done, lists, partitioned, members, once => by
      have fresh : ref ∉ done := fun old =>
        (List.nodup_append.mp once).2.2 ref old ref List.mem_cons_self rfl
      obtain ⟨placement', step⟩ := partitionAtom_partitioned partitioned inside
        (members ref List.mem_cons_self) fresh fuel index after
      have split : done ++ ref :: after = done ++ [ref] ++ after := by simp
      rw [split] at once ⊢
      exact partitionAtoms_partitioned inside fuel index after placement' _ _ step
        (fun r member => members r (List.mem_cons_of_mem _ member)) once

theorem partitionSections_partitioned (options : Options) (state : Internal Ref) (fuel : Nat) :
    ∀ (sections : List (FinalSection Ref)) (index : Nat) (placement : Ref → Placement)
      (done : List Ref) (lists : SymbolLists Ref),
      Partitioned options state placement done lists → (∀ sect ∈ sections, sect ∈ state.sections) →
      (done ++ sections.flatMap FinalSection.atoms).Nodup →
      ∃ placement', Partitioned options state placement' (done ++ sections.flatMap FinalSection.atoms)
        (partitionSections options fuel index sections lists)
  | [], index, placement, done, lists, partitioned, _, _ => by
      rw [List.flatMap_nil, List.append_nil]
      exact ⟨placement, partitioned⟩
  | sect :: sections, index, placement, done, lists, partitioned, members, once => by
      rw [List.flatMap_cons, ← List.append_assoc] at once ⊢
      unfold partitionSections
      extract_lets lists' index'
      have before : Partitioned options state placement done lists' := by
        simp only [lists']
        split
        · exact ⟨partitioned.locals, partitioned.exported, partitioned.imported, partitioned.placed,
            partitioned.untouched, partitioned.same⟩
        · exact partitioned
      obtain ⟨placement', step⟩ := partitionAtoms_partitioned (members sect List.mem_cons_self) fuel
        index' sect.atoms placement done lists' before (fun _ member => member)
        (List.nodup_append.mp once).1
      exact partitionSections_partitioned options state fuel sections index' placement' _ _ step
        (fun s member => members s (List.mem_cons_of_mem _ member)) once

/-! ## The three lists -/

/-- What the indexes need of the lists. -/
structure ListsOf (options : Options) (state : Internal Ref) (lists : SymbolLists Ref) : Prop where
  localsOnce : lists.localAtoms.Nodup
  exportedOnce : lists.exportedAtoms.Nodup
  importedOnce : lists.importedAtoms.Nodup
  apart : ∀ ref ∈ lists.localAtoms, ref ∉ lists.exportedAtoms ∧ ref ∉ lists.importedAtoms
  exportedSorted : lists.exportedAtoms.Pairwise fun left right =>
    (lists.atom left).name ≤ (lists.atom right).name
  importedSorted : lists.importedAtoms.Pairwise fun left right =>
    (lists.atom left).name ≤ (lists.atom right).name
  same : ∀ ref, SameSymbol (state.atom ref) (lists.atom ref)
  mem_locals : options.removeEHLabels = true → ∀ sect ∈ state.sections, ∀ ref ∈ sect.atoms,
    (ref ∈ lists.localAtoms ↔ keepsFrame options sect (state.atom ref) = true)
  locals_mem : ∀ ref ∈ lists.localAtoms, ∃ sect ∈ state.sections, ref ∈ sect.atoms

/-- **The lists of `partitionSymbolTable`.** -/
theorem partitionSymbolTable_lists (options : Options) (byName : NameSort Ref) (state : Internal Ref) :
    ListsOf options state (partitionSymbolTable options byName state) := by
  unfold partitionSymbolTable
  extract_lets lists importedAtoms name
  obtain ⟨placement, partitioned⟩ := partitionSections_partitioned options state state.fuel state.sections 0 (fun _ => .nowhere) []
    { atom := state.atom, localAtoms := [], exportedAtoms := [], importedAtoms := [],
      usesWeakExternalSymbols := false, reExportsWeakDefSymbols := false,
      encryptedTEXTendOffset := 0 }
    ⟨rfl, rfl, rfl, nofun, fun _ _ => rfl, fun _ => ⟨rfl, rfl⟩⟩ (fun _ member => member) state.once
  rw [List.nil_append] at partitioned
  change Partitioned options state placement state.atoms lists at partitioned
  have once : state.atoms.Nodup := state.once
  have kept : importedAtoms.Sublist lists.importedAtoms := by
    simp only [importedAtoms]
    split
    · exact List.filter_sublist
    · exact List.Sublist.refl _
  have members : ∀ ref ∈ state.atoms, PlacedIn options state.atom state.sections ref (placement ref) :=
    partitioned.placed
  refine ⟨?_, ?_, ?_, ?_, byName.sorted _ _, byName.sorted _ _, partitioned.same, ?_, ?_⟩
  · show lists.localAtoms.Nodup
    rw [partitioned.locals]
    exact once.filter _
  · show (byName.sort name lists.exportedAtoms).Nodup
    rw [(byName.perm _ _).nodup_iff, partitioned.exported]
    exact once.filter _
  · show (byName.sort name importedAtoms).Nodup
    rw [(byName.perm _ _).nodup_iff]
    apply kept.nodup
    rw [partitioned.imported]
    exact once.filter _
  · intro ref isLocal
    replace isLocal : ref ∈ lists.localAtoms := isLocal
    rw [partitioned.locals, List.mem_filter] at isLocal
    obtain ⟨sect, inside, here, namesNext, index, placed⟩ := members ref isLocal.1
    have other := place_exclusive options sect namesNext (setMachoSection sect index (state.atom ref))
    rw [← placed] at other
    obtain ⟨notExported, notImported⟩ := other isLocal.2
    constructor
    · intro inExports
      have inList := (byName.perm _ _).mem_iff.mp inExports
      rw [partitioned.exported, List.mem_filter, notExported] at inList
      exact Bool.noConfusion inList.2
    · intro inImports
      have inList := kept.subset ((byName.perm _ _).mem_iff.mp inImports)
      rw [partitioned.imported, List.mem_filter, notImported] at inList
      exact Bool.noConfusion inList.2
  · intro removes sect inside ref here
    show ref ∈ lists.localAtoms ↔ _
    have member : ref ∈ state.atoms := List.mem_flatMap.mpr ⟨sect, inside, here⟩
    obtain ⟨sect', inside', here', namesNext, index, placed⟩ := members ref member
    obtain rfl := section_unique state inside' here' inside here
    rw [partitioned.locals, List.mem_filter, placed, place_locals removes,
      keepsFrame_setMachoSection]
    exact and_iff_right member
  · intro ref isLocal
    replace isLocal : ref ∈ lists.localAtoms := isLocal
    rw [partitioned.locals, List.mem_filter] at isLocal
    exact List.mem_flatMap.mp isLocal.1

end Partitioned

end Cctools.Symtab
