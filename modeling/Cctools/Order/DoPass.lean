/-
# Cctools.Order.DoPass -- the atoms of every section are sorted

`doPass` makes the ordinals of the order file, moves what becomes data, and then sorts each section:
its atoms without the aliases, the aliases, and both merged.  The sort is a parameter with what is promised of
`std::sort` (`SortContract`), which is nothing for a comparison that is no strict weak order.
`doPass_arranged` says what comes out.  Sections that an earlier pass has sorted are kept as they are.
-/
import Cctools.Order.AliasComparer
import Cctools.Order.MoveToData

namespace Cctools.Order

set_option autoImplicit false

open Cctools.Theory

/-! ## The pass -/

section Pass

variable {Address : Type} [DecidableEq Address]
  (sort : (Address → Address → Bool) → List Address → List Address) (fuel : Nat) (state : Internal Address)

/-- Sections that the pass that made them has sorted are left out. -/
def FinalSection.needsSort (sect : FinalSection Address) : Bool :=
  match sect.type with
  | .tempAlias | .stub | .lazyPointer | .lazyPointerClose | .stubClose | .nonLazyPointer => false
  | .cStringPointer => sect.sectionName ≠ "__objc_selrefs"
  | .nonStdCString => sect.sectionName ≠ "__objc_methname"
  | _ => true

def sortAtoms (ordinals : Address → Option (BitVec 32)) (atoms : List Address) : Except Failure (List Address) :=
  let regular := atoms.filter fun a => !(state.atom a).isAlias
  let aliases := atoms.filter fun a => (state.atom a).isAlias
  let sorted := sort (comparer state ordinals) regular
  if aliases.isEmpty then .ok sorted
  else do
    let aliasToTarget ← aliasTargets state fuel aliases
    let aliasCmp := aliasComparer state ordinals aliasToTarget
    return stableMerge aliasCmp sorted (sort aliasCmp aliases)

def sortSection (ordinals : Address → Option (BitVec 32)) (sect : FinalSection Address) :
    Except Failure (FinalSection Address) :=
  if sect.needsSort then do
    let atoms ← sortAtoms sort fuel state ordinals sect.atoms
    return { sect with atoms }
  else .ok sect

end Pass

/-- The sections after the pass.  What `findAtom` says of the entries of the order file is given. -/
def doPass {Address : Type} [LinearOrder Address] (sort : (Address → Address → Bool) → List Address → List Address)
    (fuel : Nat) (state : Internal Address) (orderedSymbols : List (Option Address)) :
    Except Failure (List (FinalSection Address)) := do
  let tables ← buildFollowOnTables fuel state
  let overrides ← buildOrdinalOverrideMap fuel state.haveOrderFile tables orderedSymbols
  (moveToData state orderedSymbols).mapM (sortSection sort fuel state overrides.ordinals)

/-! ## Sorted sections -/

section Arranged

variable {Address : Type} [DecidableEq Address] (state : Internal Address) (fuel : Nat)
  (ordinals : Address → Option (BitVec 32))

/-- **What a list of atoms is sorted into.** -/
structure SortedInto (before after : List Address) : Prop where
  perm : after.Perm before
  regular : Sorted (comparer state ordinals) (after.filter fun a => !(state.atom a).isAlias)
  /-- Between an alias and its target there are only aliases of the same target. -/
  aliases : ∀ front alias_ back target, after = front ++ alias_ :: back →
    resolvedTarget state fuel alias_ = some target → target ∈ before →
      ∃ between rest, back = between ++ target :: rest ∧ ∀ a ∈ between, resolvedTarget state fuel a = some target

/-- **What the pass does to a section.** -/
structure Arranged (before after : FinalSection Address) : Prop where
  type : after.type = before.type
  segmentName : after.segmentName = before.segmentName
  sectionName : after.sectionName = before.sectionName
  kept : before.needsSort = false → after.atoms = before.atoms
  comparer : before.needsSort = true → AtMostOne state {a | a ∈ before.atoms} .sectionStart →
    SmallAddresses state {a | a ∈ before.atoms} →
      StrictWeakOn {a | a ∈ before.atoms ∧ (state.atom a).isAlias = false} (comparer state ordinals)
  aliasComparer : before.needsSort = true →
    SmallAddresses state (standsFor state fuel '' {a | a ∈ before.atoms}) →
      ∃ map, aliasTargets state fuel (before.atoms.filter fun a => (state.atom a).isAlias) = .ok map ∧
        (StrictWeakOn {a | a ∈ before.atoms} (aliasComparer state ordinals map) ↔
          AtMostOne state (standsFor state fuel '' {a | a ∈ before.atoms}) .sectionStart ∧
            GroupsApart state ordinals fuel {a | a ∈ before.atoms})
  sorted : before.needsSort = true → SmallAddresses state (standsFor state fuel '' {a | a ∈ before.atoms}) →
    AtMostOne state (standsFor state fuel '' {a | a ∈ before.atoms}) .sectionStart →
      GroupsApart state ordinals fuel {a | a ∈ before.atoms} →
        SortedInto state fuel ordinals before.atoms after.atoms

variable {state fuel ordinals}

omit [DecidableEq Address] in
theorem resolvedTarget_of_real {a : Address} (real : (state.atom a).isAlias = false) :
    resolvedTarget state fuel a = none := by
  rw [resolvedTarget, real, if_neg Bool.false_ne_true]

omit [DecidableEq Address] in
theorem standsFor_of_real {a : Address} (real : (state.atom a).isAlias = false) : standsFor state fuel a = a :=
  standsFor_of_none state (resolvedTarget_of_real real)

variable {map : Address → Option Address} {atoms : List Address}

theorem aliasComparer_regular
    (agrees : ∀ a ∈ atoms, (state.atom a).isAlias = true → map a = resolvedTarget state fuel a)
    {left right : Address} (hl : left ∈ atoms ∧ (state.atom left).isAlias = false)
    (hr : right ∈ atoms ∧ (state.atom right).isAlias = false) :
    aliasComparer state ordinals map left right = comparer state ordinals left right := by
  rw [aliasComparer_eq state ordinals agrees hl.1 hr.1, resolvedTarget_of_real hl.2, resolvedTarget_of_real hr.2,
    standsFor_of_real hl.2, standsFor_of_real hr.2]
  rfl

theorem sortedInto_of_sorted {before after : List Address}
    (agrees : ∀ a ∈ before, (state.atom a).isAlias = true → map a = resolvedTarget state fuel a)
    (weak : StrictWeakOn {a | a ∈ before} (aliasComparer state ordinals map)) (perm : after.Perm before)
    (sorted : Sorted (aliasComparer state ordinals map) after) : SortedInto state fuel ordinals before after where
  perm := perm
  regular := by
    refine (List.Pairwise.sublist List.filter_sublist sorted).imp_of_mem fun hx hy notLess => ?_
    rw [List.mem_filter, perm.mem_iff, Bool.not_eq_true'] at hx hy
    rw [← aliasComparer_regular agrees hy hx]
    exact notLess
  aliases := by
    rintro front alias_ back target rfl resolved member
    have ahead : Ahead state fuel alias_ target := .inl resolved
    have inBefore {a : Address} (inAfter : a ∈ front ++ alias_ :: back) : a ∈ before := perm.mem_iff.mp inAfter
    have here : alias_ ∈ before := inBefore (by simp)
    have apart (u : Address) (hu : u ∈ front ++ alias_ :: back) (v : Address) (hv : v ∈ front ++ alias_ :: back) :=
      aliasComparer_apart state ordinals agrees (inBefore hu) (inBefore hv)
    obtain ⟨between, rest, split, group⟩ := sorted.grouped (weak.mono fun _ => inBefore) apart
      (perm.mem_iff.mpr member) ahead.same
      ((aliasComparer_within state ordinals agrees here member ahead.same).mpr ahead)
    refine ⟨between, rest, split, fun a inBetween => ?_⟩
    obtain ⟨same, other⟩ := group a inBetween
    rw [standsFor_of_none state (resolvedTarget_last state resolved)] at same
    cases ofA : resolvedTarget state fuel a with
    | none =>
      rw [standsFor_of_none state ofA] at same
      exact absurd same other
    | some other => rw [← same, standsFor_of_some state ofA]

variable {sort : (Address → Address → Bool) → List Address → List Address}

theorem sort_regular (contract : SortContract sort)
    (agrees : ∀ a ∈ atoms, (state.atom a).isAlias = true → map a = resolvedTarget state fuel a)
    (weak : StrictWeakOn {a | a ∈ atoms} (aliasComparer state ordinals map)) :
    let regular := atoms.filter fun a => !(state.atom a).isAlias
    (sort (comparer state ordinals) regular).Perm regular ∧
      Sorted (aliasComparer state ordinals map) (sort (comparer state ordinals) regular) := by
  intro regular
  have inRegular {a : Address} (member : a ∈ regular) : a ∈ atoms ∧ (state.atom a).isAlias = false := by
    rw [List.mem_filter, Bool.not_eq_true'] at member
    exact member
  have regularWeak : StrictWeakOn {a | a ∈ regular} (comparer state ordinals) :=
    (weak.mono fun _ member => (inRegular member).1).congr fun _ hx _ hy =>
      (aliasComparer_regular agrees (inRegular hx) (inRegular hy)).symm
  have perm := contract.perm _ _ regularWeak
  refine ⟨perm, (contract.sorted _ _ regularWeak).imp_of_mem fun hx hy notLess => ?_⟩
  rw [aliasComparer_regular agrees (inRegular (perm.mem_iff.mp hy)) (inRegular (perm.mem_iff.mp hx))]
  exact notLess

theorem sortAtoms_spec (contract : SortContract sort)
    (ends : ∀ a ∈ atoms, (state.atom a).isAlias = true → ∃ target, nestedTargetOfAliasAtom state fuel a = .ok target) :
    ∃ after, sortAtoms sort fuel state ordinals atoms = .ok after ∧
      (SmallAddresses state (standsFor state fuel '' {a | a ∈ atoms}) →
        AtMostOne state (standsFor state fuel '' {a | a ∈ atoms}) .sectionStart →
          GroupsApart state ordinals fuel {a | a ∈ atoms} → SortedInto state fuel ordinals atoms after) := by
  obtain ⟨aliases, isAliases⟩ : ∃ aliases, aliases = atoms.filter fun a => (state.atom a).isAlias := ⟨_, rfl⟩
  have inAliases {a : Address} : a ∈ aliases ↔ a ∈ atoms ∧ (state.atom a).isAlias = true := by
    rw [isAliases, List.mem_filter]
  have parted : (atoms.filter (fun a => !(state.atom a).isAlias) ++ aliases).Perm atoms := by
    rw [isAliases]
    exact List.perm_append_comm.trans (List.filter_append_perm _ _)
  obtain ⟨map, isOk, ofAliases⟩ := aliasTargets_spec state (fun a member => (inAliases.mp member).2)
    fun a member => ends a (inAliases.mp member).1 (inAliases.mp member).2
  have agrees (a : Address) (member : a ∈ atoms) (isAlias : (state.atom a).isAlias = true) :
      map a = resolvedTarget state fuel a := ofAliases a (inAliases.mpr ⟨member, isAlias⟩)
  rw [sortAtoms, ← isAliases]
  dsimp only
  by_cases noAliases : aliases.isEmpty = true
  · rw [if_pos noAliases]
    refine ⟨_, rfl, fun small start apart => ?_⟩
    have weak := (aliasComparer_strictWeakOn_iff state ordinals agrees small).mpr ⟨start, apart⟩
    obtain ⟨perm, sorted⟩ := sort_regular contract agrees weak
    rw [List.isEmpty_iff.mp noAliases, List.append_nil] at parted
    exact sortedInto_of_sorted agrees weak (perm.trans parted) sorted
  · rw [if_neg noAliases, isOk]
    refine ⟨_, rfl, fun small start apart => ?_⟩
    have weak := (aliasComparer_strictWeakOn_iff state ordinals agrees small).mpr ⟨start, apart⟩
    obtain ⟨perm, sorted⟩ := sort_regular contract agrees weak
    have aliasWeak : StrictWeakOn {a | a ∈ aliases} (aliasComparer state ordinals map) :=
      weak.mono fun _ member => (inAliases.mp member).1
    have aliasPerm := contract.perm _ _ aliasWeak
    have all := (perm.append aliasPerm).trans parted
    refine sortedInto_of_sorted agrees weak ((stableMerge_perm _ _).trans all) (stableMerge_sorted ?_ sorted
      (contract.sorted _ _ aliasWeak))
    exact weak.mono fun _ member => all.mem_iff.mp member

theorem sortSection_arranged (contract : SortContract sort) {sect : FinalSection Address}
    (ends : sect.needsSort = true → ∀ a ∈ sect.atoms, (state.atom a).isAlias = true →
      ∃ target, nestedTargetOfAliasAtom state fuel a = .ok target) :
    ∃ after, sortSection sort fuel state ordinals sect = .ok after ∧ Arranged state fuel ordinals sect after := by
  rw [sortSection]
  by_cases needsSort : sect.needsSort = true
  swap
  · rw [if_neg needsSort]
    exact ⟨sect, rfl, rfl, rfl, rfl, fun _ => rfl, fun yes => absurd yes needsSort, fun yes => absurd yes needsSort,
      fun yes => absurd yes needsSort⟩
  obtain ⟨after, isOk, sorted⟩ := sortAtoms_spec contract (ends needsSort)
  rw [if_pos needsSort, isOk]
  refine ⟨{ sect with atoms := after }, rfl, rfl, rfl, rfl, fun no => absurd no (by simp [needsSort]), ?_, ?_, fun _ => sorted⟩
  · exact fun _ start small => comparer_strictWeakOn state ordinals
      (fun x hx y hy => start x hx.1 y hy.1) fun x hx => small x hx.1
  · intro _ small
    obtain ⟨map, isMap, ofAliases⟩ := @aliasTargets_spec _ _ state fuel
      (sect.atoms.filter fun a => (state.atom a).isAlias) (fun a member => (List.mem_filter.mp member).2)
      fun a member => ends needsSort a (List.mem_filter.mp member).1 (List.mem_filter.mp member).2
    exact ⟨map, isMap, aliasComparer_strictWeakOn_iff state ordinals
      (fun a member isAlias => ofAliases a (List.mem_filter.mpr ⟨member, isAlias⟩)) small⟩

end Arranged

/-- **The order pass**: once the order file has its ordinals and the chains of aliases end, every section is
arranged, with the atoms that are moved to the data where they belong. -/
theorem doPass_arranged {Address : Type} [LinearOrder Address]
    {sort : (Address → Address → Bool) → List Address → List Address} (contract : SortContract sort) {fuel : Nat}
    {state : Internal Address} {tables : Tables Address} {overrides : Overrides Address}
    {orderedSymbols : List (Option Address)} (tablesOk : buildFollowOnTables fuel state = .ok tables)
    (overridesOk : buildOrdinalOverrideMap fuel state.haveOrderFile tables orderedSymbols = .ok overrides)
    (ends : ∀ sect ∈ moveToData state orderedSymbols, sect.needsSort = true → ∀ a ∈ sect.atoms,
      (state.atom a).isAlias = true → ∃ target, nestedTargetOfAliasAtom state fuel a = .ok target) :
    (∃ sections, doPass sort fuel state orderedSymbols = .ok sections ∧
      List.Forall₂ (Arranged state fuel overrides.ordinals) (moveToData state orderedSymbols) sections) ∧
    ((∀ a ∈ dataAtoms state orderedSymbols, (zeroFillAtoms state.sections).count a = 1) →
      (allAtoms (moveToData state orderedSymbols)).Perm (allAtoms state.sections)) := by
  refine ⟨?_, moveToData_perm state orderedSymbols⟩
  have all (list : List (FinalSection Address)) (member : ∀ sect ∈ list, sect ∈ moveToData state orderedSymbols) :
      ∃ sections, list.mapM (sortSection sort fuel state overrides.ordinals) = .ok sections ∧
        List.Forall₂ (Arranged state fuel overrides.ordinals) list sections := by
    induction list with
    | nil => exact ⟨[], rfl, .nil⟩
    | cons sect rest ih =>
      obtain ⟨after, isOk, arranged⟩ := sortSection_arranged contract (ends sect (member sect List.mem_cons_self))
      obtain ⟨others, othersOk, restArranged⟩ := ih fun other inRest => member other (List.mem_cons_of_mem _ inRest)
      refine ⟨after :: others, ?_, .cons arranged restArranged⟩
      rw [List.mapM_cons, isOk, othersOk]
      rfl
  obtain ⟨sections, isOk, arranged⟩ := all _ fun _ member => member
  refine ⟨sections, ?_, arranged⟩
  rw [doPass, tablesOk]
  show (buildOrdinalOverrideMap fuel state.haveOrderFile tables orderedSymbols >>= _) = _
  rw [overridesOk]
  exact isOk

/-! ## Ties and stubs -/

/-- Atoms at their addresses, with aliases among them. -/
def atomAt (address : BitVec 64) (target : Option Nat) : Atom Nat where
  sectionType := .code
  size := if target.isSome then 0 else 4
  fixups := target.toList.map fun a => ⟨.noneFollowOn, .directlyBound a⟩
  isAlias := target.isSome
  contentType := .other
  tentative := false
  cold := false
  fileOrdinal := some 1
  objectAddress := address
  userVisibleName := []

/-- A section with the atoms of the list. -/
def sectionOf (type : SectionType) (atom : Nat → Atom Nat) (atoms : List Nat) : Internal Nat where
  atom := atom
  sections := [⟨type, "__TEXT", "__text", atoms⟩]
  indirectBindingTable := fun _ => none
  haveCmdLineAliases := false
  haveOrderFile := false
  moveRwSymbol := fun _ => false

/-- Atom 0 is an alias of atom 1, which is behind atom 2. -/
def oneAlias : Internal Nat :=
  sectionOf .code (fun a => atomAt (if a = 2 then 0 else 16) (if a = 0 then some 1 else none)) [0, 1, 2]

theorem doPass_arranged_oneAlias :
    (∃ sections, doPass (fun less l => l.mergeSort fun x y => !less y x) 9 oneAlias [] = .ok sections ∧
      List.Forall₂ (Arranged oneAlias 9 fun _ => none) (moveToData oneAlias []) sections) ∧
    ((∀ a ∈ dataAtoms oneAlias [], (zeroFillAtoms oneAlias.sections).count a = 1) →
      (allAtoms (moveToData oneAlias [])).Perm (allAtoms oneAlias.sections)) := by
  have tablesOk : buildFollowOnTables 9 oneAlias = .ok (.empty Nat) := rfl
  have overridesOk : buildOrdinalOverrideMap 9 oneAlias.haveOrderFile (.empty Nat) [] =
      .ok ⟨fun _ => none, 0, (Tables.empty Nat).nexts⟩ := rfl
  refine doPass_arranged mergeSort_contract tablesOk overridesOk fun sect member _ a inSect _ => ?_
  obtain rfl := List.mem_singleton.mp member
  have nested : ∀ a ∈ [0, 1, 2], (nestedTargetOfAliasAtom oneAlias 9 a).isOk = true := by decide
  cases isOk : nestedTargetOfAliasAtom oneAlias 9 a with
  | error failure =>
    have := nested a inSect
    rw [isOk] at this
    cases this
  | ok target => exact ⟨target, rfl⟩

/-- Atom 0 is an alias of atom 1, which the Comparer ties with atom 2. -/
def tiedTarget : Internal Nat :=
  sectionOf .code (fun a => atomAt 16 (if a = 0 then some 1 else none)) [0, 1, 2]

/-- Stubs whose addresses go down. -/
def stubsDown : Internal Nat := sectionOf .stub (fun a => atomAt (if a = 0 then 16 else 0) none) [0, 1]

/-- The stubs are kept as they are, although the second is less than the first.  And 0 has to be before 1, but
is tied with 2 as is 1. -/
theorem stubsDown_kept_tiedTarget_torn :
    (∀ sort, doPass sort 9 stubsDown [] = .ok [⟨.stub, "__TEXT", "__text", [0, 1]⟩]) ∧
      ¬Sorted (comparer stubsDown fun _ => none) [0, 1] ∧
      AtMostOne tiedTarget {a | a ∈ [0, 1, 2]} .sectionStart ∧ AtMostOne tiedTarget {a | a ∈ [0, 1, 2]} .sectionEnd ∧
      SmallAddresses tiedTarget {a | a ∈ [0, 1, 2]} ∧
      ∃ map, aliasTargets tiedTarget 9 [0] = .ok map ∧
        ¬StrictWeakOn {a | a ∈ [0, 1, 2]} (aliasComparer tiedTarget (fun _ => none) map) := by
  refine ⟨fun _ => rfl, ?_, ?_, ?_, ?_, _, rfl, fun weak => ?_⟩
  · unfold Sorted
    decide
  · intro x _ y _ isStart
    cases isStart
  · intro x _ y _ isEnd
    cases isEnd
  · intro x _
    show (16 : BitVec 64).toNat < _
    decide
  · have apart := @StrictWeakOn.cotrans _ _ _ weak 0 1 2 (by decide) (by decide) (by decide) (by decide)
    exact absurd apart (by decide)

end Cctools.Order
