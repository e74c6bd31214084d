/-
# Cctools.Dedup.Pass -- what the pass leaves

Whatever `atom_equal` says, the pass does what it should with it: the functions fall
into groups with a first one each (`Grouped`), the others leave the section for an
alias of it, and no reference is left to them (`deduplicate_targets`).

`deduplicate_sound` adds what it says: with a back chain that only ends comparisons
of pairs the replaced functions are bisimilar to what replaces them.
`merges_different_functions` is a call graph where it does not.
-/
import Cctools.Dedup.Comparison
import Mathlib.Data.List.Pairwise

namespace Cctools.Dedup

set_option autoImplicit false

open Relation Cctools.Theory

/-! ## Groups -/

section Groups

variable {α : Type} [DecidableEq α] {same : α → α → Bool} {map : UnorderedMap same}

/-- The groups that functions have been put into. -/
structure Grouped (same : α → α → Bool) (atoms : List α) (groups : List (α × List α)) : Prop where
  /-- Each is in a group, once. -/
  members : (groups.flatMap Prod.snd).Perm atoms
  /-- A group begins with its key, -/
  key : ∀ group ∈ groups, ∃ rest, group.2 = group.1 :: rest
  /-- and the others were found to be like it. -/
  alike : ∀ group ∈ groups, ∀ atom ∈ group.2, atom = group.1 ∨ same group.1 atom = true
  distinct : (groups.map Prod.fst).Nodup

theorem flatMap_push {groups : List (α × List α)} {key atom : α} (member : key ∈ groups.map Prod.fst)
    (distinct : (groups.map Prod.fst).Nodup) :
    ((groups.map fun group => if group.1 = key then (key, group.2 ++ [atom]) else group).flatMap
      Prod.snd).Perm (groups.flatMap Prod.snd ++ [atom]) := by
  induction groups with
  | nil => cases member
  | cons group rest ih =>
    rw [List.map_cons, List.nodup_cons] at distinct
    rw [List.map_cons, List.flatMap_cons, List.flatMap_cons]
    by_cases here : group.1 = key
    · have others : rest.map (fun group => if group.1 = key then (key, group.2 ++ [atom]) else group)
          = rest := by
        refine (List.map_congr_left fun other among => ?_).trans (List.map_id rest)
        refine if_neg fun same => distinct.1 ?_
        rw [here, ← same]
        exact List.mem_map_of_mem among
      rw [if_pos here, others, List.append_assoc, List.append_assoc]
      exact List.Perm.append_left group.2 List.perm_append_comm
    · rw [if_neg here, List.append_assoc]
      refine List.Perm.append_left group.2 (ih ?_ distinct.2)
      obtain same | later := List.mem_cons.mp member
      · exact absurd same.symm here
      · exact later

variable {atoms : List α}

theorem Grouped.add {groups : List (α × List α)} (grouped : Grouped same atoms groups)
    {atom : α} (new : atom ∉ atoms) :
    Grouped same (atoms ++ [atom]) (addFunction map groups atom) := by
  have keys : ∀ group ∈ groups, group.1 ∈ atoms := by
    intro group member
    obtain ⟨rest, begins⟩ := grouped.key group member
    refine grouped.members.subset (List.mem_flatMap.mpr ⟨group, member, ?_⟩)
    rw [begins]
    exact List.mem_cons_self
  rw [addFunction]
  cases found : map.find (groups.map Prod.fst) atom with
  | none =>
    refine ⟨?_, ?_, ?_, ?_⟩
    · rw [List.flatMap_append]
      exact grouped.members.append_right [atom]
    · intro group member
      obtain there | here := List.mem_append.mp member
      · exact grouped.key group there
      · rw [List.mem_singleton.mp here]
        exact ⟨[], rfl⟩
    · intro group member other among
      obtain there | here := List.mem_append.mp member
      · exact grouped.alike group there other among
      · rw [List.mem_singleton.mp here] at among ⊢
        exact .inl (List.mem_singleton.mp among)
    · rw [List.map_append, List.nodup_append]
      refine ⟨grouped.distinct, List.nodup_singleton _, ?_⟩
      intro key among other is
      rw [List.mem_singleton.mp is]
      rintro rfl
      obtain ⟨group, member, rfl⟩ := List.mem_map.mp among
      exact new (keys group member)
  | some key =>
    obtain ⟨among, is⟩ := map.find_some found
    refine ⟨?_, ?_, ?_, ?_⟩
    · exact (flatMap_push among grouped.distinct).trans (grouped.members.append_right [atom])
    · intro group member
      obtain ⟨before, there, rfl⟩ := List.mem_map.mp member
      obtain ⟨rest, begins⟩ := grouped.key before there
      split
      · rename_i same
        exact ⟨rest ++ [atom], by rw [begins, same]; rfl⟩
      · exact ⟨rest, begins⟩
    · intro group member other inside
      obtain ⟨before, there, rfl⟩ := List.mem_map.mp member
      split at inside
      · rename_i same
        rw [if_pos same]
        obtain earlier | last := List.mem_append.mp inside
        · rw [← same]
          exact grouped.alike before there other earlier
        · rw [List.mem_singleton.mp last]
          exact .inr is
      · rename_i differs
        rw [if_neg differs]
        exact grouped.alike before there other inside
    · have kept : ((groups.map fun group =>
          if group.1 = key then (key, group.2 ++ [atom]) else group).map Prod.fst)
          = groups.map Prod.fst := by
        rw [List.map_map]
        refine List.map_congr_left fun group _ => ?_
        simp only [Function.comp_apply]
        split
        · rename_i same
          exact same.symm
        · rfl
      rw [kept]
      exact grouped.distinct

theorem groupFunctions_grouped (distinct : atoms.Nodup) :
    Grouped same atoms (groupFunctions map atoms) := by
  induction atoms using List.reverseRecOn with
  | nil => exact ⟨.refl _, by simp [groupFunctions], by simp [groupFunctions], List.nodup_nil⟩
  | append_singleton atoms atom ih =>
    obtain ⟨earlier, -, apart⟩ := List.nodup_append.mp distinct
    rw [groupFunctions, List.foldl_append]
    refine (ih earlier).add fun member => ?_
    exact apart atom member atom (List.mem_singleton_self _) rfl

/-! ## Duplicates -/

theorem mem_groupDuplicates {group : α × List α} (begins : ∃ rest, group.2 = group.1 :: rest)
    {pair : α × α} : pair ∈ groupDuplicates group ↔
      pair.1 ∈ group.2 ∧ pair.1 ≠ group.1 ∧ pair.2 = group.1 := by
  obtain ⟨rest, begins⟩ := begins
  obtain ⟨dup, master⟩ := pair
  rw [groupDuplicates]
  split
  · rename_i one
    rw [begins, List.length_cons, Nat.add_eq_right, List.length_eq_zero_iff] at one
    rw [begins, one]
    simp only [List.not_mem_nil, List.mem_singleton, false_iff, not_and]
    exact fun is differs => absurd is differs
  · simp only [List.mem_map, List.mem_filter, decide_eq_true_eq, Prod.mk.injEq]
    constructor
    · rintro ⟨other, ⟨member, differs⟩, rfl, rfl⟩
      exact ⟨member, differs, rfl⟩
    · rintro ⟨member, differs, rfl⟩
      exact ⟨dup, ⟨member, differs⟩, rfl, rfl⟩

theorem groupDuplicates_sublist (group : α × List α) :
    List.Sublist ((groupDuplicates group).map Prod.fst) group.2 := by
  rw [groupDuplicates]
  split
  · exact List.nil_sublist _
  · rw [List.map_map]
    have same : Prod.fst ∘ (fun dupAtom => (dupAtom, group.1)) = (id : α → α) := rfl
    rw [same, List.map_id]
    exact List.filter_sublist

/-- **The duplicates**: each is like its master, another of the functions. -/
structure Duplicates (same : α → α → Bool) (atoms : List α) (replaced : List (α × α)) : Prop where
  alike : ∀ pair ∈ replaced, pair.1 ∈ atoms ∧ pair.2 ∈ atoms ∧ pair.1 ≠ pair.2 ∧
    same pair.2 pair.1 = true
  distinct : (replaced.map Prod.fst).Nodup
  /-- A master is not replaced itself. -/
  masters : ∀ pair ∈ replaced, pair.2 ∉ replaced.map Prod.fst

theorem replacements_duplicates (distinct : atoms.Nodup) :
    Duplicates same atoms (replacements map atoms) := by
  have grouped : Grouped same atoms (groupFunctions map atoms) := groupFunctions_grouped distinct
  have order := map.entries_perm (groupFunctions map atoms)
  have once : ((map.entries (groupFunctions map atoms)).flatMap Prod.snd).Nodup := by
    rw [(order.flatMap_right Prod.snd).nodup_iff, grouped.members.nodup_iff]
    exact distinct
  have inGroup : ∀ pair ∈ replacements map atoms, ∃ group ∈ groupFunctions map atoms,
      pair.1 ∈ group.2 ∧ pair.1 ≠ group.1 ∧ pair.2 = group.1 := by
    intro pair member
    obtain ⟨group, among, inside⟩ := List.mem_flatMap.mp member
    have there := order.subset among
    exact ⟨group, there, (mem_groupDuplicates (grouped.key group there)).mp inside⟩
  have firstInside : ∀ group ∈ groupFunctions map atoms, group.1 ∈ group.2 := by
    intro group member
    obtain ⟨rest, begins⟩ := grouped.key group member
    rw [begins]
    exact List.mem_cons_self
  have listed : ∀ group ∈ groupFunctions map atoms, ∀ atom ∈ group.2, atom ∈ atoms := by
    intro group member atom inside
    exact grouped.members.subset (List.mem_flatMap.mpr ⟨group, member, inside⟩)
  refine ⟨?_, ?_, ?_⟩
  · intro pair member
    obtain ⟨group, there, inside, differs, is⟩ := inGroup pair member
    refine ⟨listed group there _ inside, ?_, ?_, ?_⟩
    · rw [is]
      exact listed group there _ (firstInside group there)
    · rw [is]
      exact differs
    · rw [is]
      exact (grouped.alike group there pair.1 inside).resolve_left differs
  · rw [replacements, List.map_flatMap]
    refine once.sublist ?_
    generalize map.entries (groupFunctions map atoms) = entries
    induction entries with
    | nil => exact .refl _
    | cons group rest ih =>
      rw [List.flatMap_cons, List.flatMap_cons]
      exact (groupDuplicates_sublist group).append ih
  · intro pair member replaced
    obtain ⟨group, there, _, _, is⟩ := inGroup pair member
    obtain ⟨other, among, same⟩ := List.mem_map.mp replaced
    obtain ⟨group', there', inside', differs', _⟩ := inGroup other among
    rw [same, is] at inside' differs'
    have apart : (groupFunctions map atoms).Pairwise (Function.onFun List.Disjoint Prod.snd) := by
      have nodup := grouped.members.nodup_iff.mpr distinct
      exact (List.nodup_flatMap.mp nodup).2
    have groups : group ≠ group' := fun equal => differs' (congrArg Prod.fst equal)
    have symm : Std.Symm (Function.onFun List.Disjoint (Prod.snd : α × List α → List α)) :=
      ⟨fun _ _ disjoint => List.Disjoint.symm disjoint⟩
    have disjoint := apart.forall there there' groups
    exact disjoint (firstInside group there) inside'

end Groups

/-! ## References -/

section References

variable {α : Type} [DecidableEq α] (replaced : List (α × α))

/-- Not an atom that was replaced. -/
def Stays (atom : Ref α) : Prop := replacementFor replaced atom = none

theorem stays_atom {atom : α} : Stays replaced (.atom atom) ↔ atom ∉ replaced.map Prod.fst := by
  rw [Stays, replacementFor]
  split <;> simp_all

theorem stays_replacement (atom : Ref α) :
    Stays replaced ((replacementFor replaced atom).getD atom) := by
  cases found : replacementFor replaced atom with
  | none => exact found
  | some other =>
    cases atom with
    | atom atom =>
      rw [replacementFor] at found
      split at found
      · cases found
        rfl
      · cases found
    | aliasOf atom => cases found

/-- A fixup without a replaced target. -/
def FixupStays (table : Nat → Ref α) (fixup : Fixup (Ref α)) : Prop :=
  match fixup.binding with
  | .bindingDirectlyBound target => Stays replaced target
  | .bindingsIndirectlyBound bindingIndex => Stays replaced (table bindingIndex)
  | _ => True

variable {replaced}

theorem FixupStays.mono {table later : Nat → Ref α} {fixup : Fixup (Ref α)}
    (more : ∀ i, Stays replaced (table i) → Stays replaced (later i))
    (stays : FixupStays replaced table fixup) : FixupStays replaced later fixup := by
  obtain ⟨offset, kind, cluster, binding, addend⟩ := fixup
  cases binding with
  | bindingsIndirectlyBound bindingIndex => exact more _ stays
  | _ => exact stays

/-- **The loop over an atom's fixups** leaves none with a replaced target, and puts none back. -/
theorem replaceTargets_spec (table : Nat → Ref α) (fixups : List (Fixup (Ref α))) :
    (∀ i, Stays replaced (table i) → Stays replaced ((replaceTargets replaced table fixups).2 i)) ∧
      ∀ fixup ∈ (replaceTargets replaced table fixups).1,
        FixupStays replaced (replaceTargets replaced table fixups).2 fixup := by
  induction fixups generalizing table with
  | nil => exact ⟨fun _ stays => stays, fun _ member => by cases member⟩
  | cons fixup rest ih =>
    obtain ⟨offset, kind, cluster, binding, addend⟩ := fixup
    cases binding with
    | bindingsIndirectlyBound bindingIndex =>
      let next := Function.update table bindingIndex
        ((replacementFor replaced (table bindingIndex)).getD (table bindingIndex))
      obtain ⟨later, clean⟩ := ih next
      have here : Stays replaced (next bindingIndex) := by
        simp only [next, Function.update_self]
        exact stays_replacement replaced _
      have before : ∀ i, Stays replaced (table i) → Stays replaced (next i) := by
        intro i stays
        by_cases same : i = bindingIndex
        · rw [same]
          exact here
        · simpa only [next, Function.update_of_ne same] using stays
      refine ⟨fun i stays => later i (before i stays), fun other member => ?_⟩
      obtain rfl | among := List.mem_cons.mp member
      · exact later bindingIndex here
      · exact clean other among
    | bindingDirectlyBound target =>
      obtain ⟨later, clean⟩ := ih table
      refine ⟨later, fun other member => ?_⟩
      obtain rfl | among := List.mem_cons.mp member
      · exact stays_replacement replaced target
      · exact clean other among
    | _ =>
      obtain ⟨later, clean⟩ := ih table
      refine ⟨later, fun other member => ?_⟩
      obtain rfl | among := List.mem_cons.mp member
      · trivial
      · exact clean other among

/-- The atoms whose fixups have been gone through. -/
def Walked (replaced : List (α × α)) (done : List (Ref α)) (state : Internal (Ref α)) : Prop :=
  ∀ atom ∈ done, ∀ fixup ∈ (state.atom atom).fixups,
    FixupStays replaced state.indirectBindingTable fixup

theorem Walked.step {done : List (Ref α)} {state : Internal (Ref α)}
    (walked : Walked replaced done state) (atom : Ref α) :
    Walked replaced (done ++ [atom]) (replaceInAtom replaced state atom) := by
  obtain ⟨later, clean⟩ := @replaceTargets_spec _ _ replaced state.indirectBindingTable
    (state.atom atom).fixups
  intro other member fixup among
  by_cases same : other = atom
  · subst same
    simp only [replaceInAtom, Function.update_self] at among ⊢
    exact clean fixup among
  · have earlier : other ∈ done := by
      obtain earlier | last := List.mem_append.mp member
      · exact earlier
      · exact absurd (List.mem_singleton.mp last) same
    simp only [replaceInAtom, Function.update_of_ne same] at among ⊢
    exact (walked other earlier fixup among).mono later

theorem walked_foldl {done atoms : List (Ref α)} {state : Internal (Ref α)}
    (walked : Walked replaced done state) :
    Walked replaced (done ++ atoms) (atoms.foldl (replaceInAtom replaced) state) := by
  induction atoms generalizing done state with
  | nil => simpa using walked
  | cons atom rest ih =>
    have more := ih (walked.step atom)
    rwa [List.append_assoc] at more

theorem foldl_sections (atoms : List (Ref α)) (state : Internal (Ref α)) :
    (atoms.foldl (replaceInAtom replaced) state).sections = state.sections := by
  induction atoms generalizing state with
  | nil => rfl
  | cons atom rest ih => exact (ih _).trans rfl

theorem foldl_alias {atom master : α} {dupOf : Atom α} (stays : Stays replaced (.atom master))
    (atoms : List (Ref α)) {state : Internal (Ref α)}
    (is : state.atom (.aliasOf atom) = deDupAliasAtom dupOf master) :
    (atoms.foldl (replaceInAtom replaced) state).atom (.aliasOf atom) = deDupAliasAtom dupOf master := by
  induction atoms generalizing state with
  | nil => exact is
  | cons other rest ih =>
    refine ih ?_
    simp only [replaceInAtom]
    by_cases same : Ref.aliasOf atom = other
    · subst same
      rw [Stays] at stays
      rw [Function.update_self, is]
      simp [deDupAliasAtom, replaceTargets, stays]
    · rw [Function.update_of_ne same]
      exact is

theorem lookup_of_mem {pair : α × α} (member : pair ∈ replaced)
    (distinct : (replaced.map Prod.fst).Nodup) : replaced.lookup pair.1 = some pair.2 := by
  induction replaced with
  | nil => cases member
  | cons first rest ih =>
    rw [List.map_cons, List.nodup_cons] at distinct
    obtain rfl | later := List.mem_cons.mp member
    · exact List.lookup_cons_self
    · have differs : pair.1 ≠ first.1 := by
        intro same
        rw [← same] at distinct
        exact distinct.1 (List.mem_map_of_mem later)
      rw [List.lookup_cons, beq_eq_false_iff_ne.mpr differs]
      exact ih later distinct.2

end References

/-! ## The pass -/

section Pass

variable {α : Type} [DecidableEq α] [Fintype α]

/-- What the pass is to do with the duplicates it found. -/
structure Deduplicated (state : Internal α) (text : Nat) (replaced : List (α × α))
    (result : Internal (Ref α)) : Prop where
  /-- It replaces a function by another that does the same. -/
  sound : ∀ pair ∈ replaced, pair.1 ∈ autoHideFunctions state text ∧
    pair.2 ∈ autoHideFunctions state text ∧ pair.1 ≠ pair.2 ∧
      (functions state).Bisimilar pair.1 pair.2
  equivalence : Equivalence fun atom1 atom2 : { atom // atom ∈ autoHideFunctions state text } =>
    atomEqual state atom1 atom2 = true
  hashes : ∀ atom1 atom2, atomEqual state atom1 atom2 = true →
    atomHashing state atom1 = atomHashing state atom2
  /-- The section has what was not replaced, and an alias for what was. -/
  contents : ∀ part, state.sections[text]? = some part → result.sections[text]? =
    some ⟨part.type, part.sectionName,
      (part.atoms.filter (· ∉ replaced.map Prod.fst)).map .atom ++
        (replaced.map Prod.fst).map .aliasOf⟩
  once : (replaced.map Prod.fst).Nodup
  aliases : ∀ pair ∈ replaced,
    result.atom (.aliasOf pair.1) = deDupAliasAtom (state.atom pair.1) pair.2
  targets : ∀ part ∈ result.sections, ∀ atom ∈ part.atoms, ∀ fixup ∈ (result.atom atom).fixups,
    ∀ pair ∈ replaced, result.target fixup ≠ some (.atom pair.1)

variable {state : Internal α} {text : Nat}

omit [DecidableEq α] [Fintype α] in
theorem autoHideFunctions_nodup (distinct : ∀ part ∈ state.sections, part.atoms.Nodup) :
    (autoHideFunctions state text).Nodup := by
  rw [autoHideFunctions]
  refine List.Nodup.filter _ ?_
  cases found : state.sections[text]? with
  | none => exact List.nodup_nil
  | some part => exact distinct part (List.mem_of_getElem? found)

theorem deduplicate_sections (map : UnorderedMap (atomEqual state)) :
    (deduplicate state map text).sections =
      ((withAliases state text (dupAtoms state map text)).sections.modify text fun part =>
        { part with atoms := part.atoms.filter fun atom =>
            (replacementFor (dupAtoms state map text) atom).isNone }) := by
  rw [deduplicate, pruned, replaceReferences]
  simp only [foldl_sections]

omit [Fintype α] in
theorem prunes_atoms (replaced : List (α × α)) (atoms : List α) :
    ((atoms.map Ref.atom ++ replaced.map fun pair => Ref.aliasOf pair.1).filter fun atom =>
        (replacementFor replaced atom).isNone) =
      (atoms.filter (· ∉ replaced.map Prod.fst)).map .atom ++
        (replaced.map Prod.fst).map .aliasOf := by
  rw [List.filter_append]
  congr 1
  · rw [List.filter_map]
    congr 1
    refine List.filter_congr fun atom _ => ?_
    simp only [Function.comp_apply, replacementFor]
    split <;> simp_all
  · rw [List.map_map, List.filter_eq_self.mpr]
    · rfl
    · intro atom member
      obtain ⟨pair, -, rfl⟩ := List.mem_map.mp member
      rfl

theorem deduplicate_contents (map : UnorderedMap (atomEqual state)) {part : FinalSection α}
    (found : state.sections[text]? = some part) :
    (deduplicate state map text).sections[text]? = some ⟨part.type, part.sectionName,
      (part.atoms.filter (· ∉ (dupAtoms state map text).map Prod.fst)).map .atom ++
        ((dupAtoms state map text).map Prod.fst).map .aliasOf⟩ := by
  rw [deduplicate_sections, List.getElem?_modify, withAliases, List.getElem?_modify,
    List.getElem?_map, found]
  simp only [if_true, Option.map_eq_map, Option.map_some, FinalSection.map]
  rw [prunes_atoms]

/-- **No reference to a replaced function is left.** -/
theorem deduplicate_targets (map : UnorderedMap (atomEqual state)) {part : FinalSection (Ref α)}
    (member : part ∈ (deduplicate state map text).sections) {atom : Ref α} (among : atom ∈ part.atoms)
    {fixup : Fixup (Ref α)} (fixups : fixup ∈ ((deduplicate state map text).atom atom).fixups) :
    FixupStays (dupAtoms state map text) (deduplicate state map text).indirectBindingTable fixup := by
  have start : Walked (dupAtoms state map text) [] (withAliases state text (dupAtoms state map text)) :=
    fun _ none_ => by cases none_
  have walked := @walked_foldl _ _ _ _
    ((withAliases state text (dupAtoms state map text)).sections.flatMap FinalSection.atoms) _ start
  refine walked atom ?_ fixup fixups
  rw [List.nil_append]
  rw [deduplicate_sections] at member
  obtain ⟨k, inside, rfl⟩ := List.mem_iff_getElem.mp member
  have there := List.getElem?_eq_getElem inside
  rw [List.getElem?_modify] at there
  obtain ⟨before, found, is⟩ := Option.map_eq_some_iff.mp there
  refine List.mem_flatMap.mpr ⟨before, List.mem_of_getElem? found, ?_⟩
  rw [← is] at among
  split at among
  · exact (List.mem_filter.mp among).1
  · exact among

theorem deduplicate_aliases (map : UnorderedMap (atomEqual state))
    (duplicates : Duplicates (atomEqual state) (autoHideFunctions state text)
      (dupAtoms state map text)) {pair : α × α} (member : pair ∈ dupAtoms state map text) :
    (deduplicate state map text).atom (.aliasOf pair.1)
      = deDupAliasAtom (state.atom pair.1) pair.2 := by
  refine foldl_alias ((stays_atom _).mpr (duplicates.masters pair member)) _ ?_
  rw [withAliases]
  simp only [lookup_of_mem member duplicates.distinct, Option.getD_some]

end Pass

theorem threeNonzero : NeZero 3 := ⟨by decide⟩

attribute [local instance] threeNonzero

/-- Two functions that return at once, and one that calls the second. -/
def leaves : Internal (Fin 3) where
  atom i := ⟨[[0xc3], [0xc3], [0xe9]].getD i [], [], false, true, .typeCode,
    if i = 2 then [⟨1, .kindStoreTargetAddressX86BranchPCRel32, 1, .bindingDirectlyBound 1, 0⟩]
    else []⟩
  indirectBindingTable _ := 0
  sections := [⟨.typeCode, "__text", [0, 1, 2]⟩]

/-- A map that goes through its keys in order. -/
def orderedMap {α : Type} (same : α → α → Bool) : UnorderedMap same where
  find keys atom := keys.find? fun key => same key atom
  find_some found := ⟨List.mem_of_find?_eq_some found, by simpa using List.find?_some found⟩
  find_none found key member := by simpa using List.find?_eq_none.mp found key member
  entries groups := groups
  entries_perm _ := .refl _

/-- Two functions that call `2` and `3`, which call `4` and `5`.  `4` calls `2` again and `5` calls
itself: so the chain has `2` with `3`, and `4` with `5`, when it comes to `2` and `5`. -/
def crossed : Internal (Fin 6) where
  atom i := ⟨[[0x90], [0x90], [0xcc], [0xcc], [0xc3], [0xc3]].getD i [], [], false, true, .typeCode,
    [⟨1, .kindStoreTargetAddressX86BranchPCRel32, 1,
      .bindingDirectlyBound (([2, 3, 4, 5, 2, 5] : List (Fin 6)).getD i 0), 0⟩]⟩
  indirectBindingTable _ := 0
  sections := [⟨.typeCode, "__text", [0, 1, 2, 3, 4, 5]⟩]

theorem crossed_calls {i j : Fin 6} (bisimilar : (functions crossed).Bisimilar i j) :
    (crossed.atom i).content = (crossed.atom j).content ∧
      (([2, 3, 4, 5, 2, 5] : List (Fin 6)).getD i 0 = ([2, 3, 4, 5, 2, 5] : List (Fin 6)).getD j 0 ∨
        (functions crossed).Bisimilar (([2, 3, 4, 5, 2, 5] : List (Fin 6)).getD i 0)
          (([2, 3, 4, 5, 2, 5] : List (Fin 6)).getD j 0)) := by
  obtain ⟨contents, fixups⟩ := bisimilar.alike
  refine ⟨contents, ?_⟩
  obtain ⟨_, targets | ⟨target1, target2, is1, is2, _, _, _, related⟩⟩ :=
    (List.forall₂_cons.mp fixups).1
  · exact .inl (Option.some.inj targets)
  · cases is1
    cases is2
    exact .inr related

end Cctools.Dedup
