/-
# Cctools.BranchIslands.Bindings -- what every fixup is bound to

A branch changes the binding of the fixup of its cluster that has the target, which
the loop over the fixups remembers in its cursor (`Cursor.Points`).  What it is bound
to leads to that target, and pools only grow, so that all through the loop over the
atoms every fixup leads to the atom it was bound to (`SameTarget`).  What reads past the
regions is a branch of a preload image to another section (`CrossSection`).
-/
import Cctools.BranchIslands.Chains
import Mathlib.Data.List.Forall2

namespace Cctools.BranchIslands

set_option autoImplicit false

/-! ## Cursors -/

/-- What is remembered is of a fixup that was there. -/
def Cursor.Points (fixups : List Fixup) (cursor : Cursor) : Prop :=
  match cursor.fixupWithTarget with
  | some index => ∃ fixup target, fixups[index]? = some fixup ∧ fixup.target = some target ∧
      cursor.target = some target
  | none => cursor.target = none

theorem Cursor.Points.step {fixups : List Fixup} {cursor : Cursor} (points : cursor.Points fixups)
    {index : Nat} {fixup : Fixup} (there : fixups[index]? = some fixup) :
    (cursor.step index fixup).Points fixups := by
  have cleared : Cursor.Points fixups (if fixup.firstInCluster then {} else cursor) := by
    split
    · exact (rfl : ({} : Cursor).target = none)
    · exact points
  simp only [Cursor.step]
  generalize (if fixup.firstInCluster then ({} : Cursor) else cursor) = start at cleared ⊢
  cases target : fixup.target with
  | some target' =>
    have bound : Cursor.Points fixups { start with target := some target', fixupWithTarget := some index } :=
      ⟨fixup, target', there, target, rfl⟩
    split
    · exact bound
    · exact bound
  | none =>
    split
    · exact cleared
    · exact cleared

theorem cursors_points {fixups : List Fixup} : ∀ entry ∈ cursors {} 0 fixups, entry.2.Points fixups := by
  have later : ∀ (rest before : List Fixup) (cursor : Cursor), fixups = before ++ rest →
      cursor.Points fixups → ∀ entry ∈ cursors cursor before.length rest, entry.2.Points fixups := by
    intro rest
    induction rest with
    | nil =>
      intro before cursor split points entry member
      cases member
    | cons fixup rest ih =>
      intro before cursor split points entry member
      have there : fixups[before.length]? = some fixup := by
        rw [split, List.getElem?_append_right (Nat.le_refl _), Nat.sub_self]
        rfl
      have next := points.step there
      rw [cursors, List.mem_cons] at member
      rcases member with rfl | member
      · exact next
      · apply ih (before ++ [fixup]) _ (by rw [split, List.append_assoc]; rfl) next
        rwa [List.length_append]
  exact later fixups [] {} rfl (rfl : ({} : Cursor).target = none)

/-! ## Targets -/

/-- A fixup that was bound to an atom still leads to it, and one that was not is not bound. -/
def SameTarget (made : List Island) (fixup : Fixup) (node : Option Node) : Prop :=
  match fixup.target, node with
  | some target, some node => Leads made node target
  | none, none => True
  | _, _ => False

theorem SameTarget.grows {before after : Pool} (grows : Grows before after) {fixup : Fixup}
    {node : Option Node} (same : SameTarget before.made fixup node) :
    SameTarget after.made fixup node := by
  unfold SameTarget at same ⊢
  split at same
  · exact same.grows grows
  · trivial
  · exact same.elim

theorem bindings_sameTarget (made : List Island) (atom : Atom) :
    List.Forall₂ (SameTarget made) atom.fixups (bindings atom) := by
  rw [bindings, List.forall₂_map_right_iff, List.forall₂_same]
  intro fixup _
  cases target : fixup.target with
  | none => simp [SameTarget, target]
  | some id =>
    simp only [SameTarget, target, Option.map_some]
    exact .atom id

theorem forall₂_set {α β : Type} {R : α → β → Prop} {xs : List α} {ys : List β}
    (all : List.Forall₂ R xs ys) {j : Nat} {x : α} {y : β} (there : xs[j]? = some x) (holds : R x y) :
    List.Forall₂ R xs (ys.set j y) := by
  induction all generalizing j with
  | nil => exact .nil
  | cons first rest ih =>
    cases j with
    | zero =>
      obtain rfl := Option.some.inj there
      exact .cons holds rest
    | succ j => exact .cons first (ih there)

/-! ## The loop -/

variable {options : Options} {link : Link} {sectionOffset : AtomId → Nat}
  {totalTextSize kBetweenRegions : Nat}

/-- The loop has come from a pool to a pool, and the bindings of an atom are good there. -/
structure Bound (atom : Atom) (before : Pool) (state : Pool × List (Option Node)) : Prop where
  grows : Grows before state.1
  sound : Sound state.1
  targets : List.Forall₂ (SameTarget state.1.made) atom.fixups state.2

variable {state : Pool × List (Option Node)}

theorem Bound.fixupStep {before : Pool} {id : AtomId}
    (bound : Bound (link.atoms id) before state) {entry : Fixup × Cursor}
    (points : entry.2.Points (link.atoms id).fixups) :
    Bound (link.atoms id) before
      (fixupStep options link sectionOffset totalTextSize kBetweenRegions id state entry) := by
  rw [BranchIslands.fixupStep]
  split
  · split
    · rename_i target index isTarget isIndex
      rw [Cursor.Points, isIndex] at points
      obtain ⟨fixup, target', there, bindsTo, isTarget'⟩ := points
      obtain rfl := Option.some.inj (isTarget.symm.trans isTarget')
      obtain ⟨grows, sound, leads⟩ := @retarget_reached options link.atoms
        (branchAt options link sectionOffset totalTextSize id entry.1 target entry.2.addend)
        kBetweenRegions state.1 bound.sound
      have later := bound.targets.imp fun _ _ same => same.grows grows
      simp only
      split
      · rename_i pool node moved
        rw [moved] at grows sound leads later
        refine ⟨bound.grows.trans grows, sound, forall₂_set later there ?_⟩
        simp only [SameTarget, bindsTo]
        exact leads
      · rename_i pool moved
        rw [moved] at grows sound later
        exact ⟨bound.grows.trans grows, sound, later⟩
    · exact bound
  · exact bound

theorem Bound.fixupLoop {before : Pool} {id : AtomId}
    (bound : Bound (link.atoms id) before state) {rest : List (Fixup × Cursor)}
    (points : ∀ entry ∈ rest, entry.2.Points (link.atoms id).fixups) :
    Bound (link.atoms id) before
      (rest.foldl (BranchIslands.fixupStep options link sectionOffset totalTextSize kBetweenRegions id)
        state) := by
  induction rest generalizing state with
  | nil => exact bound
  | cons entry rest ih =>
    obtain ⟨first, others⟩ := List.forall_mem_cons.mp points
    exact ih (bound.fixupStep first) others

theorem atomStep_bound {pool : Pool} (sound : Sound pool) (id : AtomId) :
    Bound (link.atoms id) pool
      (atomStep options link sectionOffset totalTextSize kBetweenRegions pool id) := by
  have start : Bound (link.atoms id) pool (pool, bindings (link.atoms id)) :=
    ⟨Grows.refl pool, sound, bindings_sameTarget _ _⟩
  exact start.fixupLoop cursors_points

/-- **The loop over the section**: every fixup leads to the atom it was bound to. -/
theorem branchLoop_bound {pool : Pool} (sound : Sound pool) (text : List AtomId) :
    let final := branchLoop options link sectionOffset totalTextSize kBetweenRegions pool text
    Grows pool final.1 ∧ Sound final.1 ∧ final.2.map Prod.fst = text ∧
      ∀ atom ∈ final.2, List.Forall₂ (SameTarget final.1.made) (link.atoms atom.1).fixups atom.2 := by
  induction text generalizing pool with
  | nil =>
    refine ⟨Grows.refl _, sound, rfl, ?_⟩
    intro atom member
    cases member
  | cons id rest ih =>
    have bound := @atomStep_bound options link sectionOffset totalTextSize kBetweenRegions pool sound id
    obtain ⟨grows, sound', ids, others⟩ := ih bound.sound
    refine ⟨bound.grows.trans grows, sound', by rw [branchLoop, List.map_cons, ids], ?_⟩
    intro atom member
    rcases List.mem_cons.mp member with rfl | later
    · exact bound.targets.imp fun _ _ same => same.grows grows
    · exact others atom later

/-! ## Reading past the regions -/

/-- The fixup is a branch of a preload image to another section. -/
structure CrossSection (options : Options) (link : Link) (id : AtomId) (entry : Fixup × Cursor)
    (target : AtomId) : Prop where
  branch : entry.1.kind.branch = true
  bound : entry.2.target = some target
  preload : options.preload = true
  apart : link.atomToSectionIndex id ≠ link.atomToSectionIndex target

/-- If the pool was read outside, there are no regions, and a text has a branch to another section. -/
def ReadBy (options : Options) (link : Link) (text : List AtomId) (pool : Pool) : Prop :=
  pool.outside = true → pool.regions.length = 0 ∧
    ∃ id ∈ text, ∃ entry ∈ cursors {} 0 (link.atoms id).fixups, ∃ target, CrossSection options link id entry target

theorem fixupStep_readBy {text : List AtomId} {before : Pool} {id : AtomId}
    (bound : Bound (link.atoms id) before state) (read : ReadBy options link text state.1) (member : id ∈ text)
    {entry : Fixup × Cursor} (inside : entry ∈ cursors {} 0 (link.atoms id).fixups) :
    ReadBy options link text (fixupStep options link sectionOffset totalTextSize kBetweenRegions id state entry).1 := by
  have next := @Bound.fixupStep options link sectionOffset totalTextSize kBetweenRegions _ _ _ bound _
    (cursors_points entry inside)
  have length : (fixupStep options link sectionOffset totalTextSize kBetweenRegions id state entry).1.regions.length =
      state.1.regions.length := next.grows.length.trans bound.grows.length.symm
  intro outside
  rw [length]
  rw [fixupStep] at outside
  split at outside
  · rename_i isBranch
    split at outside
    · rename_i target index isTarget isIndex
      have outside : (retarget options link.atoms kBetweenRegions
          (branchAt options link sectionOffset totalTextSize id entry.1 target entry.2.addend) state.1).1.outside =
          true := by
        simp only at outside
        split at outside
        · rename_i same
          rwa [same]
        · rename_i same
          rwa [same]
      rcases retarget_outside outside with old | ⟨cross, none'⟩
      · exact read old
      · rw [branchAt, Bool.and_eq_true, decide_eq_true_eq] at cross
        exact ⟨by rw [none', List.length_nil],
          id, member, entry, inside, target, isBranch, isTarget, cross.1, cross.2⟩
    · exact read outside
  · exact read outside

theorem atomStep_readBy {text : List AtomId} {pool : Pool} (sound : Sound pool) (read : ReadBy options link text pool)
    {id : AtomId} (member : id ∈ text) :
    ReadBy options link text (atomStep options link sectionOffset totalTextSize kBetweenRegions pool id).1 := by
  have loop : ∀ (rest : List (Fixup × Cursor)) (state : Pool × List (Option Node)),
      Bound (link.atoms id) pool state → ReadBy options link text state.1 →
      (∀ entry ∈ rest, entry ∈ cursors {} 0 (link.atoms id).fixups) →
      ReadBy options link text
        (rest.foldl (fixupStep options link sectionOffset totalTextSize kBetweenRegions id) state).1 := by
    intro rest
    induction rest with
    | nil => exact fun state bound read _ => read
    | cons entry rest ih =>
      intro state bound read inside
      obtain ⟨first, others⟩ := List.forall_mem_cons.mp inside
      exact ih _ (bound.fixupStep (cursors_points entry first)) (fixupStep_readBy bound read member first) others
  exact loop _ _ ⟨Grows.refl pool, sound, bindings_sameTarget _ _⟩ read fun _ member => member

theorem branchLoop_readBy {text rest : List AtomId} {pool : Pool} (sound : Sound pool)
    (read : ReadBy options link text pool) (inside : ∀ id ∈ rest, id ∈ text) :
    ReadBy options link text
      (branchLoop options link sectionOffset totalTextSize kBetweenRegions pool rest).1 := by
  induction rest generalizing pool with
  | nil => exact read
  | cons id rest ih =>
    obtain ⟨first, others⟩ := List.forall_mem_cons.mp inside
    exact ih (atomStep_bound sound id).sound (atomStep_readBy sound read first) others

end Cctools.BranchIslands
