/-
# Cctools.BranchIslands.Placing -- where the regions are

The loop that looks for insertion points takes them from the atoms, in their order
(`insertionPoints_sublist`), and there is one way for it to fail.
-/
import Cctools.BranchIslands.Pass
import Cctools.Theory.Transducer

namespace Cctools.BranchIslands

set_option autoImplicit false

open Cctools.Theory

variable {atoms : AtomId → Atom} {sectionOffset : AtomId → Nat} {kBetweenRegions : Nat}

/-! ## Points -/

theorem placeStep_sublist {state next : Placing} {id : AtomId} {done : List AtomId}
    (found : (state.branchIslandInsertionPoints ++ state.insertionPoint.toList).Sublist done)
    (step : placeStep atoms sectionOffset kBetweenRegions state id = .ok next) :
    (next.branchIslandInsertionPoints ++ next.insertionPoint.toList).Sublist (done ++ [id]) := by
  obtain ⟨middle, pushed, rfl⟩ := ok_of_map step
  have kept : (middle.branchIslandInsertionPoints ++ middle.insertionPoint.toList).Sublist done := by
    rw [startRegion] at pushed
    split at pushed
    · split at pushed
      · cases pushed
      · rename_i point there
        cases pushed
        rw [there] at found
        simpa using found
    · cases pushed
      exact found
  split
  · exact kept.trans (List.sublist_append_left _ _)
  · exact ((List.sublist_append_left _ _).trans kept).append (List.Sublist.refl _)

theorem placeLoop_sublist {text done : List AtomId} {state final : Placing}
    (found : (state.branchIslandInsertionPoints ++ state.insertionPoint.toList).Sublist done)
    (loop : text.foldlM (placeStep atoms sectionOffset kBetweenRegions) state = .ok final) :
    (final.branchIslandInsertionPoints ++ final.insertionPoint.toList).Sublist (done ++ text) := by
  induction text generalizing state done with
  | nil =>
    obtain rfl := Except.ok.inj loop
    rwa [List.append_nil]
  | cons id rest ih =>
    rw [List.foldlM_cons] at loop
    obtain ⟨next, step, loop⟩ := ok_of_bind loop
    have more := ih (placeStep_sublist found step) loop
    rwa [List.append_assoc] at more

theorem insertionPoints_sublist {cross : Bool} {text points : List AtomId}
    (placed : insertionPoints atoms sectionOffset kBetweenRegions cross text = .ok points) :
    points.Sublist text := by
  obtain ⟨final, loop, placed⟩ := ok_of_bind placed
  have found := @placeLoop_sublist _ _ _ text [] ⟨0, none, []⟩ final (List.Sublist.refl _) loop
  rw [List.nil_append] at found
  have last : (placeLast atoms sectionOffset kBetweenRegions final).Sublist text := by
    rw [placeLast]
    split
    · rename_i point there
      rw [there] at found
      split
      · exact found
      · exact (List.sublist_append_left _ _).trans found
    · exact (List.sublist_append_left _ _).trans found
  have placed : (if (cross && (placeLast atoms sectionOffset kBetweenRegions final).isEmpty) = true then
      (pure text.getLast?.toList : Except String (List AtomId))
    else pure (placeLast atoms sectionOffset kBetweenRegions final)) = .ok points := placed
  split at placed
  · obtain rfl := Except.ok.inj placed
    cases ends : text.getLast? with
    | none => exact List.nil_sublist _
    | some id => exact List.singleton_sublist.mpr (List.mem_of_getLast? ends)
  · obtain rfl := Except.ok.inj placed
    exact last

/-- With branches to other sections there is a point, if there is any atom. -/
theorem insertionPoints_cross {text : List AtomId}
    (placed : insertionPoints atoms sectionOffset kBetweenRegions true text = .ok []) : text = [] := by
  obtain ⟨final, _, placed⟩ := ok_of_bind placed
  have placed : (if (placeLast atoms sectionOffset kBetweenRegions final).isEmpty = true then
      (pure text.getLast?.toList : Except String (List AtomId))
    else pure (placeLast atoms sectionOffset kBetweenRegions final)) = .ok [] := placed
  split at placed
  · have none' : text.getLast?.toList = [] := Except.ok.inj placed
    rwa [Option.toList_eq_nil_iff, List.getLast?_eq_none_iff] at none'
  · rename_i some'
    exact absurd (List.isEmpty_iff.mpr (Except.ok.inj placed)) some'

/-! ## Failure -/

theorem startRegion_error {state : Placing}
    {id : AtomId} {text : String}
    (failed : startRegion atoms sectionOffset kBetweenRegions state id = .error text) :
    text = "Unable to insert branch island. No insertion point available." := by
  rw [startRegion] at failed
  split at failed
  · split at failed
    · exact (Except.error.inj failed).symm
    · cases failed
  · cases failed

theorem placeLoop_error {ids : List AtomId}
    {state : Placing} {text : String}
    (failed : ids.foldlM (placeStep atoms sectionOffset kBetweenRegions) state = .error text) :
    text = "Unable to insert branch island. No insertion point available." := by
  induction ids generalizing state with
  | nil => cases failed
  | cons id rest ih =>
    rw [List.foldlM_cons] at failed
    cases region : startRegion atoms sectionOffset kBetweenRegions state id with
    | error text' =>
      rw [placeStep, region] at failed
      obtain rfl : text' = text := Except.error.inj failed
      exact startRegion_error region
    | ok next =>
      rw [placeStep, region] at failed
      exact ih failed

theorem insertionPoints_error {cross : Bool}
    {ids : List AtomId} {text : String}
    (failed : insertionPoints atoms sectionOffset kBetweenRegions cross ids = .error text) :
    text = "Unable to insert branch island. No insertion point available." := by
  cases loop : ids.foldlM (placeStep atoms sectionOffset kBetweenRegions) ⟨0, none, []⟩ with
  | error text' =>
    rw [insertionPoints, loop] at failed
    obtain rfl : text' = text := Except.error.inj failed
    exact placeLoop_error loop
  | ok state =>
    rw [insertionPoints, loop] at failed
    change (if _ then Except.ok _ else Except.ok _) = _ at failed
    split at failed
    · cases failed
    · cases failed

end Cctools.BranchIslands
