/-
# Cctools.Order.MoveToData -- zero-fill atoms of an order file become data

At its end `buildOrdinalOverrideMap` moves small zero-fill atoms that the order file names to
`__DATA,__data`, if there is such a section.  No atom is lost or doubled then, as long as each
of them is in one zero-fill section once (`moveToData_perm`).
-/
import Cctools.Order.FollowOn
import Mathlib.Data.List.Dedup
import Mathlib.Data.List.Sort

namespace Cctools.Order

set_option autoImplicit false

/-! ## Moving -/

def SectionType.isZeroFill : SectionType → Bool
  | .zeroFill | .tentativeDefs => true
  | _ => false

def FinalSection.isData {Address : Type} (sect : FinalSection Address) : Bool :=
  sect.type = .unclassified && sect.sectionName = "__data" && sect.segmentName = "__DATA"

/-- Whether an atom that the order file names is to be zeroed data. -/
def movesToData {Address : Type} (state : Internal Address) (atom : Address) : Bool :=
  (state.atom atom).sectionType.isZeroFill && decide ((state.atom atom).size ≤ 512) && !state.moveRwSymbol atom

section Sections

variable {Address : Type} (moved : List Address)

/-- The last such section is `dataSect`. -/
def appendToData : List (FinalSection Address) → List (FinalSection Address)
  | [] => []
  | sect :: rest =>
    if sect.isData && !rest.any FinalSection.isData then { sect with atoms := sect.atoms ++ moved } :: rest
    else sect :: appendToData rest

def removeMoved [DecidableEq Address] (sect : FinalSection Address) : FinalSection Address :=
  if sect.type.isZeroFill then { sect with atoms := sect.atoms.filter fun a => a ∉ moved } else sect

end Sections

section Move

variable {Address : Type} [LinearOrder Address] (state : Internal Address) (orderedSymbols : List (Option Address))

/-- The set `moveToData`, which is gone through in the order of the pointers. -/
def dataAtoms : List Address :=
  ((orderedSymbols.filterMap id).filter (movesToData state)).dedup.insertionSort (· ≤ ·)

/-- The sections at the end of `buildOrdinalOverrideMap`. -/
def moveToData : List (FinalSection Address) :=
  let moved := dataAtoms state orderedSymbols
  if state.haveOrderFile && !moved.isEmpty && state.sections.any FinalSection.isData then
    (appendToData moved state.sections).map (removeMoved moved)
  else state.sections

end Move

/-! ## No atom gets lost -/

section Atoms

variable {Address : Type} {moved : List Address}

def allAtoms (sections : List (FinalSection Address)) : List Address := sections.flatMap FinalSection.atoms

/-- The atoms of the sections that are filled with zeros. -/
def zeroFillAtoms (sections : List (FinalSection Address)) : List Address :=
  allAtoms (sections.filter (·.type.isZeroFill))

theorem allAtoms_cons (sect : FinalSection Address) (rest : List (FinalSection Address)) :
    allAtoms (sect :: rest) = sect.atoms ++ allAtoms rest := rfl

theorem zeroFillAtoms_cons (sect : FinalSection Address) (rest : List (FinalSection Address)) :
    zeroFillAtoms (sect :: rest) =
      if sect.type.isZeroFill then sect.atoms ++ zeroFillAtoms rest else zeroFillAtoms rest := by
  rw [zeroFillAtoms, List.filter_cons]
  split
  · rfl
  · rfl

theorem appendToData_perm {sections : List (FinalSection Address)} (some' : sections.any FinalSection.isData = true) :
    (allAtoms (appendToData moved sections)).Perm (allAtoms sections ++ moved) := by
  induction sections with
  | nil => cases some'
  | cons sect rest ih =>
    rw [appendToData]
    split
    · rw [allAtoms_cons, allAtoms_cons, List.append_assoc, List.append_assoc]
      exact List.perm_append_comm.append_left _
    · rename_i notHere
      have later : rest.any FinalSection.isData = true := by
        rw [List.any_cons, Bool.or_eq_true] at some'
        rcases some' with here | later
        · simpa [here] using notHere
        · exact later
      rw [allAtoms_cons, allAtoms_cons, List.append_assoc]
      exact (ih later).append_left _

theorem zeroFillAtoms_append (sections : List (FinalSection Address)) :
    zeroFillAtoms (appendToData moved sections) = zeroFillAtoms sections := by
  induction sections with
  | nil => rfl
  | cons sect rest ih =>
    rw [appendToData]
    split
    · rename_i here
      have isData : sect.type = .unclassified := by
        simp only [FinalSection.isData, Bool.and_eq_true, decide_eq_true_eq] at here
        exact here.1.1.1
      rw [zeroFillAtoms_cons, zeroFillAtoms_cons, isData]
      rfl
    · rw [zeroFillAtoms_cons, zeroFillAtoms_cons, ih]

variable [DecidableEq Address]

theorem removeMoved_perm (sections : List (FinalSection Address)) :
    (allAtoms (sections.map (removeMoved moved)) ++ (zeroFillAtoms sections).filter (· ∈ moved)).Perm
      (allAtoms sections) := by
  induction sections with
  | nil => rfl
  | cons sect rest ih =>
    rw [List.map_cons, allAtoms_cons, allAtoms_cons, zeroFillAtoms_cons, removeMoved]
    split
    · have here : (sect.atoms.filter (fun a => a ∉ moved) ++ sect.atoms.filter (· ∈ moved)).Perm sect.atoms := by
        refine List.perm_append_comm.trans ?_
        simpa using List.filter_append_perm (fun a => decide (a ∈ moved)) sect.atoms
      rw [List.filter_append, List.append_assoc]
      refine ((List.perm_append_comm_assoc _ _ _).append_left _).trans ?_
      rw [← List.append_assoc]
      exact here.append ih
    · rw [List.append_assoc]
      exact ih.append_left _

/-- What is moved comes from the zero-fill sections, where it is once. -/
theorem filter_perm_moved {atoms : List Address} (nodup : moved.Nodup) (once : ∀ a ∈ moved, atoms.count a = 1) :
    (atoms.filter (· ∈ moved)).Perm moved := by
  rw [List.perm_iff_count]
  intro a
  by_cases member : a ∈ moved
  · rw [List.count_filter (by simpa using member), once a member, List.count_eq_one_of_mem nodup member]
  · rw [List.count_eq_zero_of_not_mem member, List.count_eq_zero_of_not_mem]
    simp [member]

end Atoms

/-- **All sections together keep their atoms**, if each that is moved is in a zero-fill section, and once. -/
theorem moveToData_perm {Address : Type} [LinearOrder Address] (state : Internal Address)
    (orderedSymbols : List (Option Address))
    (once : ∀ a ∈ dataAtoms state orderedSymbols, (zeroFillAtoms state.sections).count a = 1) :
    (allAtoms (moveToData state orderedSymbols)).Perm (allAtoms state.sections) := by
  rw [moveToData]
  split
  · rename_i moves
    rw [Bool.and_eq_true] at moves
    have nodup : (dataAtoms state orderedSymbols).Nodup :=
      (List.perm_insertionSort _ _).nodup_iff.mpr (List.nodup_dedup _)
    have removed := @removeMoved_perm _ (dataAtoms state orderedSymbols) _
      (appendToData (dataAtoms state orderedSymbols) state.sections)
    rw [zeroFillAtoms_append] at removed
    have together := ((filter_perm_moved nodup once).symm.append_left _).trans
      (removed.trans (appendToData_perm moves.2))
    exact (List.perm_append_right_iff _).mp together
  · rfl

end Cctools.Order
