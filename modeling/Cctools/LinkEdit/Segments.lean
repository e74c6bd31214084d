/-
# Cctools.LinkEdit.Segments -- final sections, segments and `findSegment`

`OutputFile::findSegment` walks the final sections once, closes a segment each
time the segment name changes, and answers with the first closed segment that
contains the address.  The last segment (`__LINKEDIT` in an image) is never
closed, so no address in it is ever found.

`segmentGroups` is the same grouping as a list, which is also how
`HeaderAndLoadCommandsAtom::copySegmentLoadCommands` numbers the segment load
commands.  A `Layout` carries what `assignFileOffsets` leaves behind: segment
ranges that do not overlap.  On a layout an address belongs to at most one
closed segment (`Layout.find_of_mem`), which is what lets an encoder cache the
range of the segment it is in.
-/
import Cctools.LinkEdit.ByteStream

namespace Cctools.LinkEdit

set_option autoImplicit false

structure FinalSection where
  segmentName : CString
  sectionName : CString
  address : BitVec 64
  size : BitVec 64
  fileOffset : BitVec 64
  deriving DecidableEq, Repr

/-- What `findSegment` stores through its three out parameters. -/
structure SegmentRange where
  start : BitVec 64
  finish : BitVec 64
  index : Nat
  deriving DecidableEq, Repr

namespace SegmentRange

def Contains (range : SegmentRange) (addr : BitVec 64) : Prop :=
  range.start ≤ addr ∧ addr < range.finish

instance (range : SegmentRange) (addr : BitVec 64) : Decidable (range.Contains addr) :=
  inferInstanceAs (Decidable (_ ∧ _))

def size (range : SegmentRange) : BitVec 64 := range.finish - range.start

end SegmentRange

/-- A segment by its first and last section. -/
structure SegmentGroup where
  firstSection : FinalSection
  lastSection : FinalSection
  deriving DecidableEq, Repr

def SegmentGroup.range (group : SegmentGroup) (index : Nat) : SegmentRange :=
  ⟨group.firstSection.address, group.lastSection.address + group.lastSection.size, index⟩

/-! ## The walk -/

/-- The loop of `findSegment` after its first section: `group` is
`segFirstSection` with `lastSection`. -/
def findSegmentLoop (addr : BitVec 64) : Nat → SegmentGroup → List FinalSection →
    Option SegmentRange
  | _, _, [] => none
  | segIndex, group, sect :: rest =>
    if group.firstSection.segmentName = sect.segmentName then
      findSegmentLoop addr segIndex ⟨group.firstSection, sect⟩ rest
    else if (group.range segIndex).Contains addr then some (group.range segIndex)
    else findSegmentLoop addr (segIndex + 1) ⟨sect, sect⟩ rest

def findSegment (sections : List FinalSection) (addr : BitVec 64) : Option SegmentRange :=
  match sections with
  | [] => none
  | sect :: rest => findSegmentLoop addr 0 ⟨sect, sect⟩ rest

/-! ## The segments as a list -/

def segmentGroupsFrom : SegmentGroup → List FinalSection → List SegmentGroup
  | group, [] => [group]
  | group, sect :: rest =>
    if group.firstSection.segmentName = sect.segmentName then
      segmentGroupsFrom ⟨group.firstSection, sect⟩ rest
    else group :: segmentGroupsFrom ⟨sect, sect⟩ rest

def segmentGroups : List FinalSection → List SegmentGroup
  | [] => []
  | sect :: rest => segmentGroupsFrom ⟨sect, sect⟩ rest

theorem segmentGroupsFrom_ne_nil (group : SegmentGroup) (sections : List FinalSection) :
    segmentGroupsFrom group sections ≠ [] := by
  induction sections generalizing group with
  | nil => simp [segmentGroupsFrom]
  | cons sect rest ih =>
    simp only [segmentGroupsFrom]
    split
    · exact ih _
    · simp

theorem findSegmentLoop_sound {addr : BitVec 64} {segIndex : Nat} {group : SegmentGroup}
    {sections : List FinalSection} {range : SegmentRange}
    (found : findSegmentLoop addr segIndex group sections = some range) :
    range.Contains addr ∧ segIndex ≤ range.index ∧
      ∃ closed, (segmentGroupsFrom group sections)[range.index - segIndex]? = some closed ∧
        range = closed.range range.index ∧
        range.index - segIndex + 1 < (segmentGroupsFrom group sections).length := by
  induction sections generalizing segIndex group with
  | nil => simp [findSegmentLoop] at found
  | cons sect rest ih =>
    simp only [findSegmentLoop] at found
    simp only [segmentGroupsFrom]
    split at found
    · rename_i same
      simpa [same] using ih found
    · rename_i differs
      rw [if_neg differs]
      split at found
      · rename_i inside
        cases found
        refine ⟨inside, le_rfl, group, ?_, ?_, ?_⟩
        · simp [SegmentGroup.range]
        · rfl
        · have := List.length_pos_of_ne_nil (segmentGroupsFrom_ne_nil ⟨sect, sect⟩ rest)
          simp [SegmentGroup.range]
          omega
      · obtain ⟨inside, after, closed, here, shape, notLast⟩ := ih found
        have shift : range.index - segIndex = range.index - (segIndex + 1) + 1 := by omega
        refine ⟨inside, by omega, closed, ?_, shape, ?_⟩
        · rw [shift, List.getElem?_cons_succ, here]
        · rw [List.length_cons]; omega

/-! ## Layouts -/

/-- Two segment ranges share no address. -/
def SegmentRange.Apart (a b : SegmentRange) : Prop :=
  a.finish ≤ b.start ∨ b.finish ≤ a.start ∨ a.finish ≤ a.start ∨ b.finish ≤ b.start

instance (a b : SegmentRange) : Decidable (a.Apart b) :=
  inferInstanceAs (Decidable (_ ∨ _ ∨ _ ∨ _))

theorem SegmentRange.Apart.not_contains {a b : SegmentRange} (apart : a.Apart b)
    {addr : BitVec 64} (inside : b.Contains addr) : ¬ a.Contains addr := by
  unfold SegmentRange.Apart SegmentRange.Contains at *
  bv_omega

/-- The sections of an output whose segments do not overlap and are numbered by a
`uint32_t`. -/
structure Layout where
  sections : List FinalSection
  apart : (segmentGroups sections).Pairwise fun a b => (a.range 0).Apart (b.range 0)
  countable : (segmentGroups sections).length ≤ 2 ^ 32

theorem findSegmentLoop_of_contains {a b : BitVec 64} {segIndex : Nat} {group : SegmentGroup}
    {sections : List FinalSection} {range : SegmentRange}
    (apart : (segmentGroupsFrom group sections).Pairwise fun x y => (x.range 0).Apart (y.range 0))
    (found : findSegmentLoop a segIndex group sections = some range) (inside : range.Contains b) :
    findSegmentLoop b segIndex group sections = some range := by
  induction sections generalizing segIndex group with
  | nil => simp [findSegmentLoop] at found
  | cons sect rest ih =>
    simp only [findSegmentLoop] at found ⊢
    simp only [segmentGroupsFrom] at apart
    split at found
    · rename_i same
      rw [if_pos same] at apart ⊢
      exact ih apart found
    · rename_i differs
      rw [if_neg differs] at apart ⊢
      rw [List.pairwise_cons] at apart
      split at found
      · cases found
        rw [if_pos inside]
      · obtain ⟨-, -, closed, here, shape, -⟩ := findSegmentLoop_sound found
        have later : closed ∈ segmentGroupsFrom ⟨sect, sect⟩ rest := List.mem_of_getElem? here
        have outside : ¬ (group.range segIndex).Contains b := by
          have separate : (group.range segIndex).Apart range := by
            rw [shape]; exact apart.1 closed later
          exact separate.not_contains inside
        rw [if_neg outside]
        exact ih apart.2 found

namespace Layout

def find (layout : Layout) (addr : BitVec 64) : Option SegmentRange :=
  findSegment layout.sections addr

variable {range : SegmentRange} {layout : Layout} {addr : BitVec 64}

theorem contains_of_find (found : layout.find addr = some range) : range.Contains addr := by
  unfold find findSegment at found
  split at found
  · simp at found
  · exact (findSegmentLoop_sound found).1

/-- **A found segment answers for every address in it.** -/
theorem find_of_mem {a b : BitVec 64} (found : layout.find a = some range) (inside : range.Contains b) :
    layout.find b = some range := by
  obtain ⟨sections, apart, countable⟩ := layout
  cases sections with
  | nil => simp [find, findSegment] at found
  | cons sect rest => exact findSegmentLoop_of_contains apart found inside

/-- The found range is the segment of that index, and not the last one. -/
theorem group_of_find (found : layout.find addr = some range) :
    ∃ group, (segmentGroups layout.sections)[range.index]? = some group ∧
      range = group.range range.index ∧
      range.index + 1 < (segmentGroups layout.sections).length := by
  unfold find findSegment at found
  split at found
  · simp at found
  · rename_i sect rest shape
    obtain ⟨-, -, group, here, equal, notLast⟩ := findSegmentLoop_sound found
    exact ⟨group, by simpa [shape, segmentGroups] using here, equal,
      by simpa [shape, segmentGroups] using notLast⟩

theorem find_eq_of_index {a b : BitVec 64} {left right : SegmentRange}
    (first : layout.find a = some left) (second : layout.find b = some right)
    (same : left.index = right.index) : left = right := by
  obtain ⟨leftGroup, leftAt, leftShape, -⟩ := group_of_find first
  obtain ⟨rightGroup, rightAt, rightShape, -⟩ := group_of_find second
  rw [same] at leftAt leftShape
  rw [leftAt] at rightAt
  cases rightAt
  exact leftShape.trans rightShape.symm

/-- The segments a stream can name: `findSegment` never answers with the last one. -/
theorem index_lt (found : layout.find addr = some range) :
    range.index < (segmentGroups layout.sections).length := by
  obtain ⟨_, _, _, before⟩ := group_of_find found
  omega

theorem index_lt_two_pow (found : layout.find addr = some range) : range.index < 2 ^ 64 := by
  have := index_lt found
  have := layout.countable
  omega

end Layout

end Cctools.LinkEdit
