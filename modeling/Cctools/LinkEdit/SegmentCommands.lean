/-
# Cctools.LinkEdit.SegmentCommands -- the segment load commands of an output

`copySegmentLoadCommands` numbers the segments as `findSegment` does and rounds
each size up to the segment alignment.  An `Image` is a layout with that
alignment, in which no segment runs past the end of the address space.
-/
import Cctools.LinkEdit.Rebase

namespace Cctools.LinkEdit

set_option autoImplicit false

structure SegmentCommand where
  vmaddr : BitVec 64
  vmsize : BitVec 64
  fileoff : BitVec 64
  deriving DecidableEq, Repr

/-- `(size + alignment - 1) & (-alignment)`. -/
def alignSize (alignment size : BitVec 64) : BitVec 64 := (size + alignment - 1) &&& (-alignment)

def SegmentGroup.command (alignment : BitVec 64) (group : SegmentGroup) : SegmentCommand where
  vmaddr := group.firstSection.address
  vmsize := alignSize alignment
    (group.lastSection.address + group.lastSection.size - group.firstSection.address)
  fileoff := group.firstSection.fileOffset

def copySegmentLoadCommands (alignment : BitVec 64) (sections : List FinalSection) :
    List SegmentCommand :=
  (segmentGroups sections).map (SegmentGroup.command alignment)

/-- The last address of a pointer of this size. -/
def PointerSize.limit (ptr : PointerSize) : Nat := 2 ^ (8 * ptr.bytes)

structure Image (ptr : PointerSize) extends Layout where
  segmentAlignment : BitVec 64
  fits : ∀ group ∈ segmentGroups sections,
    (group.range 0).size ≤ (group.command segmentAlignment).vmsize ∧
      (group.command segmentAlignment).vmaddr.toNat +
        (group.command segmentAlignment).vmsize.toNat < ptr.limit

namespace Image

variable {ptr : PointerSize}

def commands (image : Image ptr) : List SegmentCommand :=
  copySegmentLoadCommands image.segmentAlignment image.sections

theorem command_of_find {image : Image ptr} {addr : BitVec 64} {range : SegmentRange}
    (found : image.find addr = some range) :
    ∃ command, image.commands[range.index]? = some command ∧ command.vmaddr = range.start ∧
      range.size ≤ command.vmsize ∧ command.vmaddr.toNat + command.vmsize.toNat < ptr.limit := by
  obtain ⟨group, here, shape, -⟩ := Layout.group_of_find found
  have member : group ∈ segmentGroups image.sections := List.mem_of_getElem? here
  refine ⟨group.command image.segmentAlignment, ?_, ?_, ?_, (image.fits group member).2⟩
  · simp [commands, copySegmentLoadCommands, here]
  · rw [shape]
    rfl
  · have covers := (image.fits group member).1
    rw [shape]
    exact covers

end Image

end Cctools.LinkEdit
