/-
# Cctools.OutputFile.ContentUUID -- what of the output the UUID is computed from

`computeContentUUID` of `OutputFile.cpp`: the regions of the file that may change without the image being
another one, the ranges between them, and the digest of the digests of those ranges.  The digest functions
are parameters.

The ranges are what is in no region (`contentRegions_complement`).  Regions that overlap, nested ones among
them, stop at an assertion instead; `Gaps.chain_iff` says that no others do.
-/
import Cctools.Theory.Gaps
import Cctools.LinkEdit.ByteStream

namespace Cctools.OutputFile.ContentUUID

set_option autoImplicit false

open Cctools.Theory
open Cctools.LinkEdit (CString)

/-! ## The output -/

/-- Offsets where a region starts and where it ends. -/
abbrev Region := Nat × Nat

/-- A `std::pair` of where a range starts and how many bytes it has. -/
abbrev Range := Nat × Nat

/-- Why the link stops: the assertions, and the section behind the bundle, which is not looked for. -/
inductive Stop where
  | regionOverlapped
  | stabStringsFirst
  | nothingBehindBundle
  deriving DecidableEq, Repr

structure FinalSection where
  segmentName : String
  sectionName : String
  isLinkEdit : Bool
  isSectionHidden : Bool
  fileOffset : Nat
  size : Nat

structure Output where
  /-- `outputKind() == kObjectFile`. -/
  isObjectFile : Bool
  someObjectFileHasDwarf : Bool
  /-- The ABI of the architecture. -/
  is64 : Bool
  outputFilePath : CString
  buildContextName : Option CString
  sections : List FinalSection
  stabsStringsOffsetStart : Nat
  stabsStringsOffsetEnd : Nat
  stabsIndexStart : Nat
  stabsIndexEnd : Nat
  linkeditCmdOffset : Nat
  symboltableCmdOffset : Nat

namespace Output

variable (output : Output)

def headerSize : Nat := if output.is64 then 32 else 28

def segmentCommandSize : Nat := if output.is64 then 72 else 56

def sectionSize : Nat := if output.is64 then 80 else 68

def nlistSize : Nat := if output.is64 then 16 else 12

def pointerSize : Nat := if output.is64 then 8 else 4

/-! ## The regions -/

/-- The loop of `bitcodeBundleCommand`: the offset of the command is counted up to the bundle. -/
def bundleFrom : String → Nat → List FinalSection → Except Stop (List Region)
  | _, _, [] => .ok []
  | lastSegName, cmdOffset, sect :: rest =>
    let cmdOffset := if lastSegName ≠ sect.segmentName then cmdOffset + output.segmentCommandSize else cmdOffset
    if sect.segmentName = "__LLVM" ∧ sect.sectionName = "__bundle" then
      match rest with
      | [] => .error .nothingBehindBundle
      | behind :: _ => .ok [(cmdOffset, cmdOffset + output.sectionSize), (sect.fileOffset, behind.fileOffset)]
    else
      bundleFrom sect.segmentName (if sect.isSectionHidden then cmdOffset else cmdOffset + output.sectionSize) rest

def bitcodeBundleCommand : Except Stop (List Region) :=
  if output.isObjectFile then .ok [] else output.bundleFrom "" output.headerSize output.sections

def hasStabs : Bool :=
  output.stabsIndexStart ≠ output.stabsIndexEnd ∨ output.stabsStringsOffsetStart ≠ output.stabsStringsOffsetEnd

/-- The link-edit section of a name; of several the last one. -/
def linkEditSection (name : String) : Option FinalSection :=
  (output.sections.filter fun sect => sect.isLinkEdit ∧ sect.sectionName = name).getLast?

def linkeditCmdInfo : Region := (output.linkeditCmdOffset, output.linkeditCmdOffset + output.segmentCommandSize)

/-- A `symtab_command` has 24 bytes for both. -/
def symbolTableCmdInfo : Region := (output.symboltableCmdOffset, output.symboltableCmdOffset + 24)

/-- The entries and the strings of the stabs, and the commands that have their sizes. -/
def stabRegions : Except Stop (List Region) :=
  let stringPoolFileOffset := ((output.linkEditSection "__string_pool").map (·.fileOffset)).getD 0
  let stringPoolFileSize := ((output.linkEditSection "__string_pool").map (·.size)).getD 0
  let symbolTableFileOffset := ((output.linkEditSection "__symbol_table").map (·.fileOffset)).getD 0
  -- the two products are 32-bit words
  let stabsOffsetStart := output.stabsIndexStart * output.nlistSize % 2 ^ 32
  let stabsOffsetEnd := output.stabsIndexEnd * output.nlistSize % 2 ^ 32
  let firstStabNlistFileOffset := symbolTableFileOffset + stabsOffsetStart
  let lastStabNlistFileOffset := symbolTableFileOffset + stabsOffsetEnd
  let firstStabStringFileOffset := stringPoolFileOffset + output.stabsStringsOffsetStart
  let lastStabStringFileOffset := stringPoolFileOffset + output.stabsStringsOffsetEnd
  -- the difference of unsigned 64-bit words
  let padding := (stringPoolFileSize + (2 ^ 64 - output.stabsStringsOffsetEnd)) % 2 ^ 64
  if firstStabNlistFileOffset ≤ firstStabStringFileOffset then
    .ok [(firstStabNlistFileOffset, lastStabNlistFileOffset),
      (firstStabStringFileOffset,
        if padding < output.pointerSize then stringPoolFileOffset + stringPoolFileSize else lastStabStringFileOffset),
      output.linkeditCmdInfo, output.symbolTableCmdInfo]
  else .error .stabStringsFirst

def excludeRegions : Except Stop (List Region) := do
  let bundle ← output.bitcodeBundleCommand
  let stabs ← if output.hasStabs then output.stabRegions else .ok []
  return bundle ++ stabs

end Output

/-! ## The ranges -/

/-- `std::sort`, by the order of the pairs. -/
def sorted (excludeRegions : List Region) : List Region := excludeRegions.mergeSort fun a b => Gaps.PairLe a b

/-- The loop over the sorted regions, and the range behind the last one. -/
def measureFrom (fileSize : Nat) : Nat → List Region → Except Stop (List Range)
  | checksumStart, [] => .ok (if checksumStart < fileSize then [(checksumStart, fileSize - checksumStart)] else [])
  | checksumStart, (regionStart, regionEnd) :: rest =>
    if checksumStart ≤ regionStart ∧ regionStart ≤ regionEnd then
      (measureFrom fileSize regionEnd rest).map fun regions =>
        (checksumStart, regionStart - checksumStart) :: regions
    else .error .regionOverlapped

def regionsToMeasure (fileSize : Nat) (excludeRegions : List Region) : Except Stop (List Range) :=
  measureFrom fileSize 0 (sorted excludeRegions)

/-- Without a region the whole buffer is taken. -/
def hashedRanges (fileSize : Nat) (excludeRegions : List Region) : Except Stop (List Range) :=
  if excludeRegions.isEmpty then .ok [(0, fileSize)] else regionsToMeasure fileSize excludeRegions

/-! ## The digest -/

/-- `CCSHA256_OUTPUT_SIZE` bytes. -/
abbrev Digest := Vector UInt8 32

def bytesOf (wholeBuffer : List UInt8) (range : Range) : List UInt8 := (wholeBuffer.drop range.1).take range.2

/-- What of the buffer is given to `ccdigest_update`: the digests of the ranges, or the buffer. -/
def contentInput (CCDigest : List UInt8 → Digest) (wholeBuffer : List UInt8) (excludeRegions : List Region) :
    Except Stop (List UInt8) :=
  if excludeRegions.isEmpty then .ok wholeBuffer
  else
    (regionsToMeasure wholeBuffer.length excludeRegions).map fun ranges =>
      ranges.flatMap fun range => (CCDigest (bytesOf wholeBuffer range)).toList

/-- `strrchr(path, '/')`. -/
def lastSlash : List UInt8 → Option (List UInt8)
  | [] => none
  | char :: rest =>
    match lastSlash rest with
    | some found => some found
    | none => if char = 0x2f then some (char :: rest) else none

/-- The leaf name, with its slash, and the name of the build. -/
def nameInput (output : Output) : List UInt8 :=
  (lastSlash output.outputFilePath.bytes).getD [] ++ (output.buildContextName.map (·.bytes)).getD []

/-- The sixteen bytes that `setUUID` takes, as a version 3 UUID. -/
def uuidOf (digest : Digest) : List UInt8 :=
  let digest := digest.set 6 ((digest[6] &&& (0x0F : UInt8)) ||| ((3 : UInt8) <<< 4))
  let digest := digest.set 8 ((digest[8] &&& (0x3F : UInt8)) ||| (0x80 : UInt8))
  digest.toList.take 16

/-- The UUID, if the output has one. -/
def computeContentUUID (CCDigest ccdigest : List UInt8 → Digest) (output : Output) (wholeBuffer : List UInt8) :
    Except Stop (Option (List UInt8)) :=
  if ¬ output.isObjectFile ∨ output.someObjectFileHasDwarf then do
    let excludeRegions ← output.excludeRegions
    let content ← contentInput CCDigest wholeBuffer excludeRegions
    return some (uuidOf (ccdigest (nameInput output ++ content)))
  else return none

/-! ## What the loop leaves -/

def sized (interval : Region) : Range := (interval.1, interval.2 - interval.1)

/-- The offsets of a range. -/
def offsets (range : Range) : List Nat := List.range' range.1 range.2

@[simp] theorem offsets_sized (interval : Region) : offsets (sized interval) = Gaps.span interval := rfl

variable {regions : List Region} {fileSize start : Nat}

theorem measureFrom_of_chain (chain : Gaps.Chain start regions) :
    measureFrom fileSize start regions =
      .ok ((Gaps.gaps start regions).map sized ++
        if Gaps.finish start regions < fileSize then [sized (Gaps.finish start regions, fileSize)] else []) := by
  induction regions generalizing start with
  | nil => rfl
  | cons region rest ih =>
    obtain ⟨below, ordered, next⟩ := chain
    rw [measureFrom, if_pos ⟨below, ordered⟩, ih next]
    rfl

theorem measureFrom_of_not_chain (broken : ¬ Gaps.Chain start regions) :
    measureFrom fileSize start regions = .error .regionOverlapped := by
  induction regions generalizing start with
  | nil => exact absurd trivial broken
  | cons region rest ih =>
    rw [measureFrom]
    split
    · rename_i passes
      rw [ih fun next => broken ⟨passes.1, passes.2, next⟩]
      rfl
    · rfl

variable {ranges : List Range}

/-- The ranges list what is in no region, up to the end of the file. -/
theorem offsets_measured
    (chain : Gaps.Chain start regions) (measured : measureFrom fileSize start regions = .ok ranges) :
    ranges.flatMap offsets =
      (Gaps.span (start, max fileSize (Gaps.finish start regions))).filter
        (fun offset => Gaps.Outside regions offset) := by
  rw [measureFrom_of_chain chain] at measured
  obtain rfl := Except.ok.inj measured
  have tail : (if Gaps.finish start regions < fileSize then [sized (Gaps.finish start regions, fileSize)]
      else []).flatMap offsets =
        Gaps.span (Gaps.finish start regions, max fileSize (Gaps.finish start regions)) := by
    split
    · rename_i more
      rw [max_eq_left more.le, List.flatMap_singleton, offsets_sized]
    · rename_i full
      rw [max_eq_right (not_lt.mp full), Gaps.span, Nat.sub_self]
      rfl
  rw [Gaps.filter_outside chain (le_max_right _ _), List.flatMap_append, List.flatMap_map, tail]
  rfl

/-! ## The sorted regions -/

theorem sorted_perm (regions : List Region) : (sorted regions).Perm regions := List.mergeSort_perm _ _

theorem sorted_pairwise (regions : List Region) : (sorted regions).Pairwise Gaps.PairLe := by
  have ordered := @List.pairwise_mergeSort _ (fun a b : Region => decide (Gaps.PairLe a b))
    (fun a b c first second =>
      decide_eq_true ((of_decide_eq_true first).trans (of_decide_eq_true second)))
    (fun a b => by
      rw [Bool.or_eq_true, decide_eq_true_eq, decide_eq_true_eq]
      exact Gaps.PairLe.total a b) regions
  exact ordered.imp of_decide_eq_true

/-- Sorting brings regions into a chain unless two of them overlap. -/
theorem chain_sorted_iff (ordered : ∀ region ∈ regions, region.1 ≤ region.2) :
    Gaps.Chain 0 (sorted regions) ↔ regions.Pairwise Gaps.Apart := by
  have perm := sorted_perm regions
  rw [Gaps.chain_iff (sorted_pairwise regions) fun region mem => ordered region (perm.mem_iff.mp mem),
    and_iff_right (fun region _ => Nat.zero_le (Prod.fst region))]
  exact perm.pairwise_iff Gaps.Apart.symm

theorem outside_sorted {offset : Nat} :
    Gaps.Outside (sorted regions) offset ↔ Gaps.Outside regions offset :=
  forall_congr' fun _ => imp_congr_left (sorted_perm regions).mem_iff

/-- What the ranges list is in no region, and everything in the file that is in none is listed. -/
theorem regionsToMeasure_spec {fileSize : Nat} (measured : regionsToMeasure fileSize regions = .ok ranges) :
    Gaps.Chain 0 (sorted regions) ∧
      ranges.flatMap offsets =
        (List.range (max fileSize (Gaps.finish 0 (sorted regions)))).filter
          (fun offset => Gaps.Outside regions offset) := by
  have chain : Gaps.Chain 0 (sorted regions) := by
    by_contra broken
    rw [regionsToMeasure, measureFrom_of_not_chain broken] at measured
    cases measured
  refine ⟨chain, (offsets_measured chain measured).trans ?_⟩
  rw [List.range_eq_range']
  exact List.filter_congr fun offset _ => decide_eq_decide.mpr outside_sorted

/-! ## The bytes of the ranges -/

/-- Two buffers have the same bytes where no region is. -/
def AgreeOutside (regions : List Region) (wholeBuffer other : List UInt8) : Prop :=
  ∀ offset < wholeBuffer.length, Gaps.Outside regions offset → wholeBuffer[offset]? = other[offset]?

variable {wholeBuffer other : List UInt8}

theorem bytesOf_eq_iff {range : Range} :
    bytesOf wholeBuffer range = bytesOf other range ↔
      ∀ offset ∈ offsets range, wholeBuffer[offset]? = other[offset]? := by
  constructor
  · intro same offset mem
    obtain ⟨above, below⟩ := List.mem_range'_1.mp mem
    have at_ := congrArg (fun bytes => bytes[offset - range.1]?) same
    simp only [bytesOf, List.getElem?_take, List.getElem?_drop, Nat.add_sub_cancel' above,
      if_pos (show offset - range.1 < range.2 by omega)] at at_
    exact at_
  · intro same
    refine List.ext_getElem? fun index => ?_
    rw [bytesOf, bytesOf, List.getElem?_take, List.getElem?_take, List.getElem?_drop, List.getElem?_drop]
    split
    · rename_i inside
      exact same _ (List.mem_range'_1.mpr ⟨by omega, by omega⟩)
    · rfl

theorem bytes_eq_iff :
    ranges.map (bytesOf wholeBuffer) = ranges.map (bytesOf other) ↔
      ∀ offset ∈ ranges.flatMap offsets, wholeBuffer[offset]? = other[offset]? := by
  rw [List.map_inj_left]
  simp only [bytesOf_eq_iff, List.mem_flatMap]
  exact ⟨fun same offset ⟨range, mem, inside⟩ => same range mem offset inside,
    fun same range mem offset inside => same offset ⟨range, mem, inside⟩⟩

theorem AgreeOutside.at
    (agree : AgreeOutside regions wholeBuffer other) (same : wholeBuffer.length = other.length) {offset : Nat}
    (outside : Gaps.Outside regions offset) : wholeBuffer[offset]? = other[offset]? := by
  by_cases inside : offset < wholeBuffer.length
  · exact agree offset inside outside
  · rw [List.getElem?_eq_none (not_lt.mp inside), List.getElem?_eq_none (same ▸ not_lt.mp inside)]

/-- **Buffers that agree outside the regions give the digest the same bytes.** -/
theorem contentInput_congr (CCDigest : List UInt8 → Digest)
    (same : wholeBuffer.length = other.length) (agree : AgreeOutside regions wholeBuffer other) :
    contentInput CCDigest wholeBuffer regions = contentInput CCDigest other regions := by
  rw [contentInput, contentInput, ← same]
  split
  · rename_i none
    obtain rfl := List.isEmpty_iff.mp none
    exact congrArg _ (List.ext_getElem? fun offset => agree.at same (by simp [Gaps.Outside]))
  · cases measured : regionsToMeasure wholeBuffer.length regions with
    | error stop => rfl
    | ok ranges =>
      have bytes : ranges.map (bytesOf wholeBuffer) = ranges.map (bytesOf other) := by
        refine bytes_eq_iff.mpr fun offset mem => agree.at same ?_
        rw [(regionsToMeasure_spec measured).2] at mem
        exact of_decide_eq_true (List.mem_filter.mp mem).2
      refine congrArg Except.ok (List.flatMap_congr fun range mem => ?_)
      rw [List.map_inj_left.mp bytes range mem]

/-- **The UUID does not depend on what the regions hold.** -/
theorem computeContentUUID_congr (CCDigest ccdigest : List UInt8 → Digest) (output : Output)
    (same : wholeBuffer.length = other.length)
    (agree : ∀ regions, output.excludeRegions = .ok regions → AgreeOutside regions wholeBuffer other) :
    computeContentUUID CCDigest ccdigest output wholeBuffer = computeContentUUID CCDigest ccdigest output other := by
  rw [computeContentUUID, computeContentUUID]
  split
  · cases found : output.excludeRegions with
    | error stop => rfl
    | ok regions =>
      have content := contentInput_congr CCDigest same (agree regions found)
      simp only [bind, Except.bind, content]
  · rfl

/-! ## The complement -/

/-- A region of a file of so many bytes. -/
structure FileRegion (fileSize : Nat) where
  start : Nat
  stop : Nat
  ordered : start ≤ stop
  inside : stop ≤ fileSize

def FileRegion.ends {fileSize : Nat} (region : FileRegion fileSize) : Region := (region.start, region.stop)

/-- Different bytes of one digest. -/
def Collision (CCDigest : List UInt8 → Digest) (a b : List UInt8) : Prop := a ≠ b ∧ CCDigest a = CCDigest b

section FileRegions

variable {fileSize : Nat} {excludeRegions : List (FileRegion fileSize)}

theorem ends_ordered : ∀ region ∈ excludeRegions.map FileRegion.ends, region.1 ≤ region.2 := by
  intro region mem
  obtain ⟨given, -, rfl⟩ := List.mem_map.mp mem
  exact given.ordered

theorem ends_inside : ∀ region ∈ sorted (excludeRegions.map FileRegion.ends), region.2 ≤ fileSize := by
  intro region mem
  obtain ⟨given, -, rfl⟩ := List.mem_map.mp ((sorted_perm _).mem_iff.mp mem)
  exact given.inside

/-- Regions of the file that do not overlap have their ranges, which list the rest of the file. -/
theorem hashedRanges_of_apart (apart : (excludeRegions.map FileRegion.ends).Pairwise Gaps.Apart) :
    ∃ ranges, hashedRanges fileSize (excludeRegions.map FileRegion.ends) = .ok ranges ∧
      ranges.flatMap offsets = (List.range fileSize).filter
        (fun offset => Gaps.Outside (excludeRegions.map FileRegion.ends) offset) := by
  have chain := (chain_sorted_iff ends_ordered).mpr apart
  rw [hashedRanges]
  split
  · rename_i none
    refine ⟨_, rfl, ?_⟩
    rw [List.isEmpty_iff.mp none, List.flatMap_singleton, List.range_eq_range']
    exact (List.filter_eq_self.mpr fun offset _ => by simp [Gaps.Outside]).symm
  · have measured : regionsToMeasure fileSize (excludeRegions.map FileRegion.ends) = .ok _ :=
      measureFrom_of_chain chain
    refine ⟨_, measured, ?_⟩
    have listed := (regionsToMeasure_spec measured).2
    rwa [max_eq_left (Gaps.finish_le (Nat.zero_le _) ends_inside)] at listed

theorem hashedRanges_of_overlap (overlap : ¬ (excludeRegions.map FileRegion.ends).Pairwise Gaps.Apart) :
    hashedRanges fileSize (excludeRegions.map FileRegion.ends) = .error .regionOverlapped := by
  rw [hashedRanges]
  split
  · rename_i none
    rw [List.isEmpty_iff.mp none] at overlap
    exact absurd List.Pairwise.nil overlap
  · exact measureFrom_of_not_chain (mt (chain_sorted_iff ends_ordered).mp overlap)

end FileRegions

theorem flatMap_digests {CCDigest : List UInt8 → Digest} {f g : Range → List UInt8}
    (same : (ranges.flatMap fun range => (CCDigest (f range)).toList) =
      ranges.flatMap fun range => (CCDigest (g range)).toList) :
    ∀ range ∈ ranges, CCDigest (f range) = CCDigest (g range) := by
  induction ranges with
  | nil => simp
  | cons first rest ih =>
    rw [List.flatMap_cons, List.flatMap_cons] at same
    obtain ⟨digest, digests⟩ := List.append_inj same (by simp)
    exact List.forall_mem_cons.mpr ⟨Vector.toList_inj.mp digest, ih digests⟩

/-- A byte that differs in a range shows in what is digested, or in a collision. -/
theorem contentInput_of_differ (CCDigest : List UInt8 → Digest) (same : wholeBuffer.length = other.length)
    (hashed : hashedRanges wholeBuffer.length regions = .ok ranges)
    (differ : ranges.map (bytesOf wholeBuffer) ≠ ranges.map (bytesOf other)) :
    contentInput CCDigest wholeBuffer regions ≠ contentInput CCDigest other regions ∨
      ∃ range ∈ ranges, Collision CCDigest (bytesOf wholeBuffer range) (bytesOf other range) := by
  by_cases input : contentInput CCDigest wholeBuffer regions = contentInput CCDigest other regions
  · right
    rw [contentInput, contentInput, ← same] at input
    rw [hashedRanges] at hashed
    split at hashed
    · rename_i none
      rw [if_pos none, if_pos none] at input
      rw [Except.ok.inj input] at differ
      exact absurd rfl differ
    · rename_i some_
      rw [if_neg some_, if_neg some_, hashed] at input
      obtain ⟨range, mem, bytes⟩ : ∃ range ∈ ranges, bytesOf wholeBuffer range ≠ bytesOf other range := by
        by_contra all
        exact differ (List.map_congr_left fun range mem => by_contra fun ne => all ⟨range, mem, ne⟩)
      exact ⟨range, mem, bytes, flatMap_digests (Except.ok.inj input) range mem⟩
  · exact .inl input

/-- **What is hashed is what is in no region, each byte once and in order**, unless two regions overlap:
those are refused.  Buffers of one size have the same bytes hashed exactly when they agree outside the
regions; then the digest has the same input, and else another one, or `CCDigest` collides. -/
theorem contentRegions_complement (CCDigest : List UInt8 → Digest) (wholeBuffer : List UInt8)
    (fileRegions : List (FileRegion wholeBuffer.length)) :
    let excludeRegions := fileRegions.map FileRegion.ends
    match hashedRanges wholeBuffer.length excludeRegions with
    | .error stop => stop = .regionOverlapped ∧ ¬ excludeRegions.Pairwise Gaps.Apart
    | .ok ranges =>
      excludeRegions.Pairwise Gaps.Apart ∧
        ranges.flatMap offsets =
          (List.range wholeBuffer.length).filter (fun offset => Gaps.Outside excludeRegions offset) ∧
        ∀ other : List UInt8, wholeBuffer.length = other.length →
          (ranges.map (bytesOf wholeBuffer) = ranges.map (bytesOf other) ↔
            AgreeOutside excludeRegions wholeBuffer other) ∧
          (AgreeOutside excludeRegions wholeBuffer other →
            contentInput CCDigest wholeBuffer excludeRegions = contentInput CCDigest other excludeRegions) ∧
          (¬ AgreeOutside excludeRegions wholeBuffer other →
            contentInput CCDigest wholeBuffer excludeRegions ≠ contentInput CCDigest other excludeRegions ∨
              ∃ range ∈ ranges, Collision CCDigest (bytesOf wholeBuffer range) (bytesOf other range)) := by
  intro excludeRegions
  by_cases apart : excludeRegions.Pairwise Gaps.Apart
  · obtain ⟨ranges, hashed, listed⟩ := hashedRanges_of_apart apart
    rw [hashed]
    refine ⟨apart, listed, fun other same => ?_⟩
    have agree_iff : ranges.map (bytesOf wholeBuffer) = ranges.map (bytesOf other) ↔
        AgreeOutside excludeRegions wholeBuffer other := by
      rw [bytes_eq_iff, listed]
      simp only [List.mem_filter, List.mem_range, decide_eq_true_eq, and_imp]
      rfl
    exact ⟨agree_iff, contentInput_congr CCDigest same,
      fun differ => contentInput_of_differ CCDigest same hashed (mt agree_iff.mp differ)⟩
  · rw [hashedRanges_of_overlap apart]
    exact ⟨rfl, apart⟩

/-- A region inside another one leaves no ranges. -/
theorem nestedRegion_refused :
    hashedRanges 0x40 [(0x10, 0x30), (0x18, 0x20)] = .error .regionOverlapped ∧
      (List.range 0x40).filter (fun offset => Gaps.Outside [(0x10, 0x30), (0x18, 0x20)] offset) ≠ [] := by
  refine ⟨?_, by decide⟩
  have order : sorted [(0x10, 0x30), (0x18, 0x20)] = [(0x10, 0x30), (0x18, 0x20)] :=
    List.mergeSort_of_pairwise (by decide)
  rw [hashedRanges, regionsToMeasure, order]
  rfl

end Cctools.OutputFile.ContentUUID
