/-
# Cctools.BranchIslands.Pass -- islands for branches that do not reach

The pass of ld that puts branch islands into a code section (`branch_island.cpp`).
The atoms get section offsets; if the section is large, regions for islands are
placed in it, a branch that is too long is sent to an island of the nearest region
on its way, and that one to the next.  The islands of a region are shared by all
branches to one target with one addend (`AtomToIsland`); they stand behind the atom
of the region's insertion point.

An atom is known by a number, `Link` has what the pass asks of every atom, and the
islands are numbered as they are made.  Offsets do not wrap.
-/
import Mathlib.Data.List.Basic
import Mathlib.Algebra.GroupWithZero.Nat
import Mathlib.Logic.Function.Basic
import Mathlib.Tactic.Common

namespace Cctools.BranchIslands

set_option autoImplicit false

/-! ## Atoms -/

abbrev AtomId := Nat

/-- What a fixup is bound to once the pass is done. -/
inductive Node where
  | atom (id : AtomId)
  | island (serial : Nat)
  deriving DecidableEq, Repr

/-- The kinds of fixups the pass looks for. -/
inductive FixupKind where
  | kindAddAddend (addend : BitVec 64)
  | kindNoneFollowOn
  | kindStoreARMBranch24
  | kindStoreThumbBranch22
  | kindStoreARM64Branch26
  | kindStoreTargetAddressARMBranch24
  | kindStoreTargetAddressThumbBranch22
  | kindStoreTargetAddressARM64Branch26
  | other
  deriving DecidableEq, Repr

def FixupKind.thumbBranch : FixupKind → Bool
  | .kindStoreThumbBranch22 | .kindStoreTargetAddressThumbBranch22 => true
  | _ => false

def FixupKind.armBranch : FixupKind → Bool
  | .kindStoreARMBranch24 | .kindStoreTargetAddressARMBranch24 => true
  | _ => false

def FixupKind.arm64Branch : FixupKind → Bool
  | .kindStoreARM64Branch26 | .kindStoreTargetAddressARM64Branch26 => true
  | _ => false

def FixupKind.branch (kind : FixupKind) : Bool := kind.thumbBranch || kind.armBranch || kind.arm64Branch

structure Fixup where
  firstInCluster : Bool
  /-- The atom it is bound to, directly or through the indirect binding table. -/
  target : Option AtomId
  kind : FixupKind
  offsetInAtom : Nat
  deriving Repr

structure Atom where
  name : String
  size : Nat
  powerOf2 : Nat
  modulus : Nat
  isThumb : Bool
  /-- In a section of type `typeStub` or `typeStubObjC`. -/
  inStubs : Bool
  fixups : List Fixup
  deriving Repr

def Atom.followOn (atom : Atom) : Bool := atom.fixups.any fun fixup => fixup.kind = .kindNoneFollowOn

inductive Architecture where
  | arm
  | arm64
  | arm64_32
  deriving DecidableEq, Repr

inductive Thumb2Support where
  | none
  | branch24
  | all
  deriving DecidableEq, Repr

structure Options where
  architecture : Architecture
  archThumb2Support : Thumb2Support
  outputSlidable : Bool
  /-- `outputKind() == kPreload`. -/
  preload : Bool
  deriving DecidableEq, Repr

def Options.archSupportsThumb2 (options : Options) : Bool := options.archThumb2Support = .all

/-- The atoms of the link, and for a preload image where they will be. -/
structure Link where
  atoms : AtomId → Atom
  atomToAddress : AtomId → Nat
  atomToSectionIndex : AtomId → Nat

/-! ## Limits -/

def textSizeWhenMightNeedBranchIslands (options : Options) (seenThumbBranch : Bool) : Nat :=
  match options.architecture with
  | .arm =>
    if !seenThumbBranch then 32000000
    else if options.archSupportsThumb2 then 16000000
    else 4000000
  | .arm64 | .arm64_32 => 128000000

def maxDistanceBetweenIslands (options : Options) (seenThumbBranch : Bool) : Nat :=
  match options.architecture with
  | .arm =>
    if !seenThumbBranch then 30 * 1024 * 1024
    else if options.archSupportsThumb2 then 14 * 1024 * 1024
    else 3500000
  | .arm64 | .arm64_32 => 124 * 1024 * 1024

/-! ## Section offsets -/

def alignOffset (offset powerOf2 modulus : Nat) : Nat :=
  let atomAlignP2 := 2 ^ powerOf2
  let currentModulus := offset % atomAlignP2
  if currentModulus ≠ modulus then
    if modulus > currentModulus then offset + (modulus - currentModulus)
    else offset + (modulus + atomAlignP2 - currentModulus)
  else offset

/-- The offsets of a texts atoms, from `offset` on, and the offset after the last of them. -/
def assignOffsets (atoms : AtomId → Atom) :
    List AtomId → Nat → (AtomId → Nat) → (AtomId → Nat) × Nat
  | [], offset, sectionOffset => (sectionOffset, offset)
  | id :: rest, offset, sectionOffset =>
    let atom := atoms id
    let offset := alignOffset offset atom.powerOf2 atom.modulus
    assignOffsets atoms rest (offset + atom.size) (Function.update sectionOffset id offset)

/-! ## Clusters -/

/-- What the loops over the fixups of an atom remember of the cluster they are in. -/
structure Cursor where
  target : Option AtomId := none
  addend : BitVec 64 := 0
  fixupWithTarget : Option Nat := none
  deriving Repr

def Cursor.step (cursor : Cursor) (index : Nat) (fixup : Fixup) : Cursor :=
  let cursor := if fixup.firstInCluster then {} else cursor
  let cursor :=
    match fixup.target with
    | some target => { cursor with target := some target, fixupWithTarget := some index }
    | none => cursor
  match fixup.kind with
  | .kindAddAddend addend => { cursor with addend }
  | _ => cursor

/-- Each fixup with the cursor there. -/
def cursors : Cursor → Nat → List Fixup → List (Fixup × Cursor)
  | _, _, [] => []
  | cursor, index, fixup :: rest =>
    let cursor := cursor.step index fixup
    (fixup, cursor) :: cursors cursor (index + 1) rest

def hasThumbBranches (atoms : AtomId → Atom) (text : List AtomId) : Bool :=
  text.any fun id => (atoms id).fixups.any fun fixup => fixup.kind.thumbBranch

def haveCrossSectionBranches (options : Options) (link : Link) (text : List AtomId) : Bool :=
  text.any fun id => (cursors {} 0 (link.atoms id).fixups).any fun (fixup, cursor) =>
    match cursor.target with
    | some target =>
      (fixup.kind.thumbBranch || fixup.kind.armBranch) && !(link.atoms target).inStubs &&
        options.preload && link.atomToSectionIndex id ≠ link.atomToSectionIndex target
    | none => false

/-! ## Insertion points -/

structure Placing where
  previousIslandEndAddr : Nat
  insertionPoint : Option AtomId
  branchIslandInsertionPoints : List AtomId
  deriving Repr

section Placing

variable (atoms : AtomId → Atom) (sectionOffset : AtomId → Nat) (kBetweenRegions : Nat)

def atomEnd (id : AtomId) : Nat := sectionOffset id + (atoms id).size

/-- If the run would get too long with this atom, the last known good place becomes a region. -/
def startRegion (state : Placing) (id : AtomId) : Except String Placing :=
  if atomEnd atoms sectionOffset id > state.previousIslandEndAddr + kBetweenRegions then
    match state.insertionPoint with
    | none => .error "Unable to insert branch island. No insertion point available."
    | some point =>
      .ok
        { previousIslandEndAddr := atomEnd atoms sectionOffset point
          insertionPoint := none
          branchIslandInsertionPoints := state.branchIslandInsertionPoints ++ [point] }
  else .ok state

/-- One atom of the loop that looks for places where islands can be inserted. -/
def placeStep (state : Placing) (id : AtomId) : Except String Placing :=
  (startRegion atoms sectionOffset kBetweenRegions state id).map fun state =>
    if (atoms id).followOn then state else { state with insertionPoint := some id }

/-- One more region behind the last atom if that is close to the limit. -/
def placeLast (state : Placing) : List AtomId :=
  match state.insertionPoint with
  | some point =>
    if atomEnd atoms sectionOffset point >
        state.previousIslandEndAddr + (kBetweenRegions - 0x100000) then
      state.branchIslandInsertionPoints ++ [point]
    else state.branchIslandInsertionPoints
  | none => state.branchIslandInsertionPoints

def insertionPoints (haveCrossSectionBranches : Bool) (text : List AtomId) :
    Except String (List AtomId) := do
  let state ← text.foldlM (placeStep atoms sectionOffset kBetweenRegions) ⟨0, none, []⟩
  let points := placeLast atoms sectionOffset kBetweenRegions state
  if haveCrossSectionBranches && points.isEmpty then
    pure (text.getLast?.toList)
  else pure points

end Placing

/-! ## Islands -/

structure TargetAndOffset where
  atom : AtomId
  offset : BitVec 32
  deriving DecidableEq, Repr

inductive IslandForm where
  | arm64
  | armToARM
  | thumb1ToThumb
  | thumb2ToThumb
  | thumb2ToThumbAbsolute
  | noPicThumb1ToThumb
  deriving DecidableEq, Repr

/-- The forms that hold the whole address of the final target. -/
def IslandForm.direct : IslandForm → Bool
  | .arm64 | .armToARM | .thumb2ToThumb => false
  | .thumb1ToThumb | .thumb2ToThumbAbsolute | .noPicThumb1ToThumb => true

structure Island where
  name : String
  form : IslandForm
  nextTarget : Node
  finalTarget : TargetAndOffset
  deriving Repr

/-- Where an island goes. -/
def Island.goesTo (island : Island) : Node :=
  if island.form.direct then .atom island.finalTarget.atom else island.nextTarget

def islandName (name : String) (offset : BitVec 32) (islandRegion : Nat) : String :=
  if offset = 0 then
    if islandRegion = 0 then name ++ ".island"
    else name ++ ".island." ++ toString (islandRegion + 1)
  else name ++ "_plus_" ++ toString offset.toInt ++ ".island." ++ toString islandRegion

def islandForm (options : Options) (kind : FixupKind) (targetIsThumb crossSectionBranch : Bool) :
    IslandForm :=
  if kind.arm64Branch then .arm64
  else if crossSectionBranch && options.archSupportsThumb2 then .thumb2ToThumbAbsolute
  else if targetIsThumb then
    if options.archSupportsThumb2 then .thumb2ToThumb
    else if options.outputSlidable then .thumb1ToThumb
    else .noPicThumb1ToThumb
  else .armToARM

/-- A region: the offset in the section where it is, its map and the islands in it. -/
structure Region where
  address : Nat
  map : List (TargetAndOffset × Node)
  islands : List Node
  deriving Repr

structure Pool where
  regions : List Region
  made : List Island
  /-- `regionsMap[0]` was read although there is no region. -/
  outside : Bool := false
  deriving Repr

/-- A branch that the loop over the fixups comes to. -/
structure Branch where
  kind : FixupKind
  srcAddr : Int
  dstAddr : Int
  target : TargetAndOffset
  crossSectionBranch : Bool
  deriving Repr

section Chains

variable (options : Options) (atoms : AtomId → Atom)

def makeBranchIsland (branch : Branch) (islandRegion : Nat) (nextTarget : Node) (cross : Bool) :
    Island :=
  let final := atoms branch.target.atom
  { name := islandName final.name branch.target.offset islandRegion
    form := islandForm options branch.kind final.isThumb cross
    nextTarget
    finalTarget := branch.target }

/-- The island of a region for the branch's target: the one there is, or a new one. -/
def islandIn (branch : Branch) (cross : Bool) (pool : Pool) (nextTarget : Node) (i : Nat)
    (region : Region) : Pool × Node :=
  match region.map.lookup branch.target with
  | some island => (pool, island)
  | none =>
    let island := Node.island pool.made.length
    ({ pool with
        regions := pool.regions.set i
          { region with
            map := (branch.target, island) :: region.map
            islands := region.islands ++ [island] }
        made := pool.made ++ [makeBranchIsland options atoms branch i nextTarget cross] },
      island)

/-- One region of a chain. -/
def hop (branch : Branch) (crosses : Int → Bool) (state : Pool × Node) (i : Nat) : Pool × Node :=
  match state.1.regions[i]? with
  | none => state
  | some region =>
    if crosses region.address then islandIn options atoms branch false state.1 state.2 i region
    else state

/-- From the target back to the source: the regions between, the farthest first. -/
def forwardChain (branch : Branch) (pool : Pool) : Pool × Node :=
  (List.range pool.regions.length).reverse.foldl
    (hop options atoms branch fun address => branch.srcAddr < address && address ≤ branch.dstAddr)
    (pool, .atom branch.target.atom)

def backwardChain (branch : Branch) (pool : Pool) : Pool × Node :=
  (List.range pool.regions.length).foldl
    (hop options atoms branch fun address => branch.dstAddr < address && address ≤ branch.srcAddr)
    (pool, .atom branch.target.atom)

/-- What a branch is bound to in the end, if that changes.  Only branches of 32 bit ARM see to it that
there is a region 0. -/
def retarget (kBranchLimit : Nat) (branch : Branch) (pool : Pool) : Pool × Option Node :=
  let displacement := branch.dstAddr - branch.srcAddr
  if branch.crossSectionBranch &&
      (displacement > kBranchLimit || displacement < -(kBranchLimit : Int)) then
    match pool.regions[0]? with
    | some region =>
      let (pool, island) := islandIn options atoms branch true pool (.atom branch.target.atom) 0 region
      (pool, some island)
    | none => ({ pool with outside := true }, none)
  else if displacement > kBranchLimit then
    let (pool, nextTarget) := forwardChain options atoms branch pool
    (pool, some nextTarget)
  else if displacement < -(kBranchLimit : Int) then
    let (pool, prevTarget) := backwardChain options atoms branch pool
    (pool, some prevTarget)
  else (pool, none)

end Chains

/-! ## The loop over the branches -/

section Branches

variable (options : Options) (link : Link) (sectionOffset : AtomId → Nat) (totalTextSize : Nat)
  (kBetweenRegions : Nat)

def destination (target : AtomId) (addend : BitVec 64) : Int :=
  if (link.atoms target).inStubs then totalTextSize
  else if options.preload then link.atomToAddress target + addend.toInt
  else sectionOffset target + addend.toInt

def branchAt (id : AtomId) (fixup : Fixup) (target : AtomId) (addend : BitVec 64) : Branch :=
  { kind := fixup.kind
    srcAddr :=
      (if options.preload then link.atomToAddress id else sectionOffset id) + fixup.offsetInAtom
    dstAddr := destination options link sectionOffset totalTextSize target addend
    target := ⟨target, addend.setWidth 32⟩
    crossSectionBranch :=
      options.preload && link.atomToSectionIndex id ≠ link.atomToSectionIndex target }

/-- One fixup: a branch binds the fixup of its cluster that has the target to what it was sent to.
The bindings are those of the fixups of the atom, in order. -/
def fixupStep (id : AtomId) (state : Pool × List (Option Node)) (entry : Fixup × Cursor) :
    Pool × List (Option Node) :=
  if entry.1.kind.branch then
    match entry.2.target, entry.2.fixupWithTarget with
    | some target, some index =>
      let branch := branchAt options link sectionOffset totalTextSize id entry.1 target entry.2.addend
      match retarget options link.atoms kBetweenRegions branch state.1 with
      | (pool, some node) => (pool, state.2.set index (some node))
      | (pool, none) => (pool, state.2)
    | _, _ => state
  else state

/-- The bindings of an atom's fixups before the pass. -/
def bindings (atom : Atom) : List (Option Node) := atom.fixups.map fun fixup => fixup.target.map .atom

def atomStep (pool : Pool) (id : AtomId) : Pool × List (Option Node) :=
  (cursors {} 0 (link.atoms id).fixups).foldl
    (fixupStep options link sectionOffset totalTextSize kBetweenRegions id)
    (pool, bindings (link.atoms id))

def branchLoop : Pool → List AtomId → Pool × List (AtomId × List (Option Node))
  | pool, [] => (pool, [])
  | pool, id :: rest =>
    let (pool, bound) := atomStep options link sectionOffset totalTextSize kBetweenRegions pool id
    let (pool, others) := branchLoop pool rest
    (pool, (id, bound) :: others)

end Branches

/-! ## The section -/

/-- The atoms with the islands of each region behind its insertion point. -/
def insertIslands : List AtomId → List (AtomId × List Node) → List Node
  | [], _ => []
  | id :: rest, [] => .atom id :: insertIslands rest []
  | id :: rest, (point, islands) :: more =>
    if id = point then .atom id :: (islands ++ insertIslands rest more)
    else .atom id :: insertIslands rest ((point, islands) :: more)

/-- The section after the pass: its atoms, what each fixup of the old ones is bound to, the islands
and the regions. -/
structure Output where
  atoms : List Node
  bound : List (AtomId × List (Option Node))
  made : List Island
  regions : List Region
  deriving Repr

def withoutIslands (link : Link) (text : List AtomId) : Output :=
  { atoms := text.map .atom
    bound := text.map fun id => (id, bindings (link.atoms id))
    made := []
    regions := [] }

/-- The regions before the loop over the branches. -/
def emptyRegions (atoms : AtomId → Atom) (sectionOffset : AtomId → Nat) (points : List AtomId) :
    List Region :=
  points.map fun point => ⟨atomEnd atoms sectionOffset point, [], []⟩

/-- The insertion points, each with the islands of its region. -/
def groups (points : List AtomId) (regions : List Region) : List (AtomId × List Node) :=
  points.zip (regions.map (·.islands))

/-- What ends the pass before the section is done. -/
inductive Stop where
  | throws (message : String)
  | readsOutside
  deriving DecidableEq, Repr

def withIslands (options : Options) (link : Link) (sectionOffset : AtomId → Nat)
    (totalTextSize kBetweenRegions : Nat) (text points : List AtomId) : Except Stop Output :=
  let (pool, bound) :=
    branchLoop options link sectionOffset totalTextSize kBetweenRegions
      ⟨emptyRegions link.atoms sectionOffset points, [], false⟩ text
  if pool.outside then .error .readsOutside
  else
    .ok
      { atoms :=
          if pool.made.length > 0 then insertIslands text (groups points pool.regions)
          else text.map .atom
        bound
        made := pool.made
        regions := pool.regions }

def makeIslandsForSection (options : Options) (link : Link) (sectionOffset : AtomId → Nat)
    (text : List AtomId) (stubsSize : Nat) : Except Stop Output :=
  let thumb := hasThumbBranches link.atoms text
  let cross := haveCrossSectionBranches options link text
  let (sectionOffset, offset) := assignOffsets link.atoms text 0 sectionOffset
  let totalTextSize := offset + stubsSize
  if totalTextSize < textSizeWhenMightNeedBranchIslands options thumb && !cross then
    .ok (withoutIslands link text)
  else
    let kBetweenRegions := maxDistanceBetweenIslands options thumb
    match insertionPoints link.atoms sectionOffset kBetweenRegions cross text with
    | .error message => .error (.throws message)
    | .ok points => withIslands options link sectionOffset totalTextSize kBetweenRegions text points

end Cctools.BranchIslands
