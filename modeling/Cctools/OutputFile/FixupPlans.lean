/-
# Cctools.OutputFile.FixupPlans -- planning chained fixups and writing them

Two walks over the same fixups.  `buildChainedFixupInfo` goes first and records
where the pointers of an image are and what they bind to; the table of imports is
made from that.  `applyFixUps` goes later, decides again which locations are
pointers of a chain, and asks the table for the number of every bind.

A fixup is one step of a cluster: the steps of a cluster load an accumulator and
a target, and its last step stores.  The planner starts every cluster afresh.  The
writer keeps its accumulator and its target from one cluster of an atom to the next.

The three `content` flags of a fixup belong to the relocations of object files
and of classic images and are never set in a chained image.  A chained image is
slidable, so the branches of both walks for one that is not are left out.
-/
import Cctools.OutputFile.ChainedImports

namespace Cctools.OutputFile

set_option autoImplicit false

/-! ## Atoms -/

inductive Definition where
  | regular
  | tentative
  | absolute
  | proxy
  deriving DecidableEq, Repr

structure LinkAtom where
  definition : Definition
  globalScope : Bool
  combineByName : Bool
  isThumb : Bool
  isAlias : Bool
  finalAddress : BitVec 64
  deriving DecidableEq, Repr

/-- The atoms of a link, and its options as far as the two walks ask for them.  `followOns` are the
targets of the follow-on fixups by which an alias names its base. -/
structure Link (α : Type) where
  atom : α → LinkAtom
  followOns : α → List α
  pointerFormat : PointerFormat
  pageSize : Nat
  dyldLoadsOutput : Bool
  dyldOrKernelLoadsOutput : Bool
  dynamicExecutable : Bool
  twoLevelNameSpace : Bool
  interposable : α → Bool
  forceCoalesce : α → Bool
  supportsAuthenticatedPointers : Bool
  mhAddress : BitVec 64

/-! ## Targets -/

section Targets

variable {α : Type} (link : Link α)

/-- The import that an import alias stands for. -/
def Link.baseOfAlias (a : α) : α :=
  if (link.atom a).isAlias && (link.atom a).definition = .proxy then (link.followOns a).getLastD a else a

def Link.targetNeedsNoFixup (a : α) : Bool :=
  (link.atom (link.baseOfAlias a)).definition = .absolute

/-- The address of an atom with its thumb bit. -/
def Link.addressWithThumb (a : α) : BitVec 64 :=
  if (link.atom a).isThumb then (link.atom a).finalAddress ||| 1 else (link.atom a).finalAddress

structure BindTarget (α : Type) where
  target : α
  inlineAddend : BitVec 64
  importAddend : BitVec 64
  deriving DecidableEq, Repr

/-- Whether a bind has its addend in the pointer or in the table. -/
def Link.bind (target : α) (authPtr : Bool) (addend : BitVec 64) : BindTarget α :=
  if !authPtr && link.pointerFormat.addendFitsInline addend then ⟨target, addend, 0⟩
  else ⟨target, 0, addend⟩

def clearThumb (isThumb : Bool) (accumulator : BitVec 64) : BitVec 64 :=
  if isThumb then accumulator &&& -2 else accumulator

/-- `none` for a rebase. -/
def Link.needsBind (toTarget : α) (authPtr : Bool) (accumulator : BitVec 64) : Option (BindTarget α) :=
  let target := link.baseOfAlias toTarget
  let atom := link.atom target
  let weakBind := some (link.bind target authPtr (clearThumb atom.isThumb (accumulator - atom.finalAddress)))
  match atom.definition with
  | .proxy => if atom.combineByName then weakBind else some (link.bind target authPtr accumulator)
  | .absolute => none
  | .regular | .tentative =>
    if !atom.globalScope then none
    else if atom.combineByName && atom.definition = .regular && link.dyldOrKernelLoadsOutput then weakBind
    else if link.dynamicExecutable then none
    else if !link.twoLevelNameSpace || link.interposable target then
      some (link.bind target authPtr (clearThumb atom.isThumb accumulator - atom.finalAddress))
    else if link.forceCoalesce target then weakBind
    else none

end Targets

/-! ## Fixups -/

/-- The steps of a cluster before its store. -/
inductive Setup (α : Type) where
  | setTargetAddress (target : α)
  | subtractTargetAddress (target : α)
  | addAddend (addend : BitVec 64)
  | subtractAddend (addend : BitVec 64)
  | setTargetImageOffset (target : α)
  | setTargetSectionOffset (offset : BitVec 64)
  | setTargetTLVTemplateOffset (offset : BitVec 64)
  | setLazyOffset (offset : BitVec 64)
  | lazyTarget (target : α)
  | setAuthData
  | none
  deriving DecidableEq, Repr

/-- The last step of a cluster.  `other` is any store that is not an absolute pointer, with the
target and the accumulator it leaves to the writer, and also no store at all. -/
inductive Store (α : Type) where
  | littleEndian32
  | littleEndian64
  | targetAddressLittleEndian32 (target : α)
  | targetAddressLittleEndian64 (target : α)
  | littleEndianAuth64
  | targetAddressLittleEndianAuth64 (target : α)
  | other (target : Option α) (accumulator : Option (BitVec 64))
  deriving DecidableEq, Repr

structure Cluster (α : Type) where
  offsetInAtom : Nat
  setups : List (Setup α)
  store : Store α
  deriving DecidableEq, Repr

/-- The kinds of section that `applyFixUps` tells apart. -/
inductive SectionType where
  | code
  | unwindInfo
  | dtraceDOF
  | tlvDefs
  | other
  deriving DecidableEq, Repr

/-- An atom with its fixups.  `segmentStart` is the address of the first section of its segment. -/
structure AtomContent (α : Type) where
  self : α
  sectionType : SectionType
  takesNoDiskSpace : Bool
  isCFI : Bool
  segmentStart : BitVec 64
  clusters : List (Cluster α)
  deriving DecidableEq, Repr

/-! ## Planning -/

section Plan

variable {α : Type} (link : Link α)

structure PlanState (α : Type) where
  accumulator : BitVec 64
  target : Option α
  hadSubtract : Bool
  isAuthPtr : Bool
  deriving DecidableEq, Repr

def PlanState.first : PlanState α := ⟨0, none, false, false⟩

def planSetup (state : PlanState α) : Setup α → PlanState α
  | .setTargetAddress target =>
    { state with accumulator := link.addressWithThumb target, target := some target }
  | .subtractTargetAddress target =>
    { state with accumulator := state.accumulator - (link.atom target).finalAddress, hadSubtract := true }
  | .addAddend addend => { state with accumulator := state.accumulator + addend }
  | .subtractAddend addend => { state with accumulator := state.accumulator - addend }
  | .setTargetImageOffset _ => { state with hadSubtract := true }
  | .lazyTarget target => { state with target := some target }
  | .setAuthData => { state with isAuthPtr := true }
  | _ => state

/-- The target and the accumulator of an absolute pointer. -/
def planStore (state : PlanState α) : Store α → Option (α × BitVec 64)
  | .littleEndian32 | .littleEndian64 | .littleEndianAuth64 =>
    state.target.map fun target => (target, state.accumulator)
  | .targetAddressLittleEndian32 target => some (target, link.addressWithThumb target)
  | .targetAddressLittleEndian64 target | .targetAddressLittleEndianAuth64 target =>
    some (target, (link.atom target).finalAddress)
  | .other _ _ => none

/-- Where a page's `fixupOffsets` say that a fixup is. -/
structure FixupPlace where
  startAddr : BitVec 64
  pageIndex : Nat
  pageOffset : BitVec 16
  deriving DecidableEq, Repr

structure PlannedFixup (α : Type) where
  place : FixupPlace
  isAuthPtr : Bool
  bind : Option (BindTarget α)
  deriving DecidableEq, Repr

def AtomContent.fixUpAddr (atom : AtomContent α) (cluster : Cluster α) : BitVec 64 :=
  (link.atom atom.self).finalAddress + BitVec.ofNat 64 cluster.offsetInAtom

/-- The index is a variable of 32 bits, the offset one of 16. -/
def Link.placeOf (startAddr fixUpAddr : BitVec 64) : FixupPlace :=
  let pageIndex := (fixUpAddr - startAddr).toNat / link.pageSize % 2 ^ 32
  ⟨startAddr, pageIndex, (fixUpAddr - (startAddr + BitVec.ofNat 64 (pageIndex * link.pageSize))).setWidth 16⟩

/-- A pointer that is not aligned, or crosses the end of a page that dyld pages in. -/
def Link.isUnaligned (fixUpAddr : BitVec 64) : Bool :=
  let size := match link.pointerFormat with
    | .ptr32 | .ptr32Firmware => 4
    | _ => 8
  let pageEnd := (fixUpAddr &&& ~~~ BitVec.ofNat 64 (link.pageSize - 1)) + BitVec.ofNat 64 link.pageSize
  fixUpAddr.toNat % link.pointerFormat.stride ≠ 0 ||
    (link.dyldLoadsOutput && pageEnd < fixUpAddr + size)

/-- The pointer of a cluster: what is stored, and whether the cluster has authentication data. -/
def planPointer (cluster : Cluster α) : Option ((α × BitVec 64) × Bool) :=
  let state := cluster.setups.foldl (planSetup link) .first
  if state.hadSubtract then none
  else (planStore link state cluster.store).map fun pointer => (pointer, state.isAuthPtr)

def planCluster (atom : AtomContent α) (cluster : Cluster α) : Except String (Option (PlannedFixup α)) :=
  match planPointer link cluster with
  | none => .ok none
  | some ((target, accumulator), isAuthPtr) =>
    if link.isUnaligned (atom.fixUpAddr link cluster) then .error "unaligned pointer(s)"
    else if link.targetNeedsNoFixup target then .ok none
    else .ok (some ⟨link.placeOf atom.segmentStart (atom.fixUpAddr link cluster), isAuthPtr,
      link.needsBind target isAuthPtr accumulator⟩)

/-- What is planned for each cluster of the image. -/
def buildChainedFixupInfo (image : List (AtomContent α)) : Except String (List (List (Option (PlannedFixup α)))) :=
  image.mapM fun atom => atom.clusters.mapM (planCluster link atom)

/-- The targets of the binds, as `ensureTarget` collects them. -/
def plannedBinds [DecidableEq α] (planned : List (List (Option (PlannedFixup α)))) : ChainedFixupBinds α :=
  (planned.flatten.filterMap id).foldl (fun binds fixup =>
    match fixup.bind with
    | none => binds
    | some bind => binds.ensureTarget bind.target fixup.isAuthPtr bind.importAddend) .empty

end Plan

/-! ## Writing -/

section Write

variable {α : Type} [DecidableEq α] (link : Link α)

structure WriteState (α : Type) where
  accumulator : BitVec 64
  toTarget : Option α
  thumbTarget : Bool
  isRelative : Bool
  deriving DecidableEq, Repr

def WriteState.first : WriteState α := ⟨0, none, false, false⟩

/-- An addend within the same thumb function is not one of a call. -/
def isInterior (state : WriteState α) (self : α) (addend : BitVec 64) : Bool :=
  state.thumbTarget && state.toTarget = some self && 0 < (addend.setWidth 32).toInt

def writeSetup (self : α) (state : WriteState α) : Setup α → WriteState α
  | .setTargetAddress target =>
    { state with accumulator := link.addressWithThumb target, toTarget := some target,
                 thumbTarget := (link.atom target).isThumb }
  | .subtractTargetAddress target =>
    { state with accumulator := state.accumulator - (link.atom target).finalAddress, isRelative := true }
  | .addAddend addend =>
    { state with accumulator := clearThumb (isInterior state self addend) state.accumulator + addend }
  | .subtractAddend addend => { state with accumulator := state.accumulator - addend }
  | .setTargetImageOffset target =>
    let offset := (link.atom target).finalAddress - link.mhAddress
    { accumulator := if (link.atom target).isThumb then offset ||| 1 else offset, toTarget := some target,
      thumbTarget := (link.atom target).isThumb, isRelative := true }
  | .setTargetSectionOffset offset | .setTargetTLVTemplateOffset offset | .setLazyOffset offset =>
    { state with accumulator := offset }
  | _ => state

/-- A pointer of a chain, as a bind or a rebase. -/
structure WrittenFixup (α : Type) where
  bind : Option (BindTarget α)
  deriving DecidableEq, Repr

/-- `setFixup32` and `setFixup64`.  An absolute target gets its plain value, which is `none`. -/
def setFixup (toTarget : Option α) (accumulator : BitVec 64) : Except String (Option (WrittenFixup α)) :=
  match toTarget with
  | none => .error "null pointer"
  | some target =>
    .ok (if link.targetNeedsNoFixup target then none else some ⟨link.needsBind target false accumulator⟩)

def setFixup64e (toTarget : Option α) (accumulator : BitVec 64) : Except String (Option (WrittenFixup α)) :=
  match toTarget with
  | none => .error "null pointer"
  | some target => .ok (some ⟨link.needsBind target true accumulator⟩)

/-- A 32-bit absolute value is never a pointer of a chain in these. -/
def AtomContent.plain32 (atom : AtomContent α) : Bool :=
  atom.isCFI || atom.sectionType = .unwindInfo || atom.sectionType = .code || atom.sectionType = .dtraceDOF

/-- The compiler does not sign the thunk pointer of a thread local variable; the linker does. -/
def AtomContent.isThunk (atom : AtomContent α) (offsetInAtom : Nat) : Bool :=
  atom.sectionType = .tlvDefs && offsetInAtom = 0 && link.supportsAuthenticatedPointers

/-- The state behind a store. -/
def storeState (state : WriteState α) : Store α → WriteState α
  | .targetAddressLittleEndian32 target =>
    { state with accumulator := link.addressWithThumb target, toTarget := some target,
                 thumbTarget := (link.atom target).isThumb }
  | .targetAddressLittleEndian64 target | .targetAddressLittleEndianAuth64 target =>
    { state with accumulator := (link.atom target).finalAddress, toTarget := some target }
  | .other target accumulator =>
    { state with accumulator := accumulator.getD state.accumulator, toTarget := target <|> state.toTarget }
  | _ => state

def writeStore (atom : AtomContent α) (offsetInAtom : Nat) (state : WriteState α) (store : Store α) :
    Except String (Option (WrittenFixup α)) :=
  let after := storeState link state store
  match store with
  | .littleEndian32 =>
    if atom.plain32 || state.isRelative then .ok none else setFixup link after.toTarget after.accumulator
  | .littleEndian64 => if state.isRelative then .ok none else setFixup link after.toTarget after.accumulator
  | .targetAddressLittleEndian32 _ => setFixup link after.toTarget after.accumulator
  | .targetAddressLittleEndian64 _ =>
    if atom.isThunk link offsetInAtom then setFixup64e link after.toTarget after.accumulator
    else setFixup link after.toTarget after.accumulator
  | .littleEndianAuth64 | .targetAddressLittleEndianAuth64 _ => setFixup64e link after.toTarget after.accumulator
  | .other _ _ => .ok none

/-- The state at the store of a cluster. -/
def setupState (self : α) (state : WriteState α) (cluster : Cluster α) : WriteState α :=
  cluster.setups.foldl (writeSetup link self) { state with isRelative := false }

def applyFixUps (atom : AtomContent α) :
    WriteState α → List (Cluster α) → Except String (List (Option (WrittenFixup α)))
  | _, [] => .ok []
  | state, cluster :: rest =>
    let ready := setupState link atom.self state cluster
    (writeStore link atom cluster.offsetInAtom ready cluster.store).bind fun written =>
      (applyFixUps atom (storeState link ready cluster.store) rest).map (written :: ·)

/-- Proxies and what takes no space in the file are not written. -/
def AtomContent.isWritten (atom : AtomContent α) : Bool :=
  !atom.takesNoDiskSpace && (link.atom atom.self).definition ≠ .proxy

/-- What is written for each cluster of the image. -/
def writeAtoms (image : List (AtomContent α)) : Except String (List (List (Option (WrittenFixup α)))) :=
  image.mapM fun atom =>
    if atom.isWritten link then applyFixUps link atom .first atom.clusters
    else .ok (atom.clusters.map fun _ => none)

end Write

end Cctools.OutputFile
