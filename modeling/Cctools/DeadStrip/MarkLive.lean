/-
# Cctools.DeadStrip.MarkLive -- dead stripping in the resolver

`Resolver::deadStripOptimize`: everything the roots lead to is marked, then the atoms
that are to be live if they refer to something live, in the order of the list, and
what is not marked is removed.

`markLive` follows the fixups of a list of kinds.  What is bound by name or content
it binds to its slot on the way; an atom that is not live has not been through that,
so `atomHasLiveRef` does not see such a target.

The library search for an initial undefine that has no definition yet, the map file's
list of dead atoms and `-why_live` are left out.
-/
import Cctools.Theory.Reachability

namespace Cctools.DeadStrip

set_option autoImplicit false

open Cctools.Theory

/-! ## Atoms -/

/-- The kinds `markLive` names, and the others. -/
inductive FixupKind where
  | kindNone
  | kindNoneFollowOn
  | kindNoneGroupSubordinate
  | kindNoneGroupSubordinateFDE
  | kindNoneGroupSubordinateLSDA
  | kindNoneGroupSubordinatePersonality
  | kindSetTargetAddress
  | kindSubtractTargetAddress
  | kindStoreTargetAddressLittleEndian32
  | kindStoreTargetAddressLittleEndian64
  | kindStoreTargetAddressLittleEndianAuth64
  | kindStoreTargetAddressBigEndian32
  | kindStoreTargetAddressBigEndian64
  | kindStoreTargetAddressX86PCRel32
  | kindStoreTargetAddressX86BranchPCRel32
  | kindStoreTargetAddressX86PCRel32GOTLoad
  | kindStoreTargetAddressX86PCRel32GOTLoadNowLEA
  | kindStoreTargetAddressX86PCRel32TLVLoad
  | kindStoreTargetAddressX86PCRel32TLVLoadNowLEA
  | kindStoreTargetAddressX86Abs32TLVLoad
  | kindStoreTargetAddressX86Abs32TLVLoadNowLEA
  | kindStoreTargetAddressARMBranch24
  | kindStoreTargetAddressThumbBranch22
  | kindStoreTargetAddressARM64Branch26
  | kindStoreTargetAddressARM64Page21
  | kindStoreTargetAddressARM64GOTLoadPage21
  | kindStoreTargetAddressARM64GOTLeaPage21
  | kindStoreTargetAddressARM64TLVPLoadPage21
  | kindStoreTargetAddressARM64TLVPLoadNowLeaPage21
  | other (number : Nat)
  deriving DecidableEq, Repr

def FixupKind.isFollowed : FixupKind → Bool
  | .other _ => false
  | _ => true

inductive Binding (α : Type) where
  | bindingNone
  /-- By the slot `findSlotForName` gives. -/
  | bindingByNameUnbound (slot : Nat)
  | bindingDirectlyBound (target : α)
  /-- By the slot `findSlotForContent` or `findSlotForReferences` gives. -/
  | bindingByContentBound (slot : Nat)
  | bindingsIndirectlyBound (bindingIndex : Nat)
  deriving DecidableEq, Repr

structure Fixup (α : Type) where
  kind : FixupKind
  binding : Binding α
  deriving DecidableEq, Repr

inductive Combine where
  | combineNever
  | combineByName
  | combineByNameAndContent
  | combineByNameAndReferences
  deriving DecidableEq, Repr

structure Atom (α : Type) where
  name : String
  /-- Of content type `typeLTOtemporary`. -/
  isLTOtemporary : Bool
  scopeGlobal : Bool
  combine : Combine
  dontDeadStrip : Bool
  dontDeadStripIfReferencesLive : Bool
  coalescedAway : Bool
  /-- `isCompilerSupportLib` of its file. -/
  inCompilerSupportLib : Bool
  fixups : List (Fixup α)
  deriving DecidableEq, Repr

structure Options where
  deadCodeStrip : Bool
  hasWildCardExportRestrictList : Bool
  allGlobalsAreDeadStripRoots : Bool
  shouldExport : String → Bool

/-- The resolver. -/
structure Resolver (α : Type) where
  atom : α → Atom α
  atoms : List α
  indirectBindingTable : Nat → Option α
  entryPoint : Option α
  /-- The slots of the initial undefines. -/
  initialUndefines : List Nat
  classicBindingHelper : Option α
  compressedFastBinderProxy : Option α
  lazyBindingHelper : Option α
  objcMsgSendProxy : Option α
  haveLLVMObjs : Bool

section Resolver

variable {α : Type} (opts : Options) (resolver : Resolver α)

/-! ## References -/

/-- What a fixup refers to once it is bound. -/
def Resolver.target (fixup : Fixup α) : Option α :=
  match fixup.binding with
  | .bindingNone => none
  | .bindingDirectlyBound target => some target
  | .bindingByNameUnbound slot => resolver.indirectBindingTable slot
  | .bindingByContentBound slot => resolver.indirectBindingTable slot
  | .bindingsIndirectlyBound bindingIndex => resolver.indirectBindingTable bindingIndex

/-- What it refers to as it stands. -/
def Resolver.boundTarget (fixup : Fixup α) : Option α :=
  match fixup.binding with
  | .bindingDirectlyBound target => some target
  | .bindingsIndirectlyBound bindingIndex => resolver.indirectBindingTable bindingIndex
  | _ => none

def Resolver.references (atom : α) : List α := (resolver.atom atom).fixups.filterMap resolver.target

/-- Those `markLive` goes to. -/
def Resolver.followed (atom : α) : List α :=
  ((resolver.atom atom).fixups.filter (·.kind.isFollowed)).filterMap resolver.target

def Resolver.boundReferences (atom : α) : List α :=
  (resolver.atom atom).fixups.filterMap resolver.boundTarget

/-! ## Roots -/

def atomIsDeadStripRoot (forceDeadStrip : Bool) (atom : Atom α) : Bool :=
  if forceDeadStrip && atom.isLTOtemporary && atom.name = "import-atom" then false
  else if atom.dontDeadStrip then true
  else if atom.scopeGlobal &&
      (opts.hasWildCardExportRestrictList || opts.allGlobalsAreDeadStripRoots) &&
      opts.shouldExport atom.name then true
  else
    resolver.haveLLVMObjs && !forceDeadStrip && !atom.isLTOtemporary && atom.inCompilerSupportLib

/-- The atoms the callback gets, in order. -/
def forEachDeadStripRoot (force : Bool) : List α :=
  resolver.entryPoint.toList ++
    resolver.initialUndefines.filterMap resolver.indirectBindingTable ++
    resolver.classicBindingHelper.toList ++ resolver.compressedFastBinderProxy.toList ++
    resolver.lazyBindingHelper.toList ++ resolver.objcMsgSendProxy.toList ++
    resolver.atoms.filter fun atom =>
      !(resolver.atom atom).coalescedAway && atomIsDeadStripRoot opts resolver force (resolver.atom atom)

/-- `dontDeadStripIfReferencesLive`, the list. -/
def liveIfReferencesLive (force : Bool) : List α :=
  resolver.atoms.filter fun atom =>
    !(resolver.atom atom).coalescedAway &&
      !atomIsDeadStripRoot opts resolver force (resolver.atom atom) &&
      (resolver.atom atom).dontDeadStripIfReferencesLive

/-! ## Marking -/

variable [DecidableEq α] [Fintype α]

/-- No chain of references is longer than there are atoms (`markLive_marks`). -/
def markLive (live : Finset α) (atom : α) : Finset α :=
  (visit resolver.followed (Fintype.card α + 1) live atom).getD live

def atomHasLiveRef (live : Finset α) (atom : α) : Bool :=
  (resolver.boundReferences atom).any (· ∈ live)

/-- One turn of the second loop. -/
def markIfReferencesLive (live : Finset α) (atom : α) : Finset α :=
  if atom ∈ live then live
  else if atomHasLiveRef resolver live atom then markLive resolver live atom
  else live

/-- The atoms that are live when both loops are through; none is at first, a second run has reset
them. -/
def liveAtoms (force : Bool) : Finset α :=
  (liveIfReferencesLive opts resolver force).foldl (markIfReferencesLive resolver)
    ((forEachDeadStripRoot opts resolver force).foldl (markLive resolver) ∅)

/-- The atoms that are kept; combinable ones may come back in the output of the code generator. -/
def deadStripOptimize (force : Bool) : List α :=
  if !opts.deadCodeStrip then resolver.atoms
  else
    let live := liveAtoms opts resolver force
    resolver.atoms.filter fun atom =>
      atom ∈ live || (resolver.atom atom).dontDeadStrip ||
        (resolver.haveLLVMObjs && !force &&
          ((resolver.atom atom).combine = .combineByNameAndContent ||
            (resolver.atom atom).combine = .combineByNameAndReferences))

end Resolver

end Cctools.DeadStrip
