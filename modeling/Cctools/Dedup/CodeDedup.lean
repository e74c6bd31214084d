/-
# Cctools.Dedup.CodeDedup -- the linker's code de-duplication

The pass of code_dedup.cpp: among the auto-hide functions of `__text` it finds the
equal ones, replaces all but the first of each by an alias of it, and moves the
references.

`equal` compares two functions and, for calls to different functions, those; a
`BackChain` of the pairs that are being compared keeps it from going round.

`α` are the atoms, as the pointers they are in the source; the aliases the pass
makes are new ones (`Ref`).  The `std::unordered_map` with `atom_hashing` and
`atom_equal` is left open as far as the standard does (`UnorderedMap`).  Sections are
walked one after the other; in the source each is walked by its own thread.  What is
only printed is left out.
-/
import Mathlib.Data.Fintype.Card
import Mathlib.Data.List.Perm.Basic
import Mathlib.Algebra.GroupWithZero.Nat

namespace Cctools.Dedup

set_option autoImplicit false

/-! ## Atoms -/

inductive SectionType where
  | typeCode
  | other (number : Nat)
  deriving DecidableEq, Repr

inductive FixupKind where
  | kindNoneFollowOn
  | kindAddAddend
  | kindSubtractAddend
  | kindStoreTargetAddressX86BranchPCRel32
  | kindStoreTargetAddressARM64Branch26
  | other (number : Nat)
  deriving DecidableEq, Repr

def FixupKind.isBranch : FixupKind → Bool
  | .kindStoreTargetAddressX86BranchPCRel32 => true
  | .kindStoreTargetAddressARM64Branch26 => true
  | _ => false

inductive Binding (α : Type) where
  | bindingNone
  | bindingByNameUnbound
  | bindingDirectlyBound (target : α)
  | bindingByContentBound
  | bindingsIndirectlyBound (bindingIndex : Nat)
  deriving DecidableEq, Repr

structure Fixup (α : Type) where
  offsetInAtom : Nat
  kind : FixupKind
  clusterSize : Nat
  binding : Binding α
  /-- Of the kinds that add or subtract one. -/
  addend : UInt64
  deriving DecidableEq, Repr

structure Atom (α : Type) where
  /-- The raw content, of `size` bytes. -/
  content : List UInt8
  name : List UInt8
  /-- Of content type `typeCString`. -/
  isCString : Bool
  autoHide : Bool
  sectionType : SectionType
  fixups : List (Fixup α)
  deriving DecidableEq, Repr

structure FinalSection (α : Type) where
  type : SectionType
  sectionName : String
  atoms : List α
  deriving DecidableEq, Repr

structure Internal (α : Type) where
  atom : α → Atom α
  indirectBindingTable : Nat → α
  sections : List (FinalSection α)

section Compare

variable {α : Type}

def Binding.sameBinding : Binding α → Binding α → Bool
  | .bindingNone, .bindingNone => true
  | .bindingByNameUnbound, .bindingByNameUnbound => true
  | .bindingDirectlyBound _, .bindingDirectlyBound _ => true
  | .bindingByContentBound, .bindingByContentBound => true
  | .bindingsIndirectlyBound _, .bindingsIndirectlyBound _ => true
  | _, _ => false

/-- The resolver has bound it. -/
def Binding.isBound : Binding α → Bool
  | .bindingByNameUnbound => false
  | .bindingByContentBound => false
  | _ => true

def Internal.target (state : Internal α) (fixup : Fixup α) : Option α :=
  match fixup.binding with
  | .bindingDirectlyBound target => some target
  | .bindingsIndirectlyBound bindingIndex => some (state.indirectBindingTable bindingIndex)
  | _ => none

def Internal.isCode (state : Internal α) (atom : α) : Bool :=
  (state.atom atom).sectionType = .typeCode

/-! ## Hashes -/

/-- A `char` is signed. -/
def charValue (byte : UInt8) : UInt64 := if byte < 128 then byte.toUInt64 else byte.toUInt64 - 256

def hashString (hash : UInt64) (text : List UInt8) : UInt64 :=
  (text.takeWhile (· ≠ 0)).foldl (fun hash char => hash * 33 + charValue char) hash

def hashFixup (state : Internal α) (hash : UInt64) (fixup : Fixup α) : UInt64 :=
  match state.target fixup with
  | none => hash
  | some target =>
    -- a function that may itself be merged
    if fixup.kind.isBranch ∧ (state.atom target).autoHide then hash
    else
      hashString hash
        (if (state.atom target).isCString then (state.atom target).content
        else (state.atom target).name)

def atomHashing (state : Internal α) (atom : α) : UInt64 :=
  let content := (state.atom atom).content
  let instructionBytes := content.length % 2 ^ 32
  let hash := (content.take instructionBytes).foldl (fun hash byte => hash * 33 + byte.toUInt64)
    (UInt64.ofNat instructionBytes)
  (state.atom atom).fixups.foldl (hashFixup state) hash

/-! ## Comparisons -/

variable [DecidableEq α]

/-- The pairs that are being compared, the last one first; the one it began with has no `prev` and
is not looked at. -/
def inCallChain (target : α) : List (α × α) → Bool
  | [] => false
  | [_] => false
  | pair :: prev => pair.1 = target || pair.2 = target || inCallChain target prev

/-- All of two fixups but their targets. -/
def sameFixup (first second : Fixup α) : Bool :=
  first.offsetInAtom = second.offsetInAtom && first.kind = second.kind &&
    (!(first.kind = .kindAddAddend || first.kind = .kindSubtractAddend) ||
      first.addend = second.addend) &&
    first.clusterSize = second.clusterSize && first.binding.sameBinding second.binding

/-- `equals` is asked about the targets of calls that differ. -/
def sameFixups (state : Internal α) (equals : α → α → Option Bool) :
    List (Fixup α) → List (Fixup α) → Option Bool
  | [], [] => some true
  | first :: rest, second :: others =>
    if !sameFixup first second then some false
    else if !first.binding.isBound then some false
    else if state.target first = state.target second then sameFixups state equals rest others
    else
      match state.target first, state.target second with
      | some target1, some target2 =>
        if !first.kind.isBranch then some false
        else if (state.atom target1).sectionType ≠ (state.atom target2).sectionType then some false
        else if !state.isCode target1 then some false
        else
          (equals target1 target2).bind fun same =>
            if same then sameFixups state equals rest others else some false
      | _, _ => some false
  | _, _ => some false

def equal (state : Internal α) : Nat → α → α → List (α × α) → Option Bool
  | 0, _, _, _ => none
  | fuel + 1, atom1, atom2, backChain =>
    if (state.atom atom1).content.length ≠ (state.atom atom2).content.length then some false
    else if atomHashing state atom1 ≠ atomHashing state atom2 then some false
    else if (state.atom atom1).content ≠ (state.atom atom2).content then some false
    else
      -- functions that call each other are not gone into again
      sameFixups state
        (fun target1 target2 =>
          if !inCallChain target1 backChain || !inCallChain target2 backChain then
            equal state fuel target1 target2 ((target1, target2) :: backChain)
          else some true)
        (state.atom atom1).fixups (state.atom atom2).fixups

/-- Every call that is gone into has another atom in the chain, so the fuel is enough
(`equal_isSome`). -/
def atomEqual [Fintype α] (state : Internal α) (atom1 atom2 : α) : Bool :=
  (equal state (Fintype.card α + 1) atom1 atom2 [(atom1, atom2)]).getD false

end Compare

/-! ## The map of functions -/

/-- What is said of a `std::unordered_map` from atoms to lists of them: it finds a key that is the
same when there is one, and is gone through in some order. -/
structure UnorderedMap {α : Type} (same : α → α → Bool) where
  find : List α → α → Option α
  find_some : ∀ {keys atom key}, find keys atom = some key → key ∈ keys ∧ same key atom = true
  find_none : ∀ {keys atom}, find keys atom = none → ∀ key ∈ keys, same key atom = false
  entries : List (α × List α) → List (α × List α)
  entries_perm : ∀ groups, (entries groups).Perm groups

section Groups

variable {α : Type} [DecidableEq α] {same : α → α → Bool} (map : UnorderedMap same)

/-- `map[atom].push_back(atom)`. -/
def addFunction (groups : List (α × List α)) (atom : α) : List (α × List α) :=
  match map.find (groups.map Prod.fst) atom with
  | some key => groups.map fun group => if group.1 = key then (key, group.2 ++ [atom]) else group
  | none => groups ++ [(atom, [atom])]

def groupFunctions (atoms : List α) : List (α × List α) := atoms.foldl (addFunction map) []

/-- Each duplicate with its master. -/
def groupDuplicates (group : α × List α) : List (α × α) :=
  if group.2.length = 1 then []
  else (group.2.filter (· ≠ group.1)).map fun dupAtom => (dupAtom, group.1)

def replacements (atoms : List α) : List (α × α) :=
  (map.entries (groupFunctions map atoms)).flatMap groupDuplicates

end Groups

/-! ## References -/

/-- The atoms after the pass. -/
inductive Ref (α : Type) where
  | atom (atom : α)
  /-- The `DeDupAliasAtom` in place of a duplicate. -/
  | aliasOf (dupOf : α)
  deriving DecidableEq, Repr

section References

variable {α : Type}

def Binding.map {β : Type} (f : α → β) : Binding α → Binding β
  | .bindingNone => .bindingNone
  | .bindingByNameUnbound => .bindingByNameUnbound
  | .bindingDirectlyBound target => .bindingDirectlyBound (f target)
  | .bindingByContentBound => .bindingByContentBound
  | .bindingsIndirectlyBound bindingIndex => .bindingsIndirectlyBound bindingIndex

def Fixup.map {β : Type} (f : α → β) (fixup : Fixup α) : Fixup β :=
  ⟨fixup.offsetInAtom, fixup.kind, fixup.clusterSize, fixup.binding.map f, fixup.addend⟩

def Atom.map {β : Type} (f : α → β) (atom : Atom α) : Atom β :=
  ⟨atom.content, atom.name, atom.isCString, atom.autoHide, atom.sectionType,
    atom.fixups.map (Fixup.map f)⟩

def FinalSection.map {β : Type} (f : α → β) (part : FinalSection α) : FinalSection β :=
  ⟨part.type, part.sectionName, part.atoms.map f⟩

/-- An alias has no content, and is followed by what it stands for. -/
def deDupAliasAtom (dupOf : Atom α) (replacement : α) : Atom (Ref α) :=
  ⟨[], dupOf.name, dupOf.isCString, dupOf.autoHide, dupOf.sectionType,
    [⟨0, .kindNoneFollowOn, 1, .bindingDirectlyBound (.atom replacement), 0⟩]⟩

variable [DecidableEq α]

/-- `replacementMap`. -/
def replacementFor (replaced : List (α × α)) : Ref α → Option (Ref α)
  | .atom atom => if atom ∈ replaced.map Prod.fst then some (.aliasOf atom) else none
  | .aliasOf _ => none

/-- The state when the aliases are made and in the section. -/
def withAliases (state : Internal α) (text : Nat) (replaced : List (α × α)) : Internal (Ref α) where
  atom
    | .atom atom => (state.atom atom).map .atom
    | .aliasOf atom => deDupAliasAtom (state.atom atom) ((replaced.lookup atom).getD atom)
  indirectBindingTable bindingIndex := .atom (state.indirectBindingTable bindingIndex)
  sections := (state.sections.map (FinalSection.map .atom)).modify text fun part =>
    { part with atoms := part.atoms ++ replaced.map fun pair => .aliasOf pair.1 }

/-- The loop over the fixups of an atom. -/
def replaceTargets (replaced : List (α × α)) :
    (Nat → Ref α) → List (Fixup (Ref α)) → List (Fixup (Ref α)) × (Nat → Ref α)
  | table, [] => ([], table)
  | table, fixup :: rest =>
    match fixup.binding with
    | .bindingsIndirectlyBound bindingIndex =>
      let table := Function.update table bindingIndex
        ((replacementFor replaced (table bindingIndex)).getD (table bindingIndex))
      let others := replaceTargets replaced table rest
      (fixup :: others.1, others.2)
    | .bindingDirectlyBound target =>
      let others := replaceTargets replaced table rest
      ({ fixup with binding :=
          .bindingDirectlyBound ((replacementFor replaced target).getD target) } :: others.1,
        others.2)
    | _ =>
      let others := replaceTargets replaced table rest
      (fixup :: others.1, others.2)

def replaceInAtom (replaced : List (α × α)) (state : Internal (Ref α)) (atom : Ref α) :
    Internal (Ref α) :=
  let walked := replaceTargets replaced state.indirectBindingTable (state.atom atom).fixups
  { state with
    atom := Function.update state.atom atom { state.atom atom with fixups := walked.1 }
    indirectBindingTable := walked.2 }

def replaceReferences (replaced : List (α × α)) (state : Internal (Ref α)) : Internal (Ref α) :=
  (state.sections.flatMap FinalSection.atoms).foldl (replaceInAtom replaced) state

/-- The replaced atoms leave the section. -/
def pruned (replaced : List (α × α)) (text : Nat) (state : Internal (Ref α)) : Internal (Ref α) :=
  { state with
    sections := state.sections.modify text fun part =>
      { part with atoms := part.atoms.filter fun atom => (replacementFor replaced atom).isNone } }

end References

/-! ## The pass -/

inductive Architecture where
  | arm64
  | x86_64
  | other
  deriving DecidableEq, Repr

structure Options where
  /-- `outputKind` is `kObjectFile`. -/
  objectFile : Bool
  architecture : Architecture
  deduplicateFunctions : Bool
  deriving DecidableEq, Repr

section Pass

variable {α : Type} [DecidableEq α] [Fintype α]

/-- Where the `__text` section is, if there is something to do. -/
def textSection (opts : Options) (state : Internal α) : Option Nat :=
  if opts.objectFile then none
  else if opts.architecture = .other then none
  else if !opts.deduplicateFunctions then none
  else
    state.sections.findIdx? fun part => part.type = .typeCode && part.sectionName = "__text"

/-- The auto-hide functions of a section; aliases are empty. -/
def autoHideFunctions (state : Internal α) (text : Nat) : List α :=
  ((state.sections[text]?.map FinalSection.atoms).getD []).filter fun atom =>
    (state.atom atom).content.length ≠ 0 && (state.atom atom).autoHide

/-- The duplicates the pass replaces, with the masters. -/
def dupAtoms (state : Internal α) (map : UnorderedMap (atomEqual state)) (text : Nat) : List (α × α) :=
  replacements map (autoHideFunctions state text)

def deduplicate (state : Internal α) (map : UnorderedMap (atomEqual state)) (text : Nat) :
    Internal (Ref α) :=
  let replaced := dupAtoms state map text
  pruned replaced text (replaceReferences replaced (withAliases state text replaced))

def doPass (opts : Options) (state : Internal α) (map : UnorderedMap (atomEqual state)) :
    Internal (Ref α) :=
  match textSection opts state with
  | none => ⟨fun
      | .atom atom => (state.atom atom).map .atom
      | .aliasOf atom => deDupAliasAtom (state.atom atom) atom,
    fun bindingIndex => .atom (state.indirectBindingTable bindingIndex),
    state.sections.map (FinalSection.map .atom)⟩
  | some text => deduplicate state map text

end Pass

end Cctools.Dedup
