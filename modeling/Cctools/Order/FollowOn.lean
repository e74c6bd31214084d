/-
# Cctools.Order.FollowOn -- atoms that must stay together

With an order file, `buildFollowOnTables` of ld's order pass reads the follow-on fixups of
all atoms into two maps.  `_followOnNexts` leads from an atom to the next one of its cluster
and `_followOnStarts` to the first one.  An atom that is to come right before one in the middle
of a cluster is put in there, which is meant for aliases of no size.

Looking a key up with `[]` puts a null pointer there, and later a key that is there is taken
for one that leads somewhere.  So the maps say which keys they have (`AtomToAtom`).
-/
import Mathlib.Logic.Function.Basic

namespace Cctools.Order

set_option autoImplicit false

/-! ## Atoms -/

inductive FixupKind
  | noneFollowOn
  | other
  deriving DecidableEq, Repr

inductive Binding (Address : Type)
  | directlyBound (target : Address)
  | indirectlyBound (bindingIndex : Nat)
  | other

structure Fixup (Address : Type) where
  kind : FixupKind
  binding : Binding Address

inductive ContentType
  | sectionStart
  | sectionEnd
  | other
  deriving DecidableEq, Repr

inductive SectionType
  | unclassified
  | code
  | zeroFill
  | tentativeDefs
  | importProxies
  | tempAlias
  | stub
  | lazyPointer
  | lazyPointerClose
  | stubClose
  | nonLazyPointer
  | cStringPointer
  | nonStdCString
  | other
  deriving DecidableEq, Repr

structure Atom (Address : Type) where
  /-- The type of the section that it comes from. -/
  sectionType : SectionType
  size : Nat
  fixups : List (Fixup Address)
  isAlias : Bool
  contentType : ContentType
  /-- `definition() == definitionTentative`. -/
  tentative : Bool
  cold : Bool
  /-- The ordinal of its file, if it has one. -/
  fileOrdinal : Option Nat
  objectAddress : BitVec 64
  userVisibleName : List UInt8

structure FinalSection (Address : Type) where
  type : SectionType
  segmentName : String
  sectionName : String
  atoms : List Address

/-- `ld::Internal`, with the options that the pass reads. -/
structure Internal (Address : Type) where
  atom : Address → Atom Address
  sections : List (FinalSection Address)
  indirectBindingTable : Nat → Option Address
  haveCmdLineAliases : Bool
  haveOrderFile : Bool
  /-- What `moveRwSymbol` says of the name and the file of an atom. -/
  moveRwSymbol : Address → Bool

/-! ## Maps -/

/-- `std::map<const ld::Atom*, const ld::Atom*>`: a key that is there may have a null pointer. -/
abbrev AtomToAtom (Address : Type) := Address → Option (Option Address)

section Maps

variable {Address : Type} [DecidableEq Address]

namespace AtomToAtom

variable (map : AtomToAtom Address)

/-- The pointer that `[]` returns. -/
def get (key : Address) : Option Address := (map key).join

/-- What `[]` does to a map that is only read. -/
def touch (key : Address) : AtomToAtom Address :=
  if (map key).isNone then Function.update map key (some none) else map

def put (key : Address) (value : Option Address) : AtomToAtom Address := Function.update map key (some value)

def count (key : Address) : Nat := if (map key).isSome then 1 else 0

@[simp] theorem get_touch (key other : Address) : (map.touch key).get other = map.get other := by
  rw [touch]
  split
  · rename_i absent
    by_cases same : other = key
    · rw [same, get, get, Function.update_self, Option.isNone_iff_eq_none.mp absent]
      rfl
    · rw [get, get, Function.update_of_ne same]
  · rfl

@[simp] theorem get_put_self (key : Address) (value : Option Address) : (map.put key value).get key = value := by
  rw [put, get, Function.update_self]
  rfl

theorem get_put_of_ne {key other : Address} (differ : other ≠ key) (value : Option Address) :
    (map.put key value).get other = map.get other := by
  rw [put, get, get, Function.update_of_ne differ]

@[simp] theorem put_self (key : Address) (value : Option Address) : map.put key value key = some value :=
  Function.update_self _ _ _

theorem put_of_ne {key other : Address} (differ : other ≠ key) (value : Option Address) :
    map.put key value other = map other := Function.update_of_ne differ _ _

theorem touch_of_some {key : Address} (isKey : (map key).isSome) : map.touch key = map := by
  rw [touch, if_neg]
  rw [Option.isNone_iff_eq_none, ← ne_eq, Option.ne_none_iff_isSome]
  exact isKey

end AtomToAtom

end Maps

/-! ## The tables -/

/-- `_followOnStarts` and `_followOnNexts`. -/
structure Tables (Address : Type) where
  starts : AtomToAtom Address
  nexts : AtomToAtom Address

def Tables.empty (Address : Type) : Tables Address := ⟨fun _ => none, fun _ => none⟩

/-- An assert that does not hold, or a loop that is not at its end after `fuel` rounds. -/
inductive Failure
  | assertion (text : String)
  | endless
  deriving DecidableEq, Repr

section Build

variable {Address : Type} [DecidableEq Address]

/-- The loop of `follower`. -/
def followerFrom (target : Address) : Nat → AtomToAtom Address → Option Address →
    Except Failure (Option Address × AtomToAtom Address)
  | _, nexts, none => .ok (none, nexts)
  | 0, _, some _ => .error .endless
  | fuel + 1, nexts, some a =>
    if nexts.get a = some target then .ok (some a, nexts.touch a)
    else followerFrom target fuel (nexts.touch a) (nexts.get a)

variable (fuel : Nat)

/-- The atom that leads to the one given. -/
def follower (tables : Tables Address) (target : Address) : Except Failure (Option Address × Tables Address) := do
  let (found, nexts) ← followerFrom target fuel tables.nexts (tables.starts.get target)
  return (found, ⟨tables.starts.touch target, nexts⟩)

/-- The loop that gives the cluster of `followOn` the start of `atom`. -/
def adjustStarts (nexts : AtomToAtom Address) (followOn atom : Address) : Nat → AtomToAtom Address → Option Address →
    Except Failure (AtomToAtom Address)
  | 0, _, _ => .error .endless
  | _ + 1, _, none => .error (.assertion "_followOnStarts[a] == followOnAtom")
  | fuel + 1, starts, some a =>
    if starts.get a = some followOn then
      let starts := starts.put a (starts.get atom)
      match nexts a with
      | some next => adjustStarts nexts followOn atom fuel starts next
      | none => .ok starts
    else .error (.assertion "_followOnStarts[a] == followOnAtom")

/-- The loop that makes `atom` the start of what comes behind it. -/
def startFrom (atom : Address) : Nat → Tables Address → Option Address → Except Failure (Tables Address)
  | _, tables, none => .ok tables
  | 0, _, some _ => .error .endless
  | fuel + 1, tables, some a =>
    startFrom atom fuel ⟨tables.starts.put a (some atom), tables.nexts.touch a⟩ (tables.nexts.get a)

variable (size : Address → Nat)

/-- `atom` goes into the cluster of `followOnAtom`, which is not its first. -/
def insertBefore (tables : Tables Address) (atom followOnAtom : Address) : Except Failure (Tables Address) := do
  let (prevToFollowOn, tables) ← follower fuel tables followOnAtom
  match prevToFollowOn with
  | none => .error (.assertion "curPrevToFollowOnAtom != NULL")
  | some curPrev =>
    if size atom = 0 then
      -- an alias goes right before followOnAtom
      return {
        nexts := (tables.nexts.put curPrev (some atom)).put atom (some followOnAtom)
        starts := tables.starts.put atom (tables.starts.get followOnAtom) }
    else if size curPrev = 0 then do
      -- a real atom goes before the alias of followOnAtom
      let (prevPrevToFollowOn, tables) ← follower fuel tables curPrev
      match prevPrevToFollowOn with
      | none => startFrom atom fuel { tables with nexts := tables.nexts.put atom (some curPrev) } (some atom)
      | some curPrevPrev =>
        return {
          nexts := (tables.nexts.put curPrevPrev (some atom)).put atom (some curPrev)
          starts := tables.starts.put atom (tables.starts.get curPrev) }
    else .error (.assertion "(atom->size() == 0) || (curPrevToFollowOnAtom->size() == 0)")

/-- The first time that an atom is seen it is the start of a chain. -/
def AtomToAtom.see (starts : AtomToAtom Address) (atom : Address) : AtomToAtom Address :=
  if starts.count atom = 0 then starts.put atom (some atom) else starts

/-- One follow-on fixup. -/
def addFollowOn (tables : Tables Address) (atom followOnAtom : Address) : Except Failure (Tables Address) :=
  if tables.nexts.count atom = 0 then
    let nexts := tables.nexts.put atom (some followOnAtom)
    let starts := tables.starts.see atom
    if starts.count followOnAtom = 0 then .ok ⟨starts.put followOnAtom (starts.get atom), nexts⟩
    else if starts.get followOnAtom = some followOnAtom then do
      let starts ← adjustStarts nexts followOnAtom atom fuel starts (some followOnAtom)
      return ⟨starts, nexts⟩
    else insertBefore fuel size ⟨starts, nexts⟩ atom followOnAtom
  else .error (.assertion "_followOnNexts.count(atom) == 0")

def addFixup (atom : Address) (tables : Tables Address) (fixup : Fixup Address) : Except Failure (Tables Address) :=
  match fixup.kind with
  | .other => .ok tables
  | .noneFollowOn =>
    match fixup.binding with
    | .directlyBound target => addFollowOn fuel size tables atom target
    | _ => .error (.assertion "fit->binding == ld::Fixup::bindingDirectlyBound")

end Build

variable {Address : Type}

def possibleToOrder (state : Internal Address) (sect : FinalSection Address) : Bool :=
  match sect.type with
  | .unclassified | .code | .zeroFill => true
  | .importProxies => false
  | _ => state.haveCmdLineAliases && sect.atoms.any fun atom => (state.atom atom).isAlias

/-- The atoms that the pass goes over. -/
def orderedAtoms (state : Internal Address) : List Address :=
  (state.sections.filter (possibleToOrder state)).flatMap FinalSection.atoms

def buildFollowOnTables [DecidableEq Address] (fuel : Nat) (state : Internal Address) :
    Except Failure (Tables Address) :=
  if state.haveOrderFile then
    (orderedAtoms state).foldlM
      (fun tables atom => (state.atom atom).fixups.foldlM (addFixup fuel (fun a => (state.atom a).size) atom) tables)
      (.empty Address)
  else .ok (.empty Address)

end Cctools.Order
