/-
# Cctools.Resolver.SymbolTable -- slots for names, and atoms that are coalesced away

`add` puts an atom into the slot of its name.  The one of two atoms that is not used is
marked as coalesced away, and so are the members of its group.

`add_ok` is all that one call does.
-/
import Cctools.Resolver.Collision
import Mathlib.Logic.Function.Basic
import Mathlib.Logic.Relation

namespace Cctools.Resolver

set_option autoImplicit false

open Cctools.Theory

/-! ## Atoms and their fixups -/

inductive FixupKind
  | noneGroupSubordinate
  | noneGroupSubordinateFDE
  | noneGroupSubordinateLSDA
  | other
  deriving DecidableEq, Repr

def FixupKind.isGroupSubordinate : FixupKind → Bool
  | .noneGroupSubordinate | .noneGroupSubordinateFDE | .noneGroupSubordinateLSDA => true
  | .other => false

inductive Binding
  | directlyBound
  | other
  deriving DecidableEq, Repr

structure Fixup (Address : Type) where
  kind : FixupKind
  binding : Binding
  target : Address

/-- The atoms in memory. -/
structure Link (Address : Type) where
  atom : Address → Atom
  fixups : Address → List (Fixup Address)

section Slots

variable {Address : Type}

/-! ## Slots -/

/-- No two names share a slot. -/
structure Slots (Address : Type) where
  byNameTable : String → Option Nat
  indirectBindingTable : List (Option Address)
  inside : ∀ name slot, byNameTable name = some slot → slot < indirectBindingTable.length
  apart : ∀ name other slot, byNameTable name = some slot → byNameTable other = some slot → name = other

def Slots.empty : Slots Address := ⟨fun _ => none, [], nofun, nofun⟩

def Slots.indirectAtom (slots : Slots Address) (slot : Nat) : Option Address :=
  slots.indirectBindingTable[slot]?.join

def Slots.atomForName (slots : Slots Address) (name : String) : Option Address :=
  (slots.byNameTable name).bind slots.indirectAtom

def Slots.newSlot (slots : Slots Address) (name : String) : Slots Address where
  byNameTable := Function.update slots.byNameTable name (some slots.indirectBindingTable.length)
  indirectBindingTable := slots.indirectBindingTable ++ [none]
  inside := by
    intro other slot found
    rw [List.length_append, List.length_singleton]
    by_cases same : other = name
    · rw [same, Function.update_self, Option.some.injEq] at found
      omega
    · rw [Function.update_of_ne same] at found
      have := slots.inside other slot found
      omega
  apart := by
    intro first second slot found there
    by_cases here : first = name
    · by_cases same : second = name
      · rw [here, same]
      · rw [here, Function.update_self, Option.some.injEq] at found
        rw [Function.update_of_ne same] at there
        have := slots.inside second slot there
        omega
    · rw [Function.update_of_ne here] at found
      by_cases same : second = name
      · rw [same, Function.update_self, Option.some.injEq] at there
        have := slots.inside first slot found
        omega
      · rw [Function.update_of_ne same] at there
        exact slots.apart first second slot found there

def Slots.findSlotForName (slots : Slots Address) (name : String) : Nat × Slots Address :=
  match slots.byNameTable name with
  | some slot => (slot, slots)
  | none => (slots.indirectBindingTable.length, slots.newSlot name)

def Slots.set (slots : Slots Address) (slot : Nat) (address : Address) : Slots Address :=
  { slots with
    indirectBindingTable := slots.indirectBindingTable.set slot (some address)
    inside := fun name slot found => by
      rw [List.length_set]
      exact slots.inside name slot found }

theorem Slots.newSlot_atomForName (slots : Slots Address) {name : String} (fresh : slots.byNameTable name = none) :
    (slots.newSlot name).atomForName = slots.atomForName := by
  funext other
  rw [atomForName, atomForName]
  by_cases same : other = name
  · rw [same, fresh]
    simp [newSlot, indirectAtom]
  · have kept : (slots.newSlot name).byNameTable other = slots.byNameTable other := Function.update_of_ne same _ _
    rw [kept]
    cases found : slots.byNameTable other with
    | none => rfl
    | some slot =>
      show ((slots.indirectBindingTable ++ [none])[slot]?).join = slots.indirectBindingTable[slot]?.join
      rw [List.getElem?_append_left (slots.inside other slot found)]

theorem Slots.findSlotForName_kept (slots : Slots Address) (name : String) :
    (slots.findSlotForName name).2.atomForName = slots.atomForName ∧
      (slots.findSlotForName name).2.byNameTable name = some (slots.findSlotForName name).1 := by
  rw [findSlotForName]
  cases found : slots.byNameTable name with
  | none => exact ⟨slots.newSlot_atomForName found, Function.update_self _ _ _⟩
  | some slot => exact ⟨rfl, found⟩

theorem Slots.lookup (slots : Slots Address) (name : String) :
    (slots.findSlotForName name).2.indirectAtom (slots.findSlotForName name).1 = slots.atomForName name := by
  obtain ⟨sameAtoms, sameSlot⟩ := slots.findSlotForName_kept name
  rw [← sameAtoms, Slots.atomForName, sameSlot]
  rfl

theorem Slots.set_atomForName (slots : Slots Address) {name : String} {slot : Nat} (address : Address)
    (found : slots.byNameTable name = some slot) :
    (slots.set slot address).atomForName = Function.update slots.atomForName name (some address) := by
  funext other
  by_cases same : other = name
  · rw [same, Function.update_self, atomForName]
    show (slots.byNameTable name).bind _ = _
    rw [found]
    show ((slots.indirectBindingTable.set slot (some address))[slot]?).join = some address
    rw [List.getElem?_set_self (slots.inside name slot found)]
    rfl
  · rw [Function.update_of_ne same, atomForName, atomForName]
    show (slots.byNameTable other).bind _ = _
    cases there : slots.byNameTable other with
    | none => rfl
    | some elsewhere =>
      have differ : slot ≠ elsewhere := by
        rintro rfl
        exact same (slots.apart other name slot there found)
      show ((slots.indirectBindingTable.set slot (some address))[elsewhere]?).join = _
      rw [List.getElem?_set_ne differ]
      rfl

end Slots

/-! ## Coalescing away -/

section Marks

variable {Address : Type} [DecidableEq Address] (link : Link Address)

/-- The loop of `markCoalescedAway`, given its recursive call. -/
def markSubordinates (mark : (Address → Bool) → Address → Except String (Address → Bool)) :
    (Address → Bool) → List (Fixup Address) → Except String (Address → Bool)
  | coalescedAway, [] => .ok coalescedAway
  | coalescedAway, fixup :: rest =>
    if fixup.kind.isGroupSubordinate then
      if fixup.binding = .directlyBound then do
        let coalescedAway ← mark coalescedAway fixup.target
        markSubordinates mark coalescedAway rest
      else .error "assertion failed: fit->binding == ld::Fixup::bindingDirectlyBound"
    else markSubordinates mark coalescedAway rest

/-- `depth` is how many calls fit on the stack. -/
def markCoalescedAway : Nat → (Address → Bool) → Address → Except String (Address → Bool)
  | 0, _, _ => .error "stack overflow"
  | depth + 1, coalescedAway, address =>
    markSubordinates (markCoalescedAway depth) (Function.update coalescedAway address true) (link.fixups address)

/-- One group fixup leads from the first to the second. -/
def Leads (signature member : Address) : Prop :=
  ∃ fixup ∈ link.fixups signature, fixup.kind.isGroupSubordinate ∧ fixup.target = member

/-- The atom itself, the members of its group, theirs, and so on. -/
def Group : Address → Address → Prop := Relation.ReflTransGen (Leads link)

variable {link}

omit [DecidableEq Address] in
theorem markSubordinates_ok {mark : (Address → Bool) → Address → Except String (Address → Bool)} {x : Address}
    (marks : ∀ before after address, mark before address = .ok after →
      (after x = true ↔ before x = true ∨ Group link address x))
    {fixups : List (Fixup Address)} {before after : Address → Bool}
    (isOk : markSubordinates mark before fixups = .ok after) :
    after x = true ↔ before x = true ∨
      ∃ fixup ∈ fixups, fixup.kind.isGroupSubordinate ∧ Group link fixup.target x := by
  induction fixups generalizing before with
  | nil =>
    obtain rfl := Except.ok.inj isOk
    simp
  | cons fixup rest ih =>
    simp only [List.mem_cons, exists_eq_or_imp]
    rw [markSubordinates] at isOk
    split at isOk
    · rename_i subordinate
      split at isOk
      · obtain ⟨next, here, there⟩ := ok_of_bind isOk
        rw [ih there, marks _ _ _ here]
        simp only [subordinate, true_and, or_assoc]
      · cases isOk
    · rename_i otherKind
      rw [ih isOk]
      simp only [otherKind, Bool.false_eq_true, false_and, false_or]

/-- **An atom is coalesced away with its whole group and nothing else.** -/
theorem markCoalescedAway_ok {depth : Nat} {coalescedAway marked : Address → Bool} {address : Address}
    (isOk : markCoalescedAway link depth coalescedAway address = .ok marked) (x : Address) :
    marked x = true ↔ coalescedAway x = true ∨ Group link address x := by
  induction depth generalizing coalescedAway marked address with
  | zero => cases isOk
  | succ depth ih =>
    rw [markCoalescedAway] at isOk
    have head : Group link address x ↔ address = x ∨ ∃ fixup ∈ link.fixups address,
        fixup.kind.isGroupSubordinate ∧ Group link fixup.target x := by
      rw [Group, Relation.ReflTransGen.cases_head_iff]
      refine or_congr_right ⟨?_, ?_⟩
      · rintro ⟨member, ⟨fixup, listed, subordinate, rfl⟩, reached⟩
        exact ⟨fixup, listed, subordinate, reached⟩
      · rintro ⟨fixup, listed, subordinate, reached⟩
        exact ⟨fixup.target, ⟨fixup, listed, subordinate, rfl⟩, reached⟩
    have self : Function.update coalescedAway address true x = true ↔ coalescedAway x = true ∨ address = x := by
      by_cases same : x = address
      · simp [same]
      · simp [Function.update_of_ne same, Ne.symm same]
    rw [markSubordinates_ok (fun _ _ _ => ih) isOk, head, self, or_assoc]

end Marks

/-! ## Adding -/

structure SymbolTable (Address : Type) where
  slots : Slots Address
  /-- The flag that each atom keeps. -/
  coalescedAway : Address → Bool
  hasTentativeDefinitions : Bool
  duplicateSymbolErrors : List (String × Address)
  duplicateSymbolWarnings : List (String × Address)

def SymbolTable.empty (Address : Type) : SymbolTable Address :=
  ⟨.empty, fun _ => false, false, [], []⟩

def SymbolTable.atomForName {Address : Type} (table : SymbolTable Address) (name : String) : Option Address :=
  table.slots.atomForName name

structure Call (Address : Type) where
  atom : Address
  duplicates : Treatment
  /-- Whether the memory of a `_chosen` that is not set holds the new atom's address. -/
  junk : Bool

/-- `choseAtom` of the new atom. -/
def Chosen.choseAtomA (chosen : Chosen) (junk : Bool) : Bool :=
  match chosen with
  | .atomA => true
  | .atomB => false
  | .unset => junk

section Add

variable {Address : Type} [DecidableEq Address] (link : Link Address) (mode : CommonsMode) (depth : Nat)

/-- Once for each file. -/
def addDuplicateSymbol (duplicates : List (String × Address)) (name : String) (address : Address) :
    List (String × Address) :=
  if duplicates.any fun dup => dup.1 = name && (link.atom dup.2).path = (link.atom address).path then duplicates
  else duplicates ++ [(name, address)]

def SymbolTable.report (table : SymbolTable Address) (call : Call Address) (picker : Resolution) (name : String)
    (existing : Address) : SymbolTable Address :=
  let both duplicates := addDuplicateSymbol link (addDuplicateSymbol link duplicates name existing) name call.atom
  if picker.reportDuplicateError call.duplicates then
    { table with duplicateSymbolErrors := both table.duplicateSymbolErrors }
  else if picker.reportDuplicateWarning call.duplicates then
    { table with duplicateSymbolWarnings := both table.duplicateSymbolWarnings }
  else table

def SymbolTable.use (table : SymbolTable Address) (slot : Nat) (newAtom : Address) : SymbolTable Address :=
  { table with
    slots := table.slots.set slot newAtom
    hasTentativeDefinitions :=
      table.hasTentativeDefinitions || (link.atom newAtom).definition = .tentative }

/-- Whether the atom in the slot was replaced. -/
def addByName (table : SymbolTable Address) (call : Call Address) : Except String (SymbolTable Address × Bool) :=
  let name := (link.atom call.atom).name
  let (slot, slots) := table.slots.findSlotForName name
  match slots.indirectAtom slot with
  | none => .ok ({ table with slots }.use link slot call.atom, false)
  | some existing => do
      if call.atom = existing then .error "assertion failed: &newAtom != existingAtom"
      let picker ← pickAtom mode call.duplicates (link.atom call.atom) (link.atom existing)
      let table := { table with slots }.report link call picker name existing
      if picker.chosen.choseAtomA call.junk then
        let coalescedAway ← markCoalescedAway link depth table.coalescedAway existing
        return ({ table with coalescedAway }.use link slot call.atom, true)
      else
        let coalescedAway ← markCoalescedAway link depth table.coalescedAway call.atom
        return ({ table with coalescedAway }, false)

def add (table : SymbolTable Address) (call : Call Address) : Except String (SymbolTable Address × Bool) :=
  if (link.atom call.atom).scope = .translationUnit then
    .error "assertion failed: atom.scope() != ld::Atom::scopeTranslationUnit"
  else addByName link mode depth table call

/-- A sequence of calls. -/
def addAll (table : SymbolTable Address) (calls : List (Call Address)) : Except String (SymbolTable Address) :=
  calls.foldlM (fun table call => (add link mode depth table call).map Prod.fst) table

end Add

/-! ## What one call does -/

section AddFacts

variable {Address : Type} [DecidableEq Address] {link : Link Address} {mode : CommonsMode} {depth : Nat}
  {table after : SymbolTable Address} {call : Call Address} {replaced : Bool}

def Call.name (link : Link Address) (call : Call Address) : String := (link.atom call.atom).name

/-- The name was new. -/
structure AddsFirst (link : Link Address) (table after : SymbolTable Address) (call : Call Address) : Prop where
  fresh : table.atomForName (call.name link) = none
  kept : after.atomForName = Function.update table.atomForName (call.name link) (some call.atom)
  marks : after.coalescedAway = table.coalescedAway

/-- One of two atoms is used. -/
structure AddsSecond (link : Link Address) (mode : CommonsMode) (table after : SymbolTable Address)
    (call : Call Address) (existing winner loser : Address) (picker : Resolution) : Prop where
  found : table.atomForName (call.name link) = some existing
  differ : call.atom ≠ existing
  picked : pickAtom mode call.duplicates (link.atom call.atom) (link.atom existing) = .ok picker
  both : picker.chosen.choseAtomA call.junk = true ∧ winner = call.atom ∧ loser = existing ∨
    picker.chosen.choseAtomA call.junk = false ∧ winner = existing ∧ loser = call.atom
  kept : after.atomForName = Function.update table.atomForName (call.name link) (some winner)
  marks : ∀ x, after.coalescedAway x = true ↔ table.coalescedAway x = true ∨ Group link loser x

omit [DecidableEq Address] in
@[simp] theorem report_slots (table : SymbolTable Address) (picker : Resolution) (name : String)
    (existing : Address) : (table.report link call picker name existing).slots = table.slots := by
  rw [SymbolTable.report]
  split
  · rfl
  split
  · rfl
  · rfl

omit [DecidableEq Address] in
@[simp] theorem report_coalescedAway (table : SymbolTable Address) (picker : Resolution) (name : String)
    (existing : Address) :
    (table.report link call picker name existing).coalescedAway = table.coalescedAway := by
  rw [SymbolTable.report]
  split
  · rfl
  split
  · rfl
  · rfl

theorem addByName_ok (isOk : addByName link mode depth table call = .ok (after, replaced)) :
    AddsFirst link table after call ∨
      ∃ existing winner loser picker, AddsSecond link mode table after call existing winner loser picker := by
  rw [addByName] at isOk
  obtain ⟨sameAtoms, sameSlot⟩ := table.slots.findSlotForName_kept (link.atom call.atom).name
  revert isOk sameAtoms sameSlot
  generalize table.slots.findSlotForName (link.atom call.atom).name = found
  obtain ⟨slot, slots⟩ := found
  intro isOk sameAtoms sameSlot
  dsimp only at isOk sameAtoms sameSlot
  have lookup : table.atomForName (call.name link) = slots.indirectAtom slot := by
    rw [SymbolTable.atomForName, ← sameAtoms, Slots.atomForName, Call.name, sameSlot]
    rfl
  have used (address : Address) : (slots.set slot address).atomForName
      = Function.update table.atomForName (call.name link) (some address) := by
    rw [slots.set_atomForName address sameSlot, sameAtoms]
    rfl
  cases there : slots.indirectAtom slot with
  | none =>
    rw [there] at isOk
    obtain ⟨rfl, -⟩ := Prod.mk.inj (Except.ok.inj isOk)
    exact .inl ⟨lookup.trans there, used call.atom, rfl⟩
  | some existing =>
    rw [there] at isOk
    dsimp only at isOk
    split at isOk
    · cases isOk
    rename_i differ
    obtain ⟨picker, picked, rest⟩ := ok_of_bind isOk
    split at rest
    · rename_i useNew
      obtain ⟨marked, marks, same⟩ := ok_of_bind rest
      obtain ⟨rfl, -⟩ := Prod.mk.inj (Except.ok.inj same)
      rw [report_coalescedAway] at marks
      refine .inr ⟨existing, call.atom, existing, picker, lookup.trans there, differ, picked,
        .inl ⟨useNew, rfl, rfl⟩, ?_, markCoalescedAway_ok marks⟩
      show ((SymbolTable.report link _ call picker _ existing).slots.set slot call.atom).atomForName = _
      rw [report_slots]
      exact used call.atom
    · rename_i useOld
      obtain ⟨marked, marks, same⟩ := ok_of_bind rest
      obtain ⟨rfl, -⟩ := Prod.mk.inj (Except.ok.inj same)
      rw [report_coalescedAway] at marks
      refine .inr ⟨existing, existing, call.atom, picker, lookup.trans there, differ, picked,
        .inr ⟨by simpa using useOld, rfl, rfl⟩, ?_, markCoalescedAway_ok marks⟩
      show (SymbolTable.report link _ call picker _ existing).slots.atomForName = _
      rw [report_slots, ← lookup.trans there, Function.update_eq_self]
      exact sameAtoms

/-- **A call adds the first atom of a name, or decides between two.** -/
theorem add_ok (isOk : add link mode depth table call = .ok (after, replaced)) :
    (link.atom call.atom).scope ≠ .translationUnit ∧ (AddsFirst link table after call ∨
      ∃ existing winner loser picker, AddsSecond link mode table after call existing winner loser picker) := by
  rw [add] at isOk
  split at isOk
  · cases isOk
  · rename_i shared
    exact ⟨shared, addByName_ok isOk⟩

/-- A call goes through when the pick is no error and the loser can be marked. -/
theorem add_succeeds (shared : (link.atom call.atom).scope ≠ .translationUnit)
    (marks : ∀ coalescedAway address, ∃ marked, markCoalescedAway link depth coalescedAway address = .ok marked)
    (picks : ∀ existing, table.atomForName (call.name link) = some existing → call.atom ≠ existing ∧
      ∃ picker, pickAtom mode call.duplicates (link.atom call.atom) (link.atom existing) = .ok picker) :
    ∃ result, add link mode depth table call = .ok result := by
  rw [add, if_neg shared, addByName]
  have lookup := table.slots.lookup (call.name link)
  rw [Call.name] at lookup
  dsimp only
  rw [lookup]
  cases found : table.slots.atomForName (link.atom call.atom).name with
  | none => exact ⟨_, rfl⟩
  | some existing =>
    obtain ⟨differ, picker, picked⟩ := picks existing found
    dsimp only
    rw [if_neg differ, picked]
    show ∃ result, (if picker.chosen.choseAtomA call.junk then _ else _) = _
    split
    · obtain ⟨marked, isOk⟩ := marks (SymbolTable.report link _ call picker _ existing).coalescedAway existing
      exact ⟨_, congrArg (Except.bind · _) isOk⟩
    · obtain ⟨marked, isOk⟩ := marks (SymbolTable.report link _ call picker _ existing).coalescedAway call.atom
      exact ⟨_, congrArg (Except.bind · _) isOk⟩

/-! ## Sequences of calls -/

theorem addAll_append (before : List (Call Address)) :
    addAll link mode depth table (before ++ [call])
      = (addAll link mode depth table before).bind fun table => (add link mode depth table call).map Prod.fst := by
  rw [addAll, List.foldlM_append, addAll]
  show Except.bind _ _ = Except.bind _ _
  congr 1
  funext next
  rw [List.foldlM_cons]
  show Except.bind _ _ = _
  cases (add link mode depth next call).map Prod.fst with
  | error message => rfl
  | ok value => rfl

theorem addAll_last {before : List (Call Address)} (isOk : addAll link mode depth table (before ++ [call]) = .ok after) :
    ∃ middle replaced, addAll link mode depth table before = .ok middle ∧
      add link mode depth middle call = .ok (after, replaced) := by
  rw [addAll_append] at isOk
  obtain ⟨middle, reached, last⟩ := ok_of_bind isOk
  obtain ⟨⟨end_, replaced⟩, added, rfl⟩ := ok_of_map last
  exact ⟨middle, replaced, reached, added⟩

end AddFacts

end Cctools.Resolver
