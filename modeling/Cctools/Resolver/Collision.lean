/-
# Cctools.Resolver.Collision -- which of two atoms of one name is used

`NameCollisionResolution` compares a new atom (A) with the one in the slot (B), by the
kinds of their definitions first.  One leaf sets no atom: two definitions that are not
weak, when duplicates are neither a warning nor allowed.

Warnings are not here.  The atoms are named ones, so they combine by name or not at all.
-/
import Cctools.Theory.Transducer

namespace Cctools.Resolver

set_option autoImplicit false

open Cctools.Theory

/-! ## Atoms -/

inductive Scope
  | translationUnit
  | linkageUnit
  | global
  deriving DecidableEq, Repr

inductive Definition
  | regular
  | tentative
  | absolute
  | proxy
  deriving DecidableEq, Repr

inductive Combine
  | never
  | byName
  deriving DecidableEq, Repr

inductive ContentType
  | ltoTemporary
  | other
  deriving DecidableEq, Repr

inductive SectionType
  | machHeader
  | other
  deriving DecidableEq, Repr

structure Alignment where
  powerOf2 : BitVec 16
  modulus : BitVec 16
  deriving DecidableEq, Repr

/-- A byte. -/
def Alignment.trailingZeros (alignment : Alignment) : Nat :=
  if alignment.modulus = 0 then alignment.powerOf2.toNat % 256
  else ((List.range 16).find? fun i => alignment.modulus.getLsbD i).getD 16

structure Atom where
  name : String
  definition : Definition
  combine : Combine
  scope : Scope
  contentType : ContentType
  sectionType : SectionType
  autoHide : Bool
  alignment : Alignment
  size : Nat
  /-- `file()->ordinal()`; lower values have higher precedence. -/
  ordinal : Nat
  path : String
  deriving DecidableEq, Repr

/-! ## Options -/

inductive Treatment
  | error
  | warning
  | suppress
  | null
  | invalid
  deriving DecidableEq, Repr

inductive CommonsMode
  | ignoreDylibs
  | overriddenByDylibs
  | conflictsDylibsError
  deriving DecidableEq, Repr

/-! ## The choice -/

/-- `_chosen`: one of the two atoms, or what was in memory before. -/
inductive Chosen
  | atomA
  | atomB
  | unset
  deriving DecidableEq, Repr

structure Resolution where
  chosen : Chosen
  reportDuplicate : Bool
  deriving DecidableEq, Repr

def pickAOrB (pickA : Bool) : Chosen := if pickA then .atomA else .atomB

/-- The lower number. -/
def pickHigherOrdinal (a b : Atom) : Chosen := pickAOrB (a.ordinal < b.ordinal)

/-- The higher number. -/
def pickLowerOrdinal (a b : Atom) : Chosen := pickAOrB (a.ordinal > b.ordinal)

def pickLargerSize (a b : Atom) : Chosen :=
  if a.size = b.size then pickLowerOrdinal a b else pickAOrB (a.size > b.size)

def pickGreaterAlignment (a b : Atom) : Chosen :=
  pickAOrB (a.alignment.trailingZeros > b.alignment.trailingZeros)

def Atom.isLTO (atom : Atom) : Bool := atom.contentType = .ltoTemporary

def pickBetweenWeakAtoms (a b : Atom) : Chosen :=
  if a.isLTO ≠ b.isLTO then pickAOrB (!a.isLTO)
  else if a.autoHide ≠ b.autoHide then pickAOrB (!a.autoHide)
  else if a.autoHide && b.autoHide then pickGreaterAlignment a b
  else if a.scope ≠ b.scope then pickAOrB (a.scope = .global)
  else pickGreaterAlignment a b

/-- Two definitions that are not weak. -/
def pickBetweenStrongAtoms (duplicates : Treatment) (a b : Atom) : Resolution :=
  if a.sectionType = .machHeader then ⟨.atomA, false⟩
  else if b.sectionType = .machHeader then ⟨.atomB, false⟩
  else
    match duplicates with
    | .error => ⟨.unset, true⟩
    | .warning => ⟨pickLowerOrdinal a b, true⟩
    | .suppress => ⟨pickLowerOrdinal a b, false⟩
    | .null | .invalid => ⟨.unset, false⟩

def pickBetweenRegularAtoms (duplicates : Treatment) (a b : Atom) : Resolution :=
  match a.combine, b.combine with
  | .byName, .byName => ⟨pickBetweenWeakAtoms a b, false⟩
  | .byName, .never => ⟨.atomB, false⟩
  | .never, .byName => ⟨.atomA, false⟩
  | .never, .never => pickBetweenStrongAtoms duplicates a b

/-- The source calls the tentative atom `dylib`. -/
def pickCommonsMode (mode : CommonsMode) (dylib proxy : Atom) (dylibIs proxyIs : Chosen) :
    Except String Chosen :=
  match mode with
  | .ignoreDylibs => .ok dylibIs
  | .overriddenByDylibs => .ok proxyIs
  | .conflictsDylibsError =>
    .error ("common symbol " ++ proxy.name ++ " from " ++ proxy.path ++ " conflicts with definition from dylib "
      ++ dylib.path)

def pickProxyAtom (a b : Atom) : Except String Chosen :=
  if a.combine = .byName then .ok .atomB
  else if b.combine = .byName then .ok .atomA
  else .error ("symbol " ++ a.name ++ " exported from both " ++ a.path ++ " and " ++ b.path)

def pickAtom (mode : CommonsMode) (duplicates : Treatment) (a b : Atom) : Except String Resolution :=
  match a.definition, b.definition with
  | .regular, .regular => .ok (pickBetweenRegularAtoms duplicates a b)
  | .regular, .tentative => .ok ⟨.atomA, false⟩
  | .regular, .absolute => .ok ⟨pickHigherOrdinal a b, true⟩
  | .regular, .proxy => .ok ⟨.atomA, false⟩
  | .tentative, .regular => .ok ⟨.atomB, false⟩
  | .tentative, .tentative => .ok ⟨pickLargerSize a b, false⟩
  | .tentative, .absolute => .ok ⟨pickHigherOrdinal a b, false⟩
  | .tentative, .proxy => (pickCommonsMode mode a b .atomA .atomB).map (⟨·, false⟩)
  | .absolute, .regular => .ok ⟨pickHigherOrdinal a b, true⟩
  | .absolute, .tentative => .ok ⟨.atomA, false⟩
  | .absolute, .absolute => .ok ⟨pickHigherOrdinal a b, true⟩
  | .absolute, .proxy => .ok ⟨.atomA, false⟩
  | .proxy, .regular => .ok ⟨.atomB, false⟩
  | .proxy, .tentative => (pickCommonsMode mode b a .atomB .atomA).map (⟨·, false⟩)
  | .proxy, .absolute => .ok ⟨.atomB, false⟩
  | .proxy, .proxy => (pickProxyAtom a b).map (⟨·, false⟩)

def Resolution.reportDuplicateError (resolution : Resolution) (duplicates : Treatment) : Bool :=
  resolution.reportDuplicate && duplicates = .error

def Resolution.reportDuplicateWarning (resolution : Resolution) (duplicates : Treatment) : Bool :=
  resolution.reportDuplicate && duplicates = .warning

/-! ## The leaf without an atom -/

/-- Two definitions that exclude each other. -/
def Clash (duplicates : Treatment) (a b : Atom) : Prop :=
  a.definition = .regular ∧ b.definition = .regular ∧ a.combine = .never ∧ b.combine = .never ∧
    a.sectionType ≠ .machHeader ∧ b.sectionType ≠ .machHeader ∧
    duplicates ≠ .warning ∧ duplicates ≠ .suppress

theorem pickAOrB_ne_unset (pickA : Bool) : pickAOrB pickA ≠ .unset := by
  cases pickA <;> nofun

theorem pickLargerSize_ne_unset (a b : Atom) : pickLargerSize a b ≠ .unset := by
  rw [pickLargerSize]
  split
  · exact pickAOrB_ne_unset _
  · exact pickAOrB_ne_unset _

theorem pickBetweenWeakAtoms_ne_unset (a b : Atom) : pickBetweenWeakAtoms a b ≠ .unset := by
  rw [pickBetweenWeakAtoms]
  split
  · exact pickAOrB_ne_unset _
  split
  · exact pickAOrB_ne_unset _
  split
  · exact pickAOrB_ne_unset _
  split
  · exact pickAOrB_ne_unset _
  · exact pickAOrB_ne_unset _

variable {duplicates : Treatment} {a b : Atom}

theorem pickBetweenStrongAtoms_unset_iff :
    (pickBetweenStrongAtoms duplicates a b).chosen = .unset ↔
      a.sectionType ≠ .machHeader ∧ b.sectionType ≠ .machHeader ∧
        duplicates ≠ .warning ∧ duplicates ≠ .suppress := by
  unfold pickBetweenStrongAtoms
  split
  · rename_i header
    exact ⟨nofun, fun all => absurd header all.1⟩
  split
  · rename_i header
    exact ⟨nofun, fun all => absurd header all.2.1⟩
  rename_i notA notB
  cases duplicates with
  | error => exact ⟨fun _ => ⟨notA, notB, nofun, nofun⟩, fun _ => rfl⟩
  | null => exact ⟨fun _ => ⟨notA, notB, nofun, nofun⟩, fun _ => rfl⟩
  | invalid => exact ⟨fun _ => ⟨notA, notB, nofun, nofun⟩, fun _ => rfl⟩
  | warning => exact ⟨fun unset => absurd unset (pickAOrB_ne_unset _), fun all => absurd rfl all.2.2.1⟩
  | suppress => exact ⟨fun unset => absurd unset (pickAOrB_ne_unset _), fun all => absurd rfl all.2.2.2⟩

theorem pickBetweenRegularAtoms_unset_iff :
    (pickBetweenRegularAtoms duplicates a b).chosen = .unset ↔
      a.combine = .never ∧ b.combine = .never ∧ a.sectionType ≠ .machHeader ∧ b.sectionType ≠ .machHeader ∧
        duplicates ≠ .warning ∧ duplicates ≠ .suppress := by
  rw [pickBetweenRegularAtoms]
  cases a.combine <;> cases b.combine
  · rw [pickBetweenStrongAtoms_unset_iff]
    simp only [true_and]
  · exact ⟨nofun, nofun⟩
  · exact ⟨nofun, nofun⟩
  · exact ⟨fun unset => absurd unset (pickBetweenWeakAtoms_ne_unset a b), nofun⟩

theorem pickCommonsMode_ok {mode : CommonsMode} {dylib proxy : Atom} {dylibIs proxyIs chosen : Chosen}
    (isOk : pickCommonsMode mode dylib proxy dylibIs proxyIs = .ok chosen) :
    chosen = dylibIs ∨ chosen = proxyIs := by
  cases mode with
  | ignoreDylibs => exact .inl (Except.ok.inj isOk).symm
  | overriddenByDylibs => exact .inr (Except.ok.inj isOk).symm
  | conflictsDylibsError => cases isOk

theorem pickProxyAtom_ok {chosen : Chosen} (isOk : pickProxyAtom a b = .ok chosen) :
    chosen = .atomB ∧ a.combine = .byName ∨ chosen = .atomA ∧ a.combine = .never ∧ b.combine = .byName := by
  rw [pickProxyAtom] at isOk
  split at isOk
  · rename_i weak
    exact .inl ⟨(Except.ok.inj isOk).symm, weak⟩
  · rename_i strong
    split at isOk
    · rename_i weak
      refine .inr ⟨(Except.ok.inj isOk).symm, ?_, weak⟩
      cases both : a.combine with
      | never => rfl
      | byName => exact absurd both strong
    · cases isOk

/-- **An atom is chosen unless two definitions exclude each other.** -/
theorem pickAtom_unset_iff {mode : CommonsMode} {resolution : Resolution}
    (isOk : pickAtom mode duplicates a b = .ok resolution) :
    resolution.chosen = .unset ↔ Clash duplicates a b := by
  unfold pickAtom at isOk
  split at isOk
  case h_1 defA defB =>
    obtain rfl := Except.ok.inj isOk
    rw [pickBetweenRegularAtoms_unset_iff, Clash, defA, defB]
    simp only [true_and]
  all_goals
    rename_i defA defB
    have apart : ¬ Clash duplicates a b := by simp [Clash, defA, defB]
    refine iff_of_false (fun unset => ?_) apart
  case h_6 =>
    obtain rfl := Except.ok.inj isOk
    exact pickLargerSize_ne_unset a b unset
  case h_8 | h_14 =>
    obtain ⟨chosen, commons, rfl⟩ := ok_of_map isOk
    obtain rfl : chosen = .unset := unset
    rcases pickCommonsMode_ok commons with same | same <;> cases same
  case h_16 =>
    obtain ⟨chosen, proxies, rfl⟩ := ok_of_map isOk
    obtain rfl : chosen = .unset := unset
    rcases pickProxyAtom_ok proxies with ⟨same, -⟩ | ⟨same, -⟩ <;> cases same
  all_goals
    obtain rfl := Except.ok.inj isOk
    first
      | exact pickAOrB_ne_unset _ unset
      | cases unset

end Cctools.Resolver
