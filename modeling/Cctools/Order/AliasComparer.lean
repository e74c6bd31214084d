/-
# Cctools.Order.AliasComparer -- aliases are sorted by their targets

`Layout::AliasComparer` puts an alias before its target, and compares it with other atoms by its
target, which may be reached over other aliases.  So atoms are compared in groups, each of a
target and its aliases (`standsFor`), and the comparison is a strict weak order exactly when no
such group is tied with another atom and of the targets only one is a section start
(`aliasComparer_strictWeakOn_iff`).
-/
import Cctools.Order.Comparer

namespace Cctools.Order

set_option autoImplicit false

open Cctools.Theory

/-! ## Targets -/

section Targets

variable {Address : Type} (state : Internal Address)

/-- The loop over the fixups, of which only follow-ons lead anywhere. -/
def targetOfFixups : List (Fixup Address) → Option Address
  | [] => none
  | fixup :: rest =>
    match fixup.kind, fixup.binding with
    | .noneFollowOn, .indirectlyBound bindingIndex => state.indirectBindingTable bindingIndex
    | .noneFollowOn, .directlyBound target => some target
    | _, _ => targetOfFixups rest

def targetOfAliasAtom (atom : Address) : Option Address := targetOfFixups state (state.atom atom).fixups

/-- The loop of `nestedTargetOfAliasAtom`. -/
def nestedTargetFrom : Nat → Address → Except Failure Address
  | 0, _ => .error .endless
  | fuel + 1, target =>
    if (state.atom target).isAlias then
      match targetOfAliasAtom state target with
      | none => .ok target
      | some nextTarget => nestedTargetFrom fuel nextTarget
    else .ok target

def nestedTargetOfAliasAtom (fuel : Nat) (atom : Address) : Except Failure (Option Address) :=
  match targetOfAliasAtom state atom with
  | none => .ok none
  | some target => some <$> nestedTargetFrom state fuel target

variable {atom target : Address} {fuel : Nat}

theorem nestedTargetFrom_last (isOk : nestedTargetFrom state fuel atom = .ok target) :
    (state.atom target).isAlias = true → targetOfAliasAtom state target = none := by
  induction fuel generalizing atom with
  | zero => cases isOk
  | succ fuel ih =>
    rw [nestedTargetFrom] at isOk
    split at isOk
    · cases next : targetOfAliasAtom state atom with
      | none =>
        rw [next] at isOk
        obtain rfl := Except.ok.inj isOk
        exact fun _ => next
      | some nextTarget =>
        rw [next] at isOk
        exact ih isOk
    · rename_i real
      obtain rfl := Except.ok.inj isOk
      exact fun isAlias => absurd isAlias real

theorem nestedTargetOfAliasAtom_last (isOk : nestedTargetOfAliasAtom state fuel atom = .ok (some target)) :
    (state.atom target).isAlias = true → targetOfAliasAtom state target = none := by
  rw [nestedTargetOfAliasAtom] at isOk
  cases first : targetOfAliasAtom state atom with
  | none =>
    rw [first] at isOk
    cases isOk
  | some firstTarget =>
    rw [first] at isOk
    cases nested : nestedTargetFrom state fuel firstTarget with
    | error failure =>
      dsimp only at isOk
      rw [nested] at isOk
      cases isOk
    | ok last =>
      dsimp only at isOk
      rw [nested] at isOk
      cases isOk
      exact nestedTargetFrom_last state nested

/-- The target that an alias resolves to, if it is an alias and has one. -/
def resolvedTarget (fuel : Nat) (atom : Address) : Option Address :=
  if (state.atom atom).isAlias then
    match nestedTargetOfAliasAtom state fuel atom with
    | .ok target => target
    | .error _ => none
  else none

theorem resolvedTarget_last
    (resolved : resolvedTarget state fuel atom = some target) : resolvedTarget state fuel target = none := by
  rw [resolvedTarget] at resolved
  split at resolved
  · split at resolved
    · rename_i isOk
      rw [resolved] at isOk
      have last := nestedTargetOfAliasAtom_last state isOk
      rw [resolvedTarget]
      split
      · rename_i isAlias
        rw [nestedTargetOfAliasAtom, last isAlias]
      · rfl
    · cases resolved
  · cases resolved

/-- **What an atom is compared by**: an alias stands for its target, any other atom for itself. -/
def standsFor (fuel : Nat) (atom : Address) : Address := (resolvedTarget state fuel atom).getD atom

theorem standsFor_of_some
    (resolved : resolvedTarget state fuel atom = some target) : standsFor state fuel atom = target := by
  rw [standsFor, resolved]
  rfl

theorem standsFor_of_none {atom : Address} (resolved : resolvedTarget state fuel atom = none) :
    standsFor state fuel atom = atom := by
  rw [standsFor, resolved]
  rfl

end Targets

/-! ## The map -/

section AliasToTarget

variable {Address : Type} [DecidableEq Address] (state : Internal Address)

/-- `try_emplace` for one alias. -/
def addAlias (fuel : Nat) (aliasToTarget : Address → Option Address) (alias_ : Address) :
    Except Failure (Address → Option Address) :=
  if (state.atom alias_).isAlias then do
    match ← nestedTargetOfAliasAtom state fuel alias_ with
    | some target =>
      return if (aliasToTarget alias_).isNone then Function.update aliasToTarget alias_ (some target) else aliasToTarget
    | none => return aliasToTarget
  else .error (.assertion "alias->isAlias()")

/-- `_aliasToTarget`. -/
def aliasTargets (fuel : Nat) (aliasAtoms : List Address) : Except Failure (Address → Option Address) :=
  aliasAtoms.foldlM (addAlias state fuel) fun _ => none

private theorem addAlias_spec {fuel : Nat} {map : Address → Option Address} {alias_ : Address}
    (isAlias : (state.atom alias_).isAlias = true) (ends : ∃ target, nestedTargetOfAliasAtom state fuel alias_ = .ok target)
    (agrees : map alias_ = none ∨ map alias_ = resolvedTarget state fuel alias_) :
    ∃ added, addAlias state fuel map alias_ = .ok added ∧ added alias_ = resolvedTarget state fuel alias_ ∧
      ∀ a, a ≠ alias_ → added a = map a := by
  obtain ⟨target, nested⟩ := ends
  have resolved : resolvedTarget state fuel alias_ = target := by rw [resolvedTarget, if_pos isAlias, nested]
  rw [addAlias, if_pos isAlias, nested]
  rw [resolved] at agrees ⊢
  cases target with
  | none => exact ⟨map, rfl, agrees.elim id id, fun _ _ => rfl⟩
  | some target =>
    refine ⟨_, rfl, ?_, fun a other => ?_⟩
    · obtain unset | set := agrees
      · rw [unset]
        exact Function.update_self _ _ _
      · rw [set]
        exact set
    · split
      · exact Function.update_of_ne other _ _
      · rfl

/-- The map leads from every alias to what it resolves to. -/
theorem aliasTargets_spec {fuel : Nat} {aliasAtoms : List Address}
    (aliases : ∀ a ∈ aliasAtoms, (state.atom a).isAlias = true)
    (ends : ∀ a ∈ aliasAtoms, ∃ target, nestedTargetOfAliasAtom state fuel a = .ok target) :
    ∃ map, aliasTargets state fuel aliasAtoms = .ok map ∧
      ∀ a ∈ aliasAtoms, map a = resolvedTarget state fuel a := by
  have run (list : List Address) : ∀ map : Address → Option Address,
      (∀ a ∈ list, (state.atom a).isAlias = true) →
      (∀ a ∈ list, ∃ target, nestedTargetOfAliasAtom state fuel a = .ok target) →
      (∀ a, map a = none ∨ map a = resolvedTarget state fuel a) →
      ∃ last, list.foldlM (addAlias state fuel) map = .ok last ∧
        (∀ a ∈ list, last a = resolvedTarget state fuel a) ∧ ∀ a, a ∉ list → last a = map a := by
    induction list with
    | nil => exact fun map _ _ _ => ⟨map, rfl, nofun, fun _ _ => rfl⟩
    | cons b rest ih =>
      intro map aliases ends agrees
      obtain ⟨added, isOk, here, others⟩ :=
        addAlias_spec state (aliases b List.mem_cons_self) (ends b List.mem_cons_self) (agrees b)
      have addedAgrees (a : Address) : added a = none ∨ added a = resolvedTarget state fuel a := by
        by_cases same : a = b
        · exact .inr (same ▸ here)
        · rw [others a same]
          exact agrees a
      obtain ⟨last, lastOk, inRest, outside⟩ := ih added (fun a member => aliases a (List.mem_cons_of_mem _ member))
        (fun a member => ends a (List.mem_cons_of_mem _ member)) addedAgrees
      refine ⟨last, ?_, fun a member => ?_, fun a absent => ?_⟩
      · rw [List.foldlM_cons, isOk]
        exact lastOk
      · by_cases later : a ∈ rest
        · exact inRest a later
        · obtain rfl := (List.mem_cons.mp member).resolve_right later
          rw [outside a later, here]
      · rw [List.mem_cons, not_or] at absent
        rw [outside a absent.2, others a absent.1]
  obtain ⟨map, isOk, agrees, _⟩ := run aliasAtoms (fun _ => none) aliases ends fun _ => .inl rfl
  exact ⟨map, isOk, agrees⟩

end AliasToTarget

/-! ## The comparison -/

section Comparison

variable {Address : Type} [DecidableEq Address] (state : Internal Address) (ordinals : Address → Option (BitVec 32))

/-- `Layout::AliasComparer::operator()`. -/
def aliasComparer (aliasToTarget : Address → Option Address) (left right : Address) : Bool :=
  let leftAliasTarget := if (state.atom left).isAlias then aliasToTarget left else none
  let rightAliasTarget := if (state.atom right).isAlias then aliasToTarget right else none
  if leftAliasTarget = some right then true
  else if rightAliasTarget = some left then false
  -- aliases of the same target go by name
  else if leftAliasTarget.isSome && leftAliasTarget = rightAliasTarget then
    decide ((state.atom left).userVisibleName < (state.atom right).userVisibleName)
  else comparer state ordinals (leftAliasTarget.getD left) (rightAliasTarget.getD right)

variable (fuel : Nat)

/-- An atom that stands for the same as another one and has to be before it. -/
def Ahead (left right : Address) : Prop :=
  resolvedTarget state fuel left = some right ∨
    ∃ target, resolvedTarget state fuel left = some target ∧ resolvedTarget state fuel right = some target ∧
      (state.atom left).userVisibleName < (state.atom right).userVisibleName

/-- **No group is tied with another atom**, if its own atoms have an order. -/
def GroupsApart (atoms : Set Address) : Prop :=
  ∀ x ∈ atoms, ∀ y ∈ atoms, ∀ z ∈ atoms, Ahead state fuel x y →
    standsFor state fuel z ≠ standsFor state fuel x →
    ¬Tied state ordinals (standsFor state fuel x) (standsFor state fuel z)

variable {left right : Address}

omit [DecidableEq Address] in
theorem Ahead.same {state : Internal Address} {fuel : Nat} (ahead : Ahead state fuel left right) :
    standsFor state fuel left = standsFor state fuel right := by
  obtain resolved | ⟨target, ofLeft, ofRight, _⟩ := ahead
  · rw [standsFor_of_some state resolved, standsFor_of_none state (resolvedTarget_last state resolved)]
  · rw [standsFor_of_some state ofLeft, standsFor_of_some state ofRight]

/-- In a group, the aliases come by their names and the target comes last. -/
def groupKeys : Address → Address → Bool :=
  byKey (fun a : Address => (resolvedTarget state fuel a).isNone) fun isTarget left right =>
    if isTarget then false else decide ((state.atom left).userVisibleName < (state.atom right).userVisibleName)

omit [DecidableEq Address] in
theorem groupKeys_strictWeakOn (atoms : Set Address) : StrictWeakOn atoms (groupKeys state fuel) := by
  refine byKey_strictWeakOn fun isTarget => ?_
  cases isTarget with
  | true => exact strictWeakOn_never _
  | false => exact strictWeakOn_key _ fun a => (state.atom a).userVisibleName

variable {fuel} {atoms : List Address} {map : Address → Option Address}
  (agrees : ∀ a ∈ atoms, (state.atom a).isAlias = true → map a = resolvedTarget state fuel a)
include agrees

theorem aliasComparer_eq (hl : left ∈ atoms) (hr : right ∈ atoms) :
    aliasComparer state ordinals map left right =
      if resolvedTarget state fuel left = some right then true
      else if resolvedTarget state fuel right = some left then false
      else if (resolvedTarget state fuel left).isSome &&
          resolvedTarget state fuel left = resolvedTarget state fuel right then
        decide ((state.atom left).userVisibleName < (state.atom right).userVisibleName)
      else comparer state ordinals (standsFor state fuel left) (standsFor state fuel right) := by
  have lookup (a : Address) (member : a ∈ atoms) :
      (if (state.atom a).isAlias then map a else none) = resolvedTarget state fuel a := by
    by_cases isAlias : (state.atom a).isAlias = true
    · rw [if_pos isAlias, agrees a member isAlias]
    · rw [if_neg isAlias, resolvedTarget, if_neg isAlias]
  rw [aliasComparer, lookup left hl, lookup right hr]
  rfl

theorem aliasComparer_apart (hl : left ∈ atoms) (hr : right ∈ atoms)
    (differ : standsFor state fuel left ≠ standsFor state fuel right) :
    aliasComparer state ordinals map left right =
      comparer state ordinals (standsFor state fuel left) (standsFor state fuel right) := by
  have notLeft : resolvedTarget state fuel left ≠ some right := fun resolved => differ (Ahead.same (.inl resolved))
  have notRight : resolvedTarget state fuel right ≠ some left :=
    fun resolved => differ (Ahead.same (.inl resolved)).symm
  rw [aliasComparer_eq state ordinals agrees hl hr, if_neg notLeft, if_neg notRight, if_neg]
  rw [Bool.and_eq_true, decide_eq_true_eq]
  rintro ⟨hasTarget, same⟩
  rw [standsFor, standsFor, ← same] at differ
  cases target : resolvedTarget state fuel left with
  | none =>
    rw [target] at hasTarget
    cases hasTarget
  | some target' =>
    rw [target] at differ
    exact differ rfl

theorem aliasComparer_within (hl : left ∈ atoms) (hr : right ∈ atoms)
    (same : standsFor state fuel left = standsFor state fuel right) :
    aliasComparer state ordinals map left right = true ↔ Ahead state fuel left right := by
  rw [aliasComparer_eq state ordinals agrees hl hr, Ahead]
  by_cases before : resolvedTarget state fuel left = some right
  · simp [before]
  rw [if_neg before]
  by_cases behind : resolvedTarget state fuel right = some left
  · simp [behind, resolvedTarget_last state behind]
  rw [if_neg behind]
  cases ofLeft : resolvedTarget state fuel left with
  | none =>
    have isLeft := standsFor_of_none state ofLeft
    have ofRight : resolvedTarget state fuel right = none := by
      cases ofRight : resolvedTarget state fuel right with
      | none => rfl
      | some target =>
        rw [isLeft, standsFor_of_some state ofRight] at same
        rw [same] at behind
        exact absurd ofRight behind
    rw [same, ofRight]
    simp
  | some target =>
    have isLeft := standsFor_of_some state ofLeft
    have ofRight : resolvedTarget state fuel right = some target := by
      cases ofRight : resolvedTarget state fuel right with
      | none =>
        rw [isLeft, standsFor_of_none state ofRight] at same
        rw [same] at ofLeft
        exact absurd ofLeft before
      | some other =>
        rw [isLeft, standsFor_of_some state ofRight] at same
        rw [same]
    rw [ofLeft] at before
    simp [ofRight, before]

omit agrees [DecidableEq Address] in
theorem ahead_iff_groupKeys (same : standsFor state fuel left = standsFor state fuel right) :
    Ahead state fuel left right ↔ groupKeys state fuel left right = true := by
  rw [Ahead, groupKeys, byKey]
  cases ofLeft : resolvedTarget state fuel left with
  | none => cases resolvedTarget state fuel right <;> simp
  | some target =>
    rw [standsFor_of_some state ofLeft] at same
    cases ofRight : resolvedTarget state fuel right with
    | none => simp [same, standsFor_of_none state ofRight]
    | some other =>
      rw [standsFor_of_some state ofRight] at same
      have notRight : target ≠ right := by
        rintro rfl
        rw [resolvedTarget_last state ofLeft] at ofRight
        cases ofRight
      simp [same, same ▸ notRight]

theorem aliasComparer_group (c : Address) :
    StrictWeakOn {x ∈ {a | a ∈ atoms} | standsFor state fuel x = c} (aliasComparer state ordinals map) := by
  refine (groupKeys_strictWeakOn state fuel _).congr ?_
  rintro x ⟨hx, ofX⟩ y ⟨hy, ofY⟩
  rw [Bool.eq_iff_iff, aliasComparer_within state ordinals agrees hx hy (ofX.trans ofY.symm)]
  exact ahead_iff_groupKeys state (ofX.trans ofY.symm)

/-- **The AliasComparer**: a strict weak order exactly when only one of the atoms that the section's atoms stand
for is a section start, and no group is tied with another atom. -/
theorem aliasComparer_strictWeakOn_iff (small : SmallAddresses state (standsFor state fuel '' {a | a ∈ atoms})) :
    StrictWeakOn {a | a ∈ atoms} (aliasComparer state ordinals map) ↔
      AtMostOne state (standsFor state fuel '' {a | a ∈ atoms}) .sectionStart ∧
        GroupsApart state ordinals fuel {a | a ∈ atoms} := by
  have grouped := @strictWeakOn_iff_of_grouped _ _ {a | a ∈ atoms} (standsFor state fuel)
    (aliasComparer state ordinals map) (comparer state ordinals) (comparer_self state ordinals)
    fun x hx y hy => aliasComparer_apart state ordinals agrees hx hy
  rw [grouped]
  constructor
  · rintro ⟨outer, -, untorn⟩
    refine ⟨atMostOne_of_strictWeakOn state ordinals outer, fun x hx y hy z hz ahead differ tied => ?_⟩
    have isLess := (aliasComparer_within state ordinals agrees hx hy ahead.same).mpr ahead
    obtain ⟨notLess, notGreater⟩ := (comparer_tied state ordinals differ.symm).mpr tied
    have := untorn x hx y hy z hz ahead.same isLess differ
    rw [notLess, notGreater] at this
    simp at this
  · rintro ⟨start, apart⟩
    refine ⟨comparer_strictWeakOn state ordinals start small, aliasComparer_group state ordinals agrees, ?_⟩
    intro x hx y hy z hz same isLess differ
    have ahead := (aliasComparer_within state ordinals agrees hx hy same).mp isLess
    by_contra neither
    rw [not_or, Bool.not_eq_true, Bool.not_eq_true, comparer_tied state ordinals differ.symm] at neither
    exact apart x hx y hy z hz ahead differ neither

end Comparison

end Cctools.Order
