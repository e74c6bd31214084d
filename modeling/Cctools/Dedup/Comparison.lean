/-
# Cctools.Dedup.Comparison -- what `atom_equal` decides

Functions are bisimilar when some relation relates them whose pairs have the same
bytes and the same fixups, up to calls of related functions (`functions`).
`atom_equal` looks for one: the pairs it goes into.

Where it does not go into a call again it takes its two targets for equal.  That is
right when the chain of comparisons has paired them, or follows by symmetry and
transitivity (`CutsPaired`); then what it finds equal is bisimilar
(`atomEqual_iff`).  But `inCallChain` only asks for each of the two whether it is in
the chain, with whatever partner.
-/
import Cctools.Theory.Bisimilarity
import Cctools.Theory.Transducer
import Cctools.Dedup.CodeDedup

namespace Cctools.Dedup

set_option autoImplicit false

open Relation Cctools.Theory

/-! ## Bisimilar functions -/

section Functions

variable {α : Type} (state : Internal α)

/-- Fixups that do the same when calls of related functions do. -/
def Matches (related : α → α → Prop) (first second : Fixup α) : Prop :=
  sameFixup first second = true ∧
    (state.target first = state.target second ∨
      ∃ target1 target2, state.target first = some target1 ∧ state.target second = some target2 ∧
        first.kind.isBranch = true ∧ state.isCode target1 = true ∧ state.isCode target2 = true ∧
          related target1 target2)

def SameFunction (related : α → α → Prop) (atom1 atom2 : α) : Prop :=
  (state.atom atom1).content = (state.atom atom2).content ∧
    List.Forall₂ (Matches state related) (state.atom atom1).fixups (state.atom atom2).fixups

theorem sameBinding_refl (binding : Binding α) : binding.sameBinding binding = true := by
  cases binding <;> rfl

theorem sameBinding_symm {first second : Binding α} (same : first.sameBinding second = true) :
    second.sameBinding first = true := by
  cases first <;> cases second <;> first | rfl | cases same

theorem sameBinding_trans {first second third : Binding α} (left : first.sameBinding second = true)
    (right : second.sameBinding third = true) : first.sameBinding third = true := by
  cases first <;> cases second <;> cases third <;> simp [Binding.sameBinding] at *

variable {first second : Fixup α}

theorem sameFixup_iff :
    sameFixup first second = true ↔ first.offsetInAtom = second.offsetInAtom ∧
      first.kind = second.kind ∧
      (first.kind = .kindAddAddend ∨ first.kind = .kindSubtractAddend → first.addend = second.addend) ∧
      first.clusterSize = second.clusterSize ∧ first.binding.sameBinding second.binding = true := by
  simp only [sameFixup, Bool.and_eq_true, Bool.or_eq_true, Bool.not_eq_true', decide_eq_true_eq,
    Bool.or_eq_false_iff, decide_eq_false_iff_not, and_assoc]
  refine and_congr_right fun _ => and_congr_right fun _ => and_congr_left fun _ => ?_
  tauto

theorem sameFixup_refl (fixup : Fixup α) : sameFixup fixup fixup = true :=
  sameFixup_iff.mpr ⟨rfl, rfl, fun _ => rfl, rfl, sameBinding_refl _⟩

theorem sameFixup_symm (same : sameFixup first second = true) :
    sameFixup second first = true := by
  obtain ⟨offset, kind, addend, cluster, binding⟩ := sameFixup_iff.mp same
  refine sameFixup_iff.mpr ⟨offset.symm, kind.symm, fun adds => ?_, cluster.symm,
    sameBinding_symm binding⟩
  rw [← kind] at adds
  exact (addend adds).symm

theorem sameFixup_trans {first second third : Fixup α} (left : sameFixup first second = true)
    (right : sameFixup second third = true) : sameFixup first third = true := by
  obtain ⟨offset, kind, addend, cluster, binding⟩ := sameFixup_iff.mp left
  obtain ⟨offset', kind', addend', cluster', binding'⟩ := sameFixup_iff.mp right
  refine sameFixup_iff.mpr ⟨offset.trans offset', kind.trans kind', fun adds => ?_,
    cluster.trans cluster', sameBinding_trans binding binding'⟩
  have adds' := adds
  rw [kind] at adds'
  exact (addend adds).trans (addend' adds')

theorem matches_mono {R S : α → α → Prop} (weaker : ∀ x y, R x y → S x y)
    (matched : Matches state R first second) : Matches state S first second := by
  obtain ⟨same, targets | ⟨target1, target2, is1, is2, branch, code1, code2, related⟩⟩ := matched
  · exact ⟨same, .inl targets⟩
  · exact ⟨same, .inr ⟨target1, target2, is1, is2, branch, code1, code2, weaker _ _ related⟩⟩

theorem matches_symm {R : α → α → Prop}
    (matched : Matches state R first second) : Matches state (flip R) second first := by
  obtain ⟨same, targets | ⟨target1, target2, is1, is2, branch, code1, code2, related⟩⟩ := matched
  · exact ⟨sameFixup_symm same, .inl targets.symm⟩
  · have kind := (sameFixup_iff.mp same).2.1
    rw [kind] at branch
    exact ⟨sameFixup_symm same, .inr ⟨target2, target1, is2, is1, branch, code2, code1, related⟩⟩

theorem matches_trans {R S : α → α → Prop} (reflR : ∀ x, R x x) (reflS : ∀ x, S x x)
    {first second third : Fixup α} (left : Matches state R first second)
    (right : Matches state S second third) : Matches state (Comp R S) first third := by
  obtain ⟨same, targets | ⟨target1, target2, is1, is2, branch, code1, code2, related⟩⟩ := left
  · obtain ⟨same', targets' | ⟨target2, target3, is2, is3, branch', code2, code3, related'⟩⟩ := right
    · exact ⟨sameFixup_trans same same', .inl (targets.trans targets')⟩
    · rw [← (sameFixup_iff.mp same).2.1] at branch'
      exact ⟨sameFixup_trans same same', .inr ⟨target2, target3, targets.trans is2, is3, branch',
        code2, code3, target2, reflR target2, related'⟩⟩
  · obtain ⟨same', targets' | ⟨target2', target3, is2', is3, branch', code2', code3, related'⟩⟩ := right
    · exact ⟨sameFixup_trans same same', .inr ⟨target1, target2, is1, targets'.symm.trans is2, branch,
        code1, code2, target2, related, reflS target2⟩⟩
    · rw [is2] at is2'
      cases is2'
      exact ⟨sameFixup_trans same same', .inr ⟨target1, target3, is1, is3, branch, code1, code3,
        target2, related, related'⟩⟩

/-- **What functions have to have in common.** -/
def functions : Behaviour α where
  alike := SameFunction state
  mono weaker same := ⟨same.1, same.2.imp fun _ _ matched => matches_mono state weaker matched⟩
  refl _ _ := ⟨rfl, List.forall₂_same.mpr fun fixup _ => ⟨sameFixup_refl fixup, .inl rfl⟩⟩
  symm same := ⟨same.1.symm, (same.2.imp fun _ _ matched => matches_symm state matched).flip⟩
  trans reflR reflS left right := by
    refine ⟨left.1.trans right.1, forall₂_trans ?_ left.2 right.2⟩
    intro _ _ _ here there
    exact matches_trans state reflR reflS here there

/-- With equal hashes as well, which is what is asked of each pair. -/
def hashedFunctions : Behaviour α where
  alike R atom1 atom2 := SameFunction state R atom1 atom2 ∧
    atomHashing state atom1 = atomHashing state atom2
  mono weaker same := ⟨(functions state).mono weaker same.1, same.2⟩
  refl atom reflR := ⟨(functions state).refl atom reflR, rfl⟩
  symm same := ⟨(functions state).symm same.1, same.2.symm⟩
  trans reflR reflS left right :=
    ⟨(functions state).trans reflR reflS left.1 right.1, left.2.trans right.2⟩

variable {state} in
theorem bisimilar_of_hashed {atom1 atom2 : α} (bisimilar : (hashedFunctions state).Bisimilar atom1 atom2) :
    (functions state).Bisimilar atom1 atom2 :=
  Behaviour.Bisimilar.weaken (fun _ _ _ alike => And.left alike) bisimilar

end Functions

/-! ## What a comparison says -/

section Comparisons

variable {α : Type} [DecidableEq α] (state : Internal α) {equals : α → α → Option Bool}

/-- The fixups are found the same when they are bound, and match up to what the comparisons of
called functions say. -/
theorem sameFixups_eq_true {first second : List (Fixup α)} :
    sameFixups state equals first second = some true ↔
      List.Forall₂ (fun fixup1 fixup2 => fixup1.binding.isBound = true ∧
        Matches state (fun target1 target2 => target1 = target2 ∨ equals target1 target2 = some true)
          fixup1 fixup2) first second := by
  induction first generalizing second with
  | nil => cases second <;> simp [sameFixups]
  | cons fixup1 rest ih =>
    cases second with
    | nil => simp [sameFixups]
    | cons fixup2 others =>
      rw [List.forall₂_cons, ← ih, sameFixups]
      simp only [Matches, Internal.isCode]
      by_cases same : sameFixup fixup1 fixup2 = true
      · by_cases bound : fixup1.binding.isBound = true
        · by_cases targets : state.target fixup1 = state.target fixup2
          · simp [same, bound, targets]
          · cases is1 : state.target fixup1 with
            | none =>
              rw [is1] at targets
              simp [same, bound, targets]
            | some target1 =>
              cases is2 : state.target fixup2 with
              | none => simp [same, bound]
              | some target2 =>
                rw [is1, is2] at targets
                have differ : target1 ≠ target2 := fun equal => targets (congrArg some equal)
                by_cases branch : fixup1.kind.isBranch = true
                · by_cases code1 : (state.atom target1).sectionType = .typeCode
                  · by_cases code2 : (state.atom target2).sectionType = .typeCode
                    · cases said : equals target1 target2 with
                      | none => simp [same, bound, differ, branch, code1, code2, said]
                      | some answer =>
                        cases answer <;>
                          simp [same, bound, differ, branch, code1, code2, said]
                    · simp [same, bound, differ, branch, code1, code2, Ne.symm code2]
                  · simp [same, bound, differ, branch, code1]
                · simp [same, bound, differ, branch]
        · simp [same, bound]
      · simp [same]

theorem sameFixups_isSome
    (answers : ∀ target1 target2, (equals target1 target2).isSome = true) (first second : List (Fixup α)) :
    (sameFixups state equals first second).isSome = true := by
  induction first generalizing second with
  | nil => cases second <;> rfl
  | cons fixup1 rest ih =>
    cases second with
    | nil => rfl
    | cons fixup2 others =>
      rw [sameFixups]
      split
      · rfl
      split
      · rfl
      split
      · exact ih others
      split
      · split
        · rfl
        split
        · rfl
        split
        · rfl
        · rename_i target1 target2 _ _ _ _ _
          obtain ⟨answer, said⟩ := Option.isSome_iff_exists.mp (answers target1 target2)
          rw [said]
          cases answer with
          | true => exact ih others
          | false => rfl
      · rfl

/-- Whether the back chain ends the comparison of two targets. -/
def cutOff (backChain : List (α × α)) (target1 target2 : α) : Prop :=
  inCallChain target1 backChain = true ∧ inCallChain target2 backChain = true

theorem equal_eq_true {fuel : Nat} {atom1 atom2 : α} {backChain : List (α × α)} :
    equal state (fuel + 1) atom1 atom2 backChain = some true ↔
      (state.atom atom1).content = (state.atom atom2).content ∧
        atomHashing state atom1 = atomHashing state atom2 ∧
          List.Forall₂ (fun fixup1 fixup2 => fixup1.binding.isBound = true ∧
            Matches state (fun target1 target2 => target1 = target2 ∨
              cutOff backChain target1 target2 ∨ ¬ cutOff backChain target1 target2 ∧
                equal state fuel target1 target2 ((target1, target2) :: backChain) = some true)
              fixup1 fixup2) (state.atom atom1).fixups (state.atom atom2).fixups := by
  have answers : ∀ target1 target2 : α,
      (if !inCallChain target1 backChain || !inCallChain target2 backChain then
          equal state fuel target1 target2 ((target1, target2) :: backChain)
        else some true) = some true ↔
      cutOff backChain target1 target2 ∨ ¬ cutOff backChain target1 target2 ∧
        equal state fuel target1 target2 ((target1, target2) :: backChain) = some true := by
    intro target1 target2
    rw [cutOff]
    cases inCallChain target1 backChain <;> cases inCallChain target2 backChain <;> simp
  rw [equal]
  by_cases sizes : (state.atom atom1).content.length = (state.atom atom2).content.length
  · by_cases hashes : atomHashing state atom1 = atomHashing state atom2
    · by_cases contents : (state.atom atom1).content = (state.atom atom2).content
      · simp only [hashes, contents, ne_eq, not_true_eq_false, if_false, sameFixups_eq_true, answers,
          true_and]
      · simp [sizes, hashes, contents]
    · simp [sizes, hashes]
  · have contents : (state.atom atom1).content ≠ (state.atom atom2).content :=
      fun same => sizes (congrArg List.length same)
    simp [sizes, contents]

end Comparisons

/-! ## Every comparison ends -/

section Ends

variable {α : Type} [DecidableEq α] [Fintype α] (state : Internal α)

/-- The atoms that are not in the chain yet. -/
def outside (backChain : List (α × α)) : Finset α :=
  Finset.univ.filter fun atom => inCallChain atom backChain = false

omit [Fintype α] in
theorem inCallChain_cons {atom : α} {pair first : α × α} {rest : List (α × α)} :
    inCallChain atom (pair :: first :: rest) = true ↔
      pair.1 = atom ∨ pair.2 = atom ∨ inCallChain atom (first :: rest) = true := by
  simp [inCallChain, or_assoc]

/-- A pair that is gone into has an atom that was outside. -/
theorem outside_card {target1 target2 : α} {pair : α × α} {backChain : List (α × α)}
    (goesOn : ¬ cutOff (pair :: backChain) target1 target2) :
    (outside ((target1, target2) :: pair :: backChain)).card < (outside (pair :: backChain)).card := by
  refine Finset.card_lt_card ⟨fun atom member => ?_, fun all => ?_⟩
  · simp only [outside, Finset.mem_filter, Finset.mem_univ, true_and] at member ⊢
    by_contra inside
    rw [Bool.not_eq_false] at inside
    rw [inCallChain_cons.mpr (.inr (.inr inside))] at member
    cases member
  · have new : ∀ atom, atom ∈ outside (pair :: backChain) →
        ¬ (target1 = atom ∨ target2 = atom) := by
      intro atom member among
      have still := all member
      simp only [outside, Finset.mem_filter, Finset.mem_univ, true_and] at still
      rw [inCallChain_cons.mpr (among.imp_right .inl)] at still
      cases still
    refine goesOn ⟨?_, ?_⟩
    · by_contra apart
      refine new target1 ?_ (.inl rfl)
      simpa [outside] using apart
    · by_contra apart
      refine new target2 ?_ (.inr rfl)
      simpa [outside] using apart

theorem equal_isSome {fuel : Nat} {atom1 atom2 : α} {pair : α × α} {backChain : List (α × α)}
    (enough : (outside (pair :: backChain)).card < fuel) :
    (equal state fuel atom1 atom2 (pair :: backChain)).isSome = true := by
  induction fuel generalizing atom1 atom2 pair backChain with
  | zero => exact absurd enough (Nat.not_lt_zero _)
  | succ fuel ih =>
    rw [equal]
    split
    · rfl
    split
    · rfl
    split
    · rfl
    refine sameFixups_isSome state (fun target1 target2 => ?_) _ _
    split
    · rename_i goesOn
      refine ih (Nat.lt_of_lt_of_le (outside_card fun cut => ?_) (Nat.le_of_lt_succ enough))
      rw [cut.1, cut.2] at goesOn
      cases goesOn
    · rfl

theorem atomEqual_isSome (atom1 atom2 : α) :
    (equal state (Fintype.card α + 1) atom1 atom2 [(atom1, atom2)]).isSome = true :=
  equal_isSome state (Nat.lt_succ_of_le (Finset.card_le_univ _))

theorem atomEqual_eq_true {atom1 atom2 : α} : atomEqual state atom1 atom2 = true ↔
    equal state (Fintype.card α + 1) atom1 atom2 [(atom1, atom2)] = some true := by
  obtain ⟨answer, said⟩ := Option.isSome_iff_exists.mp (atomEqual_isSome state atom1 atom2)
  rw [atomEqual, said]
  simp

end Ends

/-! ## Pairs that are gone into -/

section Visits

variable {α : Type} [DecidableEq α] (state : Internal α)

/-- Calls of different functions of code. -/
def Calls (fixup1 fixup2 : Fixup α) (target1 target2 : α) : Prop :=
  state.target fixup1 = some target1 ∧ state.target fixup2 = some target2 ∧ target1 ≠ target2 ∧
    fixup1.kind.isBranch = true ∧ state.isCode target1 = true ∧ state.isCode target2 = true

/-- What the comparison of two functions says of a pair of their call targets. -/
def answer (fuel : Nat) (backChain : List (α × α)) (target1 target2 : α) : Option Bool :=
  if !inCallChain target1 backChain || !inCallChain target2 backChain then
    equal state fuel target1 target2 ((target1, target2) :: backChain)
  else some true

/-- The comparison of two functions comes to their `k`th fixups: it has found the sizes, hashes and
bytes the same, and the fixups before. -/
structure ComesTo (atom1 atom2 : α) (backChain : List (α × α)) (k : Nat) (fixup1 fixup2 : Fixup α) :
    Prop where
  contents : (state.atom atom1).content = (state.atom atom2).content
  hashes : atomHashing state atom1 = atomHashing state atom2
  counts : (state.atom atom1).fixups.length = (state.atom atom2).fixups.length
  before : ∃ fuel, sameFixups state (answer state fuel backChain) ((state.atom atom1).fixups.take k)
    ((state.atom atom2).fixups.take k) = some true
  first : (state.atom atom1).fixups[k]? = some fixup1
  second : (state.atom atom2).fixups[k]? = some fixup2
  same : sameFixup fixup1 fixup2 = true

/-- The comparisons that `atom_equal` makes for two functions, with their back chains. -/
inductive Visit (root1 root2 : α) : α → α → List (α × α) → Prop where
  | root : Visit root1 root2 root1 root2 [(root1, root2)]
  | call {atom1 atom2 target1 target2 : α} {backChain : List (α × α)} {k : Nat} {fixup1 fixup2 : Fixup α}
      (visit : Visit root1 root2 atom1 atom2 backChain)
      (comes : ComesTo state atom1 atom2 backChain k fixup1 fixup2)
      (calls : Calls state fixup1 fixup2 target1 target2)
      (goesOn : ¬ cutOff backChain target1 target2) :
      Visit root1 root2 target1 target2 ((target1, target2) :: backChain)

/-- **The back chain only ends comparisons of functions it has paired**, or whose equality follows
from its pairs. -/
def CutsPaired (root1 root2 : α) : Prop :=
  ∀ atom1 atom2 backChain, Visit state root1 root2 atom1 atom2 backChain →
    ∀ k fixup1 fixup2 target1 target2, ComesTo state atom1 atom2 backChain k fixup1 fixup2 →
      Calls state fixup1 fixup2 target1 target2 → cutOff backChain target1 target2 →
        EqvGen (fun left right => (left, right) ∈ backChain) target1 target2

variable {state} {root1 root2 : α} {backChain : List (α × α)} {fuel : Nat}

theorem answer_eq_true {target1 target2 : α} :
    answer state fuel backChain target1 target2 = some true ↔
      cutOff backChain target1 target2 ∨ ¬ cutOff backChain target1 target2 ∧
        equal state fuel target1 target2 ((target1, target2) :: backChain) = some true := by
  rw [answer, cutOff]
  cases inCallChain target1 backChain <;> cases inCallChain target2 backChain <;> simp

variable {atom1 atom2 : α}

/-- A comparison that finds two functions equal comes to all their fixups. -/
theorem comesTo_of_equal
    (same : equal state (fuel + 1) atom1 atom2 backChain = some true) {k : Nat} {fixup1 fixup2 : Fixup α}
    (first : (state.atom atom1).fixups[k]? = some fixup1)
    (second : (state.atom atom2).fixups[k]? = some fixup2) :
    ComesTo state atom1 atom2 backChain k fixup1 fixup2 ∧
      Matches state (fun target1 target2 => target1 = target2 ∨
        answer state fuel backChain target1 target2 = some true) fixup1 fixup2 := by
  obtain ⟨contents, hashes, fixups⟩ := (equal_eq_true state).mp same
  have each : List.Forall₂ (fun fixup1 fixup2 => fixup1.binding.isBound = true ∧
      Matches state (fun target1 target2 => target1 = target2 ∨
        answer state fuel backChain target1 target2 = some true) fixup1 fixup2)
      (state.atom atom1).fixups (state.atom atom2).fixups := by
    simpa only [answer_eq_true] using fixups
  obtain ⟨other, is, _, matched⟩ := forall₂_getElem? each first
  obtain rfl := Option.some.inj (is.symm.trans second)
  refine ⟨⟨contents, hashes, each.length_eq, ⟨fuel, ?_⟩, first, second, matched.1⟩, matched⟩
  exact (sameFixups_eq_true state).mpr (List.forall₂_take k each)

/-- In a comparison that finds functions equal, every pair that is gone into is found equal. -/
theorem Visit.equal (found : equal state fuel root1 root2 [(root1, root2)] = some true)
    (visit : Visit state root1 root2 atom1 atom2 backChain) :
    ∃ fuel, Dedup.equal state (fuel + 1) atom1 atom2 backChain = some true := by
  induction visit with
  | root =>
    cases fuel with
    | zero => cases found
    | succ fuel => exact ⟨fuel, found⟩
  | call visit comes calls goesOn ih =>
    obtain ⟨fuel, same⟩ := ih
    obtain ⟨_, _, targets | ⟨target1, target2, is1, is2, _, _, _, said⟩⟩ :=
      comesTo_of_equal same comes.first comes.second
    · rw [calls.1, calls.2.1] at targets
      exact absurd (Option.some.inj targets) calls.2.2.1
    · rw [calls.1] at is1
      rw [calls.2.1] at is2
      cases is1
      cases is2
      obtain equal | said := said
      · exact absurd equal calls.2.2.1
      · obtain cut | ⟨_, said⟩ := answer_eq_true.mp said
        · exact absurd cut goesOn
        · cases fuel with
          | zero => cases said
          | succ fuel => exact ⟨fuel, said⟩

theorem Visit.pair (visit : Visit state root1 root2 atom1 atom2 backChain) {left right : α}
    (member : (left, right) ∈ backChain) : ∃ chain, Visit state root1 root2 left right chain := by
  induction visit with
  | root =>
    obtain ⟨rfl, rfl⟩ := Prod.mk.inj (List.mem_singleton.mp member)
    exact ⟨_, .root⟩
  | call visit among calls goesOn ih =>
    obtain same | earlier := List.mem_cons.mp member
    · obtain ⟨rfl, rfl⟩ := Prod.mk.inj same
      exact ⟨_, .call visit among calls goesOn⟩
    · exact ih earlier

/-- **What is found equal is bisimilar**, when no comparison is ended for the wrong pair. -/
theorem bisimilar_of_equal (cuts : CutsPaired state root1 root2)
    (found : equal state fuel root1 root2 [(root1, root2)] = some true) :
    (hashedFunctions state).Bisimilar root1 root2 := by
  refine @Behaviour.bisimilar_of_upTo _ _
    (fun left right => ∃ chain, Visit state root1 root2 left right chain) ?_ _ _ ⟨_, .root⟩
  rintro atom1 atom2 ⟨backChain, visit⟩
  obtain ⟨fuel, same⟩ := visit.equal found
  obtain ⟨contents, hashes, fixups⟩ := (equal_eq_true state).mp same
  refine ⟨⟨contents, ?_⟩, hashes⟩
  refine List.forall₂_iff_zip.mpr ⟨fixups.length_eq, fun {fixup1 fixup2} member => ?_⟩
  obtain ⟨k, both⟩ := List.mem_iff_getElem?.mp member
  obtain ⟨first, second⟩ := List.getElem?_zip_eq_some.mp both
  obtain ⟨comes, head, targets | ⟨target1, target2, is1, is2, branch, code1, code2, _⟩⟩ :=
    comesTo_of_equal same first second
  · exact ⟨head, .inl targets⟩
  · by_cases equal : target1 = target2
    · exact ⟨head, .inl (by rw [is1, is2, equal])⟩
    · have calls : Calls state fixup1 fixup2 target1 target2 :=
        ⟨is1, is2, equal, branch, code1, code2⟩
      refine ⟨head, .inr ⟨target1, target2, is1, is2, branch, code1, code2, ?_⟩⟩
      by_cases cut : cutOff backChain target1 target2
      · have paired := cuts atom1 atom2 backChain visit k fixup1 fixup2 target1 target2 comes calls cut
        exact paired.mono fun left right among => visit.pair among
      · exact .rel _ _ ⟨_, .call visit comes calls cut⟩

end Visits

/-! ## What is bisimilar is found equal -/

section Decides

variable {α : Type} [DecidableEq α] [Fintype α] {state : Internal α}

/-- The resolver has bound the fixups of an atom. -/
def AllBound (state : Internal α) : Prop :=
  ∀ atom, ∀ fixup ∈ (state.atom atom).fixups, fixup.binding.isBound = true

variable {atom1 atom2 : α}

theorem equal_of_bisimilar (bound : AllBound state) {fuel : Nat} {pair : α × α}
    {backChain : List (α × α)} (bisimilar : (hashedFunctions state).Bisimilar atom1 atom2)
    (enough : (outside (pair :: backChain)).card < fuel) :
    equal state fuel atom1 atom2 (pair :: backChain) = some true := by
  induction fuel generalizing atom1 atom2 pair backChain with
  | zero => exact absurd enough (Nat.not_lt_zero _)
  | succ fuel ih =>
    obtain ⟨⟨contents, fixups⟩, hashes⟩ := bisimilar.alike
    refine (equal_eq_true state).mpr ⟨contents, hashes, ?_⟩
    refine List.forall₂_iff_zip.mpr ⟨fixups.length_eq, fun {fixup1 fixup2} member => ?_⟩
    refine ⟨bound atom1 fixup1 (List.of_mem_zip member).1, ?_⟩
    refine matches_mono state (fun target1 target2 related => .inr ?_)
      ((List.forall₂_iff_zip.mp fixups).2 member)
    by_cases cut : cutOff (pair :: backChain) target1 target2
    · exact .inl cut
    · refine .inr ⟨cut, ih related ?_⟩
      exact Nat.lt_of_lt_of_le (outside_card cut) (Nat.le_of_lt_succ enough)

theorem atomEqual_of_bisimilar (bound : AllBound state)
    (bisimilar : (hashedFunctions state).Bisimilar atom1 atom2) : atomEqual state atom1 atom2 = true :=
  (atomEqual_eq_true state).mpr
    (equal_of_bisimilar bound bisimilar (Nat.lt_succ_of_le (Finset.card_le_univ _)))

/-- **`atom_equal` decides bisimilarity** where its back chain only ends comparisons of pairs. -/
theorem atomEqual_iff (bound : AllBound state) (cuts : CutsPaired state atom1 atom2) :
    atomEqual state atom1 atom2 = true ↔ (hashedFunctions state).Bisimilar atom1 atom2 :=
  ⟨fun found => bisimilar_of_equal cuts ((atomEqual_eq_true state).mp found),
    atomEqual_of_bisimilar bound⟩

theorem atomEqual_hash (found : atomEqual state atom1 atom2 = true) :
    atomHashing state atom1 = atomHashing state atom2 :=
  ((equal_eq_true state).mp ((atomEqual_eq_true state).mp found)).2.1

end Decides

end Cctools.Dedup
