/-
# Cctools.Theory.Bisimilarity -- bisimulations, and up to equivalence

A `Behaviour` says when two states look alike, given how their successors are
related.  States are bisimilar when some relation that does not say more than it
keeps relates them.

The successors need only be related by the equivalence a relation generates
(`bisimilar_of_upTo`), which is what a search that assumes the pairs it is in the
middle of comes to know.
-/
import Mathlib.Logic.Relation

namespace Cctools.Theory

set_option autoImplicit false

open Relation

/-- What two states have in common when their successors are related by `R`. -/
structure Behaviour (α : Type) where
  alike : (α → α → Prop) → α → α → Prop
  mono : ∀ {R S : α → α → Prop} {a b : α}, (∀ x y, R x y → S x y) → alike R a b → alike S a b
  refl : ∀ {R : α → α → Prop} (a : α), (∀ x, R x x) → alike R a a
  symm : ∀ {R : α → α → Prop} {a b : α}, alike R a b → alike (flip R) b a
  trans : ∀ {R S : α → α → Prop} {a b c : α}, (∀ x, R x x) → (∀ x, S x x) →
    alike R a b → alike S b c → alike (Comp R S) a c

namespace Behaviour

variable {α : Type} (behaviour : Behaviour α)

def Bisimulation (R : α → α → Prop) : Prop := ∀ a b, R a b → behaviour.alike R a b

def Bisimilar (a b : α) : Prop := ∃ R, behaviour.Bisimulation R ∧ R a b

variable {behaviour}

theorem Bisimilar.alike {a b : α} (bisimilar : behaviour.Bisimilar a b) :
    behaviour.alike behaviour.Bisimilar a b := by
  obtain ⟨R, bisimulation, related⟩ := bisimilar
  exact behaviour.mono (fun x y pair => ⟨R, bisimulation, pair⟩) (bisimulation a b related)

theorem Bisimilar.refl (a : α) : behaviour.Bisimilar a a := by
  refine ⟨Eq, fun x y same => ?_, rfl⟩
  subst same
  exact behaviour.refl x fun _ => rfl

theorem Bisimilar.symm {a b : α} (bisimilar : behaviour.Bisimilar a b) : behaviour.Bisimilar b a := by
  obtain ⟨R, bisimulation, related⟩ := bisimilar
  exact ⟨flip R, fun x y pair => behaviour.symm (bisimulation y x pair), related⟩

theorem Bisimilar.trans {a b c : α} (first : behaviour.Bisimilar a b)
    (second : behaviour.Bisimilar b c) : behaviour.Bisimilar a c := by
  refine ⟨Comp behaviour.Bisimilar behaviour.Bisimilar, ?_, b, first, second⟩
  rintro x z ⟨y, xy, yz⟩
  exact behaviour.trans .refl .refl xy.alike yz.alike

/-- A relation whose pairs are alike up to its equivalence generates a bisimulation. -/
theorem eqvGen_bisimulation {R : α → α → Prop}
    (upTo : ∀ a b, R a b → behaviour.alike (EqvGen R) a b) :
    behaviour.Bisimulation (EqvGen R) := by
  intro a b generated
  induction generated with
  | rel x y pair => exact upTo x y pair
  | refl x => exact behaviour.refl x .refl
  | symm x y _ ih => exact behaviour.mono (fun _ _ pair => .symm _ _ pair) (behaviour.symm ih)
  | trans x y z _ _ first second =>
    refine behaviour.mono ?_ (behaviour.trans .refl .refl first second)
    rintro a c ⟨b, ab, bc⟩
    exact .trans a b c ab bc

/-- **Bisimulation up to equivalence.** -/
theorem bisimilar_of_upTo {R : α → α → Prop} (upTo : ∀ a b, R a b → behaviour.alike (EqvGen R) a b)
    {a b : α} (related : R a b) : behaviour.Bisimilar a b :=
  ⟨EqvGen R, eqvGen_bisimulation upTo, .rel a b related⟩

/-- A behaviour that asks for more tells more states apart. -/
theorem Bisimilar.weaken {other : Behaviour α}
    (weaker : ∀ R a b, behaviour.alike R a b → other.alike R a b) {a b : α}
    (bisimilar : behaviour.Bisimilar a b) : other.Bisimilar a b := by
  obtain ⟨R, bisimulation, related⟩ := bisimilar
  exact ⟨R, fun x y pair => weaker R x y (bisimulation x y pair), related⟩

end Behaviour

end Cctools.Theory
