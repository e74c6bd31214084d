/-
# Cctools.Theory.Walk -- loops that visit one thing after the other

A step says what is visited in a state and where the walk goes on, or that it is over.  `Visits`
is the list of all that a walk visits, if it ends.
-/
import Mathlib.Tactic.Common

namespace Cctools.Theory

set_option autoImplicit false

variable {σ β : Type} (step : σ → Option (β × σ))

/-- **A walk that ends**, with all that it visits. -/
inductive Visits : σ → List β → Prop where
  | nil {state : σ} : step state = none → Visits state []
  | cons {state next : σ} {visit : β} {rest : List β} : step state = some (visit, next) → Visits next rest →
      Visits state (visit :: rest)

variable {step}

theorem visits_of_none {state : σ} {list : List β} (ended : step state = none) :
    Visits step state list ↔ list = [] := by
  constructor
  · intro visits
    cases visits with
    | nil => rfl
    | cons here _ =>
      rw [ended] at here
      cases here
  · rintro rfl
    exact .nil ended

theorem visits_of_some {state next : σ} {visit : β} {list : List β} (here : step state = some (visit, next)) :
    Visits step state list ↔ ∃ rest, list = visit :: rest ∧ Visits step next rest := by
  constructor
  · intro visits
    cases visits with
    | nil ended =>
      rw [here] at ended
      cases ended
    | cons here' later =>
      rw [here] at here'
      cases here'
      exact ⟨_, rfl, later⟩
  · rintro ⟨rest, rfl, later⟩
    exact .cons here later

theorem Visits.unique {state : σ} {list other : List β} (first : Visits step state list)
    (second : Visits step state other) : list = other := by
  induction first generalizing other with
  | nil ended => exact ((visits_of_none ended).mp second).symm
  | cons here _ ih =>
    obtain ⟨rest, rfl, later⟩ := (visits_of_some here).mp second
    rw [ih later]

end Cctools.Theory
