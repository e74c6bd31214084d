/-
# Cctools.Theory.Descent -- procedures that call themselves, one call after the other

A visit has a plan: the visits it makes in turn, and the failure it then ends with, if there is
one.  The first failure ends everything.  `Returns` is a visit that ends without one, `Comes`
leads to the visits that are made: those whose earlier siblings all return.

* `returns_of_descend`, `descend_of_returns`: the run ends well exactly at a visit that returns.
* `endsWithout_iff`: where finitely many visits can come up, the run ends, and not in a failure
  that is bad, exactly when no visit that comes up leads back to itself or ends in such a failure.
-/
import Mathlib.Data.Set.Finite.Basic
import Mathlib.Order.WellFounded
import Mathlib.Logic.Relation

namespace Cctools.Theory

set_option autoImplicit false

open Relation

structure Plan (ι ε : Type) where
  calls : List ι := []
  failure : Option ε := none

section Descent

variable {ι ε : Type}

/-- The calls in order, up to the first that fails. -/
def runCalls (descend : ι → Option (Except ε Unit)) (failure : Option ε) : List ι → Option (Except ε Unit)
  | [] =>
    match failure with
    | none => some (.ok ())
    | some error => some (.error error)
  | callee :: rest =>
    match descend callee with
    | some (.ok ()) => runCalls descend failure rest
    | other => other

variable (plan : ι → Plan ι ε)

/-- The fuel bounds the depth. -/
def descend : Nat → ι → Option (Except ε Unit)
  | 0, _ => none
  | fuel + 1, visit => runCalls (descend fuel) (plan visit).failure (plan visit).calls

inductive Returns : ι → Prop where
  | intro {visit : ι} : (plan visit).failure = none → (∀ callee ∈ (plan visit).calls, Returns callee) → Returns visit

def Comes (visit callee : ι) : Prop :=
  ∃ before after, (plan visit).calls = before ++ callee :: after ∧ ∀ earlier ∈ before, Returns plan earlier

variable {plan}

/-! ## More fuel -/

variable {result : Except ε Unit}

theorem runCalls_mono {short long : ι → Option (Except ε Unit)} {failure : Option ε}
    (more : ∀ callee result, short callee = some result → long callee = some result) {calls : List ι}
    (ran : runCalls short failure calls = some result) : runCalls long failure calls = some result := by
  induction calls with
  | nil => exact ran
  | cons callee rest ih =>
    rw [runCalls] at ran ⊢
    cases called : short callee with
    | none => simp [called] at ran
    | some outcome =>
      rw [more _ _ called]
      rw [called] at ran
      cases outcome with
      | ok => exact ih ran
      | error => exact ran

variable {visit : ι}

theorem descend_succ {fuel : Nat} (ran : descend plan fuel visit = some result) :
    descend plan (fuel + 1) visit = some result := by
  induction fuel generalizing visit result with
  | zero => cases ran
  | succ fuel ih => exact runCalls_mono (fun _ _ => ih) ran

theorem descend_mono {short long : Nat} (le : short ≤ long)
    (ran : descend plan short visit = some result) : descend plan long visit = some result := by
  induction le with
  | refl => exact ran
  | step _ ih => exact descend_succ ih

/-! ## Ending well -/

theorem runCalls_append {descend : ι → Option (Except ε Unit)} {failure : Option ε} {before : List ι}
    (well : ∀ callee ∈ before, descend callee = some (.ok ())) (after : List ι) :
    runCalls descend failure (before ++ after) = runCalls descend failure after := by
  induction before with
  | nil => rfl
  | cons callee before ih =>
    rw [List.cons_append, runCalls, well callee (by simp)]
    exact ih fun earlier member => well earlier (by simp [member])

theorem runCalls_ok_iff {descend : ι → Option (Except ε Unit)} {failure : Option ε} {calls : List ι} :
    runCalls descend failure calls = some (.ok ()) ↔
      failure = none ∧ ∀ callee ∈ calls, descend callee = some (.ok ()) := by
  induction calls with
  | nil => cases failure <;> simp [runCalls]
  | cons callee rest ih =>
    rw [runCalls, List.forall_mem_cons]
    cases called : descend callee with
    | none => simp
    | some outcome => cases outcome <;> simp [ih]

theorem returns_of_descend {fuel : Nat} (ran : descend plan fuel visit = some (.ok ())) :
    Returns plan visit := by
  induction fuel generalizing visit with
  | zero => cases ran
  | succ fuel ih =>
    obtain ⟨clean, each⟩ := runCalls_ok_iff.mp ran
    exact .intro clean fun callee member => ih (each callee member)

theorem shared_fuel {calls : List ι} (each : ∀ callee ∈ calls, ∃ fuel, descend plan fuel callee = some result) :
    ∃ fuel, ∀ callee ∈ calls, descend plan fuel callee = some result := by
  induction calls with
  | nil => exact ⟨0, by simp⟩
  | cons callee rest ih =>
    obtain ⟨here, ran⟩ := each callee (by simp)
    obtain ⟨later, all⟩ := ih fun other member => each other (by simp [member])
    refine ⟨max here later, List.forall_mem_cons.mpr ⟨descend_mono (le_max_left _ _) ran, fun other member => ?_⟩⟩
    exact descend_mono (le_max_right _ _) (all other member)

theorem descend_of_returns (returns : Returns plan visit) :
    ∃ fuel, descend plan fuel visit = some (.ok ()) := by
  induction returns with
  | intro clean _ ih =>
    obtain ⟨fuel, all⟩ := shared_fuel ih
    exact ⟨fuel + 1, runCalls_ok_iff.mpr ⟨clean, all⟩⟩

/-! ## Ending at all -/

/-- Calls that were made, and none of them failed, all ended well. -/
theorem runCalls_before {descend : ι → Option (Except ε Unit)} {failure : Option ε}
    {before after : List ι} (ran : runCalls descend failure (before ++ after) = some result)
    (never : ∀ callee ∈ before, ∀ error, descend callee ≠ some (.error error)) :
    ∀ callee ∈ before, descend callee = some (.ok ()) := by
  induction before with
  | nil => simp
  | cons callee before ih =>
    rw [List.cons_append, runCalls] at ran
    rw [List.forall_mem_cons] at never ⊢
    cases called : descend callee with
    | none => simp [called] at ran
    | some outcome =>
      cases outcome with
      | error error => exact absurd called (never.1 error)
      | ok =>
        rw [called] at ran
        exact ⟨rfl, ih ran never.2⟩

theorem Returns.not_error (returns : Returns plan visit) (fuel : Nat) (error : ε) :
    descend plan fuel visit ≠ some (.error error) := by
  intro failed
  obtain ⟨enough, well⟩ := descend_of_returns returns
  have failed := descend_mono (le_max_left fuel enough) failed
  rw [descend_mono (le_max_right fuel enough) well] at failed
  cases failed

/-- A run that ends has ended every visit that it made, and well or as it ends itself. -/
theorem descend_of_comes {fuel : Nat} {visit callee : ι}
    (ran : descend plan (fuel + 1) visit = some result) (comes : Comes plan visit callee) :
    descend plan fuel callee = some (.ok ()) ∨ descend plan fuel callee = some result := by
  obtain ⟨before, after, calls, returns⟩ := comes
  rw [descend, calls] at ran
  have made := runCalls_before ran fun earlier member => (returns earlier member).not_error fuel
  rw [runCalls_append made, runCalls] at ran
  cases called : descend plan fuel callee with
  | none => simp [called] at ran
  | some outcome =>
    rw [called] at ran
    cases outcome with
    | ok => exact .inl rfl
    | error => exact .inr ran

theorem not_cyclic_of_descend {fuel : Nat}
    (ran : descend plan fuel visit = some result) : ¬ TransGen (Comes plan) visit visit := by
  induction fuel generalizing visit result with
  | zero => cases ran
  | succ fuel ih =>
    intro cycle
    obtain ⟨callee, comes, back⟩ := TransGen.head'_iff.mp cycle
    have inner : TransGen (Comes plan) callee callee := .tail' back comes
    rcases descend_of_comes ran comes with well | same
    · exact ih well inner
    · exact ih same inner

/-- The run of a visit ends, and not in a failure that is bad. -/
def EndsWithout (plan : ι → Plan ι ε) (bad : ε → Prop) (visit : ι) : Prop :=
  ∃ fuel result, descend plan fuel visit = some result ∧ ∀ error, result = .error error → ¬ bad error

variable {bad : ε → Prop}

theorem EndsWithout.comes {visit callee : ι} (ends : EndsWithout plan bad visit) (comes : Comes plan visit callee) :
    EndsWithout plan bad callee := by
  obtain ⟨fuel, result, ran, good⟩ := ends
  cases fuel with
  | zero => cases ran
  | succ fuel =>
    rcases descend_of_comes ran comes with well | same
    · exact ⟨fuel, .ok (), well, fun _ impossible => by cases impossible⟩
    · exact ⟨fuel, result, same, good⟩

/-- A visit whose calls all return ends in its own failure. -/
theorem EndsWithout.failure (ends : EndsWithout plan bad visit) {error : ε}
    (fails : (plan visit).failure = some error) (returns : ∀ callee ∈ (plan visit).calls, Returns plan callee) :
    ¬ bad error := by
  obtain ⟨fuel, result, ran, good⟩ := ends
  cases fuel with
  | zero => cases ran
  | succ fuel =>
    rw [descend, ← List.append_nil (plan visit).calls] at ran
    have made := runCalls_before ran fun callee member => (returns callee member).not_error fuel
    rw [runCalls_append made, fails, runCalls] at ran
    exact good error (Option.some.inj ran).symm

/-- **One visit ends** when the visits it makes end and its own failure is not bad. -/
theorem endsWithout_of_calls (calls : ∀ callee, Comes plan visit callee → EndsWithout plan bad callee)
    (failure : ∀ error, (plan visit).failure = some error → (∀ callee ∈ (plan visit).calls, Returns plan callee) →
      ¬ bad error) : EndsWithout plan bad visit := by
  suffices rest : ∀ after before, (plan visit).calls = before ++ after → (∀ callee ∈ before, Returns plan callee) →
      ∃ fuel result, runCalls (descend plan fuel) (plan visit).failure after = some result ∧
        ∀ error, result = .error error → ¬ bad error by
    obtain ⟨fuel, result, ran, good⟩ := rest _ [] rfl (by simp)
    exact ⟨fuel + 1, result, ran, good⟩
  intro after
  induction after with
  | nil =>
    intro before all returns
    rw [List.append_nil] at all
    cases fails : (plan visit).failure with
    | none => exact ⟨0, .ok (), rfl, fun _ impossible => by cases impossible⟩
    | some error =>
      refine ⟨0, .error error, rfl, fun other same => ?_⟩
      obtain rfl := Except.error.inj same
      exact failure error fails (all ▸ returns)
  | cons callee after ih =>
    intro before all returns
    obtain ⟨here, outcome, called, good⟩ := calls callee ⟨before, after, all, returns⟩
    cases outcome with
    | error error => exact ⟨here, .error error, by rw [runCalls, called], good⟩
    | ok =>
      have returned := returns_of_descend called
      obtain ⟨later, result, ran, well⟩ := ih (before ++ [callee]) (by rw [all]; simp) fun earlier member => by
        rcases List.mem_append.mp member with old | new
        · exact returns earlier old
        · exact List.mem_singleton.mp new ▸ returned
      refine ⟨max here later, result, ?_, well⟩
      rw [runCalls, descend_mono (le_max_left _ _) called]
      exact runCalls_mono (fun _ _ => descend_mono (le_max_right _ _)) ran

/-- Where finitely many visits can come up and none leads back to itself, the visits that a visit
makes can be taken care of before it. -/
theorem comes_induction {start : ι} (finite : {visit | ReflTransGen (Comes plan) start visit}.Finite)
    (acyclic : ∀ visit, ReflTransGen (Comes plan) start visit → ¬ TransGen (Comes plan) visit visit)
    {P : ι → Prop} (step : ∀ visit, ReflTransGen (Comes plan) start visit →
      (∀ callee, Comes plan visit callee → P callee) → P visit) : P start := by
  let Reached := {visit // ReflTransGen (Comes plan) start visit}
  have : Finite Reached := finite.to_subtype
  let below : Reached → Reached → Prop := fun callee visit => TransGen (Comes plan) visit.1 callee.1
  have : IsTrans Reached below := ⟨fun _ _ _ first second => second.trans first⟩
  have : Std.Irrefl below := ⟨fun visit cycle => acyclic visit.1 visit.2 cycle⟩
  have wellFounded : WellFounded below := Finite.wellFounded_of_trans_of_irrefl below
  refine wellFounded.induction (C := fun visit => P visit.1) ⟨start, .refl⟩ fun visit ih => ?_
  exact step visit.1 visit.2 fun callee comes => ih ⟨callee, visit.2.tail comes⟩ (.single comes)

/-- **Which runs end.** -/
theorem endsWithout_iff {start : ι} (finite : {visit | ReflTransGen (Comes plan) start visit}.Finite) :
    EndsWithout plan bad start ↔
      (∀ visit, ReflTransGen (Comes plan) start visit → ¬ TransGen (Comes plan) visit visit) ∧
      ∀ visit error, ReflTransGen (Comes plan) start visit → (plan visit).failure = some error →
        (∀ callee ∈ (plan visit).calls, Returns plan callee) → ¬ bad error := by
  constructor
  · intro ends
    have every : ∀ visit, ReflTransGen (Comes plan) start visit → EndsWithout plan bad visit := by
      intro visit reached
      induction reached with
      | refl => exact ends
      | tail _ comes ih => exact ih.comes comes
    constructor
    · intro visit reached
      obtain ⟨fuel, result, ran, _⟩ := every visit reached
      exact not_cyclic_of_descend ran
    · intro visit error reached
      exact (every visit reached).failure
  · rintro ⟨acyclic, failures⟩
    refine comes_induction finite acyclic fun visit reached calls => ?_
    exact endsWithout_of_calls calls fun error fails => failures visit error reached fails

end Descent

end Cctools.Theory
