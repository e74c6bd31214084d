/-
# Cctools.Theory.Loop -- do-while loops and when they end

`doWhile body` runs `body` until it says not to go on; the fuel bounds the number
of times.  More fuel does not change a result (`doWhile_mono`), a loop that runs
`n` times and stops has one (`ends_of_run`), and a set of states the body never
leaves and never stops in has none (`not_ends_of_invariant`).
-/
import Mathlib.Order.Nat
import Mathlib.Tactic.Common

namespace Cctools.Theory.Loop

set_option autoImplicit false

section DoWhile

variable {σ : Type}

def doWhile (body : σ → Option (σ × Bool)) : Nat → σ → Option σ
  | 0, _ => none
  | fuel + 1, state =>
    (body state).bind fun next => if next.2 then doWhile body fuel next.1 else some next.1

/-- The loop leaves with some state. -/
def Ends (body : σ → Option (σ × Bool)) (state : σ) : Prop :=
  ∃ fuel result, doWhile body fuel state = some result

variable {body : σ → Option (σ × Bool)}

theorem doWhile_mono {fuel more : Nat} {state result : σ} (enough : fuel ≤ more)
    (ended : doWhile body fuel state = some result) : doWhile body more state = some result := by
  induction fuel generalizing more state with
  | zero => cases ended
  | succ fuel ih =>
    obtain ⟨more, rfl⟩ : ∃ less, more = less + 1 := ⟨more - 1, by omega⟩
    rw [doWhile] at ended ⊢
    cases stepped : body state with
    | none => rw [stepped] at ended; cases ended
    | some next =>
      rw [stepped] at ended
      simp only [Option.bind_some] at ended ⊢
      split at ended
      · rename_i again
        rw [if_pos again]
        exact ih (by omega) ended
      · rename_i stopped
        rw [if_neg stopped]
        exact ended

theorem doWhile_body_mono {more : σ → Option (σ × Bool)} {fuel : Nat} {state result : σ}
    (extends_ : ∀ state next, body state = some next → more state = some next)
    (ended : doWhile body fuel state = some result) : doWhile more fuel state = some result := by
  induction fuel generalizing state with
  | zero => cases ended
  | succ fuel ih =>
    rw [doWhile] at ended ⊢
    cases stepped : body state with
    | none => rw [stepped] at ended; cases ended
    | some next =>
      rw [stepped] at ended
      rw [extends_ state next stepped]
      simp only [Option.bind_some] at ended ⊢
      split at ended
      · rename_i again
        rw [if_pos again]
        exact ih ended
      · rename_i stopped
        rw [if_neg stopped]
        exact ended

/-- Two loops whose bodies do the same up to a view of the states. -/
theorem doWhile_map {τ : Type} {other : τ → Option (τ × Bool)} (view : σ → τ)
    (same : ∀ state, (body state).map (fun next => (view next.1, next.2)) = other (view state))
    (fuel : Nat) (state : σ) :
    (doWhile body fuel state).map view = doWhile other fuel (view state) := by
  induction fuel generalizing state with
  | zero => rfl
  | succ fuel ih =>
    rw [doWhile, doWhile, ← same]
    cases body state with
    | none => rfl
    | some next =>
      simp only [Option.bind_some, Option.map_some]
      split
      · exact ih next.1
      · rfl

/-- A run of which some step says to stop; the loop may stop before. -/
theorem doWhile_of_run {run : Nat → σ} {again : Nat → Bool} {last : Nat}
    (steps : ∀ i ≤ last, body (run i) = some (run (i + 1), again i)) (stops : again last = false) :
    ∃ i ≤ last, doWhile body (last + 1) (run 0) = some (run (i + 1)) ∧ again i = false := by
  induction last generalizing run again with
  | zero =>
    refine ⟨0, le_rfl, ?_, stops⟩
    rw [doWhile, steps 0 le_rfl]
    simp [stops]
  | succ last ih =>
    cases first : again 0 with
    | false =>
      refine ⟨0, by omega, ?_, first⟩
      rw [doWhile, steps 0 (by omega)]
      simp [first]
    | true =>
      obtain ⟨i, inside, ended, stopped⟩ := @ih (fun i => run (i + 1)) (fun i => again (i + 1))
        (fun i inside => steps (i + 1) (by omega)) stops
      refine ⟨i + 1, by omega, ?_, stopped⟩
      rw [doWhile, steps 0 (by omega)]
      simpa [first] using ended

theorem ends_of_run {run : Nat → σ} {again : Nat → Bool} {last : Nat}
    (steps : ∀ i ≤ last, body (run i) = some (run (i + 1), again i)) (stops : again last = false) :
    Ends body (run 0) := by
  obtain ⟨i, -, ended, -⟩ := doWhile_of_run steps stops
  exact ⟨_, _, ended⟩

/-- What the body keeps as long as it goes on holds where it stops. -/
theorem doWhile_invariant {Inv : σ → Prop} {fuel : Nat} {state result : σ}
    (keeps : ∀ state next, Inv state → body state = some (next, true) → Inv next)
    (holds : Inv state) (ended : doWhile body fuel state = some result) :
    ∃ last, Inv last ∧ body last = some (result, false) := by
  induction fuel generalizing state with
  | zero => cases ended
  | succ fuel ih =>
    rw [doWhile] at ended
    cases stepped : body state with
    | none => rw [stepped] at ended; cases ended
    | some next =>
      obtain ⟨next, again⟩ := next
      rw [stepped] at ended
      cases again with
      | true => exact ih (keeps state next holds stepped) ended
      | false =>
        cases ended
        exact ⟨state, holds, stepped⟩

theorem not_ends_of_invariant {Inv : σ → Prop} {state : σ}
    (goesOn : ∀ state, Inv state → ∃ next, body state = some (next, true) ∧ Inv next)
    (holds : Inv state) : ¬ Ends body state := by
  rintro ⟨fuel, result, ended⟩
  induction fuel generalizing state with
  | zero => cases ended
  | succ fuel ih =>
    obtain ⟨next, stepped, still⟩ := goesOn state holds
    rw [doWhile, stepped] at ended
    exact ih still ended

end DoWhile

/-! ## Functions with fuel -/

section Settles

variable {α β : Type}

/-- With enough fuel there is this result. -/
def Settles (run : Nat → Option α) (result : α) : Prop := ∃ bound, ∀ fuel, bound ≤ fuel → run fuel = some result

theorem settles_const (result : α) : Settles (fun _ => some result) result := ⟨0, fun _ _ => rfl⟩

theorem Settles.unique {run : Nat → Option α} {a b : α} (first : Settles run a) (second : Settles run b) : a = b := by
  obtain ⟨bound, settles⟩ := first
  obtain ⟨bound', settles'⟩ := second
  exact Option.some.inj ((settles _ (le_max_left bound bound')).symm.trans (settles' _ (le_max_right bound bound')))

theorem settles_of_succ {run : Nat → Option α} {result : α} (settles : Settles (fun fuel => run (fuel + 1)) result) :
    Settles run result := by
  obtain ⟨bound, enough⟩ := settles
  refine ⟨bound + 1, fun fuel more => ?_⟩
  obtain ⟨less, rfl⟩ : ∃ less, fuel = less + 1 := ⟨fuel - 1, by omega⟩
  exact enough less (by omega)

theorem Settles.bind {run : Nat → Option α} {next : Nat → α → Option β} {middle : α} {result : β}
    (first : Settles run middle) (second : Settles (fun fuel => next fuel middle) result) :
    Settles (fun fuel => (run fuel).bind (next fuel)) result := by
  obtain ⟨bound, enough⟩ := first
  obtain ⟨bound', enough'⟩ := second
  refine ⟨max bound bound', fun fuel more => ?_⟩
  have done : run fuel = some middle := enough fuel (by omega)
  simpa [done] using enough' fuel (by omega)

end Settles

end Cctools.Theory.Loop
