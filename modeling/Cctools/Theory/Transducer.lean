/-
# Cctools.Theory.Transducer -- machines that emit while they step

A step maps a state and an instruction to the next state and what it emits.
`run` chains steps.  Two programs are the `Same` for a machine when every state
runs them alike; a peephole pass is right when its output is the `Same` as its
input, and the laws below let that be shown one window at a time.
-/
import Mathlib.Data.List.Forall2

namespace Cctools.Theory

set_option autoImplicit false

/-! ## Successful results -/

theorem ok_of_map {ε α β : Type} {f : α → β} {result : Except ε α} {value : β}
    (succeeds : result.map f = .ok value) : ∃ inner, result = .ok inner ∧ f inner = value := by
  cases result with
  | error e => cases succeeds
  | ok inner => exact ⟨inner, rfl, Except.ok.inj succeeds⟩

theorem ok_of_bind {ε α β : Type} {f : α → Except ε β} {result : Except ε α} {value : β}
    (succeeds : result.bind f = .ok value) : ∃ inner, result = .ok inner ∧ f inner = .ok value := by
  cases result with
  | error e => cases succeeds
  | ok inner => exact ⟨inner, rfl, succeeds⟩

theorem forall₂_of_mapM {ε α β : Type} {f : α → Except ε β} {inputs : List α} {values : List β}
    (succeeds : inputs.mapM f = .ok values) : List.Forall₂ (fun x y => f x = .ok y) inputs values := by
  induction inputs generalizing values with
  | nil =>
    obtain rfl := Except.ok.inj succeeds
    exact .nil
  | cons first rest ih =>
    rw [List.mapM_cons] at succeeds
    obtain ⟨value, here, more⟩ := ok_of_bind succeeds
    obtain ⟨others, there, same⟩ := ok_of_bind more
    obtain rfl := Except.ok.inj same
    exact .cons here (ih there)

/-- There is one value and one failure, and a condition for which of them it is. -/
def Settles {ε α : Type} (result : Except ε α) (good : Prop) (value : α) (failure : ε) : Prop :=
  match result with
  | .ok output => good ∧ output = value
  | .error error => error = failure ∧ ¬ good

theorem settles_mapM {ε α β : Type} {f : α → Except ε β} {good : α → Prop} {value : α → β} {failure : ε}
    (each : ∀ input, Settles (f input) (good input) (value input) failure) (inputs : List α) :
    Settles (inputs.mapM f) (∀ input ∈ inputs, good input) (inputs.map value) failure := by
  induction inputs with
  | nil => exact ⟨by simp, rfl⟩
  | cons first rest ih =>
    have here := each first
    rw [List.mapM_cons]
    cases done : f first with
    | error error =>
      rw [done] at here
      exact ⟨here.1, fun all => here.2 (all first List.mem_cons_self)⟩
    | ok output =>
      rw [done] at here
      cases later : rest.mapM f with
      | error error =>
        rw [later] at ih
        exact ⟨ih.1, fun all => ih.2 fun input member => all input (List.mem_cons_of_mem _ member)⟩
      | ok outputs =>
        rw [later] at ih
        obtain ⟨good, rfl⟩ := here
        obtain ⟨all, rfl⟩ := ih
        exact ⟨List.forall_mem_cons.mpr ⟨good, all⟩, rfl⟩

theorem forall₂_flatMap {α β γ : Type} {related : β → γ → Prop} {f : α → List β} {inputs : List α}
    {values : List (List γ)}
    (each : List.Forall₂ (fun x ys => List.Forall₂ related (f x) ys) inputs values) :
    List.Forall₂ related (inputs.flatMap f) values.flatten := by
  induction each with
  | nil => exact .nil
  | cons here _ ih =>
    rw [List.flatMap_cons, List.flatten_cons]
    exact List.rel_append here ih

theorem forall₂_trans {α β γ : Type} {R : α → β → Prop} {S : β → γ → Prop} {T : α → γ → Prop}
    {xs : List α} {ys : List β} {zs : List γ} (both : ∀ x y z, R x y → S y z → T x z)
    (left : List.Forall₂ R xs ys) (right : List.Forall₂ S ys zs) : List.Forall₂ T xs zs := by
  induction left generalizing zs with
  | nil => cases right; exact .nil
  | cons here _ ih =>
    cases right with
    | cons there rest => exact .cons (both _ _ _ here there) (ih rest)

theorem forall₂_getElem? {α β : Type} {related : α → β → Prop} {xs : List α} {ys : List β}
    (each : List.Forall₂ related xs ys) {i : Nat} {x : α} (found : xs[i]? = some x) :
    ∃ y, ys[i]? = some y ∧ related x y := by
  induction each generalizing i with
  | nil => simp at found
  | cons here _ ih =>
    cases i with
    | zero =>
      simp only [List.getElem?_cons_zero, Option.some.injEq] at found
      subst found
      exact ⟨_, rfl, here⟩
    | succ i => exact ih found

/-! ## Machines -/

namespace Transducer

section Machine

variable {σ ι ω : Type} (step : σ → ι → σ × List ω)

def run : σ → List ι → σ × List ω
  | state, [] => (state, [])
  | state, instr :: rest =>
    let one := step state instr
    let more := run one.1 rest
    (more.1, one.2 ++ more.2)

@[simp] theorem run_nil (state : σ) : run step state [] = (state, []) := rfl

theorem run_cons (state : σ) (instr : ι) (rest : List ι) :
    run step state (instr :: rest) =
      ((run step (step state instr).1 rest).1,
        (step state instr).2 ++ (run step (step state instr).1 rest).2) := rfl

theorem run_append (state : σ) (first second : List ι) :
    run step state (first ++ second) =
      ((run step (run step state first).1 second).1,
        (run step state first).2 ++ (run step (run step state first).1 second).2) := by
  induction first generalizing state with
  | nil => simp
  | cons instr rest ih =>
    rw [List.cons_append, run_cons, run_cons, ih]
    simp

theorem run_append_of_silent {state next : σ} {first : List ι} (silent : run step state first = (next, []))
    (second : List ι) : run step state (first ++ second) = run step next second := by
  rw [run_append, silent]
  rfl

/-- A translation of states, instructions and output that commutes with one step
commutes with a run. -/
theorem run_map {σ' ι' ω' : Type} {step' : σ' → ι' → σ' × List ω'} {onState : σ → σ'}
    {onInstr : ι → ι'} {onOutput : ω → ω'} {program : List ι}
    (commutes : ∀ instr ∈ program, ∀ state, step' (onState state) (onInstr instr) =
      (onState (step state instr).1, (step state instr).2.map onOutput)) (state : σ) :
    run step' (onState state) (program.map onInstr) =
      (onState (run step state program).1, (run step state program).2.map onOutput) := by
  induction program generalizing state with
  | nil => rfl
  | cons instr rest ih =>
    have tail := ih fun other member => commutes other (List.mem_cons_of_mem _ member)
    rw [List.map_cons, run_cons, run_cons, commutes instr List.mem_cons_self, tail]
    simp

/-- Every state runs the two programs alike. -/
def Same (left right : List ι) : Prop := ∀ state, run step state left = run step state right

namespace Same

variable {step}

theorem refl (program : List ι) : Same step program program := fun _ => rfl

theorem trans {a b c : List ι} (first : Same step a b) (second : Same step b c) :
    Same step a c := fun state => (first state).trans (second state)

theorem append {a b c d : List ι} (first : Same step a b) (second : Same step c d) :
    Same step (a ++ c) (b ++ d) := by
  intro state
  rw [run_append, run_append, first state, second]

theorem cons {instr : ι} {a b : List ι} (rest : Same step a b) :
    Same step (instr :: a) (instr :: b) := by
  intro state
  rw [run_cons, run_cons, rest]

theorem map {f : ι → ι} {program : List ι}
    (alike : ∀ instr ∈ program, ∀ state, step state (f instr) = step state instr) :
    Same step (program.map f) program := by
  induction program with
  | nil => exact refl _
  | cons instr rest ih =>
    intro state
    have tail := ih fun other member => alike other (List.mem_cons_of_mem _ member)
    rw [List.map_cons, run_cons, run_cons, alike instr List.mem_cons_self, tail]

end Same

end Machine

end Transducer

end Cctools.Theory
