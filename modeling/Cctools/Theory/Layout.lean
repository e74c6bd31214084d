/-
# Cctools.Theory.Layout -- objects that stand behind each other, of sizes that depend on where they stand

A sweep goes over the objects and puts each behind the one before it, with the sizes that
the offsets give at that moment: new ones for the objects that were placed already, old ones
for the rest.  When no size shrinks as offsets grow, the sweeps from zero only move objects
up, never past offsets that a sweep does not raise, and so come to rest.

* `sweep_eq_iff`: the offsets that a sweep leaves alone are the consistent ones.
* `sweep_le`: a sweep does not raise offsets that leave room for every object.
* `iterate_sweep_le`: such offsets bound every sweep.
* `exists_fixed`: and some sweep changes nothing.
-/
import Mathlib.Algebra.BigOperators.Group.Finset.Basic
import Mathlib.Algebra.Order.BigOperators.Group.Finset
import Mathlib.Order.Iterate
import Mathlib.Tactic.Common

namespace Cctools.Theory.Layout

set_option autoImplicit false

variable (size : Nat → (Nat → Nat) → Nat)

/-- `left` objects from `k` on, the first of them to be put at `cur`. -/
def sweepFrom : Nat → Nat → Nat → (Nat → Nat) → (Nat → Nat)
  | 0, _, _, offset => offset
  | left + 1, k, cur, offset => sweepFrom left (k + 1) (cur + size k offset) (Function.update offset k cur)

def sweep (n : Nat) (offset : Nat → Nat) : Nat → Nat := sweepFrom size n 0 0 offset

/-- Where the objects before `k` end. -/
def place (offset : Nat → Nat) : Nat → Nat
  | 0 => 0
  | k + 1 => place offset k + size k offset

def Consistent (n : Nat) (offset : Nat → Nat) : Prop := ∀ k < n, offset k = place size offset k

variable {size}

/-! ## One sweep -/

theorem sweepFrom_outside {left k cur : Nat} {offset : Nat → Nat} {j : Nat} (outside : j < k ∨ k + left ≤ j) :
    sweepFrom size left k cur offset j = offset j := by
  induction left generalizing k cur offset with
  | zero => rfl
  | succ left ih =>
    rw [sweepFrom, ih (by omega), Function.update_of_ne (by omega)]

theorem sweepFrom_first {left k cur : Nat} {offset : Nat → Nat} :
    sweepFrom size (left + 1) k cur offset k = cur := by
  rw [sweepFrom, sweepFrom_outside (.inl (Nat.lt_succ_self k)), Function.update_self]

/-- A sweep that starts where the objects before `k` end leaves alone what stands in its place. -/
theorem sweepFrom_eq_iff {left k : Nat} {offset : Nat → Nat} :
    sweepFrom size left k (place size offset k) offset = offset ↔
      ∀ j, k ≤ j → j < k + left → offset j = place size offset j := by
  induction left generalizing k with
  | zero =>
    refine iff_of_true rfl fun j from_k before => ?_
    omega
  | succ left ih =>
    have step : (∀ j, k ≤ j → j < k + (left + 1) → offset j = place size offset j) ↔
        offset k = place size offset k ∧ ∀ j, k + 1 ≤ j → j < k + 1 + left → offset j = place size offset j := by
      constructor
      · intro placed
        exact ⟨placed k (le_refl k) (by omega), fun j from_k before => placed j (by omega) (by omega)⟩
      · rintro ⟨here, later⟩ j from_k before
        rcases Nat.eq_or_lt_of_le from_k with rfl | behind
        · exact here
        · exact later j behind (by omega)
    rw [step]
    by_cases here : offset k = place size offset k
    · have same : Function.update offset k (place size offset k) = offset := by
        rw [← here, Function.update_eq_self]
      rw [sweepFrom, same]
      exact ih.trans ⟨fun later => ⟨here, later⟩, And.right⟩
    · refine iff_of_false (fun same => here ?_) fun placed => here placed.1
      rw [← @sweepFrom_first size left k (place size offset k) offset, same]

theorem sweep_eq_iff {n : Nat} {offset : Nat → Nat} : sweep size n offset = offset ↔ Consistent size n offset := by
  have swept := @sweepFrom_eq_iff size n 0 offset
  simp only [Nat.zero_le, true_imp_iff, Nat.zero_add] at swept
  exact swept

theorem sweepFrom_mono (grows : ∀ k, Monotone (size k)) {left k cur cur' : Nat} {offset offset' : Nat → Nat}
    (later : cur ≤ cur') (above : offset ≤ offset') :
    sweepFrom size left k cur offset ≤ sweepFrom size left k cur' offset' := by
  induction left generalizing k cur cur' offset offset' with
  | zero => exact above
  | succ left ih =>
    exact ih (Nat.add_le_add later (grows k above)) (update_le_update_iff.mpr ⟨later, fun j _ => above j⟩)

theorem sweep_mono (grows : ∀ k, Monotone (size k)) (n : Nat) : Monotone (sweep size n) :=
  fun _ _ above => sweepFrom_mono grows (le_refl 0) above

/-! ## All sweeps -/

theorem iterate_sweep_mono (grows : ∀ k, Monotone (size k)) (n : Nat) :
    Monotone fun m => (sweep size n)^[m] fun _ => 0 :=
  (sweep_mono grows n).monotone_iterate_of_le_map fun _ => Nat.zero_le _

/-- Offsets with room for every object bound a sweep of them. -/
theorem sweepFrom_le (grows : ∀ k, Monotone (size k)) {n : Nat} {bound : Nat → Nat}
    (room : ∀ k < n, bound k + size k bound ≤ bound (k + 1)) {left k cur : Nat} {offset : Nat → Nat}
    (inside : k + left ≤ n) (here : cur ≤ bound k) (below : offset ≤ bound) :
    sweepFrom size left k cur offset ≤ bound := by
  induction left generalizing k cur offset with
  | zero => exact below
  | succ left ih =>
    have fits := room k (by omega)
    have smaller := grows k below
    exact ih (by omega) (by omega) (update_le_iff.mpr ⟨here, fun j _ => below j⟩)

theorem sweep_le (grows : ∀ k, Monotone (size k)) {n : Nat} {bound : Nat → Nat}
    (room : ∀ k < n, bound k + size k bound ≤ bound (k + 1)) : sweep size n bound ≤ bound :=
  sweepFrom_le grows room (by omega) (Nat.zero_le _) (le_refl bound)

theorem iterate_sweep_le (grows : ∀ k, Monotone (size k)) {n : Nat} {layout : Nat → Nat}
    (rests : sweep size n layout ≤ layout) (m : Nat) : (sweep size n)^[m] (fun _ => 0) ≤ layout := by
  induction m with
  | zero => exact fun _ => Nat.zero_le _
  | succ m ih =>
    rw [Function.iterate_succ_apply']
    exact le_trans (sweep_mono grows n ih) rests

theorem iterate_sweep_outside {n : Nat} (m : Nat) {j : Nat} (outside : n ≤ j) :
    (sweep size n)^[m] (fun _ => 0) j = 0 := by
  induction m with
  | zero => rfl
  | succ m ih => rw [Function.iterate_succ_apply', sweep, sweepFrom_outside (.inr (by omega)), ih]

/-- **The sweeps come to rest.** -/
theorem exists_fixed (grows : ∀ k, Monotone (size k)) {n : Nat} {layout : Nat → Nat}
    (rests : sweep size n layout ≤ layout) :
    ∃ m, (sweep size n)^[m + 1] (fun _ => 0) = (sweep size n)^[m] fun _ => 0 := by
  by_contra moving
  push Not at moving
  -- each sweep adds at least one to the sum of the offsets
  have sum : ∀ m, m ≤ ∑ k ∈ Finset.range n, (sweep size n)^[m] (fun _ => 0) k := by
    intro m
    induction m with
    | zero => exact Nat.zero_le _
    | succ m ih =>
      have above : (sweep size n)^[m] (fun _ => 0) ≤ (sweep size n)^[m + 1] fun _ => 0 :=
        iterate_sweep_mono grows n (Nat.le_succ m)
      obtain ⟨j, differs⟩ := Function.ne_iff.mp (moving m)
      have inside : j < n := by
        by_contra outside
        rw [iterate_sweep_outside _ (by omega), iterate_sweep_outside _ (by omega)] at differs
        exact differs rfl
      have more : ∑ k ∈ Finset.range n, (sweep size n)^[m] (fun _ => 0) k <
          ∑ k ∈ Finset.range n, (sweep size n)^[m + 1] (fun _ => 0) k :=
        Finset.sum_lt_sum (fun k _ => above k)
          ⟨j, Finset.mem_range.mpr inside, lt_of_le_of_ne (above j) (Ne.symm differs)⟩
      omega
  have bound : ∀ m, ∑ k ∈ Finset.range n, (sweep size n)^[m] (fun _ => 0) k ≤ ∑ k ∈ Finset.range n, layout k :=
    fun m => Finset.sum_le_sum fun k _ => iterate_sweep_le grows rests m k
  have first := sum (∑ k ∈ Finset.range n, layout k + 1)
  have last := bound (∑ k ∈ Finset.range n, layout k + 1)
  omega

end Cctools.Theory.Layout
