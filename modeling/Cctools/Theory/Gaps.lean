/-
# Cctools.Theory.Gaps -- what a list of intervals leaves

Half-open intervals, by their ends.  A walk over them, from a start, meets one after the other if each
begins where the one before it ended or behind (`Chain`); what lies between them is `gaps`.

* `chain_iff`: a sorted list of intervals is a chain exactly when no two of them overlap.
* `filter_outside`: the gaps of a chain and the tail behind it list what is in no interval, each point
  once and in order.
-/
import Mathlib.Order.Nat
import Mathlib.Order.Basic
import Mathlib.Order.Defs.LinearOrder
import Mathlib.Data.List.Basic
import Mathlib.Order.Lattice

namespace Cctools.Theory.Gaps

set_option autoImplicit false

/-! ## Intervals -/

section Order

variable {α : Type} [LinearOrder α]

def Holds (interval : α × α) (point : α) : Prop := interval.1 ≤ point ∧ point < interval.2

instance (interval : α × α) (point : α) : Decidable (Holds interval point) :=
  inferInstanceAs (Decidable (_ ∧ _))

/-- In no interval of the list. -/
def Outside (intervals : List (α × α)) (point : α) : Prop := ∀ interval ∈ intervals, ¬ Holds interval point

instance (intervals : List (α × α)) (point : α) : Decidable (Outside intervals point) :=
  inferInstanceAs (Decidable (∀ interval ∈ intervals, ¬ Holds interval point))

/-- One ends before the other begins. -/
def Apart (a b : α × α) : Prop := a.2 ≤ b.1 ∨ b.2 ≤ a.1

theorem Apart.symm {a b : α × α} (apart : Apart a b) : Apart b a := Or.symm apart

/-- The lexicographic order. -/
def PairLe (a b : α × α) : Prop := a.1 < b.1 ∨ a.1 = b.1 ∧ a.2 ≤ b.2

instance (a b : α × α) : Decidable (PairLe a b) := inferInstanceAs (Decidable (_ ∨ _))

theorem PairLe.fst_le {a b : α × α} (le : PairLe a b) : a.1 ≤ b.1 := by
  obtain less | ⟨same, -⟩ := le
  · exact less.le
  · exact same.le

theorem PairLe.trans {a b c : α × α} (first : PairLe a b) (second : PairLe b c) : PairLe a c := by
  obtain less | ⟨same, le⟩ := first
  · exact .inl (less.trans_le second.fst_le)
  · obtain less | ⟨same', le'⟩ := second
    · exact .inl (same.trans_lt less)
    · exact .inr ⟨same.trans same', le.trans le'⟩

theorem PairLe.total (a b : α × α) : PairLe a b ∨ PairLe b a := by
  obtain less | same | greater := lt_trichotomy a.1 b.1
  · exact .inl (.inl less)
  · obtain le | le := le_total a.2 b.2
    · exact .inl (.inr ⟨same, le⟩)
    · exact .inr (.inr ⟨same.symm, le⟩)
  · exact .inr (.inl greater)

/-- Of two in order that do not overlap, the first ends before the second begins. -/
theorem apart_iff {a b : α × α} (le : PairLe a b) (ordered : b.1 ≤ b.2) : Apart a b ↔ a.2 ≤ b.1 := by
  refine ⟨?_, Or.inl⟩
  rintro (before | behind)
  · exact before
  · obtain less | ⟨same, shorter⟩ := le
    · exact absurd (ordered.trans behind) (not_le.mpr less)
    · exact (shorter.trans behind).trans_eq same

/-! ## Chains -/

def Chain : α → List (α × α) → Prop
  | _, [] => True
  | start, interval :: rest => start ≤ interval.1 ∧ interval.1 ≤ interval.2 ∧ Chain interval.2 rest

/-- The gap in front of each interval. -/
def gaps : α → List (α × α) → List (α × α)
  | _, [] => []
  | start, interval :: rest => (start, interval.1) :: gaps interval.2 rest

/-- Where the tail begins. -/
def finish : α → List (α × α) → α
  | start, [] => start
  | _, interval :: rest => finish interval.2 rest

variable {intervals : List (α × α)}

/-- **A sorted list of intervals is a chain exactly when no two of them overlap.** -/
theorem chain_iff {start : α} (sorted : intervals.Pairwise PairLe)
    (ordered : ∀ interval ∈ intervals, interval.1 ≤ interval.2) :
    Chain start intervals ↔ (∀ interval ∈ intervals, start ≤ interval.1) ∧ intervals.Pairwise Apart := by
  induction intervals generalizing start with
  | nil => simp [Chain]
  | cons first rest ih =>
    rw [List.pairwise_cons] at sorted
    rw [List.forall_mem_cons] at ordered
    have behind : (∀ interval ∈ rest, first.2 ≤ interval.1) ↔ ∀ interval ∈ rest, Apart first interval :=
      forall₂_congr fun interval mem => (apart_iff (sorted.1 interval mem) (ordered.2 interval mem)).symm
    rw [Chain, ih sorted.2 ordered.2, behind, List.forall_mem_cons, List.pairwise_cons]
    constructor
    · rintro ⟨below, -, apart⟩
      exact ⟨⟨below, fun interval mem => below.trans (sorted.1 interval mem).fst_le⟩, apart⟩
    · rintro ⟨⟨below, -⟩, apart⟩
      exact ⟨below, ordered.1, apart⟩

theorem Chain.start_le {start : α} (chain : Chain start intervals) :
    ∀ interval ∈ intervals, start ≤ interval.1 := by
  induction intervals generalizing start with
  | nil => simp
  | cons first rest ih =>
    obtain ⟨below, ordered, next⟩ := chain
    rw [List.forall_mem_cons]
    exact ⟨below, fun interval mem => (below.trans ordered).trans (ih next interval mem)⟩

theorem Chain.le_finish {start : α} (chain : Chain start intervals) :
    start ≤ finish start intervals := by
  induction intervals generalizing start with
  | nil => exact le_refl start
  | cons first rest ih =>
    obtain ⟨below, ordered, next⟩ := chain
    exact (below.trans ordered).trans (ih next)

theorem finish_le {start stop : α} (within : start ≤ stop)
    (inside : ∀ interval ∈ intervals, interval.2 ≤ stop) : finish start intervals ≤ stop := by
  induction intervals generalizing start with
  | nil => exact within
  | cons first rest ih =>
    rw [List.forall_mem_cons] at inside
    exact ih inside.1 inside.2

theorem outside_cons {first : α × α} {rest : List (α × α)} {point : α} :
    Outside (first :: rest) point ↔ ¬ Holds first point ∧ Outside rest point := List.forall_mem_cons

end Order

/-! ## The points that are left -/

def span (interval : Nat × Nat) : List Nat := List.range' interval.1 (interval.2 - interval.1)

theorem mem_span {interval : Nat × Nat} {point : Nat} : point ∈ span interval ↔ Holds interval point := by
  rw [span, List.mem_range'_1, Holds]
  omega

theorem span_append {first middle last : Nat} (le : first ≤ middle) (le' : middle ≤ last) :
    span (first, last) = span (first, middle) ++ span (middle, last) := by
  have start : first + (middle - first) = middle := by omega
  have length : middle - first + (last - middle) = last - first := by omega
  have joined := @List.range'_append_1 first (middle - first) (last - middle)
  rw [start, length] at joined
  exact joined.symm

/-- **The gaps and the tail are what is in no interval.** -/
theorem filter_outside {start stop : Nat} {intervals : List (Nat × Nat)} (chain : Chain start intervals)
    (within : finish start intervals ≤ stop) :
    (span (start, stop)).filter (fun point => Outside intervals point) =
      (gaps start intervals).flatMap span ++ span (finish start intervals, stop) := by
  induction intervals generalizing start with
  | nil =>
    refine List.filter_eq_self.mpr fun point _ => ?_
    simp [Outside]
  | cons first rest ih =>
    obtain ⟨below, ordered, next⟩ := chain
    have inside : first.2 ≤ stop := next.le_finish.trans within
    have front : (span (start, first.1)).filter (fun point => Outside (first :: rest) point) =
        span (start, first.1) := by
      refine List.filter_eq_self.mpr fun point mem => decide_eq_true ?_
      have before : point < first.1 := (mem_span.mp mem).2
      refine outside_cons.mpr ⟨fun held => absurd held.1 (not_le.mpr before), fun interval mem' held => ?_⟩
      exact absurd ((ordered.trans (next.start_le interval mem')).trans held.1) (not_le.mpr before)
    have held : (span first).filter (fun point => Outside (first :: rest) point) = [] := by
      refine List.filter_eq_nil_iff.mpr fun point mem outside => ?_
      exact (outside_cons.mp (of_decide_eq_true outside)).1 (mem_span.mp mem)
    have behind : (span (first.2, stop)).filter (fun point => Outside (first :: rest) point) =
        (span (first.2, stop)).filter (fun point => Outside rest point) := by
      refine List.filter_congr fun point mem => decide_eq_decide.mpr ?_
      have after : first.2 ≤ point := (mem_span.mp mem).1
      rw [outside_cons, and_iff_right fun held => absurd held.2 (not_lt.mpr after)]
    rw [span_append below (ordered.trans inside), span_append ordered inside, List.filter_append,
      List.filter_append, front, held, behind, ih next within, List.nil_append, gaps, finish,
      List.flatMap_cons, List.append_assoc]

end Cctools.Theory.Gaps
