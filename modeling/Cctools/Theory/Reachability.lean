/-
# Cctools.Theory.Reachability -- depth-first marking

`visit next` marks a node and, unless it was marked before, everything after it.
From nodes that are marked with all that comes after them it marks exactly what can
be reached (`visitAll_iff`); `Closed` is what it keeps.  The fuel bounds the depth;
one more than there are nodes is enough.
-/
import Mathlib.Data.Fintype.Card
import Mathlib.Logic.Relation

namespace Cctools.Theory

set_option autoImplicit false

open Relation

section Visit

variable {α : Type} [DecidableEq α] (next : α → List α)

def visit : Nat → Finset α → α → Option (Finset α)
  | 0, _, _ => none
  | fuel + 1, marked, node =>
    if node ∈ marked then some marked
    else (next node).foldlM (fun marked node => visit fuel marked node) (insert node marked)

def visitAll (fuel : Nat) (marked : Finset α) (nodes : List α) : Option (Finset α) :=
  nodes.foldlM (visit next fuel) marked

/-- One step along `next`. -/
def Edge (node after : α) : Prop := after ∈ next node

/-- Everything after a node of the set is in it. -/
def Closed (marked : Finset α) : Prop := ∀ node ∈ marked, ∀ after ∈ next node, after ∈ marked

/-- What marking from a node makes of a set: it adds only what can be reached, and what it adds it
adds with all that comes after. -/
structure Marks (starts : List α) (before after : Finset α) : Prop where
  kept : before ⊆ after
  marked : ∀ node ∈ starts, node ∈ after
  reached : ∀ node ∈ after, node ∈ before ∨ ∃ start ∈ starts, ReflTransGen (Edge next) start node
  whole : ∀ node ∈ after, node ∉ before → ∀ other ∈ next node, other ∈ after

variable {next}

omit [DecidableEq α] in
theorem Marks.refl (marked : Finset α) : Marks next [] marked marked where
  kept := Finset.Subset.refl _
  marked _ member := by cases member
  reached _ member := .inl member
  whole _ member new := absurd member new

omit [DecidableEq α] in
theorem Marks.cons {start : α} {starts : List α} {first second third : Finset α}
    (here : Marks next [start] first second) (later : Marks next starts second third) :
    Marks next (start :: starts) first third where
  kept := here.kept.trans later.kept
  marked := by
    intro node member
    obtain rfl | among := List.mem_cons.mp member
    · exact later.kept (here.marked node (List.mem_singleton_self _))
    · exact later.marked node among
  reached := by
    intro node member
    obtain before | ⟨from_, among, reached⟩ := later.reached node member
    · obtain earlier | ⟨from_, among, reached⟩ := here.reached node before
      · exact .inl earlier
      · exact .inr ⟨from_, by rw [List.mem_singleton.mp among]; exact List.mem_cons_self, reached⟩
    · exact .inr ⟨from_, List.mem_cons_of_mem _ among, reached⟩
  whole := by
    intro node member new other after
    by_cases before : node ∈ second
    · exact later.kept (here.whole node before new other after)
    · exact later.whole node member before other after

theorem visitAll_marks {fuel : Nat} {starts : List α} {before after : Finset α}
    (each : ∀ node before after, visit next fuel before node = some after →
      Marks next [node] before after)
    (done : visitAll next fuel before starts = some after) : Marks next starts before after := by
  induction starts generalizing before with
  | nil =>
    cases done
    exact .refl _
  | cons start rest ih =>
    rw [visitAll, List.foldlM_cons] at done
    obtain ⟨middle, first, more⟩ := Option.bind_eq_some_iff.mp done
    exact (each start before middle first).cons (ih more)

theorem visit_marks {fuel : Nat} {node : α} {before after : Finset α}
    (done : visit next fuel before node = some after) : Marks next [node] before after := by
  induction fuel generalizing node before after with
  | zero => cases done
  | succ fuel ih =>
    rw [visit] at done
    split at done
    · rename_i member
      cases done
      exact ⟨Finset.Subset.refl _, fun other among => by rwa [List.mem_singleton.mp among],
        fun _ inside => .inl inside, fun _ inside new => absurd inside new⟩
    · have below := visitAll_marks (fun node first last => @ih node first last) done
      refine ⟨fun other inside => below.kept (Finset.mem_insert_of_mem inside), ?_, ?_, ?_⟩
      · intro other among
        rw [List.mem_singleton.mp among]
        exact below.kept (Finset.mem_insert_self _ _)
      · intro other inside
        obtain earlier | ⟨start, among, reached⟩ := below.reached other inside
        · obtain rfl | there := Finset.mem_insert.mp earlier
          · exact .inr ⟨other, List.mem_singleton_self _, .refl⟩
          · exact .inl there
        · exact .inr ⟨node, List.mem_singleton_self _, .head among reached⟩
      · intro other inside new after_ along
        by_cases same : other = node
        · subst same
          exact below.marked after_ along
        · refine below.whole other inside (fun early => ?_) after_ along
          exact new ((Finset.mem_insert.mp early).resolve_left same)

/-- **From a closed set, marking adds exactly what can be reached.** -/
theorem visitAll_iff {fuel : Nat} {starts : List α} {before after : Finset α}
    (closed : Closed next before) (done : visitAll next fuel before starts = some after) :
    Closed next after ∧ ∀ node, node ∈ after ↔
      node ∈ before ∨ ∃ start ∈ starts, ReflTransGen (Edge next) start node := by
  have marks := visitAll_marks (fun _ _ _ => visit_marks) done
  have whole : Closed next after := by
    intro node member other along
    by_cases early : node ∈ before
    · exact marks.kept (closed node early other along)
    · exact marks.whole node member early other along
  refine ⟨whole, fun node => ⟨marks.reached node, ?_⟩⟩
  rintro (early | ⟨start, among, reached⟩)
  · exact marks.kept early
  · induction reached with
    | refl => exact marks.marked start among
    | tail _ along ih => exact whole _ ih _ along

end Visit

/-! ## The depth -/

section Depth

variable {α : Type} [DecidableEq α] [Fintype α] {next : α → List α}

theorem visitAll_isSome {fuel : Nat}
    (each : ∀ node (marked : Finset α), (Finset.univ \ marked).card < fuel →
      ∃ after, visit next fuel marked node = some after)
    {starts : List α} {marked : Finset α} (enough : (Finset.univ \ marked).card < fuel) :
    ∃ after, visitAll next fuel marked starts = some after := by
  induction starts generalizing marked with
  | nil => exact ⟨marked, rfl⟩
  | cons start rest ih =>
    obtain ⟨middle, first⟩ := each start marked enough
    have grows := (visit_marks first).kept
    have left : (Finset.univ \ middle).card ≤ (Finset.univ \ marked).card :=
      Finset.card_le_card (Finset.sdiff_subset_sdiff (Finset.Subset.refl _) grows)
    obtain ⟨after, more⟩ := ih (Nat.lt_of_le_of_lt left enough)
    refine ⟨after, ?_⟩
    rw [visitAll, List.foldlM_cons, first]
    exact more

theorem visit_isSome {fuel : Nat} {node : α} {marked : Finset α}
    (enough : (Finset.univ \ marked).card < fuel) : ∃ after, visit next fuel marked node = some after := by
  induction fuel generalizing node marked with
  | zero => exact absurd enough (Nat.not_lt_zero _)
  | succ fuel ih =>
    rw [visit]
    split
    · exact ⟨marked, rfl⟩
    · rename_i new
      refine visitAll_isSome (fun node marked less => ih less) ?_
      refine Nat.lt_of_lt_of_le (Finset.card_lt_card ?_) (Nat.le_of_lt_succ enough)
      refine ⟨Finset.sdiff_subset_sdiff (Finset.Subset.refl _) (Finset.subset_insert _ _), ?_⟩
      intro all
      have inside := all (Finset.mem_sdiff.mpr ⟨Finset.mem_univ node, new⟩)
      exact (Finset.mem_sdiff.mp inside).2 (Finset.mem_insert_self _ _)

end Depth

end Cctools.Theory
