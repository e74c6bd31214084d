/-
# Cctools.Theory.Chains -- lists threaded through a successor function

A list is cut into chains by a relation between neighbours: `heads` are the
elements that begin one.  The list is `Linked` when the successor function leads
from each element to the next one of its chain and ends with the chain.  Walking
from the heads of a linked list covers it (`covers_heads`), and nothing else does
(`Linked.eq_heads`).
-/
import Mathlib.Data.List.Forall2
import Mathlib.Data.List.Sort
import Mathlib.Data.List.Perm.Subperm

namespace Cctools.Theory

set_option autoImplicit false

/-! ## Walks -/

/-- What is visited from a start on, up to the end of its chain. -/
inductive Walk {α : Type} (next : α → Option α) : α → List α → Prop where
  | last {a : α} (stop : next a = none) : Walk next a [a]
  | step {a b : α} {rest : List α} (go : next a = some b) (more : Walk next b rest) :
      Walk next a (a :: rest)

namespace Walk

variable {α : Type} {next : α → Option α} {visited : List α}

theorem start_mem {a : α} (walk : Walk next a visited) : a ∈ visited := by
  cases walk <;> simp

theorem mem_cases {a b : α} (walk : Walk next a visited)
    (member : b ∈ visited) : b = a ∨ ∃ p ∈ visited, next p = some b := by
  induction walk with
  | last stop => exact .inl (List.mem_singleton.1 member)
  | @step a c rest go more ih =>
    rcases List.mem_cons.1 member with rfl | later
    · exact .inl rfl
    · rcases ih later with rfl | ⟨p, inside, leads⟩
      · exact .inr ⟨a, List.mem_cons_self, go⟩
      · exact .inr ⟨p, List.mem_cons_of_mem _ inside, leads⟩

theorem unique {a : α} {visited others : List α} (walk : Walk next a visited) (other : Walk next a others) :
    visited = others := by
  induction walk generalizing others with
  | last stop =>
    cases other with
    | last _ => rfl
    | step go _ => cases stop.symm.trans go
  | step go _ ih =>
    cases other with
    | last stop => cases stop.symm.trans go
    | step go' more =>
      obtain rfl := Option.some.inj (go.symm.trans go')
      rw [ih more]

theorem suffix {a b : α} (walk : Walk next a visited) (member : b ∈ visited) :
    ∃ before after, visited = before ++ after ∧ Walk next b after := by
  induction walk with
  | last stop =>
    obtain rfl := List.mem_singleton.1 member
    exact ⟨[], [b], rfl, .last stop⟩
  | @step a c rest go more ih =>
    rcases List.mem_cons.1 member with rfl | later
    · exact ⟨[], b :: rest, rfl, .step go more⟩
    · obtain ⟨before, after, split, onward⟩ := ih later
      exact ⟨a :: before, after, by rw [split]; rfl, onward⟩

theorem ends {a : α} (walk : Walk next a visited) :
    ∃ before last, visited = before ++ [last] ∧ next last = none := by
  induction walk with
  | last stop => exact ⟨[], _, rfl, stop⟩
  | @step a _ _ _ _ ih =>
    obtain ⟨before, last, split, stop⟩ := ih
    exact ⟨a :: before, last, by rw [split]; rfl, stop⟩

theorem congr {other : α → Option α} {a : α} (walk : Walk next a visited)
    (same : ∀ x ∈ visited, other x = next x) : Walk other a visited := by
  induction walk with
  | last stop => exact .last ((same _ List.mem_cons_self).trans stop)
  | step go _ ih =>
    exact .step ((same _ List.mem_cons_self).trans go) (ih fun x member => same x (List.mem_cons_of_mem _ member))

theorem append {a b last : α} {visited before after : List α} (walk : Walk next a visited)
    (split : visited = before ++ [last]) {other : α → Option α} (same : ∀ x ∈ before, other x = next x)
    (go : other last = some b) (more : Walk other b after) : Walk other a (visited ++ after) := by
  induction walk generalizing before with
  | @last a _ =>
    obtain ⟨rfl, only⟩ : before = [] ∧ [a] = [last] := by
      cases before with
      | nil => exact ⟨rfl, split⟩
      | cons _ rest => cases rest <;> cases split
    obtain rfl := List.singleton_inj.1 only
    exact .step go more
  | @step a c rest onward walk ih =>
    cases before with
    | nil =>
      obtain ⟨-, rfl⟩ := List.cons.inj split
      cases walk
    | cons first before =>
      obtain ⟨rfl, tail⟩ := List.cons.inj split
      refine .step ((same _ List.mem_cons_self).trans onward) (ih tail ?_)
      exact fun x member => same x (List.mem_cons_of_mem _ member)

end Walk

/-- From one element to another, through the ones between. -/
inductive Leads {α : Type} (next : α → Option α) : α → List α → α → Prop where
  | direct {a b : α} (go : next a = some b) : Leads next a [] b
  | through {a b c : α} {rest : List α} (go : next a = some c) (more : Leads next c rest b) :
      Leads next a (c :: rest) b

theorem Leads.walk {α : Type} {next : α → Option α} {a b : α} {between visited : List α}
    (leads : Leads next a between b) (walk : Walk next b visited) :
    Walk next a (a :: between ++ visited) := by
  induction leads with
  | direct go => exact .step go walk
  | through go _ ih => exact .step go (ih walk)

theorem Leads.congr {α : Type} {next other : α → Option α} {a b : α} {between : List α}
    (leads : Leads next a between b) (same : ∀ x ∈ a :: between, other x = next x) :
    Leads other a between b := by
  induction leads with
  | direct go => exact .direct ((same _ List.mem_cons_self).trans go)
  | through go _ ih =>
    exact .through ((same _ List.mem_cons_self).trans go)
      (ih fun x member => same x (List.mem_cons_of_mem _ member))

/-- The walks from the starts visit every element once and nothing else, and each ends
before the next start. -/
def Covers {α : Type} [LT α] (next : α → Option α) (starts elements : List α) : Prop :=
  ∃ walks, List.Forall₂ (Walk next) starts walks ∧ walks.flatten.Perm elements ∧
    (starts.zip walks).IsChain fun one later => ∀ visited ∈ one.2, visited < later.1

/-! ## Heads -/

section Heads

variable {α : Type} (joined : α → α → Bool)

/-- The elements that begin a chain, after `before`. -/
def headsFrom : α → List α → List α
  | _, [] => []
  | before, x :: rest => (if joined before x then [] else [x]) ++ headsFrom x rest

def heads : List α → List α
  | [] => []
  | x :: rest => x :: headsFrom joined x rest

theorem headsFrom_sublist (before : α) (elements : List α) :
    (headsFrom joined before elements).Sublist elements := by
  induction elements generalizing before with
  | nil => exact .slnil
  | cons x rest ih =>
    rw [headsFrom]
    split
    · exact (ih x).cons x
    · exact (ih x).cons_cons x

theorem heads_sublist (elements : List α) : (heads joined elements).Sublist elements := by
  cases elements with
  | nil => exact .slnil
  | cons x rest => exact (headsFrom_sublist joined x rest).cons_cons x

/-- What neighbours of a chain share, an element shares with a head. -/
theorem exists_head {β : Type} {f : α → β} (shares : ∀ x y, joined x y = true → f x = f y)
    {elements : List α} {x : α} (member : x ∈ elements) :
    ∃ head ∈ heads joined elements, f head = f x := by
  have from_ : ∀ before rest, x ∈ before :: rest →
      f before = f x ∨ ∃ head ∈ headsFrom joined before rest, f head = f x := by
    intro before rest
    induction rest generalizing before with
    | nil =>
      intro only
      rw [List.mem_singleton.1 only]
      exact .inl rfl
    | cons y rest ih =>
      intro either
      rcases List.mem_cons.1 either with rfl | later
      · exact .inl rfl
      · rw [headsFrom]
        rcases ih y later with same | ⟨head, inside, same⟩
        · split
          · rename_i linked
            exact .inl ((shares before y linked).trans same)
          · exact .inr ⟨y, by simp, same⟩
        · exact .inr ⟨head, List.mem_append_right _ inside, same⟩
  cases elements with
  | nil => cases member
  | cons first rest =>
    rcases from_ first rest member with same | ⟨head, inside, same⟩
    · exact ⟨first, List.mem_cons_self, same⟩
    · exact ⟨head, List.mem_cons_of_mem _ inside, same⟩

end Heads

/-! ## Linked lists -/

section Linked

variable {α : Type} {next : α → Option α} {joined : α → α → Bool}

/-- The successor function follows the chains of the list. -/
def Linked (next : α → Option α) (joined : α → α → Bool) : List α → Prop
  | [] => True
  | [x] => next x = none
  | x :: y :: rest => next x = (if joined x y then some y else none) ∧
      Linked next joined (y :: rest)

theorem Linked.walks {x : α} {rest : List α} (linked : Linked next joined (x :: rest)) :
    ∃ first others, Walk next x first ∧
      List.Forall₂ (Walk next) (headsFrom joined x rest) others ∧
      first ++ others.flatten = x :: rest := by
  induction rest generalizing x with
  | nil => exact ⟨[x], [], .last linked, .nil, rfl⟩
  | cons y rest ih =>
    obtain ⟨here, after⟩ := linked
    obtain ⟨first, others, walk, walks, whole⟩ := ih after
    rw [headsFrom]
    split
    · rename_i together
      rw [if_pos together] at here
      refine ⟨x :: first, others, .step here walk, walks, ?_⟩
      rw [List.cons_append, whole]
    · rename_i apart
      rw [if_neg apart] at here
      refine ⟨[x], first :: others, .last here, .cons walk walks, ?_⟩
      rw [List.flatten_cons, whole]
      rfl

theorem Linked.mem_of_next {elements : List α} (linked : Linked next joined elements) {p x : α}
    (member : p ∈ elements) (leads : next p = some x) : x ∈ elements := by
  induction elements with
  | nil => cases member
  | cons first rest ih =>
    cases rest with
    | nil =>
      rw [List.mem_singleton.1 member] at leads
      cases leads.symm.trans linked
    | cons second rest =>
      rcases List.mem_cons.1 member with rfl | later
      · rw [linked.1] at leads
        split at leads
        · cases leads
          simp
        · cases leads
      · exact List.mem_cons_of_mem _ (ih linked.2 later)

theorem Linked.not_mem_heads {elements : List α} (linked : Linked next joined elements)
    (distinct : elements.Nodup) {p x : α} (member : p ∈ elements) (leads : next p = some x) :
    x ∉ heads joined elements := by
  induction elements with
  | nil => cases member
  | cons first rest ih =>
    cases rest with
    | nil =>
      rw [List.mem_singleton.1 member] at leads
      cases leads.symm.trans linked
    | cons second rest =>
      obtain ⟨here, after⟩ := linked
      rw [List.nodup_cons] at distinct
      have outside : second ∉ headsFrom joined second rest := fun inside =>
        (List.nodup_cons.1 distinct.2).1 ((headsFrom_sublist joined second rest).subset inside)
      rw [heads, headsFrom]
      rcases List.mem_cons.1 member with rfl | later
      · rw [here] at leads
        split at leads
        · rename_i together
          cases leads
          rw [if_pos together, List.nil_append, List.mem_cons, not_or]
          refine ⟨?_, outside⟩
          rintro rfl
          exact distinct.1 List.mem_cons_self
        · cases leads
      · have tail := ih after distinct.2 later
        have inside : x ∈ second :: rest := after.mem_of_next later leads
        rw [List.mem_cons, not_or]
        refine ⟨?_, ?_⟩
        · rintro rfl
          exact distinct.1 inside
        · rw [heads, List.mem_cons, not_or] at tail
          split
          · exact tail.2
          · simpa [tail.1] using tail.2

end Linked

/-! ## Covering -/

section Covering

variable {α : Type} [LT α] {next : α → Option α} {joined : α → α → Bool}
variable {starts elements : List α}

theorem Covers.congr {others : List α} (perm : elements.Perm others)
    (covers : Covers next starts elements) : Covers next starts others := by
  obtain ⟨walks, walk, visits, before⟩ := covers
  exact ⟨walks, walk, visits.trans perm, before⟩

theorem endsBefore {walks : List (List α)} (walk : List.Forall₂ (Walk next) starts walks)
    (sorted : walks.flatten.Pairwise (· < ·)) :
    (starts.zip walks).IsChain fun one later => ∀ visited ∈ one.2, visited < later.1 := by
  induction walk with
  | nil => exact .nil
  | @cons start visited starts walks here rest ih =>
    rw [List.flatten_cons, List.pairwise_append] at sorted
    have tail := ih sorted.2.1
    rw [List.zip_cons_cons]
    cases rest with
    | nil => exact .singleton _
    | @cons second others starts walks there rest =>
      rw [List.zip_cons_cons] at tail ⊢
      refine .cons_cons ?_ tail
      intro x member
      exact sorted.2.2 x member second
        (List.mem_flatten.2 ⟨others, List.mem_cons_self, there.start_mem⟩)

/-- **The heads cover a linked list.** -/
theorem covers_heads (linked : Linked next joined elements) (sorted : elements.Pairwise (· < ·)) :
    Covers next (heads joined elements) elements := by
  cases elements with
  | nil => exact ⟨[], .nil, .refl _, .nil⟩
  | cons x rest =>
    obtain ⟨first, others, walk, walks, whole⟩ := linked.walks
    refine ⟨first :: others, .cons walk walks, ?_, ?_⟩
    · rw [List.flatten_cons, whole]
    · apply endsBefore (.cons walk walks)
      rw [List.flatten_cons, whole]
      exact sorted

variable [IsStrictOrder α (· < ·)]

theorem Covers.starts_sorted (covers : Covers next starts elements) :
    starts.Pairwise (· < ·) := by
  obtain ⟨walks, walk, -, before⟩ := covers
  rw [← List.isChain_iff_pairwise]
  induction walk with
  | nil => exact .nil
  | @cons start visited starts walks here rest ih =>
    rw [List.zip_cons_cons] at before
    cases rest with
    | nil => exact .singleton _
    | @cons second others starts walks there rest =>
      rw [List.zip_cons_cons, List.isChain_cons_cons] at before
      exact .cons_cons (before.1 start here.start_mem) (ih (by
        rw [List.zip_cons_cons]
        exact before.2))

/-- **Only the heads cover a linked list**, when there are as many starts as heads. -/
theorem Linked.eq_heads (linked : Linked next joined elements)
    (sorted : elements.Pairwise (· < ·)) (count : starts.length = (heads joined elements).length)
    (covers : Covers next starts elements) : starts = heads joined elements := by
  have increasing := covers.starts_sorted
  have headsSorted := sorted.sublist (heads_sublist joined elements)
  obtain ⟨walks, walk, visits, -⟩ := covers
  have distinct : elements.Nodup := sorted.imp fun below => ne_of_irrefl below
  have reached : heads joined elements ⊆ starts := by
    intro head isHead
    have member := visits.mem_iff.2 ((heads_sublist joined elements).subset isHead)
    obtain ⟨visited, inside, here⟩ := List.mem_flatten.1 member
    obtain ⟨start, isStart, from_⟩ : ∃ start ∈ starts, Walk next start visited := by
      clear visits member count increasing
      induction walk with
      | nil => cases inside
      | cons first rest ih =>
        rcases List.mem_cons.1 inside with rfl | later
        · exact ⟨_, List.mem_cons_self, first⟩
        · obtain ⟨start, isStart, from_⟩ := ih later
          exact ⟨start, List.mem_cons_of_mem _ isStart, from_⟩
    rcases from_.mem_cases here with rfl | ⟨p, before, leads⟩
    · exact isStart
    · have earlier := visits.mem_iff.1 (List.mem_flatten.2 ⟨visited, inside, before⟩)
      exact absurd isHead (linked.not_mem_heads distinct earlier leads)
  have headsDistinct : (heads joined elements).Nodup := headsSorted.imp fun below => ne_of_irrefl below
  have perm := (List.subperm_of_subset headsDistinct reached).perm_of_length_le count.le
  exact perm.symm.eq_of_pairwise (fun a b _ _ below above => absurd below (asymm above)) increasing
    headsSorted

end Covering

end Cctools.Theory
