/-
# Cctools.Theory.StrongComponents -- labels that tell the strong components

Two nodes are `Mutual` when each can be reached from the other.  A labelling `Condenses` a graph when
nodes of one label are mutual and a rank falls along every arc that leaves a label: then the labels
are the strong components (`Condenses.label_eq_iff`), and the rank orders them.

A path whose nodes all lead back to where it began lies in one component (`mutual_of_path`).
-/
import Mathlib.Data.List.Chain
import Mathlib.Logic.Relation
import Mathlib.Order.Basic

namespace Cctools.Theory

set_option autoImplicit false

open Relation

section Mutual

variable {α : Type} {arc : α → α → Prop}

def Mutual (arc : α → α → Prop) (u v : α) : Prop := ReflTransGen arc u v ∧ ReflTransGen arc v u

theorem Mutual.refl (u : α) : Mutual arc u u := ⟨.refl, .refl⟩

theorem Mutual.symm {u v : α} (both : Mutual arc u v) : Mutual arc v u := ⟨both.2, both.1⟩

theorem Mutual.trans {u v w : α} (first : Mutual arc u v) (second : Mutual arc v w) : Mutual arc u w :=
  ⟨first.1.trans second.1, second.2.trans first.2⟩

/-- From the last node of a path, which is written backwards, every node of it can be reached. -/
theorem reaches_of_path {above : List α} {last : α}
    (path : (above ++ [last]).IsChain fun later earlier => arc earlier later) {u : α} (member : u ∈ above) :
    ReflTransGen arc last u := by
  induction above generalizing u with
  | nil => cases member
  | cons top rest ih =>
    have onward : (rest ++ [last]).IsChain fun later earlier => arc earlier later := path.tail
    have here : ∀ before, (rest ++ [last]).head? = some before → arc before top := by
      intro before first
      cases rest with
      | nil =>
        obtain rfl := Option.some.inj first
        exact (List.isChain_cons_cons.mp path).1
      | cons second _ =>
        obtain rfl := Option.some.inj first
        exact (List.isChain_cons_cons.mp path).1
    rcases List.mem_cons.mp member with rfl | later
    · cases rest with
      | nil => exact .single (here last rfl)
      | cons second rest =>
        have before : ReflTransGen arc last second := ih onward List.mem_cons_self
        exact before.tail (here second rfl)
    · exact ih onward later

/-- The newest node of a path is reached from every other. -/
theorem path_reaches {top : α} {below : List α}
    (path : (top :: below).IsChain fun later earlier => arc earlier later) {u : α} (member : u ∈ top :: below) :
    ReflTransGen arc u top := by
  induction below generalizing top with
  | nil =>
    obtain rfl := List.mem_singleton.mp member
    exact .refl
  | cons second rest ih =>
    rcases List.mem_cons.mp member with rfl | later
    · exact .refl
    · exact (ih path.tail later).tail (List.isChain_cons_cons.mp path).1

/-- **A path that is led back to its beginning** lies in one component. -/
theorem mutual_of_path {top start : α} {above : List α}
    (path : (top :: above ++ [start]).IsChain fun later earlier => arc earlier later)
    (back : ReflTransGen arc top start) {u : α} (member : u ∈ top :: above) : Mutual arc u start := by
  have whole : (top :: (above ++ [start])).IsChain fun later earlier => arc earlier later := path
  have forth : ReflTransGen arc u top := path_reaches whole (List.mem_append_left [start] member)
  exact ⟨forth.trans back, reaches_of_path path member⟩

end Mutual

/-! ## Condensing -/

section Condenses

variable {α β γ : Type} [Preorder γ] {arc : α → α → Prop} {label : α → β} {rank : α → γ}

structure Condenses (arc : α → α → Prop) (label : α → β) (rank : α → γ) : Prop where
  falls : ∀ u v, arc u v → label u = label v ∨ rank v < rank u
  level : ∀ u v, label u = label v → rank u = rank v
  joined : ∀ u v, label u = label v → Mutual arc u v

theorem Condenses.falls_along (condenses : Condenses arc label rank) {u v : α} (reaches : ReflTransGen arc u v) :
    label u = label v ∨ rank v < rank u := by
  induction reaches with
  | refl => exact .inl rfl
  | tail _ along ih =>
    rcases ih with same | below <;> rcases condenses.falls _ _ along with same' | below'
    · exact .inl (same.trans same')
    · exact .inr (condenses.level _ _ same ▸ below')
    · exact .inr (condenses.level _ _ same' ▸ below)
    · exact .inr (below'.trans below)

/-- **The labels are the strong components.** -/
theorem Condenses.label_eq_iff (condenses : Condenses arc label rank) (u v : α) :
    label u = label v ↔ Mutual arc u v := by
  refine ⟨condenses.joined u v, fun ⟨there, back⟩ => ?_⟩
  rcases condenses.falls_along there with same | below
  · exact same
  · rcases condenses.falls_along back with same | below'
    · exact same.symm
    · exact absurd (below.trans below') (lt_irrefl _)

/-- What can be reached and does not lead back has a lower rank. -/
theorem Condenses.rank_lt (condenses : Condenses arc label rank) {u v : α} (reaches : ReflTransGen arc u v)
    (apart : ¬ Mutual arc u v) : rank v < rank u :=
  (condenses.falls_along reaches).resolve_left fun same => apart (condenses.joined u v same)

end Condenses

end Cctools.Theory
