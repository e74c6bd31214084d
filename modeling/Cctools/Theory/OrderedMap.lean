/-
# Cctools.Theory.OrderedMap -- maps that are kept in the order of their keys

A map is the list of its entries.  What is put at a key replaces what was there, or goes in where
the key belongs; at a key above all others that is the end.  `update` changes the value at a key,
from an empty one if there is none: what it adds to the value it adds to the map
(`flatMap_update_perm`).
-/
import Mathlib.Order.Defs.LinearOrder
import Mathlib.Data.List.Perm.Basic
import Mathlib.Order.Lattice

namespace Cctools.Theory

set_option autoImplicit false

abbrev OrderedMap (κ ν : Type) := List (κ × ν)

namespace OrderedMap

variable {κ ν : Type} [LinearOrder κ]

def get? : OrderedMap κ ν → κ → Option ν
  | [], _ => none
  | (a, v) :: rest, k => if a = k then some v else get? rest k

def set : OrderedMap κ ν → κ → ν → OrderedMap κ ν
  | [], k, v => [(k, v)]
  | (a, w) :: rest, k, v =>
    if k < a then (k, v) :: (a, w) :: rest
    else if k = a then (k, v) :: rest
    else (a, w) :: set rest k v

/-- The keys, the least one first. -/
def keys (map : OrderedMap κ ν) : List κ := map.map Prod.fst

variable (map : OrderedMap κ ν) (k : κ) (v : ν)

@[simp] theorem get?_set_self : (map.set k v).get? k = some v := by
  induction map with
  | nil => simp [set, get?]
  | cons entry rest ih =>
    obtain ⟨a, w⟩ := entry
    rw [set]
    split
    · simp [get?]
    · split
      · simp [get?]
      · rename_i differ
        rw [get?, if_neg (Ne.symm differ), ih]

theorem get?_set_of_ne {other : κ} (differ : other ≠ k) : (map.set k v).get? other = map.get? other := by
  induction map with
  | nil => simp [set, get?, differ.symm]
  | cons entry rest ih =>
    obtain ⟨a, w⟩ := entry
    rw [set]
    split
    · rw [get?, if_neg differ.symm]
    · split
      · rename_i same
        rw [get?, get?, if_neg differ.symm, if_neg (same ▸ differ.symm)]
      · rw [get?, get?, ih]

variable {map k}

theorem get?_isSome_iff : (map.get? k).isSome = true ↔ k ∈ map.keys := by
  induction map with
  | nil => simp [get?, keys]
  | cons entry rest ih =>
    obtain ⟨a, w⟩ := entry
    rw [get?, keys, List.map_cons, List.mem_cons]
    by_cases same : a = k
    · simp [same]
    · rw [if_neg same, ih, keys]
      simp [Ne.symm same]

theorem keys_set_of_mem (sorted : map.keys.Pairwise (· < ·)) (member : k ∈ map.keys) :
    (map.set k v).keys = map.keys := by
  induction map with
  | nil => cases member
  | cons entry rest ih =>
    obtain ⟨a, w⟩ := entry
    rw [keys, List.map_cons, List.pairwise_cons] at sorted
    rw [keys, List.map_cons, List.mem_cons] at member
    rw [set]
    split
    · rename_i below
      obtain rfl | later := member
      · exact absurd below (lt_irrefl _)
      · exact absurd below (lt_asymm (sorted.1 k later))
    · split
      · rename_i same
        rw [same]
        rfl
      · rename_i differ
        have later := member.resolve_left differ
        show a :: keys (set rest k v) = a :: keys rest
        rw [ih sorted.2 later]

theorem set_of_lt (above : ∀ a ∈ map.keys, a < k) : map.set k v = map ++ [(k, v)] := by
  induction map with
  | nil => rfl
  | cons entry rest ih =>
    obtain ⟨a, w⟩ := entry
    have first : a < k := above a List.mem_cons_self
    rw [set, if_neg (lt_asymm first), if_neg (ne_of_gt first), List.cons_append,
      ih fun b member => above b (List.mem_cons_of_mem _ member)]

theorem get?_of_mem (sorted : map.keys.Pairwise (· < ·)) (member : (k, v) ∈ map) : map.get? k = some v := by
  induction map with
  | nil => cases member
  | cons entry rest ih =>
    obtain ⟨a, w⟩ := entry
    rw [keys, List.map_cons, List.pairwise_cons] at sorted
    rw [get?]
    obtain same | later := List.mem_cons.mp member
    · cases same
      rw [if_pos rfl]
    · have above := sorted.1 k (List.mem_map.mpr ⟨_, later, rfl⟩)
      rw [if_neg (ne_of_lt above)]
      exact ih sorted.2 later

omit [LinearOrder κ] in
theorem keys_append (other : OrderedMap κ ν) : keys (map ++ other) = map.keys ++ other.keys := List.map_append

/-! ## Changing a value -/

/-- `map[k]`, with the value that a new key starts from. -/
def update (map : OrderedMap κ ν) (k : κ) (empty : ν) (change : ν → ν) : OrderedMap κ ν :=
  map.set k (change ((map.get? k).getD empty))

variable {v} in
theorem mem_set {entry : κ × ν} (member : entry ∈ map.set k v) : entry = (k, v) ∨ entry ∈ map := by
  induction map with
  | nil => exact .inl (List.mem_singleton.mp member)
  | cons first rest ih =>
    obtain ⟨a, w⟩ := first
    rw [set] at member
    split at member
    · exact List.mem_cons.mp member
    · split at member
      · rcases List.mem_cons.mp member with here | later
        · exact .inl here
        · exact .inr (List.mem_cons_of_mem _ later)
      · rcases List.mem_cons.mp member with here | later
        · exact .inr (here ▸ List.mem_cons_self)
        · exact (ih later).imp_right (List.mem_cons_of_mem _)

theorem sorted_set (sorted : map.keys.Pairwise (· < ·)) : (map.set k v).keys.Pairwise (· < ·) := by
  induction map with
  | nil => exact List.pairwise_singleton _ _
  | cons first rest ih =>
    obtain ⟨a, w⟩ := first
    have tail := List.pairwise_cons.mp (show (a :: keys rest).Pairwise (· < ·) from sorted)
    rw [set]
    split
    · rename_i below
      refine List.pairwise_cons.mpr ⟨fun b member => ?_, sorted⟩
      rcases List.mem_cons.mp member with rfl | later
      · exact below
      · exact lt_trans below (tail.1 b later)
    · split
      · rename_i same
        exact same ▸ sorted
      · rename_i notBelow differ
        refine List.pairwise_cons.mpr ⟨fun b member => ?_, ih tail.2⟩
        obtain ⟨entry, inSet, rfl⟩ := List.mem_map.mp member
        rcases mem_set inSet with rfl | old
        · exact lt_of_le_of_ne (le_of_not_gt notBelow) (Ne.symm differ)
        · exact tail.1 _ (List.mem_map_of_mem old)

theorem length_set_le : (map.set k v).length ≤ map.length + 1 := by
  induction map with
  | nil => exact Nat.le_refl _
  | cons first rest ih =>
    obtain ⟨a, w⟩ := first
    rw [set]
    split
    · exact Nat.le_refl _
    · split
      · exact Nat.le_succ _
      · exact Nat.succ_le_succ ih

theorem mem_of_get? {value : ν} (found : map.get? k = some value) : (k, value) ∈ map := by
  induction map with
  | nil => cases found
  | cons first rest ih =>
    obtain ⟨a, w⟩ := first
    rw [get?] at found
    split at found
    · rename_i same
      obtain rfl := Option.some.inj found
      exact same ▸ List.mem_cons_self
    · exact List.mem_cons_of_mem _ (ih found)

theorem get?_of_lt (below : ∀ a ∈ map.keys, k < a) : map.get? k = none := by
  induction map with
  | nil => rfl
  | cons first rest ih =>
    obtain ⟨a, w⟩ := first
    have first : k < a := below a List.mem_cons_self
    rw [get?, if_neg (ne_of_gt first), ih fun b member => below b (List.mem_cons_of_mem _ member)]

/-- **What is added to a value** is added to the whole. -/
theorem flatMap_update_perm {α : Type} {flat : κ → ν → List α} {empty : ν} {change : ν → ν} {added : α}
    (sorted : map.keys.Pairwise (· < ·)) (none : flat k empty = [])
    (adds : (flat k (change ((map.get? k).getD empty))).Perm (added :: flat k ((map.get? k).getD empty))) :
    ((map.update k empty change).flatMap fun entry => flat entry.1 entry.2).Perm
      (added :: map.flatMap fun entry => flat entry.1 entry.2) := by
  unfold update
  induction map with
  | nil => simpa [set, get?, none] using adds
  | cons first rest ih =>
    obtain ⟨a, w⟩ := first
    have tail := List.pairwise_cons.mp (show (a :: keys rest).Pairwise (· < ·) from sorted)
    rw [get?] at adds ⊢
    rw [set, List.flatMap_cons]
    by_cases same : a = k
    · subst same
      rw [if_pos rfl] at adds ⊢
      rw [if_neg (lt_irrefl _), if_pos rfl, List.flatMap_cons]
      exact adds.append_right _
    · rw [if_neg same] at adds ⊢
      by_cases below : k < a
      · rw [if_pos below, List.flatMap_cons, List.flatMap_cons]
        rw [get?_of_lt fun b member => lt_trans below (tail.1 b member)] at adds ⊢
        rw [Option.getD_none, none] at adds
        exact adds.append_right _
      · rw [if_neg below, if_neg (Ne.symm same), List.flatMap_cons]
        exact ((ih tail.2 adds).append_left _).trans List.perm_middle

end OrderedMap

end Cctools.Theory
