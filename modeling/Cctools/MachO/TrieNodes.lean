/-
# Cctools.MachO.TrieNodes -- the nodes of a tree, as they are laid out

A tree that `buildTrie` makes has the positions below its count, each once.  So its nodes, in
the order in which they were made, are a trie for the offsets: every edge leads to one of them.
-/
import Cctools.MachO.TrieOffsets

namespace Cctools.MachO

set_option autoImplicit false

open Cctools.LinkEdit

/-! ## The nodes of a tree -/

/-- A node as `allNodes` has it; a `uint32_t` counts the bytes of its entry. -/
def TrieNode.of (terminalEntry : WriterEntry) (children : List Edge) : TrieNode where
  terminalEntry :=
    { terminalEntry with payload := terminalEntry.payload.take (terminalEntry.payload.length % 2 ^ 32) }
  children := children.map fun edge => (edge.1, edge.2.index)
  payload_small := by
    rw [List.length_take]
    have short := Nat.mod_lt terminalEntry.payload.length (show 0 < 2 ^ 32 by decide)
    omega

mutual
/-- The nodes of a tree with their positions. -/
def Node.placed : Node → List (Nat × TrieNode)
  | .mk index _ terminalEntry children => (index, .of terminalEntry children) :: placedOf children
def placedOf : List Edge → List (Nat × TrieNode)
  | [] => []
  | (_, child) :: rest => child.placed ++ placedOf rest
end

theorem placedOf_eq (children : List Edge) : placedOf children = children.flatMap fun edge => edge.2.placed := by
  induction children with
  | nil => rfl
  | cons edge rest ih => rw [placedOf, ih, List.flatMap_cons]

theorem placed_closed (node : Node) :
    ∀ placed ∈ node.placed, ∀ edge ∈ placed.2.children, edge.2 ∈ node.indexes := by
  induction node using Node.children_induction with
  | step index _ terminalEntry children ih =>
    rw [Node.placed, Node.indexes, List.forall_mem_cons, placedOf_eq, indexesOf_eq]
    constructor
    · intro edge member
      obtain ⟨child, inside, rfl⟩ := List.mem_map.1 member
      refine List.mem_cons_of_mem _ (List.mem_flatMap.2 ⟨child, inside, ?_⟩)
      obtain ⟨_, ⟨_, _, _, _⟩⟩ := child
      exact List.mem_cons_self
    · intro placed member edge down
      obtain ⟨child, inside, below⟩ := List.mem_flatMap.1 member
      exact List.mem_cons_of_mem _ (List.mem_flatMap.2 ⟨child, inside, ih child inside placed below edge down⟩)

/-- What an insertion does to the positions: it adds those of the nodes that it makes. -/
theorem addEntry_indexes {newEntry : WriterEntry} {depth : Nat} {node after : Node} {allNodes count : Nat}
    (added : node.addEntry newEntry depth allNodes = .ok (after, count)) :
    allNodes ≤ count ∧ after.indexes.Perm (node.indexes ++ List.range' allNodes (count - allNodes)) := by
  induction depth generalizing node after allNodes count with
  | zero => cases added
  | succ depth ih =>
    obtain ⟨index, cummulativeString, terminalEntry, children⟩ := node
    have edges : ∀ tail (children edges : List Edge),
        addEdges newEntry (Node.addEntry newEntry depth) cummulativeString tail allNodes children =
          some (.ok (edges, count)) →
        allNodes ≤ count ∧ (indexesOf edges).Perm (indexesOf children ++ List.range' allNodes (count - allNodes)) := by
      intro tail children
      induction children with
      | nil =>
        intro edges found
        cases found
      | cons edge rest ihEdges =>
        obtain ⟨partialString, child⟩ := edge
        have onward : ∀ edges, ((addEdges newEntry (Node.addEntry newEntry depth) cummulativeString tail allNodes
            rest).map fun added => added.map fun after => ((partialString, child) :: after.1, after.2)) =
              some (.ok (edges, count)) →
            allNodes ≤ count ∧ (indexesOf edges).Perm
              (indexesOf ((partialString, child) :: rest) ++ List.range' allNodes (count - allNodes)) := by
          intro edges found
          obtain ⟨result, below, found⟩ := Option.map_eq_some_iff.1 found
          cases result with
          | error error => cases found
          | ok pair =>
            obtain ⟨edges', count'⟩ := pair
            cases found
            obtain ⟨more, perm⟩ := ihEdges edges' below
            refine ⟨more, ?_⟩
            rw [indexesOf, indexesOf, List.append_assoc]
            exact perm.append_left _
        intro edges found
        rw [addEdges] at found
        split at found
        · exact onward edges found
        · split at found
          · cases result : Node.addEntry newEntry depth child allNodes with
            | error error =>
              rw [result] at found
              cases found
            | ok pair =>
              rw [result] at found
              cases found
              obtain ⟨more, perm⟩ := ih result
              refine ⟨more, ?_⟩
              rw [List.perm_iff_count] at perm ⊢
              intro position
              have here := perm position
              simp only [indexesOf, List.count_append] at here ⊢
              omega
          · split at found
            · exact onward edges found
            · rename_i len _
              dsimp only at found
              cases result : Node.addEntry newEntry depth (Node.mk allNodes
                  (newEntry.name.take (cummulativeString.length + len)) {} [(partialString.drop len, child)])
                  (allNodes + 1) with
              | error error =>
                rw [result] at found
                cases found
              | ok pair =>
                rw [result] at found
                cases found
                obtain ⟨more, perm⟩ := ih result
                refine ⟨by omega, ?_⟩
                have first : List.range' allNodes (pair.2 - allNodes) =
                    allNodes :: List.range' (allNodes + 1) (pair.2 - (allNodes + 1)) := by
                  rw [show pair.2 - allNodes = pair.2 - (allNodes + 1) + 1 by omega, List.range'_succ]
                rw [first]
                rw [List.perm_iff_count] at perm ⊢
                intro position
                have here := perm position
                simp only [Node.indexes, indexesOf, List.count_append, List.count_cons, List.count_nil] at here ⊢
                omega
    rw [Node.addEntry] at added
    split at added
    · rename_i result found
      cases result with
      | error error => cases added
      | ok pair =>
        cases added
        obtain ⟨more, perm⟩ := edges _ _ _ found
        exact ⟨more, perm.cons index⟩
    · split at added
      · cases added
      · cases added
        refine ⟨Nat.le_succ _, ?_⟩
        rw [List.perm_iff_count]
        intro position
        simp only [Node.indexes, indexesOf_eq, List.flatMap_append, List.flatMap_cons, List.flatMap_nil,
          List.count_append, List.count_cons, List.count_nil, Nat.add_sub_cancel_left, List.range'_one]
        omega

theorem addEntries_indexes {entries : List WriterEntry} {start root : Node} {allNodes count : Nat}
    (built : addEntries entries (start, allNodes) = .ok (root, count)) :
    allNodes ≤ count ∧ root.indexes.Perm (start.indexes ++ List.range' allNodes (count - allNodes)) := by
  induction entries generalizing start allNodes with
  | nil =>
    cases built
    simp
  | cons entry rest ih =>
    have step : addEntries (entry :: rest) (start, allNodes) =
      (start.addEntry entry (entry.name.length + allNodes + 2) allNodes).bind (addEntries rest) := rfl
    rw [step] at built
    cases added : start.addEntry entry (entry.name.length + allNodes + 2) allNodes with
    | error error =>
      rw [added] at built
      cases built
    | ok pair =>
      obtain ⟨after, made⟩ := pair
      rw [added] at built
      obtain ⟨more, first⟩ := addEntry_indexes added
      obtain ⟨evenMore, later⟩ := ih built
      refine ⟨by omega, ?_⟩
      have whole : List.range' allNodes (count - allNodes) =
          List.range' allNodes (made - allNodes) ++ List.range' made (count - made) := by
        have split := @List.range'_append_1 allNodes (made - allNodes) (count - made)
        rw [Nat.add_sub_of_le more, show made - allNodes + (count - made) = count - allNodes by omega] at split
        exact split.symm
      rw [whole, ← List.append_assoc]
      exact later.trans (first.append_right _)

/-- The nodes in the order in which they were made. -/
def Node.allNodes (root : Node) (count : Nat) : List TrieNode :=
  (List.range count).map fun i => (root.placed.lookup i).getD (.of {} [])

/-- **What `buildTrie` makes is a trie**: its nodes with their children. -/
theorem buildTrie_allNodes {exports : List Export} {root : Node} {count : Nat}
    (built : buildTrie exports = .ok (root, count)) :
    ∃ trie : AllNodes, trie.nodes = root.allNodes count ∧ root.indexes.Perm (List.range count) := by
  obtain ⟨more, perm⟩ := addEntries_indexes built
  have positions : root.indexes.Perm (List.range count) := by
    have first : List.range count = 0 :: List.range' 1 (count - 1) := by
      obtain ⟨less, rfl⟩ : ∃ less, count = less + 1 := ⟨count - 1, by omega⟩
      rw [List.range_succ_eq_map, List.range'_eq_map_range]
      simp [Nat.add_comm]
    rw [first]
    exact perm
  refine ⟨⟨root.allNodes count, fun node member edge child => ?_⟩, rfl, positions⟩
  obtain ⟨i, -, rfl⟩ := List.mem_map.1 member
  rw [Node.allNodes, List.length_map, List.length_range]
  cases found : root.placed.lookup i with
  | none =>
    rw [found] at child
    cases child
  | some node =>
    rw [found] at child
    have there : (i, node) ∈ root.placed := by
      obtain ⟨before, behind, split, -⟩ := List.lookup_eq_some_iff.1 found
      rw [split]
      exact List.mem_append_right _ List.mem_cons_self
    exact List.mem_range.1 (positions.mem_iff.1 (placed_closed root _ there edge child))

end Cctools.MachO
