/-
# Cctools.MachO.TrieRoundTrip -- an exports trie is read back as it was built

`parseTrie` on the bytes of `buildTrieBytes` gives the exports in their order, each
as it was (`buildTrieBytes_parseTrie`).  The entries come back in the order of their
nodes, and a leaf is made for each export in its turn.

There is one exception, and it is exact (`Surrounded`): a byte counts the children of
a node, and a node has 256 of them when its name was exported after one that goes on
from it, and every character follows it in some name.  The reader sees none of them.
-/
import Cctools.MachO.TrieVisits
import Cctools.MachO.TrieDated

namespace Cctools.MachO

set_option autoImplicit false

open Cctools.LinkEdit Cctools.Theory Cctools.MachO.ParseTrie

/-! ## What the reader does not see -/

theorem visible_sublist (node : Node) : node.visible.Sublist node.terminals := by
  induction node using Node.children_induction with
  | step index _ terminalEntry children ih =>
    rw [Node.visible, Node.terminals]
    refine (List.Sublist.refl _).append ?_
    generalize children.length % 256 = count
    induction children generalizing count with
    | nil =>
      rw [visibleOf.eq_def]
      exact List.nil_sublist _
    | cons edge rest ih' =>
      rw [List.forall_mem_cons] at ih
      cases count with
      | zero =>
        rw [visibleOf.eq_def]
        exact List.nil_sublist _
      | succ count => exact ih.1.append (ih' ih.2 count)

theorem visibleOf_length (children : List Edge) :
    visibleOf children children.length = children.flatMap fun edge => edge.2.visible := by
  induction children with
  | nil => rw [visibleOf.eq_def, List.flatMap_nil]
  | cons edge rest ih => rw [List.length_cons, visibleOf, ih, List.flatMap_cons]

variable {children : List Edge} {cummulativeString : List UInt8} {terminalEntry : WriterEntry}

theorem visible_of_lt {index : Nat} (few : children.length < 256) :
    (Node.mk index cummulativeString terminalEntry children).visible =
      (if terminalEntry.name.isEmpty then [] else [(index, terminalEntry)]) ++
        children.flatMap fun edge => edge.2.visible := by
  rw [Node.visible, Nat.mod_eq_of_lt few, visibleOf_length]

theorem uncrowded_mk {index : Nat}
    :
    (Node.mk index cummulativeString terminalEntry children).Uncrowded ↔
      children.length < 256 ∧ ∀ edge ∈ children, edge.2.Uncrowded := by
  have number : (TrieNode.of terminalEntry children).children.length = children.length := List.length_map _
  simp only [Node.Uncrowded, Node.placed, placedOf_eq, List.forall_mem_cons, List.forall_mem_flatMap, number]

variable {node : Node}

theorem Node.Uncrowded.visible (uncrowded : node.Uncrowded) : node.visible = node.terminals := by
  induction node using Node.children_induction with
  | step index cummulativeString terminalEntry children ih =>
    obtain ⟨few, below⟩ := uncrowded_mk.1 uncrowded
    rw [visible_of_lt few, Node.terminals, terminalsOf_eq]
    congr 1
    exact List.flatMap_congr fun edge member => ih edge member (below edge member)

/-- The first characters of the edges are bytes that differ. -/
theorem children_le (firsts : (children.map fun edge => edge.1.headD 0).Nodup) :
    children.length ≤ 256 ∧
      (256 ≤ children.length ↔ ∀ byte : UInt8, byte ∈ children.map fun edge => edge.1.headD 0) := by
  have distinct : ((children.map fun edge => edge.1.headD 0).map UInt8.toNat).Nodup :=
    firsts.map fun _ _ => UInt8.toNat.inj
  have inside : ((children.map fun edge => edge.1.headD 0).map UInt8.toNat) ⊆ List.range 256 := by
    intro value member
    obtain ⟨byte, _, rfl⟩ := List.mem_map.1 member
    exact List.mem_range.2 byte.toNat_lt
  have part := List.subperm_of_subset distinct inside
  have short := part.length_le
  rw [List.length_map, List.length_map, List.length_range] at short
  refine ⟨short, fun many byte => ?_, fun all => ?_⟩
  · have whole := part.perm_of_length_le (by simpa using many)
    obtain ⟨other, member, same⟩ := List.mem_map.1 (whole.mem_iff.2 (List.mem_range.2 byte.toNat_lt))
    rwa [UInt8.toNat.inj same] at member
  · have every : List.range 256 ⊆ (children.map fun edge => edge.1.headD 0).map UInt8.toNat := by
      intro value member
      refine List.mem_map.2 ⟨UInt8.ofNat value, all _, UInt8.toNat_ofNat_of_lt' (List.mem_range.1 member)⟩
    simpa using (List.subperm_of_subset List.nodup_range every).length_le

/-- Sums that are the same in the end are the same in each part. -/
theorem eq_of_sum_eq {α : Type} {f g : α → Nat} {parts : List α} (le : ∀ part ∈ parts, f part ≤ g part)
    (same : (parts.map f).sum = (parts.map g).sum) : ∀ part ∈ parts, f part = g part := by
  induction parts with
  | nil =>
    intro part member
    cases member
  | cons first rest ih =>
    rw [List.forall_mem_cons] at le
    rw [List.map_cons, List.map_cons, List.sum_cons, List.sum_cons] at same
    have later := List.sum_le_sum le.2
    have here := le.1
    exact List.forall_mem_cons.2 ⟨by omega, ih le.2 (by omega)⟩

theorem Good.uncrowded (good : Good node) (whole : node.visible.length = node.terminals.length) :
    node.Uncrowded := by
  induction good with
  | @mk index cummulativeString terminalEntry children firsts _ _ _ _ inhabited _ ih =>
    have few : children.length < 256 := by
      by_contra many
      have all : children.length = 256 := le_antisymm (children_le firsts).1 (not_lt.mp many)
      cases children with
      | nil => cases all
      | cons edge rest =>
        have shown : edge.2.terminals ≠ [] := by
          intro none_
          apply inhabited edge List.mem_cons_self
          rw [← terminals_snd, none_, List.map_nil]
        have positive := List.length_pos_of_ne_nil shown
        rw [Node.visible, Node.terminals, all, terminalsOf_eq, visibleOf.eq_def, List.flatMap_cons] at whole
        simp only [List.length_append, List.length_nil] at whole
        omega
    refine uncrowded_mk.2 ⟨few, fun edge member => ih edge member ?_⟩
    rw [visible_of_lt few, Node.terminals, terminalsOf_eq, List.length_append, List.length_append,
      Nat.add_left_cancel_iff, List.length_flatMap, List.length_flatMap] at whole
    exact eq_of_sum_eq (fun edge _ => (visible_sublist edge.2).length_le) whole edge member

/-! ## Nodes with 256 children -/

theorem mem_terminals {index : Nat} {terminal : Nat × WriterEntry} :
    terminal ∈ (Node.mk index cummulativeString terminalEntry children).terminals ↔
      terminal = (index, terminalEntry) ∧ terminalEntry.name ≠ [] ∨ ∃ edge ∈ children, terminal ∈ edge.2.terminals := by
  rw [Node.terminals, terminalsOf_eq, List.mem_append, List.mem_flatMap]
  by_cases none_ : terminalEntry.name = [] <;> simp [none_]

theorem Good.spells_terminal (good : Good node) {terminal : Nat × WriterEntry}
    (member : terminal ∈ node.terminals) : node.cummulativeString <+: terminal.2.name :=
  (good.spelled _ (terminals_snd node ▸ List.mem_map_of_mem member)).2

/-- A name that came after one that goes on from it, and that every character follows. -/
def Node.Surrounds (node : Node) (own : Nat × WriterEntry) : Prop :=
  (∃ early ∈ node.terminals, early.1 < own.1 ∧ own.2.name <+: early.2.name) ∧
    ∀ byte : UInt8, byte ≠ 0 → ∃ other ∈ node.terminals, own.2.name ++ [byte] <+: other.2.name

section Children

variable {index : Nat} {cummulativeString : List UInt8} {terminalEntry : WriterEntry} {children : List Edge}

theorem Good.at_empty (good : Good (.mk index cummulativeString terminalEntry children)) {edge : Edge}
    (inside : edge ∈ children) (none_ : edge.1 = []) :
    ∃ own, edge.2.terminals = [(edge.2.index, own)] ∧ own.name = cummulativeString := by
  cases good with
  | mk _ _ _ _ empty inhabited _ =>
    obtain ⟨leaf, name⟩ := empty edge inside none_
    have entries := inhabited edge inside
    obtain ⟨_, ⟨position, _, own, children'⟩⟩ := edge
    obtain rfl : children' = [] := leaf
    refine ⟨own, ?_, name⟩
    have named : own.name ≠ [] := fun unnamed => entries (by simp [Node.entries, entriesOf, unnamed])
    simp [Node.terminals, terminalsOf, named, Node.index]

/-- What goes on like a full edge is below it. -/
theorem Good.mem_below (good : Good (.mk index cummulativeString terminalEntry children)) {edge : Edge}
    (inside : edge ∈ children) (full : edge.1 ≠ []) {terminal : Nat × WriterEntry}
    (member : terminal ∈ (Node.mk index cummulativeString terminalEntry children).terminals)
    (begins : cummulativeString ++ edge.1 <+: terminal.2.name) : terminal ∈ edge.2.terminals := by
  have longer : terminal.2.name ≠ cummulativeString := by
    intro same
    have long := begins.length_le
    rw [same, List.length_append] at long
    have := List.length_pos_of_ne_nil full
    omega
  rcases mem_terminals.1 member with ⟨rfl, named⟩ | ⟨other, inside', there⟩
  · cases good with
    | mk _ _ _ terminal' _ _ _ =>
      rcases terminal' with rfl | ⟨same, -, -⟩
      · exact absurd rfl named
      · exact absurd same longer
  · have full' : other.1 ≠ [] := by
      intro none_
      obtain ⟨own, leaf, name⟩ := good.at_empty inside' none_
      rw [leaf, List.mem_singleton] at there
      exact longer (by rw [there, name])
    cases good with
    | mk firsts _ spells _ _ _ goods =>
      have spelled := (goods other inside').spells_terminal there
      obtain ⟨rest, whole⟩ := begins
      rw [spells other inside', ← whole, List.append_assoc, List.prefix_append_right_inj] at spelled
      have first : other.1.headD 0 = edge.1.headD 0 :=
        (headD_eq_headD full' spelled).trans (headD_eq_headD full (List.prefix_append _ _)).symm
      exact List.inj_on_of_nodup_map firsts inside' inside first ▸ there

/-- **A node has 256 children** when its own name is one of the edges, and every character is. -/
theorem Good.crowded (good : Good (.mk index cummulativeString terminalEntry children)) :
    256 ≤ children.length ↔ (∃ edge ∈ children, edge.1 = []) ∧ ∀ byte : UInt8, byte ≠ 0 →
      ∃ terminal ∈ (Node.mk index cummulativeString terminalEntry children).terminals,
        cummulativeString ++ [byte] <+: terminal.2.name := by
  have whole := good
  cases good with
  | mk firsts nulFree spells terminal' _ inhabited goods =>
  rw [(children_le firsts).2]
  constructor
  · intro all
    refine ⟨?_, fun byte nonzero => ?_⟩
    · obtain ⟨⟨string, child⟩, inside, first⟩ := List.mem_map.1 (all 0)
      refine ⟨_, inside, ?_⟩
      cases string with
      | nil => rfl
      | cons byte more =>
        have zero : byte = 0 := first
        exact absurd (zero ▸ List.mem_cons_self) (nulFree _ inside)
    · obtain ⟨⟨string, child⟩, inside, first⟩ := List.mem_map.1 (all byte)
      obtain ⟨terminal, there, -⟩ := mem_terminals_of_entries (inhabited _ inside)
      refine ⟨terminal, mem_terminals.2 (.inr ⟨_, inside, there⟩), ?_⟩
      have spelled := (goods _ inside).spells_terminal there
      rw [spells _ inside] at spelled
      refine List.IsPrefix.trans ?_ spelled
      rw [List.prefix_append_right_inj]
      cases string with
      | nil => exact absurd first.symm nonzero
      | cons head more =>
        have first : head = byte := first
        exact ⟨more, by rw [first]; rfl⟩
  · rintro ⟨⟨edge, inside, none_⟩, all⟩ byte
    by_cases zero : byte = 0
    · exact List.mem_map.2 ⟨edge, inside, by rw [none_, zero]; rfl⟩
    obtain ⟨terminal, member, begins⟩ := all byte zero
    have longer : terminal.2.name ≠ cummulativeString := by
      intro same
      have long := begins.length_le
      rw [same, List.length_append, List.length_singleton] at long
      omega
    rcases mem_terminals.1 member with ⟨rfl, named⟩ | ⟨other, inside', there⟩
    · rcases terminal' with rfl | ⟨same, -, -⟩
      · exact absurd rfl named
      · exact absurd same longer
    · refine List.mem_map.2 ⟨other, inside', ?_⟩
      have full : other.1 ≠ [] := by
        intro none_
        obtain ⟨own, leaf, name⟩ := whole.at_empty inside' none_
        rw [leaf, List.mem_singleton] at there
        exact longer (by rw [there, name])
      have spelled := (goods other inside').spells_terminal there
      obtain ⟨rest, isWhole⟩ := begins
      rw [spells other inside', ← isWhole, List.append_assoc, List.prefix_append_right_inj] at spelled
      exact headD_eq_headD full spelled

theorem Node.Surrounds.of_child {edge : Edge} (inside : edge ∈ children) {own : Nat × WriterEntry}
    (surrounds : edge.2.Surrounds own) :
    (Node.mk index cummulativeString terminalEntry children).Surrounds own := by
  have up (terminal : Nat × WriterEntry) (there : terminal ∈ edge.2.terminals) :
      terminal ∈ (Node.mk index cummulativeString terminalEntry children).terminals :=
    mem_terminals.2 (.inr ⟨edge, inside, there⟩)
  obtain ⟨⟨early, there, older⟩, all⟩ := surrounds
  refine ⟨⟨early, up early there, older⟩, fun byte nonzero => ?_⟩
  obtain ⟨other, there, follows⟩ := all byte nonzero
  exact ⟨other, up other there, follows⟩

end Children

/-- **A count of children overflows exactly when a name is surrounded.** -/
theorem Good.uncrowded_iff (good : Good node) (dated : Dated node) :
    node.Uncrowded ↔ ∀ own ∈ node.terminals, ¬ node.Surrounds own := by
  induction node using Node.children_induction with
  | step index cummulativeString terminalEntry children ih =>
    have whole := good
    cases good with
    | mk _ _ spells _ _ _ goods =>
    cases dated with
    | mk isEarly isLate below =>
    rw [uncrowded_mk]
    constructor
    · rintro ⟨few, uncrowded⟩ own member ⟨⟨early, there, older, goesOn⟩, all⟩
      rcases mem_terminals.1 member with ⟨rfl, named⟩ | ⟨edge, inside, here⟩
      · rcases mem_terminals.1 there with ⟨rfl, -⟩ | ⟨edge, inside, there⟩
        · exact Nat.lt_irrefl _ older
        · have later := isEarly named early (by rw [terminalsOf_eq]; exact List.mem_flatMap.2 ⟨edge, inside, there⟩)
          exact Nat.lt_asymm older later
      · by_cases none_ : edge.1 = []
        · obtain ⟨entry, leaf, name⟩ := whole.at_empty inside none_
          rw [leaf, List.mem_singleton] at here
          subst here
          exact absurd (whole.crowded.2 ⟨⟨edge, inside, none_⟩, name ▸ all⟩) (Nat.not_le.2 few)
        · have begins := (goods edge inside).spells_terminal here
          rw [spells edge inside] at begins
          have down {other : Nat × WriterEntry} (member : other ∈ _) (goesOn : own.2.name <+: other.2.name) :=
            whole.mem_below inside none_ member (begins.trans goesOn)
          refine ((ih edge inside (goods edge inside) (below edge inside)).1 (uncrowded edge inside)) own here
            ⟨⟨early, down there goesOn, older, goesOn⟩, fun byte nonzero => ?_⟩
          obtain ⟨other, there, follows⟩ := all byte nonzero
          exact ⟨other, down there ((List.prefix_append _ _).trans follows), follows⟩
    · intro none_
      refine ⟨?_, fun edge inside => (ih edge inside (goods edge inside) (below edge inside)).2 ?_⟩
      · by_contra many
        obtain ⟨⟨edge, inside, empty⟩, all⟩ := whole.crowded.1 (Nat.not_lt.1 many)
        obtain ⟨own, leaf, name⟩ := whole.at_empty inside empty
        obtain ⟨early, there, older⟩ := isLate edge inside empty
        rw [terminalsOf_eq] at there
        obtain ⟨beside, inside', there⟩ := List.mem_flatMap.1 there
        have isThere : early ∈ (Node.mk index cummulativeString terminalEntry children).terminals :=
          mem_terminals.2 (.inr ⟨beside, inside', there⟩)
        refine none_ (edge.2.index, own) (mem_terminals.2 (.inr ⟨edge, inside, by simp [leaf]⟩))
          ⟨⟨early, isThere, older, ?_⟩, ?_⟩
        · exact name ▸ whole.spells_terminal isThere
        · exact name ▸ all
      · intro own member surrounds
        exact none_ own (mem_terminals.2 (.inr ⟨edge, inside, member⟩)) (.of_child inside surrounds)

/-! ## Where the nodes are written -/

theorem placed_fst (node : Node) : node.placed.map Prod.fst = node.indexes := by
  induction node using Node.children_induction with
  | step index cummulativeString terminalEntry children ih =>
    rw [Node.placed, Node.indexes, placedOf_eq, indexesOf_eq, List.map_cons, List.map_flatMap]
    congr 1
    exact List.flatMap_congr ih

theorem lookup_of_mem {pairs : List (Nat × TrieNode)} (distinct : (pairs.map Prod.fst).Nodup)
    {pair : Nat × TrieNode} (member : pair ∈ pairs) : pairs.lookup pair.1 = some pair.2 := by
  induction pairs with
  | nil => cases member
  | cons first rest ih =>
    rw [List.map_cons, List.nodup_cons] at distinct
    obtain ⟨key, value⟩ := first
    rcases List.mem_cons.1 member with rfl | later
    · rw [List.lookup_cons_self]
    · have apart : (pair.1 == key) = false := by
        rw [beq_eq_false_iff_ne]
        rintro rfl
        exact distinct.1 (List.mem_map.2 ⟨pair, later, rfl⟩)
      rw [List.lookup_cons, apart]
      exact ih distinct.2 later

theorem placed_below (node : Node) :
    ∀ placed ∈ node.placed, ∀ edge ∈ placed.2.children, edge.2 ∈ indexesOf node.children := by
  obtain ⟨index, cummulativeString, terminalEntry, children⟩ := node
  intro placed member edge down
  rw [Node.children, indexesOf_eq]
  rw [Node.placed, placedOf_eq] at member
  rcases List.mem_cons.1 member with rfl | below
  · obtain ⟨⟨string, child⟩, inside, rfl⟩ := List.mem_map.1 down
    refine List.mem_flatMap.2 ⟨_, inside, ?_⟩
    obtain ⟨_, _, _, _⟩ := child
    exact List.mem_cons_self
  · obtain ⟨child, inside, there⟩ := List.mem_flatMap.1 below
    exact List.mem_flatMap.2 ⟨child, inside, placed_closed child.2 placed there edge down⟩

section Written

variable {root : Node} {count : Nat} (positions : root.indexes.Perm (List.range count))

include positions

theorem placed_perm : (root.placed.map Prod.snd).Perm (root.allNodes count) := by
  have distinct : (root.placed.map Prod.fst).Nodup := by
    rw [placed_fst]
    exact positions.nodup_iff.2 List.nodup_range
  have found : root.placed.map Prod.snd =
      root.indexes.map fun i => (root.placed.lookup i).getD (.of {} []) := by
    rw [← placed_fst, List.map_map]
    apply List.map_congr_left
    intro placed member
    rw [Function.comp_apply, lookup_of_mem distinct member, Option.getD_some]
  rw [found]
  exact positions.map _

theorem allNodes_at {placed : Nat × TrieNode} (member : placed ∈ root.placed) :
    (root.allNodes count)[placed.1]? = some placed.2 := by
  have distinct : (root.placed.map Prod.fst).Nodup := by
    rw [placed_fst]
    exact positions.nodup_iff.2 List.nodup_range
  have inside : placed.1 < count := by
    rw [← List.mem_range, ← positions.mem_iff, ← placed_fst]
    exact List.mem_map_of_mem member
  rw [Node.allNodes, List.getElem?_map, List.getElem?_range inside, Option.map_some,
    lookup_of_mem distinct member, Option.getD_some]

end Written

/-! ## The bytes -/

/-- `buildTrieBytes`, with a bound on the number of passes. -/
def buildTrieBytes (fuel : Nat) (exports : List Export) : Option (Except TrieError (List UInt8)) :=
  match buildTrie exports with
  | .error error => some (.error error)
  | .ok (root, count) =>
    (Loop.doWhile (fun offsets => some (updateOffsets (root.allNodes count) 0 0 offsets)) fuel fun _ => 0).map
      fun offsets => .ok (padToSize 8 ((root.allNodes count).flatMap (TrieNode.bytes · offsets)))

namespace AllNodes

variable {trie : AllNodes} {offsets : Offsets}

theorem settled_small {fuel : Nat}
    (ended : Loop.doWhile (fun offsets => some (trie.pass offsets)) fuel (fun _ => 0) = some offsets) :
    ∀ k < trie.nodes.length, offsets k < 2 ^ 32 := by
  obtain ⟨last, -, stopped⟩ :=
    @Loop.doWhile_invariant _ _ (fun _ => True) _ _ _ (fun _ _ _ _ => trivial) trivial ended
  intro k inside
  rw [← show (trie.pass last).1 = offsets from congrArg Prod.fst (Option.some.inj stopped)]
  exact updateOffsets_small (by decide) (Nat.zero_le k) (by omega)

theorem position_succ {k : Nat} {node : TrieNode} (here : trie.nodes[k]? = some node) :
    trie.position offsets (k + 1) = trie.position offsets k + (node.bytes offsets).length := by
  rw [position, position, List.take_add_one, here, List.flatMap_append, List.length_append]
  simp

theorem position_mono {k l : Nat} (le : k ≤ l) : trie.position offsets k ≤ trie.position offsets l := by
  rw [position, position]
  have part : (trie.nodes.take k).Sublist (trie.nodes.take l) := List.take_sublist_take_left le
  exact (part.flatMap _).length_le

end AllNodes

theorem indexes_mk (node : Node) : node.indexes = node.index :: indexesOf node.children := by
  obtain ⟨_, _, _, _⟩ := node
  rw [Node.indexes]
  rfl

/-- **The nodes stand where their offsets say**, from the first on. -/
theorem stands_of_settled {root : Node} {count : Nat} {trie : AllNodes} {offsets : Offsets}
    (nodes : trie.nodes = root.allNodes count) (positions : root.indexes.Perm (List.range count))
    (first : root.index = 0) (string : root.cummulativeString = [])
    (placed : ∀ k < trie.nodes.length, offsets k = trie.position offsets k)
    (small : ∀ k < trie.nodes.length, offsets k < 2 ^ 32) :
    Stands (padToSize 8 (trie.stream offsets)) offsets (fun i => trie.position offsets (i + 1)) root := by
  have number : trie.nodes.length = count := by
    rw [nodes, Node.allNodes, List.length_map, List.length_range]
  have there : ∀ placed ∈ root.placed, trie.nodes[placed.1]? = some placed.2 := by
    intro placed member
    rw [nodes]
    exact allNodes_at positions member
  have inside : ∀ i ∈ root.indexes, i < trie.nodes.length := by
    intro i member
    rw [number]
    exact List.mem_range.1 (positions.mem_iff.1 member)
  obtain ⟨zeros, padded⟩ := padToSize_eq 8 (trie.stream offsets)
  rw [padded]
  refine ⟨?_, ?_, ?_, ?_⟩
  · intro node member
    have here := there node member
    rw [placed _ (List.getElem?_eq_some_iff.1 here).1]
    refine (AllNodes.bytes_at_position here).trans ?_
    rw [List.drop_append]
    exact List.prefix_append _ _
  · intro node member
    have here := there node member
    rw [placed _ (List.getElem?_eq_some_iff.1 here).1, AllNodes.position_succ here]
  · intro node member edge down
    have below := placed_below root node member edge down
    have distinct : root.indexes.Nodup := positions.nodup_iff.2 List.nodup_range
    rw [indexes_mk, first] at distinct
    have positive : 1 ≤ edge.2 := by
      rcases Nat.eq_zero_or_pos edge.2 with zero | positive
      · rw [zero] at below
        exact absurd below (List.nodup_cons.1 distinct).1
      · exact positive
    have here := inside edge.2 (by rw [indexes_mk]; exact List.mem_cons_of_mem _ below)
    refine ⟨?_, small _ here⟩
    rw [placed _ here]
    refine lt_of_lt_of_le ?_ (AllNodes.position_mono positive)
    rw [AllNodes.position_succ (List.getElem?_eq_getElem (show 0 < trie.nodes.length by omega))]
    exact Nat.lt_add_left _ (bytes_pos _)
  · have whole : (root.placed.map fun placed => (placed.2.bytes offsets).length).sum =
        (trie.stream offsets).length := by
      rw [AllNodes.stream, List.length_flatMap, nodes]
      have same := ((placed_perm positions).map fun node => (node.bytes offsets).length).sum_eq
      rwa [List.map_map] at same
    rw [string, whole, List.length_append]
    simp

/-! ## The order of the entries -/

/-- What is found of nodes that stand behind each other is in the order of the nodes. -/
theorem tells_sorted {start : Nat} {bytes : List UInt8} {offsets ends : Nat → Nat} {made : List (Nat × WriterEntry)}
    {found : List EntryWithOffset} (tells : List.Forall₂ (Tells start bytes offsets ends) made found)
    (order : made.Pairwise fun a b => a.1 < b.1)
    (apart : ∀ a ∈ made, ∀ b ∈ made, a.1 < b.1 → ends a.1 ≤ offsets b.1) :
    found.Pairwise fun a b => a.nodeOffset < b.nodeOffset := by
  induction tells with
  | nil => exact .nil
  | @cons first entry rest entries here later ih =>
    rw [List.pairwise_cons] at order
    refine List.pairwise_cons.2 ⟨?_, ih order.2 fun a inside b inside' =>
      apart a (List.mem_cons_of_mem _ inside) b (List.mem_cons_of_mem _ inside')⟩
    intro other member
    obtain ⟨i, low, rfl⟩ := List.getElem_of_mem member
    have low' : i < rest.length := by rwa [later.length_eq]
    have tell := (List.forall₂_iff_get.1 later).2 i low' low
    have inside : rest[i] ∈ rest := List.getElem_mem low'
    have := apart first List.mem_cons_self _ (List.mem_cons_of_mem _ inside) (order.1 _ inside)
    exact (here.before.trans_le this).trans tell.after

theorem mergeSort_eq {found sorted : List EntryWithOffset} (perm : sorted.Perm found)
    (order : sorted.Pairwise fun a b => a.nodeOffset < b.nodeOffset) :
    (found.mergeSort fun a b => decide (a.nodeOffset ≤ b.nodeOffset)) = sorted := by
  have ordered := @List.pairwise_mergeSort _ (fun a b : EntryWithOffset => decide (a.nodeOffset ≤ b.nodeOffset))
    (by intro a b c; simp only [decide_eq_true_eq]; omega)
    (by intro a b; simp only [Bool.or_eq_true, decide_eq_true_eq]; omega) found
  simp only [decide_eq_true_eq] at ordered
  have same := (List.mergeSort_perm found fun a b => decide (a.nodeOffset ≤ b.nodeOffset)).trans perm.symm
  refine same.eq_of_pairwise ?_ ordered (order.imp le_of_lt)
  intro a b inside inside' le ge
  have distinct : (sorted.map EntryWithOffset.nodeOffset).Nodup := by
    rw [List.Nodup, List.pairwise_map]
    exact order.imp ne_of_lt
  exact List.inj_on_of_nodup_map distinct (same.mem_iff.1 inside) inside' (le_antisymm le ge)

/-! ## The round trip -/

/-- What `buildTrieBytes` makes of exports with distinct names that are not too long. -/
structure Built (exports : List Export) (root : Node) (count : Nat) (offsets : Offsets) (bytes : List UInt8) :
    Prop where
  built : buildTrie exports = .ok (root, count)
  settles : Loop.Settles (fun fuel => buildTrieBytes fuel exports) (.ok bytes)
  good : Good root
  dated : Dated root
  string : root.cummulativeString = []
  entries : root.entries.Perm (exports.map exportToEntry)
  terminals : ∃ made, root.terminals.Perm made ∧ made.map Prod.snd = exports.map exportToEntry ∧
    made.Pairwise fun a b => a.1 < b.1
  stands : ∃ ends : Nat → Nat, Stands bytes offsets ends root ∧
    ∀ i ∈ root.indexes, ∀ j ∈ root.indexes, i < j → ends i ≤ offsets j
  index : offsets root.index = 0
  length : bytes.length < 2 ^ 31
  nonempty : bytes ≠ []

/-- The exports take, with what stands around each of them, less than 2 GB. -/
def Small (exports : List Export) : Prop :=
  (exports.map fun exportInfo =>
    exportInfo.name.bytes.length + (exportPayload exportInfo).length + 20).sum < 2 ^ 31 - 16

theorem bytes_le_widest {trie : AllNodes} {offsets : Offsets} (small : ∀ k < trie.nodes.length, offsets k < 2 ^ 32) :
    ∀ node ∈ trie.nodes, (node.bytes offsets).length ≤ node.widest := by
  intro node member
  have below : ∀ edge ∈ node.children, offsets edge.2 < 2 ^ 32 :=
    fun edge inside => small _ (trie.closed node member edge inside)
  rw [node.length_bytes fun edge inside => lt_trans (below edge inside) (by decide), TrieNode.size,
    TrieNode.widest]
  refine Nat.add_le_add_left (List.sum_le_sum fun edge inside => ?_) _
  exact Nat.add_le_add_left
    (Leb128.ulebSize_le_of_lt 10 (lt_trans (below edge inside) (show 2 ^ 32 < 128 ^ (4 + 1) by decide))) _

theorem entries_sum_le (exports : List Export) :
    ((exports.map exportToEntry).map fun entry => entry.name.length + entry.payload.length + 20).sum ≤
      (exports.map fun exportInfo =>
        exportInfo.name.bytes.length + (exportPayload exportInfo).length + 20).sum := by
  rw [List.map_map]
  apply List.sum_le_sum
  intro exportInfo _
  have short : (exportToEntry exportInfo).payload.length ≤ (exportPayload exportInfo).length := by
    rw [exportToEntry]
    simp only
    split
    · exact Nat.zero_le _
    · exact le_refl _
  have name : (exportToEntry exportInfo).name = exportInfo.name.bytes := rfl
  simp only [Function.comp_apply, name]
  omega

theorem buildTrieBytes_built {exports : List Export} (named : ∀ exportInfo ∈ exports, exportInfo.name ≠ .empty)
    (distinct : (exports.map Export.name).Nodup) (small : Small exports) :
    ∃ root count offsets bytes, Built exports root count offsets bytes := by
  have empty : Good (.mk 0 [] {} []) :=
    .mk (by simp) (by simp) (by simp) (.inl rfl) (by simp) (by simp) (by simp)
  have namedEntries : ∀ entry ∈ exports.map exportToEntry,
      entry.name ≠ [] ∧ (0 : UInt8) ∉ entry.name ∧ entry.payload ≠ [] := by
    intro entry member
    obtain ⟨exportInfo, inside, rfl⟩ := List.mem_map.1 member
    exact exportToEntry_named (named exportInfo inside)
  have distinctEntries : ((exports.map exportToEntry).map WriterEntry.name).Nodup := by
    rw [List.map_map]
    have same : exports.map (WriterEntry.name ∘ exportToEntry) = (exports.map Export.name).map CString.bytes := by
      rw [List.map_map]
      rfl
    rw [same]
    exact distinct.map fun _ _ => CString.ext
  have absent : ∀ entry ∈ exports.map exportToEntry, ∀ old ∈ (Node.mk 0 [] {} []).entries,
      old.name ≠ entry.name := by simp [Node.entries, entriesOf]
  obtain ⟨root, count, builds, good, string, index, entries, more, indexes, -⟩ :=
    addEntries_spec empty rfl namedEntries distinctEntries absent 1
  have built : buildTrie exports = .ok (root, count) := builds
  have index : root.index = 0 := index
  obtain ⟨grown, aged⟩ := addEntries_grown empty rfl namedEntries distinctEntries absent Aged.keeps
    ⟨rfl, by simp [Node.indexes, indexesOf], .leaf ..⟩ builds
  have onlyNamed : ∀ entry ∈ exports.map exportToEntry, entry.name ≠ [] := fun entry member =>
    (namedEntries entry member).1
  obtain ⟨made, terminals, entriesMade, order, -⟩ := grown.terminals onlyNamed
  have heft := grown.heft onlyNamed
  obtain ⟨trie, nodes, positions⟩ := buildTrie_allNodes built
  have weights : (trie.nodes.map TrieNode.widest).sum < 2 ^ 31 - 8 := by
    have same := ((placed_perm positions).map TrieNode.widest).sum_eq
    rw [List.map_map, ← nodes] at same
    have bound := entries_sum_le exports
    have bare : (Node.mk 0 [] {} []).heft = 2 := rfl
    have heft : (root.placed.map (TrieNode.widest ∘ Prod.snd)).sum ≤ _ := heft
    unfold Small at small
    omega
  obtain ⟨-, fuel, offsets, ended, placed, -⟩ :=
    @AllNodes.settles_of_small trie (le_trans (le_of_lt weights) (by decide))
  have smallOffsets := AllNodes.settled_small ended
  have root_inside : root.index ∈ root.indexes := by
    rw [indexes_mk]
    exact List.mem_cons_self
  have inRange : ∀ i ∈ root.indexes, i < trie.nodes.length := by
    intro i member
    rw [nodes, Node.allNodes, List.length_map, List.length_range]
    exact List.mem_range.1 (positions.mem_iff.1 member)
  have stands := stands_of_settled nodes positions index string placed smallOffsets
  refine ⟨root, count, offsets, padToSize 8 (trie.stream offsets), ⟨built, ⟨fuel, ?_⟩, good, aged.dated, string, ?_,
    ⟨made, ?_, entriesMade, order⟩, ⟨_, stands, ?_⟩, ?_, ?_, ?_⟩⟩
  · intro more enough
    have again := Loop.doWhile_mono enough ended
    simp only [buildTrieBytes, built, ← nodes]
    rw [show Loop.doWhile (fun offsets => some (updateOffsets trie.nodes 0 0 offsets)) more (fun _ => 0) =
      some offsets from again]
    rfl
  · simpa [Node.entries, entriesOf] using entries
  · simpa [Node.terminals, terminalsOf] using terminals
  · intro i _ j inside before
    rw [placed j (inRange j inside)]
    exact AllNodes.position_mono before
  · rw [index, placed 0 (inRange 0 (index ▸ root_inside))]
    rfl
  · have short : (trie.stream offsets).length ≤ (trie.nodes.map TrieNode.widest).sum := by
      rw [AllNodes.stream, List.length_flatMap]
      exact List.sum_le_sum (bytes_le_widest smallOffsets)
    rw [padToSize, List.length_append, List.length_replicate]
    omega
  · intro none_
    obtain ⟨node, member, _⟩ := List.mem_map.1 ((placed_fst root).symm ▸ root_inside)
    have lies := stands.lies node member
    rw [none_, List.drop_nil, List.prefix_nil] at lies
    exact absurd (bytes_pos node.2) (by rw [lies]; exact Nat.lt_irrefl _)

section RoundTrip

variable {exports : List Export} {root : Node} {count : Nat} {offsets : Offsets} {bytes : List UInt8} {start : Nat}

theorem payload_of_named {exportInfo : Export} (named : exportInfo.name ≠ .empty) :
    (exportToEntry exportInfo).payload = exportPayload exportInfo := by
  have nonempty : exportInfo.name.bytes ≠ [] := fun none_ => named (CString.ext none_)
  simp only [exportToEntry, List.isEmpty_iff, nonempty, if_false]

theorem Built.speaks (built : Built exports root count offsets bytes)
    (named : ∀ exportInfo ∈ exports, exportInfo.name ≠ .empty) (small : Small exports) : Speaks root := by
  intro entry member
  obtain ⟨exportInfo, inside, rfl⟩ := List.mem_map.1 (built.entries.mem_iff.1 member)
  have part : exportInfo.name.bytes.length + (exportPayload exportInfo).length + 20 ≤
      (exports.map fun exportInfo =>
        exportInfo.name.bytes.length + (exportPayload exportInfo).length + 20).sum :=
    List.le_sum_of_mem (List.mem_map.2 ⟨exportInfo, inside, rfl⟩)
  have payload := payload_of_named (named exportInfo inside)
  have name : (exportToEntry exportInfo).name = exportInfo.name.bytes := rfl
  unfold Small at small
  refine ⟨⟨exportInfo, rfl, payload⟩, ?_, ?_⟩
  · rw [payload]
    omega
  · rw [name]
    omega

theorem root_plain {node : Node} (good : Good node) (string : node.cummulativeString = []) :
    node.terminalEntry.name = [] := by
  cases good with
  | mk _ _ _ terminal _ _ _ =>
    rcases terminal with rfl | ⟨-, nonempty, -⟩
    · rfl
    · exact absurd string nonempty

theorem Built.parses (built : Built exports root count offsets bytes) (speaks : Speaks root)
    (low : start + 2 ^ 31 ≤ 2 ^ 64) {ends : Nat → Nat} (stands : Stands bytes offsets ends root)
    (heap : Nat → UInt8) (output : List Entry) :
    ∃ found, List.Forall₂ (Tells start bytes offsets ends) root.visible found ∧
      Loop.Settles (fun fuel => parseTrie start bytes fuel heap output)
        (.ok (output ++ (found.mergeSort fun a b => decide (a.nodeOffset ≤ b.nodeOffset)).map (·.entry))) := by
  have length := built.length
  have onward := @visits start bytes offsets ends (by unfold stop; omega) root built.good stands speaks
  have fresh : Spelled bytes root.cummulativeString ⟨(List.range bytes.length).map heap, []⟩ := by
    refine ⟨by simp, ?_⟩
    rw [built.string]
    rfl
  obtain ⟨after, ⟨_, found, all, tells⟩, needed, ran⟩ := onward _ fresh
    fun named => absurd (root_plain built.good built.string) named
  refine ⟨found, tells, needed, fun fuel enough => ?_⟩
  have ran := ran fuel enough
  simp only [built.index, built.string, List.length_nil, Nat.add_zero] at ran
  simp only [parseTrie, built.nonempty, if_false, ran, all, List.nil_append, Option.map_some, Except.map]

/-- What was found of the leaves, in their order, is what was exported. -/
theorem decodes_of_tells {ends : Nat → Nat} {made : List (Nat × WriterEntry)} {found : List EntryWithOffset}
    (named : ∀ exportInfo ∈ exports, exportInfo.name ≠ .empty)
    (same : made.map Prod.snd = exports.map exportToEntry)
    (tells : List.Forall₂ (Tells start bytes offsets ends) made found) :
    List.Forall₂ (Decodes start bytes) exports (found.map (·.entry)) := by
  induction exports generalizing made found with
  | nil =>
    obtain rfl := List.map_eq_nil_iff.1 same
    cases tells
    exact .nil
  | cons exportInfo rest ih =>
    rw [List.forall_mem_cons] at named
    cases tells with
    | nil => cases same
    | cons here later =>
      rw [List.map_cons, List.map_cons, List.cons.injEq] at same
      refine .cons (here.decodes exportInfo ?_ ?_) (ih named.2 same.2 later)
      · rw [same.1]
        rfl
      · rw [same.1]
        exact payload_of_named named.1

/-- The entries that come after what was there are the exports, unless a count of children overflows. -/
theorem Built.reads (built : Built exports root count offsets bytes)
    (named : ∀ exportInfo ∈ exports, exportInfo.name ≠ .empty) (small : Small exports)
    (low : start + 2 ^ 31 ≤ 2 ^ 64) (heap : Nat → UInt8) (output : List Entry) :
    ∃ entries, Loop.Settles (fun fuel => parseTrie start bytes fuel heap output) (.ok (output ++ entries)) ∧
      (entries.length = exports.length → root.Uncrowded) ∧
      (root.Uncrowded → List.Forall₂ (Decodes start bytes) exports entries) := by
  obtain ⟨ends, stands, apart⟩ := built.stands
  obtain ⟨made, terminals, same, order⟩ := built.terminals
  obtain ⟨found, tells, settles⟩ := built.parses (built.speaks named small) low stands heap output
  refine ⟨_, settles, fun count => ?_, fun uncrowded => ?_⟩
  · apply built.good.uncrowded
    rw [List.length_map, List.length_mergeSort, ← tells.length_eq] at count
    have leaves := congrArg List.length same
    rw [List.length_map, List.length_map] at leaves
    rw [count, terminals.length_eq, leaves]
  · rw [uncrowded.visible] at tells
    obtain ⟨sorted, tells, perm⟩ := List.perm_comp_forall₂ terminals.symm tells
    have inside : ∀ terminal ∈ made, terminal.1 ∈ root.indexes :=
      fun terminal member => mem_terminals_fst root terminal (terminals.mem_iff.2 member)
    rw [mergeSort_eq perm (tells_sorted tells order fun a here b there before =>
      apart _ (inside a here) _ (inside b there) before)]
    exact decodes_of_tells named same tells

/-- One of the names stands behind one that goes on from it, and every character follows it in some name. -/
def Surrounded (names : List (List UInt8)) : Prop :=
  ∃ early own, [early, own].Sublist names ∧ own <+: early ∧
    ∀ byte : UInt8, byte ≠ 0 → ∃ other ∈ names, own ++ [byte] <+: other

theorem sublist_pair {made : List (Nat × WriterEntry)} (order : made.Pairwise fun a b => a.1 < b.1)
    {a b : Nat × WriterEntry} (first : a ∈ made) (second : b ∈ made) : [a, b].Sublist made ↔ a.1 < b.1 := by
  refine ⟨fun pair => (List.pairwise_cons.1 (order.sublist pair)).1 b (List.mem_singleton_self b), fun before => ?_⟩
  obtain ⟨front, back, rfl⟩ := List.append_of_mem second
  have later := (List.pairwise_cons.1 (List.pairwise_append.1 order).2.1).1
  rcases List.mem_append.1 first with inFront | inBack
  · exact (List.singleton_sublist.2 inFront).append (List.singleton_sublist.2 List.mem_cons_self)
  · rcases List.mem_cons.1 inBack with rfl | behind
    · exact absurd before (Nat.lt_irrefl _)
    · exact absurd before (Nat.lt_asymm (later a behind))

/-- **A count overflows exactly when a name is surrounded.** -/
theorem Built.uncrowded_iff (built : Built exports root count offsets bytes) :
    root.Uncrowded ↔ ¬ Surrounded (exports.map fun exportInfo => exportInfo.name.bytes) := by
  obtain ⟨made, terminals, same, order⟩ := built.terminals
  have names : exports.map (fun exportInfo => exportInfo.name.bytes) = made.map fun terminal => terminal.2.name := by
    have names := congrArg (List.map WriterEntry.name) same
    rw [List.map_map, List.map_map] at names
    exact names.symm
  rw [built.good.uncrowded_iff built.dated, names, ← not_iff_not, not_not]
  push Not
  constructor
  · rintro ⟨own, member, ⟨early, there, older, goesOn⟩, follows⟩
    have pair := (sublist_pair order (terminals.mem_iff.1 there) (terminals.mem_iff.1 member)).2 older
    have pair := pair.map fun terminal => terminal.2.name
    refine ⟨early.2.name, own.2.name, pair, goesOn, fun byte nonzero => ?_⟩
    obtain ⟨other, inside, here⟩ := follows byte nonzero
    exact ⟨_, List.mem_map_of_mem (terminals.mem_iff.1 inside), here⟩
  · rintro ⟨_, _, pair, goesOn, follows⟩
    obtain ⟨_, pair, whole⟩ := List.sublist_map_iff.1 pair
    obtain ⟨early, _, rfl, rfl, rest⟩ := List.map_eq_cons_iff.1 whole.symm
    obtain ⟨own, _, rfl, rfl, nil⟩ := List.map_eq_cons_iff.1 rest
    obtain rfl := List.map_eq_nil_iff.1 nil
    have first := pair.subset List.mem_cons_self
    have second := pair.subset (List.mem_cons_of_mem _ List.mem_cons_self)
    refine ⟨own, terminals.mem_iff.2 second,
      ⟨early, terminals.mem_iff.2 first, (sublist_pair order first second).1 pair, goesOn⟩, fun byte nonzero => ?_⟩
    obtain ⟨_, member, here⟩ := follows byte nonzero
    obtain ⟨other, inside, rfl⟩ := List.mem_map.1 member
    exact ⟨other, terminals.mem_iff.2 inside, here⟩

/-- **The trie is read back**: it is built, and the entries that `parseTrie` makes of it say, one after
the other, what the exports say, exactly when no node has 256 children; and none has when after each of
the names some character never follows. -/
theorem buildTrieBytes_parseTrie (named : ∀ exportInfo ∈ exports, exportInfo.name ≠ .empty)
    (distinct : (exports.map Export.name).Nodup) (small : Small exports) (low : start + 2 ^ 31 ≤ 2 ^ 64) :
    ∃ root count bytes, buildTrie exports = .ok (root, count) ∧
      Loop.Settles (fun fuel => buildTrieBytes fuel exports) (.ok bytes) ∧
      (∀ heap output, ∃ entries,
        Loop.Settles (fun fuel => parseTrie start bytes fuel heap output) (.ok (output ++ entries)) ∧
          (List.Forall₂ (Decodes start bytes) exports entries ↔ root.Uncrowded)) ∧
      ((∀ exportInfo ∈ exports, ∃ byte : UInt8, byte ≠ 0 ∧ ∀ other ∈ exports,
        ¬ exportInfo.name.bytes ++ [byte] <+: other.name.bytes) → root.Uncrowded) := by
  obtain ⟨root, count, offsets, bytes, built⟩ := buildTrieBytes_built named distinct small
  refine ⟨root, count, bytes, built.built, built.settles, fun heap output => ?_, fun names => ?_⟩
  · obtain ⟨entries, settles, whole, decodes⟩ := built.reads named small low heap output
    exact ⟨entries, settles, fun decodes => whole decodes.length_eq.symm, decodes⟩
  · rw [built.uncrowded_iff]
    rintro ⟨early, own, pair, -, follows⟩
    obtain ⟨exportInfo, member, rfl⟩ := List.mem_map.1 (pair.subset (List.mem_cons_of_mem _ List.mem_cons_self))
    obtain ⟨byte, nonzero, never⟩ := names exportInfo member
    obtain ⟨_, member, here⟩ := follows byte nonzero
    obtain ⟨other, inside, rfl⟩ := List.mem_map.1 member
    exact never other inside here

/-- The trie is built, and what `parseTrie` makes of it are the exports and no others. -/
def RoundTrips (start : Nat) (exports : List Export) : Prop :=
  ∃ bytes, Loop.Settles (fun fuel => buildTrieBytes fuel exports) (.ok bytes) ∧ ∀ heap output, ∃ entries sorted,
    Loop.Settles (fun fuel => parseTrie start bytes fuel heap output) (.ok (output ++ entries)) ∧
      sorted.Perm exports ∧ List.Forall₂ (Decodes start bytes) sorted entries

theorem Built.roundTrips_iff (built : Built exports root count offsets bytes)
    (named : ∀ exportInfo ∈ exports, exportInfo.name ≠ .empty) (small : Small exports)
    (low : start + 2 ^ 31 ≤ 2 ^ 64) : RoundTrips start exports ↔ ¬ Surrounded (exports.map fun exportInfo => exportInfo.name.bytes) := by
  rw [← built.uncrowded_iff]
  constructor
  · rintro ⟨bytes', settles, parses⟩
    obtain rfl := Except.ok.inj (settles.unique built.settles)
    obtain ⟨entries, read, whole, -⟩ := built.reads named small low (fun _ => 0) []
    obtain ⟨entries', sorted, read', perm, decodes⟩ := parses (fun _ => 0) []
    obtain rfl := Except.ok.inj (read.unique read')
    exact whole (decodes.length_eq.symm.trans perm.length_eq)
  · intro uncrowded
    refine ⟨bytes, built.settles, fun heap output => ?_⟩
    obtain ⟨entries, read, -, decodes⟩ := built.reads named small low heap output
    exact ⟨entries, exports, read, .refl _, decodes uncrowded⟩

/-- **Exports with different names come back exactly** when none of them stands behind one that goes on
from it and is followed by every character. -/
theorem buildTrieBytes_roundTrips_iff (named : ∀ exportInfo ∈ exports, exportInfo.name ≠ .empty)
    (distinct : (exports.map Export.name).Nodup) (small : Small exports) (low : start + 2 ^ 31 ≤ 2 ^ 64) :
    RoundTrips start exports ↔ ¬ Surrounded (exports.map fun exportInfo => exportInfo.name.bytes) := by
  obtain ⟨root, count, offsets, bytes, built⟩ := buildTrieBytes_built named distinct small
  exact built.roundTrips_iff named small low

end RoundTrip

/-- `ab`, which is exported again, then `a`, which has a resolver, and `b`. -/
def threeExports : List Export :=
  [{ name := ⟨[0x61, 0x62], by decide⟩, flags := 0x08, other := 1, importName := ⟨[0x63], by decide⟩ },
    { name := ⟨[0x61], CString.nulFree_a⟩, flags := 0x10, offset := 0x4000, other := 0x4010 },
    { name := ⟨[0x62], CString.nulFree_b⟩, offset := 0x4020 }]

theorem buildTrieBytes_parseTrie_three : ∃ bytes,
    Loop.Settles (fun fuel => buildTrieBytes fuel threeExports) (.ok bytes) ∧
      ∀ heap output, ∃ entries,
        Loop.Settles (fun fuel => parseTrie 4096 bytes fuel heap output) (.ok (output ++ entries)) ∧
          List.Forall₂ (Decodes 4096 bytes) threeExports entries := by
  obtain ⟨root, count, bytes, _, settles, parses, names⟩ := @buildTrieBytes_parseTrie threeExports 4096
    (by decide) (by decide) (by unfold Small; decide) (by decide)
  have uncrowded : root.Uncrowded := names (by
    intro exportInfo member
    refine ⟨1, by decide, ?_⟩
    revert exportInfo
    decide)
  refine ⟨bytes, settles, fun heap output => ?_⟩
  obtain ⟨entries, settles', iff⟩ := parses heap output
  exact ⟨entries, settles', iff.2 uncrowded⟩

theorem buildTrieBytes_roundTrips_three : RoundTrips 4096 threeExports := by
  refine (buildTrieBytes_roundTrips_iff (by decide) (by decide) (by unfold Small; decide) (by decide)).2 ?_
  rintro ⟨early, own, pair, -, follows⟩
  have never : ∀ own ∈ [[0x61, 0x62], [0x61], [0x62]], ¬ ∃ other ∈ [[0x61, 0x62], [0x61], [0x62]],
      own ++ [(1 : UInt8)] <+: other := by decide
  exact never own (pair.subset (List.mem_cons_of_mem _ List.mem_cons_self)) (follows 1 (by decide))

theorem nulFree_behind (i : Fin 255) : (0 : UInt8) ∉ [0x61, UInt8.ofNat (i + 1)] := by
  intro member
  rcases List.mem_cons.1 member with zero | member
  · cases zero
  · have same := congrArg UInt8.toNat (List.mem_singleton.1 member)
    rw [UInt8.toNat_ofNat'] at same
    have : (0 : UInt8).toNat = 0 := rfl
    omega

/-- `a` with every character behind it, and then `a`. -/
def crowd : List Export :=
  (List.finRange 255).map (fun i => { name := ⟨[0x61, UInt8.ofNat (i + 1)], nulFree_behind i⟩ }) ++
    [{ name := ⟨[0x61], CString.nulFree_a⟩ }]

theorem crowd_distinct : (crowd.map Export.name).Nodup := by
  refine List.Nodup.of_map (fun name => name.bytes.getD 1 0) ?_
  have names : (crowd.map Export.name).map (fun name => name.bytes.getD 1 0) =
      (List.range 256).map fun i => UInt8.ofNat (i + 1) := by decide +kernel
  rw [names]
  refine List.Nodup.map_on (fun i low j low' same => ?_) List.nodup_range
  have same := congrArg UInt8.toNat same
  rw [UInt8.toNat_ofNat', UInt8.toNat_ofNat'] at same
  rw [List.mem_range] at low low'
  omega

theorem crowd_surrounded : Surrounded (crowd.map fun exportInfo => exportInfo.name.bytes) := by
  refine ⟨[0x61, 1], [0x61], by decide +kernel, by decide, fun byte nonzero => ⟨[0x61, byte], ?_, List.prefix_refl _⟩⟩
  have positive : byte.toNat ≠ 0 := fun zero => nonzero (UInt8.toNat_inj.1 zero)
  have below := byte.toNat_lt
  rw [crowd, List.map_append, List.map_map]
  refine List.mem_append_left _ (List.mem_map.2 ⟨⟨byte.toNat - 1, by omega⟩, List.mem_finRange _, ?_⟩)
  show [0x61, UInt8.ofNat (byte.toNat - 1 + 1)] = _
  rw [Nat.sub_add_cancel (by omega), UInt8.ofNat_toNat]

/-- `a` has 256 children, and the byte counts none. -/
theorem buildTrieBytes_loses : (∀ exportInfo ∈ crowd, exportInfo.name ≠ .empty) ∧ (crowd.map Export.name).Nodup ∧
    ¬ RoundTrips 4096 crowd := by
  have named : ∀ exportInfo ∈ crowd, exportInfo.name ≠ .empty := by decide +kernel
  have small : Small crowd := by
    unfold Small
    decide +kernel
  obtain ⟨root, count, offsets, bytes, built⟩ := buildTrieBytes_built named crowd_distinct small
  exact ⟨named, crowd_distinct, fun trips => (built.roundTrips_iff named small (by decide)).1 trips crowd_surrounded⟩

end Cctools.MachO
