/-
# Cctools.MachO.TrieInsert -- the invariant of the exports trie

`Good`: siblings differ in their first character (the terminator standing for the
first character of an empty edge), a child's string is its parent's and the edge,
and every edge leads to some entry.  `addEntry_spec` says what one insertion does
to a good tree: it adds the entry and nothing else, whatever the order of names.

A tree is `Compact` when no edge is empty.  That depends on the order: a name that
is a prefix of an earlier one leaves an empty edge, so ascending names stay
compact, and in a compact tree the greedy lookup finds exactly the entries
(`lookup_eq_some_iff`).
-/
import Cctools.MachO.ExportsTrie
import Mathlib.Data.List.Infix
import Mathlib.Data.List.Lex
import Mathlib.Data.List.Range

namespace Cctools.MachO

set_option autoImplicit false

open Cctools.LinkEdit

/-! ## The invariant -/

inductive Good : Node → Prop where
  | mk {index : Nat} {cummulativeString : List UInt8} {terminalEntry : WriterEntry}
      {children : List Edge}
      (firsts : (children.map fun edge => edge.1.headD 0).Nodup)
      (nulFree : ∀ edge ∈ children, (0 : UInt8) ∉ edge.1)
      (spells : ∀ edge ∈ children, edge.2.cummulativeString = cummulativeString ++ edge.1)
      (terminal : terminalEntry = {} ∨ terminalEntry.name = cummulativeString ∧
        cummulativeString ≠ [] ∧ terminalEntry.payload ≠ [])
      (empty : ∀ edge ∈ children, edge.1 = [] → edge.2.children = [] ∧
        edge.2.terminalEntry.name = cummulativeString)
      (inhabited : ∀ edge ∈ children, edge.2.entries ≠ [])
      (good : ∀ edge ∈ children, Good edge.2) :
      Good (.mk index cummulativeString terminalEntry children)

/-- No edge is empty. -/
inductive Compact : Node → Prop where
  | mk {index : Nat} {cummulativeString : List UInt8} {terminalEntry : WriterEntry}
      {children : List Edge} (full : ∀ edge ∈ children, edge.1 ≠ [])
      (compact : ∀ edge ∈ children, Compact edge.2) :
      Compact (.mk index cummulativeString terminalEntry children)

theorem mem_entries {index : Nat} {cummulativeString : List UInt8} {terminalEntry entry : WriterEntry}
    {children : List Edge} :
    entry ∈ (Node.mk index cummulativeString terminalEntry children).entries ↔
      entry = terminalEntry ∧ terminalEntry.name ≠ [] ∨ ∃ edge ∈ children, entry ∈ edge.2.entries := by
  rw [Node.entries, entriesOf_eq, List.mem_append, List.mem_flatMap]
  by_cases none_ : terminalEntry.name = [] <;> simp [none_]

/-- Every entry of a good tree is spelled out from its root on. -/
theorem Good.spelled {node : Node} (good : Good node) :
    ∀ entry ∈ node.entries, entry.name ≠ [] ∧ node.cummulativeString <+: entry.name := by
  induction good with
  | @mk index cummulativeString terminalEntry children _ _ spells terminal _ _ _ ih =>
    intro entry member
    rcases mem_entries.1 member with ⟨rfl, named⟩ | ⟨edge, inside, here⟩
    · rcases terminal with rfl | ⟨same, -, -⟩
      · exact absurd rfl named
      · exact ⟨named, by rw [same]; exact List.prefix_refl _⟩
    · obtain ⟨named, below⟩ := ih edge inside entry here
      rw [spells edge inside] at below
      exact ⟨named, (List.prefix_append _ _).trans below⟩

/-! ## The loop over the children -/

theorem commonPrefix_some {partialString tail : List UInt8} {bound len : Nat}
    (found : commonPrefix partialString tail bound = some len) :
    0 < len ∧ len ≤ bound ∧ partialString.take len = tail.take len := by
  induction bound with
  | zero => cases found
  | succ bound ih =>
    rw [commonPrefix] at found
    split at found
    · rename_i same
      cases found
      exact ⟨Nat.succ_pos _, le_rfl, same⟩
    · obtain ⟨positive, below, same⟩ := ih found
      exact ⟨positive, by omega, same⟩

theorem commonPrefix_isSome {partialString tail : List UInt8} {bound : Nat} (positive : 0 < bound)
    (first : partialString.take 1 = tail.take 1) :
    ∃ len, commonPrefix partialString tail bound = some len := by
  induction bound with
  | zero => exact absurd positive (by omega)
  | succ bound ih =>
    rw [commonPrefix]
    split
    · exact ⟨_, rfl⟩
    · rename_i differ
      apply ih
      by_contra zero
      have none_ : bound = 0 := by omega
      rw [none_] at differ
      exact differ first

section Edges

variable {newEntry : WriterEntry} {add : Node → Nat → Except TrieError (Node × Nat)}
variable {cummulativeString tail : List UInt8} {allNodes : Nat}

/-- Children with another first character are passed over. -/
theorem addEdges_skip {before rest : List Edge} (others : ∀ edge ∈ before, edge.1.headD 0 ≠ tail.headD 0) :
    addEdges newEntry add cummulativeString tail allNodes (before ++ rest) =
      (addEdges newEntry add cummulativeString tail allNodes rest).map fun added =>
        added.map fun after => (before ++ after.1, after.2) := by
  induction before with
  | nil =>
    rw [List.nil_append]
    cases addEdges newEntry add cummulativeString tail allNodes rest with
    | none => rfl
    | some added => cases added <;> rfl
  | cons edge before ih =>
    rw [List.forall_mem_cons] at others
    rw [List.cons_append, addEdges, if_pos others.1, ih others.2, Option.map_map]
    cases addEdges newEntry add cummulativeString tail allNodes rest with
    | none => rfl
    | some added => cases added <;> rfl

theorem addEdges_none {children : List Edge} (others : ∀ edge ∈ children, edge.1.headD 0 ≠ tail.headD 0) :
    addEdges newEntry add cummulativeString tail allNodes children = none := by
  have skipped := @addEdges_skip newEntry add cummulativeString tail allNodes children [] others
  rwa [List.append_nil] at skipped

variable {partialString : List UInt8} {before after : List Edge}

theorem addEdges_descend {child : Node} (others : ∀ edge ∈ before, edge.1.headD 0 ≠ tail.headD 0)
    (first : partialString.headD 0 = tail.headD 0) (down : partialString <+: tail) :
    addEdges newEntry add cummulativeString tail allNodes
        (before ++ (partialString, child) :: after) =
      some ((add child allNodes).map fun added => (before ++ (partialString, added.1) :: after, added.2)) := by
  rw [addEdges_skip others, addEdges, if_neg (not_not.2 first),
    if_pos (List.isPrefixOf_iff_prefix.2 down)]
  cases add child allNodes <;> rfl

theorem addEdges_down {child added : Node}
    {count : Nat} (others : ∀ edge ∈ before, edge.1.headD 0 ≠ tail.headD 0)
    (first : partialString.headD 0 = tail.headD 0) (down : partialString <+: tail)
    (adds : add child allNodes = .ok (added, count)) :
    addEdges newEntry add cummulativeString tail allNodes
        (before ++ (partialString, child) :: after) =
      some (.ok (before ++ (partialString, added) :: after, count)) := by
  rw [addEdges_descend others first down, adds]
  rfl

theorem addEdges_split {child added : Node}
    {count len : Nat} (others : ∀ edge ∈ before, edge.1.headD 0 ≠ tail.headD 0)
    (first : partialString.headD 0 = tail.headD 0) (leaves : ¬ partialString <+: tail)
    (common : commonPrefix partialString tail (partialString.length - 1) = some len)
    (adds : add (.mk allNodes (newEntry.name.take (cummulativeString.length + len)) {}
      [(partialString.drop len, child)]) (allNodes + 1) = .ok (added, count)) :
    addEdges newEntry add cummulativeString tail allNodes
        (before ++ (partialString, child) :: after) =
      some (.ok (before ++ (partialString.take len, added) :: after, count)) := by
  rw [addEdges_skip others, addEdges, if_neg (not_not.2 first),
    if_neg (fun down => leaves (List.isPrefixOf_iff_prefix.1 down)), common]
  dsimp only
  rw [adds]
  rfl

/-- Nothing stops before the last character but the terminator. -/
theorem commonPrefix_of_leaves (nulFree : (0 : UInt8) ∉ partialString)
    (first : partialString.headD 0 = tail.headD 0) (leaves : ¬ partialString <+: tail) :
    ∃ len, commonPrefix partialString tail (partialString.length - 1) = some len := by
  cases partialString with
  | nil => exact absurd (List.nil_prefix) leaves
  | cons byte rest =>
    cases tail with
    | nil =>
      have zero : byte = 0 := first
      exact absurd (by rw [zero]; exact List.mem_cons_self) nulFree
    | cons other more =>
      have same : byte = other := first
      subst same
      apply commonPrefix_isSome
      · cases rest with
        | nil => exact absurd ⟨more, rfl⟩ leaves
        | cons _ _ => simp
      · rfl

end Edges

/-! ## One insertion -/

section Replace

variable {index : Nat} {cummulativeString : List UInt8} {terminalEntry : WriterEntry}
variable {children before after : List Edge}

/-- A child is replaced, and its edge by one that begins alike. -/
theorem Good.replace {edge other : Edge}
    (good : Good (.mk index cummulativeString terminalEntry (before ++ edge :: after)))
    (first : other.1.headD 0 = edge.1.headD 0) (full : other.1 ≠ []) (nulFree : (0 : UInt8) ∉ other.1)
    (spells : other.2.cummulativeString = cummulativeString ++ other.1)
    (inhabited : other.2.entries ≠ []) (child : Good other.2) :
    Good (.mk index cummulativeString terminalEntry (before ++ other :: after)) := by
  cases good with
  | mk firsts nulFrees spell terminal empty inhabit goods =>
    rw [List.forall_mem_append, List.forall_mem_cons] at nulFrees spell empty inhabit goods
    constructor
    · simpa only [List.map_append, List.map_cons, first] using firsts
    · exact List.forall_mem_append.2
        ⟨nulFrees.1, List.forall_mem_cons.2 ⟨nulFree, nulFrees.2.2⟩⟩
    · exact List.forall_mem_append.2 ⟨spell.1, List.forall_mem_cons.2 ⟨spells, spell.2.2⟩⟩
    · exact terminal
    · exact List.forall_mem_append.2
        ⟨empty.1, List.forall_mem_cons.2 ⟨fun none_ => absurd none_ full, empty.2.2⟩⟩
    · exact List.forall_mem_append.2
        ⟨inhabit.1, List.forall_mem_cons.2 ⟨inhabited, inhabit.2.2⟩⟩
    · exact List.forall_mem_append.2 ⟨goods.1, List.forall_mem_cons.2 ⟨child, goods.2.2⟩⟩

theorem Good.push {entry : WriterEntry} {tail : List UInt8} {allNodes : Nat}
    (good : Good (.mk index cummulativeString terminalEntry children))
    (others : ∀ edge ∈ children, edge.1.headD 0 ≠ tail.headD 0) (nulFree : (0 : UInt8) ∉ tail)
    (named : entry.name ≠ []) (spells : entry.name = cummulativeString ++ tail)
    (payload : entry.payload ≠ []) :
    Good (.mk index cummulativeString terminalEntry
      (children ++ [(tail, .mk allNodes entry.name entry [])])) := by
  have leaf : Good (.mk allNodes entry.name entry []) :=
    .mk (by simp) (by simp) (by simp) (.inr ⟨rfl, named, payload⟩) (by simp) (by simp) (by simp)
  cases good with
  | mk firsts nulFrees spell terminal empty inhabit goods =>
    constructor
    · rw [List.map_append, List.nodup_append]
      refine ⟨firsts, by simp, ?_⟩
      rintro a inside b only rfl
      obtain ⟨edge, member, same⟩ := List.mem_map.1 inside
      rw [List.map_singleton, List.mem_singleton] at only
      exact others edge member (same.trans only)
    · exact List.forall_mem_append.2 ⟨nulFrees, by simpa using nulFree⟩
    · exact List.forall_mem_append.2 ⟨spell, by simpa [Node.cummulativeString] using spells⟩
    · exact terminal
    · refine List.forall_mem_append.2 ⟨empty, ?_⟩
      rintro edge only none_
      rw [List.mem_singleton] at only
      subst only
      dsimp only at none_
      rw [none_, List.append_nil] at spells
      exact ⟨rfl, spells⟩
    · refine List.forall_mem_append.2 ⟨inhabit, ?_⟩
      simp [Node.entries, named]
    · exact List.forall_mem_append.2 ⟨goods, by simpa using leaf⟩

end Replace

theorem Good.split {cummulativeString partialString : List UInt8} {child : Node} {len : Nat}
    (good : Good child) (nulFree : (0 : UInt8) ∉ partialString)
    (spells : child.cummulativeString = cummulativeString ++ partialString)
    (inhabited : child.entries ≠ []) (allNodes : Nat) (short : len < partialString.length) :
    Good (.mk allNodes (cummulativeString ++ partialString.take len) {}
      [(partialString.drop len, child)]) := by
  constructor
  · simp
  · simp only [List.mem_singleton, forall_eq]
    exact fun inside => nulFree (List.mem_of_mem_drop inside)
  · simp only [List.mem_singleton, forall_eq]
    rw [spells, List.append_assoc, List.take_append_drop]
  · exact .inl rfl
  · simp only [List.mem_singleton, forall_eq, List.drop_eq_nil_iff]
    intro long
    omega
  · simpa using inhabited
  · simpa using good

/-- **What one insertion does**: it adds the entry, keeps the invariant and the rest of
the tree, and makes new nodes only.  Edges stay full unless the name ends inside one. -/
structure Inserted (newEntry : WriterEntry) (node after : Node) (allNodes count : Nat) : Prop where
  good : Good after
  entries : after.entries.Perm (newEntry :: node.entries)
  string : after.cummulativeString = node.cummulativeString
  index : after.index = node.index
  more : allNodes ≤ count
  indexes : after.indexes.Perm (node.indexes ++ List.range' allNodes (count - allNodes))
  compact : Compact node → (∀ entry ∈ node.entries, ¬ newEntry.name <+: entry.name) →
    newEntry.name ≠ node.cummulativeString → Compact after

section Insert

variable {newEntry : WriterEntry}

/-- Replacing one child by what an insertion makes of it. -/
theorem Inserted.lift {index : Nat} {cummulativeString : List UInt8} {terminalEntry : WriterEntry}
    {before after : List Edge} {edge other : Edge} {mid : Node} {allNodes count made : Nat}
    (good : Good (.mk index cummulativeString terminalEntry (before ++ edge :: after)))
    (inserted : Inserted newEntry mid other.2 made count) (fresh : allNodes ≤ made)
    (first : other.1.headD 0 = edge.1.headD 0) (full : other.1 ≠ []) (nulFree : (0 : UInt8) ∉ other.1)
    (spells : mid.cummulativeString = cummulativeString ++ other.1)
    (entries : mid.entries = edge.2.entries)
    (indexes : mid.indexes.Perm (edge.2.indexes ++ List.range' allNodes (made - allNodes)))
    (midGood : Good mid)
    (compact : Compact edge.2 → edge.1 ≠ [] → Compact mid) :
    Inserted newEntry (.mk index cummulativeString terminalEntry (before ++ edge :: after))
      (.mk index cummulativeString terminalEntry (before ++ other :: after)) allNodes count := by
  have room := inserted.more
  constructor
  · refine good.replace first full nulFree (inserted.string.trans spells) ?_ inserted.good
    intro none_
    have added := inserted.entries
    rw [none_] at added
    cases added.symm.eq_nil
  · rw [List.perm_iff_count]
    intro entry
    have added := inserted.entries.count_eq entry
    simp only [Node.entries, entriesOf_eq, List.flatMap_append, List.flatMap_cons,
      List.count_append, List.count_cons, entries] at added ⊢
    omega
  · rfl
  · rfl
  · omega
  · rw [List.perm_iff_count]
    intro position
    have added := inserted.indexes.count_eq position
    have kept := indexes.count_eq position
    have split : List.range' allNodes (count - allNodes) =
        List.range' allNodes (made - allNodes) ++ List.range' made (count - made) := by
      have whole := List.range'_append_1 (s := allNodes) (m := made - allNodes) (n := count - made)
      rw [Nat.add_sub_of_le fresh] at whole
      rw [whole]
      congr 1
      omega
    rw [split]
    simp only [Node.indexes, indexesOf_eq, List.flatMap_append, List.flatMap_cons,
      List.count_append, List.count_cons] at added kept ⊢
    omega
  · intro whole apart _
    cases whole with
    | mk fulls compacts =>
      rw [List.forall_mem_append, List.forall_mem_cons] at fulls compacts
      have inside : ∀ entry ∈ mid.entries, ¬ newEntry.name <+: entry.name := by
        intro entry member
        rw [entries] at member
        exact apart entry (mem_entries.2 (.inr ⟨edge, by simp, member⟩))
      -- some entry goes on from the child, so the name does not end there
      have named : newEntry.name ≠ mid.cummulativeString := by
        intro same
        cases good with
        | mk _ _ _ _ _ inhabited _ =>
          obtain ⟨entry, member⟩ := List.exists_mem_of_ne_nil _ (inhabited edge (by simp))
          rw [← entries] at member
          apply inside entry member
          rw [same]
          exact (midGood.spelled entry member).2
      have child := inserted.compact (compact compacts.2.1 fulls.2.1) inside named
      exact .mk (List.forall_mem_append.2 ⟨fulls.1, List.forall_mem_cons.2 ⟨full, fulls.2.2⟩⟩)
        (List.forall_mem_append.2 ⟨compacts.1, List.forall_mem_cons.2 ⟨child, compacts.2.2⟩⟩)

/-- An edge that begins like the tail of an absent name is not empty. -/
theorem edge_full {cummulativeString tail partialString : List UInt8} {child : Node}
    (nulFree : (0 : UInt8) ∉ partialString) (tailFree : (0 : UInt8) ∉ tail)
    (first : partialString.headD 0 = tail.headD 0)
    (empty : partialString = [] → child.children = [] ∧
      child.terminalEntry.name = cummulativeString)
    (inhabited : child.entries ≠ []) (whole : cummulativeString ++ tail = newEntry.name)
    (absent : ∀ entry ∈ child.entries, entry.name ≠ newEntry.name) : partialString ≠ [] := by
  rintro rfl
  obtain ⟨leaf, same⟩ := empty rfl
  cases tail with
  | cons byte rest =>
    have zero : (0 : UInt8) = byte := first
    exact tailFree (by rw [zero]; exact List.mem_cons_self)
  | nil =>
    obtain ⟨index, string, terminalEntry, children⟩ := child
    simp only [Node.children, Node.terminalEntry] at leaf same
    subst leaf
    rw [List.append_nil] at whole
    have here : terminalEntry.name ≠ [] := by
      intro none_
      simp [Node.entries, none_, entriesOf] at inhabited
    exact absent terminalEntry (mem_entries.2 (.inl ⟨rfl, here⟩)) (same.trans whole)

/-- The edges in front of the one that begins like the rest of the name begin otherwise. -/
theorem firsts_before {before after : List (List UInt8 × Node)} {edge : List UInt8 × Node} {tail : List UInt8}
    (firsts : ((before ++ edge :: after).map fun edge => edge.1.headD 0).Nodup)
    (first : edge.1.headD 0 = tail.headD 0) : ∀ other ∈ before, other.1.headD 0 ≠ tail.headD 0 := by
  intro other inside same
  rw [List.map_append, List.map_cons, List.nodup_append] at firsts
  exact firsts.2.2 _ (List.mem_map_of_mem inside) _ List.mem_cons_self (same.trans first.symm)

/-- **`addEntry` inserts** a name that is not there yet, at any node on its way. -/
theorem addEntry_spec {depth : Nat} {node : Node} (good : Good node)
    (below : node.cummulativeString <+: newEntry.name)
    (deep : newEntry.name.length - node.cummulativeString.length + 2 ≤ depth)
    (named : newEntry.name ≠ []) (nulFree : (0 : UInt8) ∉ newEntry.name)
    (payload : newEntry.payload ≠ [])
    (absent : ∀ entry ∈ node.entries, entry.name ≠ newEntry.name) (allNodes : Nat) :
    ∃ after count, node.addEntry newEntry depth allNodes = .ok (after, count) ∧
      Inserted newEntry node after allNodes count := by
  induction depth generalizing node allNodes with
  | zero => omega
  | succ depth ih =>
    obtain ⟨index, cummulativeString, terminalEntry, children⟩ := node
    obtain ⟨tail, whole⟩ := below
    simp only [Node.cummulativeString] at whole deep
    have drop : newEntry.name.drop cummulativeString.length = tail := by
      rw [← whole, List.drop_left]
    have tailFree : (0 : UInt8) ∉ tail := fun inside =>
      nulFree (by rw [← whole]; exact List.mem_append_right _ inside)
    rw [Node.addEntry]
    simp only [drop]
    by_cases hit : ∃ edge ∈ children, edge.1.headD 0 = tail.headD 0
    · obtain ⟨⟨partialString, child⟩, member, first⟩ := hit
      obtain ⟨before, after, rfl⟩ := List.append_of_mem member
      have parts := good
      cases parts with
      | mk firsts nulFrees spellAll terminal empty inhabited goods =>
        have childFree : (0 : UInt8) ∉ partialString := nulFrees _ member
        have childGood : Good child := goods _ member
        have spells : child.cummulativeString = cummulativeString ++ partialString :=
          spellAll _ member
        have others := firsts_before firsts first
        have childAbsent : ∀ entry ∈ child.entries, entry.name ≠ newEntry.name :=
          fun entry inside => absent entry (mem_entries.2 (.inr ⟨_, member, inside⟩))
        have full : partialString ≠ [] :=
          edge_full childFree tailFree first (empty _ member) (inhabited _ member) whole
            childAbsent
        have fits := congrArg List.length whole
        rw [List.length_append] at fits
        by_cases down : partialString <+: tail
        · have belowChild : child.cummulativeString <+: newEntry.name := by
            rw [spells, ← whole]
            exact (List.prefix_append_right_inj _).2 down
          have longer : child.cummulativeString.length =
              cummulativeString.length + partialString.length := by
            rw [spells, List.length_append]
          have positive := List.length_pos_of_ne_nil full
          have under := belowChild.length_le
          obtain ⟨added, count, adds, inserted⟩ := ih childGood belowChild (by omega)
            childAbsent allNodes
          rw [addEdges_down others first down adds]
          refine ⟨_, count, rfl, ?_⟩
          exact @Inserted.lift newEntry index cummulativeString terminalEntry before after
            (partialString, child) (partialString, added) child allNodes count allNodes good
            inserted le_rfl rfl full childFree spells rfl (by simp) childGood
            (fun compact _ => compact)
        · obtain ⟨len, common⟩ := commonPrefix_of_leaves childFree first down
          obtain ⟨positive, short, same⟩ := commonPrefix_some common
          have string : newEntry.name.take (cummulativeString.length + len) =
              cummulativeString ++ partialString.take len := by
            rw [← whole, List.take_append, same]
            simp
          have cGood := childGood.split childFree spells (inhabited _ member) allNodes
            (show len < partialString.length by
              have := List.length_pos_of_ne_nil full
              omega)
          rw [← string] at cGood
          have cBelow : newEntry.name.take (cummulativeString.length + len) <+: newEntry.name :=
            List.take_prefix _ _
          have cut := congrArg List.length same
          rw [List.length_take, List.length_take] at cut
          obtain ⟨added, count, adds, inserted⟩ := ih cGood cBelow
            (by simp only [Node.cummulativeString, List.length_take]; omega)
            (by simpa [Node.entries, entriesOf] using childAbsent) (allNodes + 1)
          rw [addEdges_split others first down common adds]
          refine ⟨_, count, rfl, ?_⟩
          have short_ : partialString.take len ≠ [] := by
            intro none_
            rw [← List.length_eq_zero_iff, List.length_take] at none_
            omega
          have first_ : (partialString.take len).headD 0 = partialString.headD 0 := by
            cases partialString with
            | nil => exact absurd rfl full
            | cons byte rest =>
              obtain ⟨less, rfl⟩ : ∃ less, len = less + 1 := ⟨len - 1, by omega⟩
              rfl
          refine @Inserted.lift newEntry index cummulativeString terminalEntry before after
            (partialString, child) (partialString.take len, added) _ allNodes count
            (allNodes + 1) good inserted (by omega) first_ short_
            (fun inside => childFree (List.mem_of_mem_take inside)) string ?_ ?_ cGood ?_
          · simp [Node.entries, entriesOf]
          · simp only [Node.indexes, indexesOf, List.append_nil, Nat.add_sub_cancel_left,
              List.range'_one]
            exact List.perm_append_singleton _ _ |>.symm
          · intro compact _
            refine .mk ?_ (by simpa using compact)
            simp only [List.mem_singleton, forall_eq]
            intro none_
            rw [List.drop_eq_nil_iff] at none_
            omega
    · push Not at hit
      rw [addEdges_none hit]
      have unset : terminalEntry = {} ∨ tail ≠ [] := by
        by_contra neither
        rw [not_or, not_not] at neither
        cases good with
        | mk _ _ _ terminal _ _ _ =>
          rcases terminal with none_ | ⟨same, nonempty, -⟩
          · exact neither.1 none_
          · apply absent terminalEntry (mem_entries.2 (.inl ⟨rfl, by rw [same]; exact nonempty⟩))
            rw [same, ← whole, neither.2, List.append_nil]
      have fresh : ¬ (tail.isEmpty = true ∧ terminalEntry.payload ≠ []) := by
        rintro ⟨ended, set⟩
        rcases unset with rfl | more
        · exact set rfl
        · exact more (List.isEmpty_iff.1 ended)
      rw [if_neg fresh]
      refine ⟨_, _, rfl, good.push hit tailFree named whole.symm payload, ?_, rfl, rfl, by omega,
        ?_, ?_⟩
      · rw [List.perm_iff_count]
        intro entry
        simp only [Node.entries, entriesOf_eq, List.flatMap_append, List.flatMap_cons,
          List.flatMap_nil, List.isEmpty_iff, named, if_false, List.count_append, List.count_cons,
          List.count_nil]
        omega
      · rw [List.perm_iff_count]
        intro position
        simp only [Node.indexes, indexesOf_eq, List.flatMap_append, List.flatMap_cons,
          List.flatMap_nil, List.count_append, List.count_cons, List.count_nil,
          Nat.add_sub_cancel_left, List.range'_one]
        omega
      · intro compact _ apart
        cases compact with
        | mk fulls compacts =>
          refine .mk (List.forall_mem_append.2 ⟨fulls, ?_⟩)
            (List.forall_mem_append.2 ⟨compacts, ?_⟩)
          · simp only [List.mem_singleton, forall_eq]
            rintro rfl
            rw [List.append_nil] at whole
            exact apart whole.symm
          · simp only [List.mem_singleton, forall_eq]
            exact .mk (by simp) (by simp)

end Insert

/-! ## All insertions -/

/-- **The whole loop**: every entry once, whatever the order of the names; and no empty
edge when no name is a prefix of an earlier one. -/
theorem addEntries_spec {entries : List WriterEntry} {start : Node} (good : Good start)
    (root : start.cummulativeString = [])
    (named : ∀ entry ∈ entries, entry.name ≠ [] ∧ (0 : UInt8) ∉ entry.name ∧ entry.payload ≠ [])
    (distinct : (entries.map WriterEntry.name).Nodup)
    (absent : ∀ entry ∈ entries, ∀ old ∈ start.entries, old.name ≠ entry.name) (allNodes : Nat) :
    ∃ node count, addEntries entries (start, allNodes) = .ok (node, count) ∧ Good node ∧
      node.cummulativeString = [] ∧ node.index = start.index ∧
      node.entries.Perm (entries ++ start.entries) ∧ allNodes ≤ count ∧
      node.indexes.Perm (start.indexes ++ List.range' allNodes (count - allNodes)) ∧
      (Compact start → (∀ entry ∈ entries, ∀ old ∈ start.entries, ¬ entry.name <+: old.name) →
        entries.Pairwise (fun a b => ¬ b.name <+: a.name) → Compact node) := by
  induction entries generalizing start allNodes with
  | nil =>
    refine ⟨start, allNodes, rfl, good, root, rfl, by simp, le_rfl, by simp, ?_⟩
    exact fun compact _ _ => compact
  | cons entry rest ih =>
    rw [List.forall_mem_cons] at named absent
    rw [List.map_cons, List.nodup_cons] at distinct
    obtain ⟨after, made, adds, inserted⟩ := addEntry_spec good (by rw [root]; exact List.nil_prefix)
      (show _ ≤ entry.name.length + allNodes + 2 by omega) named.1.1 named.1.2.1 named.1.2.2 absent.1 allNodes
    have members : ∀ old, old ∈ after.entries ↔ old = entry ∨ old ∈ start.entries := by
      intro old
      rw [inserted.entries.mem_iff, List.mem_cons]
    have absentRest : ∀ other ∈ rest, ∀ old ∈ after.entries, old.name ≠ other.name := by
      intro other inside old there
      rcases (members old).1 there with rfl | before
      · intro same
        exact distinct.1 (by rw [same]; exact List.mem_map_of_mem inside)
      · exact absent.2 other inside old before
    obtain ⟨node, count, more, nodeGood, nodeRoot, nodeIndex, nodeEntries, room, indexes, compact⟩ :=
      ih inserted.good (inserted.string.trans root) named.2 distinct.2 absentRest made
    have grows := inserted.more
    refine ⟨node, count, ?_, nodeGood, nodeRoot, nodeIndex.trans inserted.index, ?_, by omega, ?_, ?_⟩
    · rw [addEntries, adds]
      exact more
    · rw [List.perm_iff_count]
      intro other
      have first := inserted.entries.count_eq other
      have later := nodeEntries.count_eq other
      simp only [List.count_append, List.count_cons] at first later ⊢
      omega
    · rw [List.perm_iff_count]
      intro position
      have first := inserted.indexes.count_eq position
      have later := indexes.count_eq position
      have whole := List.range'_append_1 (s := allNodes) (m := made - allNodes) (n := count - made)
      rw [Nat.add_sub_of_le grows, show made - allNodes + (count - made) = count - allNodes by omega]
        at whole
      rw [← whole]
      simp only [List.count_append] at first later ⊢
      omega
    · intro startCompact apart order
      rw [List.forall_mem_cons] at apart
      rw [List.pairwise_cons] at order
      refine compact (inserted.compact startCompact apart.1 (by rw [root]; exact named.1.1)) ?_ order.2
      intro other inside old there
      rcases (members old).1 there with rfl | before
      · exact order.1 other inside
      · exact apart.2 other inside old before

/-! ## Greedy lookup -/

/-- Every edge is non-empty, and siblings begin with different characters. -/
inductive Radix : Node → Prop where
  | mk {index : Nat} {cummulativeString : List UInt8} {terminalEntry : WriterEntry}
      {children : List Edge} (full : ∀ edge ∈ children, edge.1 ≠ [])
      (firsts : (children.map fun edge => edge.1.head?).Nodup)
      (radix : ∀ edge ∈ children, Radix edge.2) :
      Radix (.mk index cummulativeString terminalEntry children)

theorem Good.radix {node : Node} (good : Good node) (compact : Compact node) : Radix node := by
  induction good with
  | @mk index cummulativeString terminalEntry children firsts nulFree _ _ _ _ _ ih =>
    cases compact with
    | mk full compacts =>
      refine .mk full ?_ fun edge inside => ih edge inside (compacts edge inside)
      rw [List.Nodup, List.pairwise_map] at firsts ⊢
      refine firsts.imp ?_
      intro a b differ same
      apply differ
      rw [List.headD_eq_head?_getD, List.headD_eq_head?_getD, same]

theorem headD_eq_headD {a b : List UInt8} (full : a ≠ []) (begins : a <+: b) :
    a.headD 0 = b.headD 0 := by
  obtain ⟨rest, rfl⟩ := begins
  cases a with
  | nil => exact absurd rfl full
  | cons byte more => rfl

theorem lookupIn_eq_some_iff {children : List Edge} (full : ∀ edge ∈ children, edge.1 ≠ [])
    (firsts : (children.map fun edge => edge.1.headD 0).Nodup) (left : List UInt8)
    (entry : WriterEntry) :
    lookupIn children left = some entry ↔ ∃ edge ∈ children, edge.1 <+: left ∧
      edge.2.lookup (left.drop edge.1.length) = some entry := by
  induction children with
  | nil => simp [lookupIn]
  | cons edge rest ih =>
    rw [List.forall_mem_cons] at full
    rw [List.map_cons, List.nodup_cons] at firsts
    rw [lookupIn]
    split
    · rename_i spelled
      rw [List.isPrefixOf_iff_prefix] at spelled
      constructor
      · exact fun found => ⟨edge, List.mem_cons_self, spelled, found⟩
      · rintro ⟨other, member, also, found⟩
        rcases List.mem_cons.1 member with rfl | later
        · exact found
        · -- two edges that begin like the name begin alike
          exfalso
          apply firsts.1
          have same : other.1.headD 0 = edge.1.headD 0 := by
            rw [headD_eq_headD (full.2 other later) also, headD_eq_headD full.1 spelled]
          rw [← same]
          exact List.mem_map_of_mem (f := fun edge : Edge => edge.1.headD 0) later
    · rename_i differs
      rw [List.isPrefixOf_iff_prefix] at differs
      rw [ih full.2 firsts.2]
      constructor
      · rintro ⟨other, member, rest_⟩
        exact ⟨other, List.mem_cons_of_mem _ member, rest_⟩
      · rintro ⟨other, member, also, found⟩
        rcases List.mem_cons.1 member with rfl | later
        · exact absurd also differs
        · exact ⟨other, later, also, found⟩

/-- **Greedy lookup** finds exactly the entries of a compact tree. -/
theorem lookup_eq_some_iff {node : Node} (good : Good node) (compact : Compact node)
    (left : List UInt8) (entry : WriterEntry) :
    node.lookup left = some entry ↔
      entry ∈ node.entries ∧ entry.name = node.cummulativeString ++ left := by
  induction good generalizing left with
  | @mk index cummulativeString terminalEntry children firsts _ spells terminal _ _ goods ih =>
    cases compact with
    | mk full compacts =>
      -- what a child holds under the rest of the name
      have below : ∀ edge ∈ children, (edge.1 <+: left ∧
          edge.2.lookup (left.drop edge.1.length) = some entry ↔
          entry ∈ edge.2.entries ∧ entry.name = cummulativeString ++ left) := by
        intro edge inside
        rw [ih edge inside (compacts edge inside), spells edge inside]
        constructor
        · rintro ⟨spelled, member, name⟩
          refine ⟨member, ?_⟩
          rw [name, List.append_assoc, List.prefix_iff_eq_append.1 spelled]
        · rintro ⟨member, name⟩
          have spelled := ((goods edge inside).spelled entry member).2
          rw [spells edge inside, name, List.prefix_append_right_inj] at spelled
          refine ⟨spelled, member, ?_⟩
          rw [name, List.append_assoc, List.prefix_iff_eq_append.1 spelled]
      rw [Node.lookup, mem_entries]
      simp only [Node.cummulativeString]
      split
      · rename_i here
        rw [List.isEmpty_iff, List.isEmpty_iff] at here
        obtain ⟨rfl, named⟩ := here
        rcases terminal with rfl | ⟨same, -, -⟩
        · exact absurd rfl named
        · rw [Option.some.injEq, List.append_nil]
          constructor
          · rintro rfl
            exact ⟨.inl ⟨rfl, named⟩, same⟩
          · rintro ⟨⟨rfl, -⟩ | ⟨edge, inside, member⟩, name⟩
            · rfl
            · have spelled := ((below edge inside).2 ⟨member, by rw [name, List.append_nil]⟩).1
              exact absurd (List.prefix_nil.1 spelled) (full edge inside)
      · rename_i elsewhere
        rw [List.isEmpty_iff, List.isEmpty_iff] at elsewhere
        rw [lookupIn_eq_some_iff full firsts]
        constructor
        · rintro ⟨edge, inside, found⟩
          obtain ⟨member, name⟩ := (below edge inside).1 found
          exact ⟨.inr ⟨edge, inside, member⟩, name⟩
        · rintro ⟨⟨rfl, named⟩ | ⟨edge, inside, member⟩, name⟩
          · rcases terminal with rfl | ⟨same, -, -⟩
            · exact absurd rfl named
            · rw [same, List.self_eq_append_right] at name
              exact absurd ⟨name, named⟩ elsewhere
          · exact ⟨edge, inside, (below edge inside).2 ⟨member, name⟩⟩

/-! ## Exports in ascending order -/

theorem exportToEntry_named {exportInfo : Export} (named : exportInfo.name ≠ .empty) :
    (exportToEntry exportInfo).name ≠ [] ∧ (0 : UInt8) ∉ (exportToEntry exportInfo).name ∧
      (exportToEntry exportInfo).payload ≠ [] := by
  have nonempty : exportInfo.name.bytes ≠ [] := fun none_ => named (CString.ext none_)
  refine ⟨nonempty, exportInfo.name.nulFree, ?_⟩
  have some_ := appendUleb128_ne_nil exportInfo.flags
  simp only [exportToEntry, List.isEmpty_iff, nonempty, if_false, exportPayload]
  split
  · simp [some_]
  · split <;> simp [some_]

theorem strcmpLt_not_prefix {a b : CString} (below : a.strcmpLt b = true) :
    ¬ b.bytes <+: a.bytes := by
  intro begins
  have less : a.bytes < b.bytes := of_decide_eq_true below
  exact absurd less (List.not_lt.2 begins.le)

/-- **Greedy lookup on sorted exports**: with names in ascending order every edge is
non-empty and siblings begin differently, so that the lookup reaches each exported name
and no other. -/
theorem buildTrie_sorted_lookup {exports : List Export}
    (named : ∀ exportInfo ∈ exports, exportInfo.name ≠ .empty)
    (ascending : exports.Pairwise fun a b => a.name.strcmpLt b.name = true) :
    ∃ root count, buildTrie exports = .ok (root, count) ∧ Radix root ∧
      (∀ exportInfo ∈ exports,
        root.lookup exportInfo.name.bytes = some (exportToEntry exportInfo)) ∧
      ∀ name, (∀ exportInfo ∈ exports, exportInfo.name.bytes ≠ name) → root.lookup name = none := by
  have empty : Good (.mk 0 [] {} []) :=
    .mk (by simp) (by simp) (by simp) (.inl rfl) (by simp) (by simp) (by simp)
  have bare : Compact (.mk 0 [] {} []) := .mk (by simp) (by simp)
  have order : (exports.map exportToEntry).Pairwise fun a b => ¬ b.name <+: a.name := by
    rw [List.pairwise_map]
    exact ascending.imp strcmpLt_not_prefix
  have distinct : ((exports.map exportToEntry).map WriterEntry.name).Nodup := by
    rw [List.Nodup, List.pairwise_map]
    refine order.imp ?_
    intro a b apart same
    exact apart (by rw [same])
  obtain ⟨root, count, builds, good, string, -, entries, -, -, compacts⟩ :=
    addEntries_spec empty rfl (by
      intro entry member
      obtain ⟨exportInfo, inside, rfl⟩ := List.mem_map.1 member
      exact exportToEntry_named (named exportInfo inside)) distinct (by simp [Node.entries, entriesOf]) 1
  have compact := compacts bare (by simp [Node.entries, entriesOf]) order
  have members : ∀ entry, entry ∈ root.entries ↔ ∃ exportInfo ∈ exports,
      exportToEntry exportInfo = entry := by
    intro entry
    rw [entries.mem_iff]
    simp [Node.entries, entriesOf]
  have finds := lookup_eq_some_iff good compact
  rw [string] at finds
  refine ⟨root, count, builds, good.radix compact, ?_, ?_⟩
  · intro exportInfo inside
    exact (finds _ _).2 ⟨(members _).2 ⟨exportInfo, inside, rfl⟩, rfl⟩
  · intro name other
    cases found : root.lookup name with
    | none => rfl
    | some entry =>
      obtain ⟨member, same⟩ := (finds name entry).1 found
      obtain ⟨exportInfo, inside, rfl⟩ := (members entry).1 member
      exact absurd same (other exportInfo inside)

/-- `a`, `ab` and `b`, in order. -/
theorem buildTrie_sorted_lookup_three : ∃ root count,
    buildTrie [{ name := ⟨[0x61], by decide⟩, offset := 1 },
        { name := ⟨[0x61, 0x62], by decide⟩, offset := 2 },
        { name := ⟨[0x62], by decide⟩, offset := 3 }] = .ok (root, count) ∧ Radix root ∧
      root.lookup [0x61, 0x62] = some ⟨[0x61, 0x62], [0, 2]⟩ ∧ root.lookup [0x61, 0x63] = none := by
  obtain ⟨root, count, builds, radix, finds, misses⟩ := @buildTrie_sorted_lookup
    [{ name := ⟨[0x61], by decide⟩, offset := 1 },
      { name := ⟨[0x61, 0x62], by decide⟩, offset := 2 },
      { name := ⟨[0x62], by decide⟩, offset := 3 }] (by decide) (by decide)
  refine ⟨root, count, builds, radix, ?_, ?_⟩
  · exact finds { name := ⟨[0x61, 0x62], by decide⟩, offset := 2 } (by decide)
  · exact misses [0x61, 0x63] (by decide)

/-- An empty name gets an empty edge, and no lookup finds it. -/
theorem buildTrie_empty_name : ∃ root count,
    buildTrie [{ name := .empty, offset := 1 }] = .ok (root, count) ∧ ¬ Radix root ∧
      root.lookup [] = none := by
  refine ⟨_, _, rfl, ?_, by decide⟩
  intro radix
  cases radix with
  | mk full _ _ => exact full ([], _) List.mem_cons_self rfl

end Cctools.MachO
