/-
# Cctools.MachO.TrieDated -- which of two nodes was made first

The position of a node says when it was made.  An export whose name is spelled out
when it comes stands at the end of an empty edge, after what goes on from it; one that
comes first is the node itself, before all that goes on from it (`Dated`).
-/
import Cctools.MachO.TrieAdded

namespace Cctools.MachO

set_option autoImplicit false

open Cctools.LinkEdit

/-! ## The relation -/

inductive Dated : Node → Prop where
  | mk {index : Nat} {cummulativeString : List UInt8} {terminalEntry : WriterEntry} {children : List Edge}
      (early : terminalEntry.name ≠ [] → ∀ terminal ∈ terminalsOf children, index < terminal.1)
      (late : ∀ edge ∈ children, edge.1 = [] → ∃ terminal ∈ terminalsOf children, terminal.1 < edge.2.index)
      (below : ∀ edge ∈ children, Dated edge.2) :
      Dated (.mk index cummulativeString terminalEntry children)

theorem Dated.leaf (index : Nat) (cummulativeString : List UInt8) (entry : WriterEntry) :
    Dated (.mk index cummulativeString entry []) :=
  .mk (by simp [terminalsOf]) (by simp) (by simp)

section Replace

variable {index : Nat} {cummulativeString : List UInt8} {terminalEntry : WriterEntry}
variable {before after : List Edge} {string other : List UInt8} {child added : Node}

theorem mem_terminalsOf_split {terminal : Nat × WriterEntry} :
    terminal ∈ terminalsOf (before ++ (string, child) :: after) ↔
      terminal ∈ terminalsOf (before ++ after) ∨ terminal ∈ child.terminals := by
  simp only [terminalsOf_eq, List.flatMap_append, List.flatMap_cons, List.mem_append]
  tauto

/-- Below an edge, something was added that is newer than the node. -/
theorem Dated.replace (dated : Dated (.mk index cummulativeString terminalEntry (before ++ (string, child) :: after)))
    {new : Nat × WriterEntry} (terminals : ∀ terminal, terminal ∈ added.terminals ↔
      terminal ∈ child.terminals ∨ terminal = new) (fresh : index < new.1)
    (same : other = [] → string = [] ∧ added.index = child.index) (addedDated : Dated added) :
    Dated (.mk index cummulativeString terminalEntry (before ++ (other, added) :: after)) := by
  cases dated with
  | mk early late below =>
    have grows : ∀ terminal ∈ terminalsOf (before ++ (string, child) :: after),
        terminal ∈ terminalsOf (before ++ (other, added) :: after) := by
      intro terminal member
      rw [mem_terminalsOf_split] at member ⊢
      exact member.imp_right fun here => (terminals terminal).2 (.inl here)
    have aside (edge : Edge) (beside : edge ∈ before ∨ edge ∈ after) : edge ∈ before ++ (string, child) :: after := by
      rw [List.mem_append, List.mem_cons, or_left_comm]
      exact .inr beside
    refine .mk (fun named terminal member => ?_) (fun edge inside empty => ?_) (fun edge inside => ?_)
    · rw [mem_terminalsOf_split, terminals] at member
      rcases member with beside | here | rfl
      · exact early named terminal (mem_terminalsOf_split.2 (.inl beside))
      · exact early named terminal (mem_terminalsOf_split.2 (.inr here))
      · exact fresh
    · rw [List.mem_append, List.mem_cons, or_left_comm] at inside
      rcases inside with rfl | beside
      · obtain ⟨none_, index⟩ := same empty
        obtain ⟨terminal, member, older⟩ := late _ (List.mem_append_right _ List.mem_cons_self) none_
        exact ⟨terminal, grows _ member, index ▸ older⟩
      · obtain ⟨terminal, member, older⟩ := late edge (aside edge beside) empty
        exact ⟨terminal, grows _ member, older⟩
    · rw [List.mem_append, List.mem_cons, or_left_comm] at inside
      rcases inside with rfl | beside
      · exact addedDated
      · exact below edge (aside edge beside)

/-- A new leaf, beside something that goes on from the name of the node if it has that name. -/
theorem Dated.append {children : List Edge} (dated : Dated (.mk index cummulativeString terminalEntry children))
    {position : Nat} {entry : WriterEntry} (fresh : index < position)
    (goesOn : other = [] → ∃ terminal ∈ terminalsOf children, terminal.1 < position) :
    Dated (.mk index cummulativeString terminalEntry (children ++ [(other, .mk position string entry [])])) := by
  cases dated with
  | mk early late below =>
    have grows : ∀ terminal ∈ terminalsOf children,
        terminal ∈ terminalsOf (children ++ [(other, .mk position string entry [])]) := by
      intro terminal member
      rw [mem_terminalsOf_split, List.append_nil]
      exact .inl member
    refine .mk (fun named terminal member => ?_) (fun edge inside empty => ?_) (fun edge inside => ?_)
    · rw [mem_terminalsOf_split, List.append_nil] at member
      rcases member with old | new
      · exact early named terminal old
      · rw [Node.terminals, terminalsOf, List.append_nil] at new
        split at new
        · cases new
        · rwa [List.mem_singleton.1 new]
    · rcases List.mem_append.1 inside with old | new
      · obtain ⟨terminal, member, before⟩ := late edge old empty
        exact ⟨terminal, grows _ member, before⟩
      · obtain rfl := List.mem_singleton.1 new
        obtain ⟨terminal, member, before⟩ := goesOn empty
        exact ⟨terminal, grows _ member, before⟩
    · rcases List.mem_append.1 inside with old | new
      · exact below edge old
      · obtain rfl := List.mem_singleton.1 new
        exact .leaf ..

theorem indexes_child {children : List Edge} {edge : Edge} (inside : edge ∈ children) {i : Nat}
    (member : i ∈ edge.2.indexes) : i ∈ (Node.mk index cummulativeString terminalEntry children).indexes := by
  rw [Node.indexes, indexesOf_eq]
  exact List.mem_cons_of_mem _ (List.mem_flatMap.2 ⟨edge, inside, member⟩)

end Replace

/-! ## Insertions -/

variable {node after : Node}

theorem Added.index {newEntry : WriterEntry} {allNodes count : Nat}
    (added : Added newEntry node allNodes after count) : after.index = node.index := by
  cases added <;> rfl

theorem mem_terminals_of_entries {node : Node} (inhabited : node.entries ≠ []) :
    ∃ terminal ∈ node.terminals, terminal.1 ∈ node.indexes := by
  obtain ⟨entry, member⟩ := List.exists_mem_of_ne_nil _ inhabited
  rw [← terminals_snd] at member
  obtain ⟨terminal, inside, -⟩ := List.mem_map.1 member
  exact ⟨terminal, inside, mem_terminals_fst node terminal inside⟩

/-- **An insertion keeps the dates**, when the new nodes come after the ones that are there. -/
theorem Added.dated {newEntry : WriterEntry} (named : newEntry.name ≠ [])
    {allNodes count : Nat} (added : Added newEntry node allNodes after count) (good : Good node)
    (afterGood : Good after) (older : ∀ i ∈ node.indexes, i < allNodes)
    (lives : node.entries ≠ [] ∨ node.cummulativeString = [])
    (absent : ∀ entry ∈ node.entries, entry.name ≠ newEntry.name) (dated : Dated node) : Dated after := by
  induction added with
  | @leaf index cummulativeString terminalEntry children allNodes =>
    have here : index < allNodes := older _ (by simp [Node.indexes])
    cases good with
    | mk _ _ _ terminal _ inhabited _ =>
    cases afterGood with
    | mk _ _ spells _ _ _ _ =>
    refine dated.append here fun empty => ?_
    -- the name is spelled out here, and so something goes on from it
    have spelled : newEntry.name = cummulativeString := by
      have whole := spells _ (List.mem_append_right _ List.mem_cons_self)
      rw [empty, List.append_nil] at whole
      exact whole
    obtain ⟨entry, member⟩ := List.exists_mem_of_ne_nil _ (lives.resolve_right fun root => named (spelled.trans root))
    rcases mem_entries.1 member with ⟨rfl, isNamed⟩ | ⟨edge, child, -⟩
    · rcases terminal with rfl | ⟨same, -⟩
      · exact absurd rfl isNamed
      · exact absurd (same.trans spelled.symm) (absent _ member)
    · obtain ⟨terminal, there, position⟩ := mem_terminals_of_entries (inhabited edge child)
      rw [terminalsOf_eq]
      exact ⟨terminal, List.mem_flatMap.2 ⟨edge, child, there⟩, older _ (indexes_child child position)⟩
  | @down index cummulativeString terminalEntry before behind string child added' allNodes count step ih =>
    obtain ⟨more, perm⟩ := step.terminals named
    have here : index < allNodes := older _ (by simp [Node.indexes])
    have inside {c : Node} : (string, c) ∈ before ++ (string, c) :: behind :=
      List.mem_append_right _ List.mem_cons_self
    cases good with
    | mk _ _ _ _ _ inhabited goods =>
    cases afterGood with
    | mk _ _ _ _ _ _ goods' =>
    refine dated.replace (fun terminal => by rw [perm.mem_iff, List.mem_append, List.mem_singleton])
      (show index < count - 1 by omega) (fun none_ => ⟨none_, step.index⟩) ?_
    cases dated with
    | mk _ _ below =>
    exact ih (goods _ inside) (goods' _ inside) (fun i member => older i (indexes_child inside member))
      (.inl (inhabited _ inside)) (fun entry member => absent entry (mem_entries.2 (.inr ⟨_, inside, member⟩)))
      (below _ inside)
  | @split index cummulativeString mid terminalEntry before behind string tail child allNodes len _ short =>
    have here : index < allNodes := older _ (by simp [Node.indexes])
    have inside {s : List UInt8} {c : Node} : (s, c) ∈ before ++ (s, c) :: behind :=
      List.mem_append_right _ List.mem_cons_self
    cases good with
    | mk _ _ _ _ _ inhabited _ =>
    cases afterGood with
    | mk _ _ _ _ empty _ _ =>
    have terminals (terminal : Nat × WriterEntry) : terminal ∈ (Node.mk allNodes mid {} [(string.drop len, child),
        (tail, .mk (allNodes + 1) newEntry.name newEntry [])]).terminals ↔
        terminal ∈ child.terminals ∨ terminal = (allNodes + 1, newEntry) := by
      simp [Node.terminals, terminalsOf, named]
    refine dated.replace terminals (show index < allNodes + 1 by omega)
      (fun none_ => absurd (empty _ inside none_).1 (List.cons_ne_nil _ _)) ?_
    cases dated with
    | mk _ _ below =>
    refine .mk (fun none_ => absurd rfl none_) (fun edge member none_ => ?_) (fun edge member => ?_)
    · rcases List.mem_pair.1 member with rfl | rfl
      · have long := List.drop_eq_nil_iff.1 none_
        omega
      · obtain ⟨terminal, there, position⟩ := mem_terminals_of_entries (inhabited _ inside)
        refine ⟨terminal, ?_, Nat.lt_succ_of_lt (older terminal.1 (indexes_child inside position))⟩
        rw [terminalsOf]
        exact List.mem_append_left _ there
    · rcases List.mem_pair.1 member with rfl | rfl
      · exact below (string, child) inside
      · exact .leaf ..

/-- A tree with its dates, and as many positions as are used. -/
structure Aged (root : Node) (allNodes : Nat) : Prop where
  string : root.cummulativeString = []
  older : ∀ i ∈ root.indexes, i < allNodes
  dated : Dated root

theorem Aged.keeps {entry : WriterEntry} {allNodes made : Nat} (good : Good node)
    (named : entry.name ≠ []) (absent : ∀ old ∈ node.entries, old.name ≠ entry.name)
    (inserted : Inserted entry node after allNodes made) (added : Added entry node allNodes after made)
    (aged : Aged node allNodes) : Aged after made where
  string := inserted.string.trans aged.string
  older i member := by
    have room := inserted.more
    rcases List.mem_append.1 (inserted.indexes.mem_iff.1 member) with old | new
    · exact lt_of_lt_of_le (aged.older i old) room
    · have := List.mem_range'_1.1 new
      omega
  dated := added.dated named good inserted.good aged.older (.inr aged.string) absent aged.dated

end Cctools.MachO
