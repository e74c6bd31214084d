/-
# Cctools.MachO.TrieAdded -- what an insertion adds, node by node

`Added` is one insertion as a relation: a leaf at the node where the name leaves the
tree, below edges that stay as they are or are split in two.  Whatever is counted or
collected over the nodes of a tree changes by what the leaf and the splits bring.

The leaves are made in the order of the entries (`Grown.terminals`), and a tree
is not larger than its entries make it (`Grown.heft`).
-/
import Cctools.MachO.TrieNodes
import Cctools.Theory.Transducer

namespace Cctools.MachO

set_option autoImplicit false

open Cctools.LinkEdit Cctools.Theory

/-! ## The relation -/

inductive Added (newEntry : WriterEntry) : Node → Nat → Node → Nat → Prop where
  | leaf {index : Nat} {cummulativeString : List UInt8} {terminalEntry : WriterEntry} {children : List Edge}
      {allNodes : Nat} :
      Added newEntry (.mk index cummulativeString terminalEntry children) allNodes
        (.mk index cummulativeString terminalEntry
          (children ++ [(newEntry.name.drop cummulativeString.length, .mk allNodes newEntry.name newEntry [])]))
        (allNodes + 1)
  | down {index : Nat} {cummulativeString : List UInt8} {terminalEntry : WriterEntry}
      {before after : List Edge} {partialString : List UInt8} {child added : Node} {allNodes count : Nat}
      (below : Added newEntry child allNodes added count) :
      Added newEntry (.mk index cummulativeString terminalEntry (before ++ (partialString, child) :: after)) allNodes
        (.mk index cummulativeString terminalEntry (before ++ (partialString, added) :: after)) count
  | split {index : Nat} {cummulativeString string : List UInt8} {terminalEntry : WriterEntry}
      {before after : List Edge} {partialString tail : List UInt8} {child : Node} {allNodes len : Nat}
      (short : tail.length ≤ newEntry.name.length) (inside : len < partialString.length) :
      Added newEntry (.mk index cummulativeString terminalEntry (before ++ (partialString, child) :: after)) allNodes
        (.mk index cummulativeString terminalEntry (before ++ (partialString.take len,
          .mk allNodes string {} [(partialString.drop len, child),
            (tail, .mk (allNodes + 1) newEntry.name newEntry [])]) :: after)) (allNodes + 2)

section Edges

variable {newEntry : WriterEntry} {add : Node → Nat → Except TrieError (Node × Nat)}
variable {cummulativeString tail : List UInt8} {allNodes count : Nat}

/-- One child is replaced, or its edge split. -/
def Replaced (newEntry : WriterEntry) (add : Node → Nat → Except TrieError (Node × Nat))
    (cummulativeString tail : List UInt8) (allNodes : Nat) (children edges : List Edge) (count : Nat) : Prop :=
  ∃ before after partialString child added, children = before ++ (partialString, child) :: after ∧
    (add child allNodes = .ok (added, count) ∧ edges = before ++ (partialString, added) :: after ∨
      ∃ len, ¬ partialString <+: tail ∧ commonPrefix partialString tail (partialString.length - 1) = some len ∧
        add (.mk allNodes (newEntry.name.take (cummulativeString.length + len)) {}
          [(partialString.drop len, child)]) (allNodes + 1) = .ok (added, count) ∧
        edges = before ++ (partialString.take len, added) :: after)

theorem Replaced.cons {children edges : List Edge}
    (replaced : Replaced newEntry add cummulativeString tail allNodes children edges count) (edge : Edge) :
    Replaced newEntry add cummulativeString tail allNodes (edge :: children) (edge :: edges) count := by
  obtain ⟨before, after, string, other, added, rfl, which⟩ := replaced
  refine ⟨edge :: before, after, string, other, added, rfl, ?_⟩
  rcases which with ⟨adds, rfl⟩ | ⟨len, leaves, common, adds, rfl⟩
  · exact .inl ⟨adds, rfl⟩
  · exact .inr ⟨len, leaves, common, adds, rfl⟩

theorem addEdges_replaced {children edges : List Edge}
    (found : addEdges newEntry add cummulativeString tail allNodes children = some (.ok (edges, count))) :
    Replaced newEntry add cummulativeString tail allNodes children edges count := by
  induction children generalizing edges with
  | nil => cases found
  | cons edge rest ih =>
    obtain ⟨partialString, child⟩ := edge
    have onward : ((addEdges newEntry add cummulativeString tail allNodes rest).map fun added =>
        added.map fun after => ((partialString, child) :: after.1, after.2)) = some (.ok (edges, count)) →
        Replaced newEntry add cummulativeString tail allNodes ((partialString, child) :: rest) edges count := by
      intro found
      obtain ⟨result, below, found⟩ := Option.map_eq_some_iff.1 found
      obtain ⟨⟨edges', count'⟩, rfl, same⟩ := ok_of_map found
      cases same
      exact (ih below).cons _
    rw [addEdges] at found
    split at found
    · exact onward found
    · split at found
      · obtain ⟨⟨added, count'⟩, adds, same⟩ := ok_of_map (Option.some.inj found)
        cases same
        exact ⟨[], rest, partialString, child, added, rfl, .inl ⟨adds, rfl⟩⟩
      · split at found
        · exact onward found
        · rename_i leaves _ len common
          obtain ⟨⟨added, count'⟩, adds, same⟩ := ok_of_map (Option.some.inj found)
          cases same
          rw [List.isPrefixOf_iff_prefix] at leaves
          exact ⟨[], rest, partialString, child, added, rfl, .inr ⟨len, leaves, common, adds, rfl⟩⟩

theorem commonPrefix_longest {partialString tail : List UInt8} {bound len : Nat}
    (found : commonPrefix partialString tail bound = some len) {more : Nat} (longer : len < more)
    (inside : more ≤ bound) : partialString.take more ≠ tail.take more := by
  induction bound with
  | zero => cases found
  | succ bound ih =>
    rw [commonPrefix] at found
    split at found
    · cases found
      omega
    · rename_i differ
      rcases Nat.lt_or_ge bound more with last | before
      · rwa [show more = bound + 1 by omega]
      · exact ih found before

/-- Behind the common prefix the edge and the rest of the name part. -/
theorem part_behind {partialString tail : List UInt8} {len : Nat} (nulFree : (0 : UInt8) ∉ partialString)
    (leaves : ¬ partialString <+: tail)
    (common : commonPrefix partialString tail (partialString.length - 1) = some len) :
    (partialString.drop len).headD 0 ≠ (tail.drop len).headD 0 := by
  obtain ⟨positive, short, same⟩ := commonPrefix_some common
  have inside : len < partialString.length := by omega
  intro first
  rw [List.drop_eq_getElem_cons inside, List.headD_cons] at first
  have nonzero : partialString[len] ≠ 0 := fun zero => nulFree (zero ▸ List.getElem_mem inside)
  cases rest : tail.drop len with
  | nil =>
    rw [rest, List.headD_nil] at first
    exact nonzero first
  | cons byte more =>
    rw [rest, List.headD_cons] at first
    have there : tail[len]? = some byte := by
      rw [← List.head?_drop, rest, List.head?_cons]
    have longer : partialString.take (len + 1) = tail.take (len + 1) := by
      rw [List.take_add_one, List.take_add_one, same, there, List.getElem?_eq_getElem inside, first]
    rcases Nat.lt_or_ge (len + 1) partialString.length with before | last
    · exact commonPrefix_longest common (Nat.lt_succ_self len) (by omega) longer
    · apply leaves
      rw [List.take_of_length_le last] at longer
      rw [longer]
      exact List.take_prefix _ _

end Edges

variable {allNodes count : Nat} {newEntry : WriterEntry} {node after : Node}

/-- **`addEntry` is such an insertion.** -/
theorem addEntry_added {depth : Nat} (good : Good node)
    (adds : node.addEntry newEntry depth allNodes = .ok (after, count)) :
    Added newEntry node allNodes after count := by
  induction depth generalizing node after allNodes count with
  | zero => cases adds
  | succ depth ih =>
    obtain ⟨index, cummulativeString, terminalEntry, children⟩ := node
    cases good with
    | mk firsts nulFree spells terminal empty inhabited goods =>
    rw [Node.addEntry] at adds
    split at adds
    · rename_i result found
      obtain ⟨⟨edges, count'⟩, rfl, same⟩ := ok_of_map adds
      cases same
      obtain ⟨before, behind, partialString, child, added, rfl, which⟩ := addEdges_replaced found
      have member : (partialString, child) ∈ before ++ (partialString, child) :: behind := by simp
      rcases which with ⟨below, rfl⟩ | ⟨len, leaves, common, below, rfl⟩
      · exact .down (ih (goods _ member) below)
      · have parts := part_behind (nulFree _ member) leaves common
        obtain ⟨positive, short, same⟩ := commonPrefix_some common
        have cut := congrArg List.length same
        rw [List.length_take, List.length_take, List.length_drop] at cut
        cases depth with
        | zero => cases below
        | succ depth =>
          rw [Node.addEntry, List.length_take, Nat.min_eq_left (by omega), ← List.drop_drop] at below
          rw [addEdges_none (by simpa using parts)] at below
          simp only [ne_eq, not_true_eq_false, and_false, if_false] at below
          cases below
          exact .split (by simp) (by omega)
    · split at adds
      · cases adds
      · cases adds
        exact .leaf

/-- One insertion after the other. -/
inductive Grown : List WriterEntry → Node → Nat → Node → Nat → Prop where
  | nil {node : Node} {allNodes : Nat} : Grown [] node allNodes node allNodes
  | cons {entry : WriterEntry} {rest : List WriterEntry} {node mid after : Node} {allNodes made count : Nat}
      (added : Added entry node allNodes mid made) (later : Grown rest mid made after count) :
      Grown (entry :: rest) node allNodes after count

variable {entries : List WriterEntry} {start root : Node}

/-- **The insertions one after the other**, and what each of them keeps. -/
theorem addEntries_grown {P : Node → Nat → Prop} (good : Good start) (string : start.cummulativeString = [])
    (named : ∀ entry ∈ entries, entry.name ≠ [] ∧ (0 : UInt8) ∉ entry.name ∧ entry.payload ≠ [])
    (distinct : (entries.map WriterEntry.name).Nodup)
    (absent : ∀ entry ∈ entries, ∀ old ∈ start.entries, old.name ≠ entry.name)
    (keeps : ∀ {entry node after allNodes made}, Good node → entry.name ≠ [] →
      (∀ old ∈ node.entries, old.name ≠ entry.name) → Inserted entry node after allNodes made →
        Added entry node allNodes after made → P node allNodes → P after made)
    (holds : P start allNodes) (built : addEntries entries (start, allNodes) = .ok (root, count)) :
    Grown entries start allNodes root count ∧ P root count := by
  induction entries generalizing start allNodes with
  | nil =>
    cases built
    exact ⟨.nil, holds⟩
  | cons entry rest ih =>
    rw [List.forall_mem_cons] at named absent
    rw [List.map_cons, List.nodup_cons] at distinct
    obtain ⟨after, made, adds, inserted⟩ := addEntry_spec good (by rw [string]; exact List.nil_prefix)
      (show _ ≤ entry.name.length + allNodes + 2 by omega) named.1.1 named.1.2.1 named.1.2.2 absent.1 allNodes
    rw [addEntries, adds] at built
    have added := addEntry_added good adds
    have absent' : ∀ other ∈ rest, ∀ old ∈ after.entries, old.name ≠ other.name := by
      intro other inside old there
      rcases List.mem_cons.1 (inserted.entries.mem_iff.1 there) with rfl | before
      · intro same
        exact distinct.1 (by rw [same]; exact List.mem_map_of_mem inside)
      · exact absent.2 other inside old before
    obtain ⟨later, final⟩ := ih inserted.good (inserted.string.trans string) named.2 distinct.2 absent'
      (keeps good named.1.1 absent.1 inserted added holds) built
    exact ⟨.cons added later, final⟩

/-! ## The terminal nodes -/

mutual
/-- The terminal nodes: their positions and entries. -/
def Node.terminals : Node → List (Nat × WriterEntry)
  | .mk index _ terminalEntry children =>
    (if terminalEntry.name.isEmpty then [] else [(index, terminalEntry)]) ++ terminalsOf children
def terminalsOf : List Edge → List (Nat × WriterEntry)
  | [] => []
  | (_, child) :: rest => child.terminals ++ terminalsOf rest
end

theorem terminalsOf_eq (children : List Edge) :
    terminalsOf children = children.flatMap fun edge => edge.2.terminals := by
  induction children with
  | nil => rfl
  | cons edge rest ih => rw [terminalsOf, ih, List.flatMap_cons]

theorem terminals_snd (node : Node) : node.terminals.map Prod.snd = node.entries := by
  induction node using Node.children_induction with
  | step index cummulativeString terminalEntry children ih =>
    rw [Node.terminals, Node.entries, terminalsOf_eq, entriesOf_eq, List.map_append, List.map_flatMap]
    congr 1
    · split <;> rfl
    · exact List.flatMap_congr ih

theorem mem_terminals_fst (node : Node) : ∀ terminal ∈ node.terminals, terminal.1 ∈ node.indexes := by
  induction node using Node.children_induction with
  | step index cummulativeString terminalEntry children ih =>
    intro terminal member
    rw [Node.terminals, terminalsOf_eq, List.mem_append] at member
    rw [Node.indexes, indexesOf_eq]
    rcases member with own | below
    · split at own
      · cases own
      · rw [List.mem_singleton.1 own]
        exact List.mem_cons_self
    · obtain ⟨edge, inside, there⟩ := List.mem_flatMap.1 below
      exact List.mem_cons_of_mem _ (List.mem_flatMap.2 ⟨edge, inside, ih edge inside terminal there⟩)

theorem Added.terminals (named : newEntry.name ≠ []) (added : Added newEntry node allNodes after count) :
    allNodes < count ∧ after.terminals.Perm (node.terminals ++ [(count - 1, newEntry)]) := by
  induction added with
  | leaf =>
    refine ⟨Nat.lt_succ_self _, ?_⟩
    simp [Node.terminals, terminalsOf_eq, named]
  | down _ ih =>
    obtain ⟨more, perm⟩ := ih
    refine ⟨more, ?_⟩
    rw [List.perm_iff_count] at perm ⊢
    intro terminal
    have here := perm terminal
    simp only [Node.terminals, terminalsOf_eq, List.flatMap_append, List.flatMap_cons, List.count_append] at here ⊢
    omega
  | split short =>
    refine ⟨by omega, ?_⟩
    rw [List.perm_iff_count]
    intro terminal
    simp only [Node.terminals, terminalsOf_eq, List.flatMap_append, List.flatMap_cons, List.flatMap_nil,
      List.count_append, List.count_nil, List.isEmpty_iff, named, if_true, if_false, List.isEmpty_nil,
      Nat.add_succ_sub_one]
    omega

/-- **The leaves are made in the order of the entries.** -/
theorem Grown.terminals
    (grown : Grown entries start allNodes root count) (named : ∀ entry ∈ entries, entry.name ≠ []) :
    ∃ made, root.terminals.Perm (start.terminals ++ made) ∧ made.map Prod.snd = entries ∧
      made.Pairwise (fun a b => a.1 < b.1) ∧ ∀ terminal ∈ made, allNodes ≤ terminal.1 := by
  induction grown with
  | nil => exact ⟨[], by simp, rfl, .nil, by simp⟩
  | @cons entry rest node mid after allNodes made count added _ ih =>
    rw [List.forall_mem_cons] at named
    obtain ⟨later, perm, entries, order, behind⟩ := ih named.2
    obtain ⟨more, here⟩ := added.terminals named.1
    refine ⟨(made - 1, entry) :: later, ?_, by rw [List.map_cons, entries], ?_, ?_⟩
    · refine perm.trans ((here.append_right _).trans ?_)
      rw [List.append_assoc, List.singleton_append]
    · refine List.pairwise_cons.2 ⟨?_, order⟩
      intro terminal member
      have := behind terminal member
      simp only
      omega
    · refine List.forall_mem_cons.2 ⟨by simp only; omega, ?_⟩
      intro terminal member
      have := behind terminal member
      omega

/-! ## How much there is to write -/

/-- The most that a node takes, with five bytes for every offset. -/
def TrieNode.widest (node : TrieNode) : Nat :=
  node.terminalSize + 1 + (node.children.map fun edge => edge.1.length + 1 + 5).sum

def Node.heft (node : Node) : Nat := (node.placed.map fun placed => placed.2.widest).sum

theorem heft_mk (index : Nat) (cummulativeString : List UInt8) (terminalEntry : WriterEntry)
    (children : List Edge) :
    (Node.mk index cummulativeString terminalEntry children).heft =
      (TrieNode.of terminalEntry []).widest + (children.map fun edge => edge.1.length + 6 + edge.2.heft).sum := by
  rw [Node.heft, Node.placed, placedOf_eq, List.map_cons, List.sum_cons]
  have below : ((children.flatMap fun edge => edge.2.placed).map fun placed => placed.2.widest).sum =
      (children.map fun edge => edge.2.heft).sum := by
    induction children with
    | nil => rfl
    | cons edge rest ih =>
      rw [List.flatMap_cons, List.map_append, List.sum_append, ih, List.map_cons, List.sum_cons]
      rfl
  rw [below]
  have edges : (children.map fun edge => edge.1.length + 6 + edge.2.heft).sum =
      (children.map fun edge => edge.1.length + 6).sum + (children.map fun edge => edge.2.heft).sum :=
    List.sum_map_add
  have here : (TrieNode.of terminalEntry children).widest =
      (TrieNode.of terminalEntry []).widest + (children.map fun edge => edge.1.length + 6).sum := by
    have strings : (TrieNode.of terminalEntry children).children.map (fun edge => edge.1.length + 1 + 5) =
        children.map fun edge => edge.1.length + 6 := by
      rw [TrieNode.of, List.map_map]
      rfl
    rw [TrieNode.widest, strings]
    rfl
  rw [edges, here, Nat.add_assoc]

theorem widest_leaf (entry : WriterEntry) (named : entry.name ≠ []) :
    (TrieNode.of entry []).widest ≤ entry.payload.length + 6 := by
  have small : (entry.payload.take (entry.payload.length % 2 ^ 32)).length < 128 ^ (4 + 1) := by
    rw [List.length_take]
    have := Nat.mod_lt entry.payload.length (show 0 < 2 ^ 32 by decide)
    omega
  have size := Leb128.ulebSize_le_of_lt 10 small
  have short := List.length_take_le (entry.payload.length % 2 ^ 32) entry.payload
  simp only [TrieNode.widest, TrieNode.of, TrieNode.terminalSize, List.isEmpty_iff, named, if_false,
    List.map_nil, List.sum_nil]
  omega

/-- A leaf with its name and its payload, and the node that splits an edge. -/
theorem Added.heft (named : newEntry.name ≠ []) (added : Added newEntry node allNodes after count) :
    after.heft ≤ node.heft + newEntry.name.length + newEntry.payload.length + 20 := by
  have leaf := widest_leaf newEntry named
  induction added with
  | leaf =>
    simp only [heft_mk, List.map_append, List.map_cons, List.map_nil, List.sum_append, List.sum_cons,
      List.sum_nil, List.length_drop]
    omega
  | down _ ih =>
    simp only [heft_mk, List.map_append, List.map_cons, List.sum_append, List.sum_cons]
    omega
  | split short =>
    have none_ : (TrieNode.of {} []).widest = 2 := rfl
    simp only [heft_mk, List.map_append, List.map_cons, List.map_nil, List.sum_append, List.sum_cons,
      List.sum_nil, List.length_take, List.length_drop, none_]
    omega

/-- **A tree is not larger than its entries make it.** -/
theorem Grown.heft
    (grown : Grown entries start allNodes root count) (named : ∀ entry ∈ entries, entry.name ≠ []) :
    root.heft ≤ start.heft + (entries.map fun entry => entry.name.length + entry.payload.length + 20).sum := by
  induction grown with
  | nil => exact Nat.le_add_right _ _
  | cons added _ ih =>
    rw [List.forall_mem_cons] at named
    have later := ih named.2
    have here := added.heft named.1
    rw [List.map_cons, List.sum_cons]
    omega

end Cctools.MachO
