/-
# Cctools.MachO.TrieDuplicates -- when an exports trie is refused

A name that is in the tree already is found again: its edges lead the second insertion to the
node that is terminal for it, or to the empty edge below.  So the first repeated name is
reported, and nothing else is.

An export without a name never makes a node terminal.  Such exports form a chain of empty
edges at the root, which the insertion of a name passes over.
-/
import Cctools.MachO.TrieInsert

namespace Cctools.MachO

set_option autoImplicit false

open Cctools.LinkEdit

/-! ## A name that is there -/

section Present

variable {index : Nat} {cummulativeString : List UInt8} {terminalEntry newEntry : WriterEntry}
variable {children : List Edge} {tail : List UInt8}

/-- A leaf below an empty edge is terminal for the name of its parent. -/
theorem Good.leaf {child : Node} (good : Good (.mk index cummulativeString terminalEntry children))
    (member : ([], child) ∈ children) :
    ∃ childIndex entry, child = .mk childIndex cummulativeString entry [] ∧ entry.payload ≠ [] := by
  cases good with
  | mk _ _ spells _ empty inhabited goods =>
    obtain ⟨leaf, -⟩ := empty _ member rfl
    have string := spells _ member
    have some_ := inhabited _ member
    have childGood := goods _ member
    obtain ⟨childIndex, string', entry, children'⟩ := child
    simp only [Node.children, Node.cummulativeString, List.append_nil] at leaf string
    subst leaf string
    refine ⟨childIndex, entry, rfl, ?_⟩
    cases childGood with
    | mk _ _ _ terminal _ _ _ =>
      rcases terminal with rfl | ⟨-, -, payload⟩
      · simp [Node.entries, entriesOf] at some_
      · exact payload

/-- Where a name stands that goes through a node: there, or below the edge that the tail begins with. -/
theorem Good.whereabouts (good : Good (.mk index cummulativeString terminalEntry children))
    (whole : cummulativeString ++ tail = newEntry.name)
    (present : ∃ entry ∈ (Node.mk index cummulativeString terminalEntry children).entries,
      entry.name = newEntry.name) :
    tail = [] ∧ terminalEntry.payload ≠ [] ∨
      ∃ edge ∈ children, edge.1.headD 0 = tail.headD 0 ∧ edge.1 <+: tail ∧
        ∃ entry ∈ edge.2.entries, entry.name = newEntry.name := by
  obtain ⟨entry, member, same⟩ := present
  cases good with
  | mk _ _ spells terminal empty _ goods =>
    rcases mem_entries.1 member with ⟨rfl, named⟩ | ⟨edge, inside, below⟩
    · rcases terminal with rfl | ⟨string, -, payload⟩
      · exact absurd rfl named
      · rw [same, ← whole, eq_comm, List.self_eq_append_right] at string
        exact .inl ⟨string, payload⟩
    · have spelled := ((goods edge inside).spelled entry below).2
      rw [spells edge inside, same, ← whole] at spelled
      have down := (List.prefix_append_right_inj _).1 spelled
      refine .inr ⟨edge, inside, ?_, down, entry, below, same⟩
      by_cases none_ : edge.1 = []
      · obtain ⟨leaf, string⟩ := empty edge inside none_
        obtain ⟨partialString, ⟨childIndex, string', childEntry, children'⟩⟩ := edge
        simp only [Node.children, Node.terminalEntry] at leaf string none_
        subst leaf none_
        have ended : entry = childEntry := by
          rcases mem_entries.1 below with ⟨same, -⟩ | ⟨_, there, -⟩
          · exact same
          · cases there
        rw [← ended, same, ← whole, eq_comm, List.self_eq_append_right] at string
        rw [string]
      · exact headD_eq_headD none_ down

end Present

variable {newEntry : WriterEntry}

/-- **`addEntry` refuses** a name that is in a good tree already. -/
theorem addEntry_duplicate {depth : Nat} {node : Node} (good : Good node)
    (below : node.cummulativeString <+: newEntry.name)
    (deep : newEntry.name.length - node.cummulativeString.length + 2 ≤ depth) (nulFree : (0 : UInt8) ∉ newEntry.name)
    (present : ∃ entry ∈ node.entries, entry.name = newEntry.name) (allNodes : Nat) :
    node.addEntry newEntry depth allNodes = .error (.duplicateSymbol newEntry.name) := by
  induction depth generalizing node allNodes with
  | zero => omega
  | succ depth ih =>
    obtain ⟨index, cummulativeString, terminalEntry, children⟩ := node
    obtain ⟨tail, whole⟩ := below
    simp only [Node.cummulativeString] at whole deep
    have drop : newEntry.name.drop cummulativeString.length = tail := by
      rw [← whole, List.drop_left]
    have tailFree : (0 : UInt8) ∉ tail := fun inside =>
      nulFree (by rw [← whole]; exact List.mem_append_right _ inside)
    have there := good.whereabouts whole present
    have parts := good
    rw [Node.addEntry]
    simp only [drop]
    cases parts with
    | mk firsts nulFrees spells terminal empty inhabited goods =>
      by_cases hit : ∃ edge ∈ children, edge.1.headD 0 = tail.headD 0
      · obtain ⟨⟨partialString, child⟩, member, first⟩ := hit
        simp only at first
        obtain ⟨before, after, rfl⟩ := List.append_of_mem member
        have others := firsts_before firsts first
        by_cases none_ : partialString = []
        · -- the empty edge leads to the node of this name
          subst none_
          have ended : tail = [] := by
            cases tail with
            | nil => rfl
            | cons byte rest =>
              have zero : (0 : UInt8) = byte := first
              exact absurd (by rw [zero]; exact List.mem_cons_self) tailFree
          obtain ⟨childIndex, entry, rfl, payload⟩ := good.leaf member
          obtain ⟨less, rfl⟩ : ∃ less, depth = less + 1 := ⟨depth - 1, by omega⟩
          rw [addEdges_descend others first List.nil_prefix, Node.addEntry]
          simp only [drop, addEdges, ended, List.isEmpty_nil, true_and, payload, ne_eq, not_false_eq_true,
            if_true]
          rfl
        · obtain ⟨edge, inside, same, down, found⟩ : ∃ edge ∈ before ++ (partialString, child) :: after,
              edge.1.headD 0 = tail.headD 0 ∧ edge.1 <+: tail ∧
                ∃ entry ∈ edge.2.entries, entry.name = newEntry.name := by
            rcases there with ⟨ended, -⟩ | there
            · rw [ended] at first
              cases partialString with
              | nil => exact absurd rfl none_
              | cons byte rest =>
                have zero : byte = 0 := first
                exact absurd (by rw [zero]; exact List.mem_cons_self) (nulFrees _ member)
            · exact there
          obtain rfl := List.inj_on_of_nodup_map firsts inside member (same.trans first.symm)
          have string : child.cummulativeString = cummulativeString ++ partialString := spells _ member
          have longer := congrArg List.length string
          rw [List.length_append] at longer
          have positive := List.length_pos_of_ne_nil none_
          have fits := congrArg List.length whole
          rw [List.length_append] at fits
          have short := down.length_le
          simp only at short
          have belowChild : child.cummulativeString <+: newEntry.name := by
            rw [string, ← whole]
            exact (List.prefix_append_right_inj _).2 down
          have deepChild : newEntry.name.length - child.cummulativeString.length + 2 ≤ depth := by omega
          rw [addEdges_descend others first down, ih (goods _ member) belowChild deepChild found]
          rfl
      · rw [addEdges_none (by simpa using hit)]
        rcases there with ⟨ended, payload⟩ | ⟨edge, inside, first, -⟩
        · rw [ended]
          simp [payload]
        · exact absurd ⟨edge, inside, first⟩ hit

/-! ## Exports without a name -/

def Nameless (entry : WriterEntry) : Prop := entry.name = [] ∧ entry.payload = []

/-- Nodes that one empty edge after the other leads to. -/
inductive EmptyChain : Nat → Node → Prop where
  | last {index : Nat} {entry : WriterEntry} : Nameless entry → EmptyChain 0 (.mk index [] entry [])
  | link {index len : Nat} {entry : WriterEntry} {child : Node} : Nameless entry → EmptyChain len child →
      EmptyChain (len + 1) (.mk index [] entry [([], child)])

/-- A tree, and the same tree with a chain of so many nodes at its root. -/
inductive WithChain : Nat → Node → Node → Prop where
  | bare (node : Node) : WithChain 0 node node
  | chained {index len : Nat} {entry : WriterEntry} {before after : List Edge} {chain : Node} :
      EmptyChain len chain →
      WithChain (len + 1) (.mk index [] entry (before ++ after)) (.mk index [] entry (before ++ ([], chain) :: after))

theorem EmptyChain.add (nameless : Nameless newEntry) {len : Nat} {node : Node}
    (chain : EmptyChain len node) {depth : Nat} (deep : len < depth) (allNodes : Nat) :
    ∃ after, node.addEntry newEntry depth allNodes = .ok (after, allNodes + 1) ∧ EmptyChain (len + 1) after := by
  obtain ⟨depth, rfl⟩ : ∃ less, depth = less + 1 := ⟨depth - 1, by omega⟩
  induction chain generalizing depth with
  | @last index entry here =>
    refine ⟨.mk index [] entry [([], .mk allNodes [] newEntry [])], ?_, .link here (.last nameless)⟩
    simp [Node.addEntry, addEdges, nameless.1, here.2]
  | @link index len entry child here _ ih =>
    obtain ⟨depth, rfl⟩ : ∃ less, depth = less + 1 := ⟨depth - 1, by omega⟩
    obtain ⟨after, adds, chain⟩ := ih depth (by omega)
    refine ⟨.mk index [] entry [([], after)], ?_, .link here chain⟩
    rw [Node.addEntry]
    simp [addEdges, nameless.1, adds]
    rfl

section Edges

variable {newEntry : WriterEntry} {add : Node → Nat → Except TrieError (Node × Nat)}
variable {cummulativeString tail : List UInt8} {allNodes : Nat}

/-- The first edge is passed over, or it decides, whatever follows it. -/
theorem addEdges_cons (partialString : List UInt8) (child : Node) :
    (∀ rest, addEdges newEntry add cummulativeString tail allNodes ((partialString, child) :: rest) =
        (addEdges newEntry add cummulativeString tail allNodes rest).map fun added =>
          added.map fun after => ((partialString, child) :: after.1, after.2)) ∨
      ∃ result : Except TrieError (Edge × Nat), ∀ rest,
        addEdges newEntry add cummulativeString tail allNodes ((partialString, child) :: rest) =
          some (result.map fun after => (after.1 :: rest, after.2)) := by
  by_cases first : partialString.headD 0 = tail.headD 0
  · by_cases down : partialString.isPrefixOf tail = true
    · refine .inr ⟨(add child allNodes).map fun after => ((partialString, after.1), after.2), fun rest => ?_⟩
      rw [addEdges, if_neg (not_not.2 first), if_pos down]
      cases add child allNodes <;> rfl
    · cases common : commonPrefix partialString tail (partialString.length - 1) with
      | none =>
        refine .inl fun rest => ?_
        rw [addEdges, if_neg (not_not.2 first), if_neg down, common]
      | some len =>
        refine .inr ⟨(add (.mk allNodes (newEntry.name.take (cummulativeString.length + len)) {}
          [(partialString.drop len, child)]) (allNodes + 1)).map
            fun after => ((partialString.take len, after.1), after.2), fun rest => ?_⟩
        rw [addEdges, if_neg (not_not.2 first), if_neg down, common]
        dsimp only
        cases add _ (allNodes + 1) <;> rfl
  · refine .inl fun rest => ?_
    rw [addEdges, if_pos first]

/-- One more edge with another first character changes nothing for the others. -/
theorem addEdges_insert {before after : List Edge} {edge : Edge} (other : edge.1.headD 0 ≠ tail.headD 0) :
    match addEdges newEntry add cummulativeString tail allNodes (before ++ after) with
    | none => addEdges newEntry add cummulativeString tail allNodes (before ++ edge :: after) = none
    | some (.error error) =>
      addEdges newEntry add cummulativeString tail allNodes (before ++ edge :: after) = some (.error error)
    | some (.ok (edges, count)) => ∃ before' after', edges = before' ++ after' ∧
        addEdges newEntry add cummulativeString tail allNodes (before ++ edge :: after) =
          some (.ok (before' ++ edge :: after', count)) := by
  induction before with
  | nil =>
    have skipped := @addEdges_skip newEntry add cummulativeString tail allNodes [edge] after (by simpa using other)
    simp only [List.nil_append, List.singleton_append] at skipped ⊢
    rw [skipped]
    cases addEdges newEntry add cummulativeString tail allNodes after with
    | none => rfl
    | some result =>
      cases result with
      | error error => rfl
      | ok added => exact ⟨[], added.1, rfl, rfl⟩
  | cons first before ih =>
    obtain ⟨partialString, child⟩ := first
    rcases @addEdges_cons newEntry add cummulativeString tail allNodes partialString child with onward | ⟨result, decides⟩
    · rw [List.cons_append, List.cons_append, onward, onward]
      cases below : addEdges newEntry add cummulativeString tail allNodes (before ++ after) with
      | none =>
        rw [below] at ih
        simp only [Option.map_none]
        rw [ih]
        rfl
      | some result =>
        rw [below] at ih
        cases result with
        | error error =>
          simp only at ih
          simp only [Option.map_some, Except.map]
          rw [ih]
          rfl
        | ok added =>
          obtain ⟨before', after', split, found⟩ := ih
          refine ⟨(partialString, child) :: before', after', by rw [split]; rfl, ?_⟩
          rw [found]
          rfl
    · rw [List.cons_append, List.cons_append, decides, decides]
      cases result with
      | error error => rfl
      | ok added => exact ⟨added.1 :: before, after, rfl, rfl⟩

end Edges

/-- What the insertion of a name makes of a tree, it makes of the tree with the chain. -/
theorem WithChain.add (named : newEntry.name ≠ []) (nulFree : (0 : UInt8) ∉ newEntry.name)
    {len : Nat} {bare root : Node} (chained : WithChain len bare root) (depth allNodes : Nat) :
    match bare.addEntry newEntry depth allNodes with
    | .error error => root.addEntry newEntry depth allNodes = .error error
    | .ok (after, count) => ∃ rooted, root.addEntry newEntry depth allNodes = .ok (rooted, count) ∧
        WithChain len after rooted := by
  cases chained with
  | bare =>
    cases bare.addEntry newEntry depth allNodes with
    | error error => rfl
    | ok after => exact ⟨after.1, rfl, .bare after.1⟩
  | @chained index len entry before after chain empty =>
    cases depth with
    | zero => rfl
    | succ depth =>
      have tail : newEntry.name.drop ([] : List UInt8).length = newEntry.name := rfl
      have other : (([], chain) : Edge).1.headD 0 ≠ newEntry.name.headD 0 := by
        cases name : newEntry.name with
        | nil => exact absurd name named
        | cons byte rest =>
          intro zero
          have zero : (0 : UInt8) = byte := zero
          exact nulFree (by rw [name, zero]; exact List.mem_cons_self)
      have inserted := @addEdges_insert newEntry (Node.addEntry newEntry depth) [] newEntry.name allNodes before
        after ([], chain) other
      simp only [Node.addEntry, tail]
      cases below : addEdges newEntry (Node.addEntry newEntry depth) [] newEntry.name allNodes (before ++ after) with
      | none =>
        rw [below] at inserted
        simp only at inserted
        rw [inserted]
        have fresh : ¬ (newEntry.name.isEmpty = true ∧ entry.payload ≠ []) := by
          rintro ⟨ended, -⟩
          exact named (List.isEmpty_iff.1 ended)
        simp only [if_neg fresh]
        refine ⟨_, rfl, ?_⟩
        rw [List.append_assoc, List.append_assoc, List.cons_append]
        exact .chained empty
      | some result =>
        rw [below] at inserted
        cases result with
        | error error =>
          simp only at inserted
          rw [inserted]
          rfl
        | ok added =>
          obtain ⟨before', after', split, found⟩ := inserted
          rw [found]
          refine ⟨_, rfl, ?_⟩
          rw [split]
          exact .chained empty

/-- An entry without a name makes the chain of a good root longer. -/
theorem WithChain.extend (nameless : Nameless newEntry) {len : Nat} {bare root : Node}
    (good : Good bare) (top : bare.cummulativeString = []) (chained : WithChain len bare root) {depth : Nat}
    (deep : len + 1 < depth) (allNodes : Nat) :
    ∃ rooted, root.addEntry newEntry depth allNodes = .ok (rooted, allNodes + 1) ∧
      WithChain (len + 1) bare rooted := by
  obtain ⟨depth, rfl⟩ : ∃ less, depth = less + 1 := ⟨depth - 1, by omega⟩
  obtain ⟨name, payload⟩ := nameless
  -- no edge of a good root is empty
  have apart : ∀ edge ∈ bare.children, edge.1.headD 0 ≠ ([] : List UInt8).headD 0 := by
    obtain ⟨index, string, entry, children⟩ := bare
    simp only [Node.cummulativeString] at top
    subst top
    intro edge inside zero
    obtain ⟨partialString, child⟩ := edge
    have none_ : partialString = [] := by
      cases partialString with
      | nil => rfl
      | cons byte rest =>
        cases good with
        | mk _ nulFrees _ _ _ _ _ =>
          have zero : byte = 0 := zero
          exact absurd (by rw [zero]; exact List.mem_cons_self) (nulFrees _ inside)
    subst none_
    obtain ⟨childIndex, childEntry, rfl, payload⟩ := good.leaf inside
    cases good with
    | mk _ _ _ _ _ _ goods =>
      cases goods _ inside with
      | mk _ _ _ terminal _ _ _ =>
        rcases terminal with rfl | ⟨-, absurd_, -⟩
        · exact payload rfl
        · exact absurd_ rfl
  cases chained with
  | bare =>
    obtain ⟨index, string, entry, children⟩ := bare
    simp only [Node.cummulativeString] at top
    subst top
    have terminal : entry = {} := by
      cases good with
      | mk _ _ _ terminal _ _ _ => exact terminal.resolve_right (fun set => set.2.1 rfl)
    refine ⟨.mk index [] entry (children ++ [([], .mk allNodes [] newEntry [])]), ?_, ?_⟩
    · rw [Node.addEntry]
      have others : ∀ edge ∈ children, edge.1.headD 0 ≠ ([] : List UInt8).headD 0 := apart
      simp only [name, List.drop_nil]
      rw [addEdges_none others]
      simp [terminal]
    · have split : children = children ++ [] := (List.append_nil _).symm
      nth_rewrite 1 [split]
      exact .chained (.last ⟨name, payload⟩)
  | @chained index len entry before after chain empty =>
    obtain ⟨longer, adds, empty⟩ := empty.add ⟨name, payload⟩ (show len < depth by omega) allNodes
    refine ⟨.mk index [] entry (before ++ ([], longer) :: after), ?_, .chained empty⟩
    rw [Node.addEntry]
    simp only [name, List.drop_nil]
    rw [addEdges_descend (fun edge inside => apart edge (List.mem_append_left _ inside)) rfl List.nil_prefix, adds]
    rfl

/-! ## All insertions -/

/-- The first name that is there already ends the loop, and only that does. -/
theorem addEntries_cases {entries : List WriterEntry} {len : Nat} {bare root : Node} (good : Good bare)
    (top : bare.cummulativeString = []) (chained : WithChain len bare root)
    (kinds : ∀ entry ∈ entries, Nameless entry ∨
      entry.name ≠ [] ∧ (0 : UInt8) ∉ entry.name ∧ entry.payload ≠ []) (allNodes : Nat) (room : len ≤ allNodes) :
    (∃ built, addEntries entries (root, allNodes) = .ok built) ∧
        (∀ entry ∈ entries, ∀ old ∈ bare.entries, old.name = entry.name → entry.name = []) ∧
        (entries.Pairwise fun a b => a.name = b.name → a.name = []) ∨
      ∃ before entry after, entries = before ++ entry :: after ∧ entry.name ≠ [] ∧
        (∃ old ∈ before ++ bare.entries, old.name = entry.name) ∧
        addEntries entries (root, allNodes) = .error (.duplicateSymbol entry.name) := by
  induction entries generalizing len bare root allNodes with
  | nil => exact .inl ⟨⟨_, rfl⟩, by simp, .nil⟩
  | cons entry rest ih =>
    rw [List.forall_mem_cons] at kinds
    have step : addEntries (entry :: rest) (root, allNodes) =
      (root.addEntry entry (entry.name.length + allNodes + 2) allNodes).bind (addEntries rest) := rfl
    rcases kinds.1 with nameless | ⟨named, nulFree, payload⟩
    · obtain ⟨rooted, adds, longer⟩ := chained.extend nameless good top
        (show len + 1 < entry.name.length + allNodes + 2 by omega) allNodes
      rw [adds] at step
      rcases ih good top longer kinds.2 (allNodes + 1) (by omega) with ⟨⟨built, builds⟩, absent, apart⟩ |
        ⟨before, other, after, rfl, named, ⟨old, there, same⟩, refuses⟩
      · refine .inl ⟨⟨built, by rw [step]; exact builds⟩, ?_, ?_⟩
        · rw [List.forall_mem_cons]
          exact ⟨fun _ _ _ => nameless.1, absent⟩
        · exact List.pairwise_cons.2 ⟨fun _ _ _ => nameless.1, apart⟩
      · refine .inr ⟨entry :: before, other, after, rfl, named, ⟨old, ?_, same⟩, by rw [step]; exact refuses⟩
        exact List.mem_cons_of_mem _ there
    · have grown := chained.add named nulFree (entry.name.length + allNodes + 2) allNodes
      have below : bare.cummulativeString <+: entry.name := by
        rw [top]
        exact List.nil_prefix
      by_cases present : ∃ old ∈ bare.entries, old.name = entry.name
      · rw [addEntry_duplicate good below (by omega) nulFree present] at grown
        simp only at grown
        refine .inr ⟨[], entry, rest, rfl, named, present, ?_⟩
        rw [step, grown]
        rfl
      · have absent : ∀ old ∈ bare.entries, old.name ≠ entry.name := fun old there same => present ⟨old, there, same⟩
        obtain ⟨after, count, adds, inserted⟩ :=
          addEntry_spec good below (show _ ≤ entry.name.length + allNodes + 2 by omega) named nulFree payload absent
            allNodes
        rw [adds] at grown
        obtain ⟨rooted, addsRoot, chained⟩ := grown
        rw [addsRoot] at step
        have members : ∀ old, old ∈ after.entries ↔ old = entry ∨ old ∈ bare.entries := by
          intro old
          rw [inserted.entries.mem_iff, List.mem_cons]
        have grows := inserted.more
        rcases ih inserted.good (inserted.string.trans top) chained kinds.2 count (by omega) with
          ⟨⟨built, builds⟩, absentRest, apart⟩ | ⟨before, other, after', rfl, named, ⟨old, there, same⟩, refuses⟩
        · refine .inl ⟨⟨built, by rw [step]; exact builds⟩, ?_, ?_⟩
          · rw [List.forall_mem_cons]
            refine ⟨fun old there same => absurd same (absent old there), fun other inside old there => ?_⟩
            exact absentRest other inside old ((members old).2 (.inr there))
          · refine List.pairwise_cons.2 ⟨fun other inside same => ?_, apart⟩
            rw [same]
            exact absentRest other inside entry ((members entry).2 (.inl rfl)) same
        · refine .inr ⟨entry :: before, other, after', rfl, named, ⟨old, ?_, same⟩, by rw [step]; exact refuses⟩
          rcases List.mem_append.1 there with earlier | there
          · exact List.mem_cons_of_mem _ (List.mem_append_left _ earlier)
          · rcases (members old).1 there with rfl | there
            · exact List.mem_cons_self
            · exact List.mem_cons_of_mem _ (List.mem_append_right _ there)

theorem exportToEntry_kinds (exportInfo : Export) :
    Nameless (exportToEntry exportInfo) ∨
      (exportToEntry exportInfo).name ≠ [] ∧ (0 : UInt8) ∉ (exportToEntry exportInfo).name ∧
        (exportToEntry exportInfo).payload ≠ [] := by
  by_cases named : exportInfo.name = .empty
  · refine .inl ⟨by rw [exportToEntry, named]; rfl, ?_⟩
    have nameless : exportInfo.name.bytes.isEmpty = true := by
      rw [named]
      rfl
    simp [exportToEntry, nameless]
  · exact .inr (exportToEntry_named named)

/-- **A duplicate is reported exactly when two exports have the same name**, unless that name is empty; what is
reported is that name, and in every other case the trie is built. -/
theorem buildTrie_duplicate_iff (exports : List Export) :
    ((∃ name, buildTrie exports = .error (.duplicateSymbol name)) ↔
        ¬ exports.Pairwise fun a b => a.name = b.name → a.name = .empty) ∧
      (∀ error, buildTrie exports = .error error → ∃ before a after b, exports = before ++ b :: after ∧ a ∈ before ∧
        a.name = b.name ∧ b.name ≠ .empty ∧ error = .duplicateSymbol b.name.bytes) := by
  have empty : Good (.mk 0 [] {} []) :=
    .mk (by simp) (by simp) (by simp) (.inl rfl) (by simp) (by simp) (by simp)
  have names : ∀ a b : Export, (exportToEntry a).name = (exportToEntry b).name ↔ a.name = b.name :=
    fun a b => ⟨fun same => CString.ext same, fun same => congrArg CString.bytes same⟩
  have nameless : ∀ a : Export, (exportToEntry a).name = [] ↔ a.name = .empty :=
    fun a => ⟨fun none_ => CString.ext none_, fun none_ => congrArg CString.bytes none_⟩
  have outcome := @addEntries_cases (exports.map exportToEntry) 0 _ _ empty rfl (.bare _)
    (by simpa using fun exportInfo _ => exportToEntry_kinds exportInfo) 1 (Nat.zero_le 1)
  rcases outcome with ⟨⟨built, builds⟩, -, apart⟩ | ⟨before, entry, after, split, named, ⟨old, there, same⟩, refuses⟩
  · have builds : buildTrie exports = .ok built := builds
    rw [List.pairwise_map] at apart
    simp only [names, nameless] at apart
    rw [builds]
    simp [apart]
  · have refuses : buildTrie exports = .error (.duplicateSymbol entry.name) := refuses
    have earlier : old ∈ before := by simpa [Node.entries, entriesOf] using there
    obtain ⟨first, rest, rfl, rfl, tail⟩ := List.map_eq_append_iff.1 split
    obtain ⟨b, last, rfl, rfl, rfl⟩ := List.map_eq_cons_iff.1 tail
    obtain ⟨a, inside, rfl⟩ := List.mem_map.1 earlier
    rw [names] at same
    rw [ne_eq, nameless] at named
    rw [refuses]
    refine ⟨iff_of_true ⟨_, rfl⟩ fun apart => ?_, ?_⟩
    · have pair := (List.pairwise_append.1 apart).2.2 a inside b List.mem_cons_self same
      rw [same] at pair
      exact named pair
    · rintro error refused
      cases refused
      exact ⟨first, a, last, b, rfl, inside, same, named, rfl⟩

def twoNameless : List Export := [{ name := .empty, offset := 1 }, { name := .empty, offset := 2 }]

/-- Two exports without a name are not reported. -/
theorem twoNameless_built :
    ¬ ((∃ name, buildTrie twoNameless = .error (.duplicateSymbol name)) ↔ ¬ (twoNameless.map Export.name).Nodup) := by
  intro reported
  have repeated : ¬ (twoNameless.map Export.name).Nodup := by decide
  obtain ⟨name, refused⟩ := reported.mpr repeated
  cases refused

end Cctools.MachO
