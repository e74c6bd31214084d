/-
# Cctools.MachO.TrieVisits -- the reader goes over the tree that was written

When the nodes of a good tree stand in a trie at their offsets (`Stands`), the reader
started at one of them comes back with an entry for every terminal node below that it
can see (`visits`).  It sees as many children as the byte says that counts them: of
256 children none.
-/
import Cctools.MachO.TrieAdded
import Cctools.MachO.TrieReads
import Cctools.MachO.TrieSafety

namespace Cctools.MachO

set_option autoImplicit false

open Cctools.LinkEdit Cctools.Theory Cctools.MachO.ParseTrie

/-! ## What the reader sees -/

mutual
/-- The terminal nodes that the reader comes to. -/
def Node.visible : Node → List (Nat × WriterEntry)
  | .mk index _ terminalEntry children =>
    (if terminalEntry.name.isEmpty then [] else [(index, terminalEntry)]) ++
      visibleOf children (children.length % 256)
def visibleOf : List Edge → Nat → List (Nat × WriterEntry)
  | (_, child) :: rest, count + 1 => child.visible ++ visibleOf rest count
  | _, _ => []
end

/-- Every count of children fits its byte. -/
def Node.Uncrowded (node : Node) : Prop := ∀ placed ∈ node.placed, placed.2.children.length < 256

/-! ## Where the nodes stand -/

section Stands

variable (start : Nat) (bytes : List UInt8) (offsets ends : Nat → Nat)

/-- The nodes of a tree stand at their offsets, in front of their ends, and there is more in the trie
than the names take. -/
structure Stands (node : Node) : Prop where
  lies : ∀ placed ∈ node.placed, placed.2.bytes offsets <+: bytes.drop (offsets placed.1)
  fits : ∀ placed ∈ node.placed, offsets placed.1 + (placed.2.bytes offsets).length ≤ ends placed.1
  below : ∀ placed ∈ node.placed, ∀ edge ∈ placed.2.children, 0 < offsets edge.2 ∧ offsets edge.2 < 2 ^ 32
  room : node.cummulativeString.length +
    (node.placed.map fun placed => (placed.2.bytes offsets).length).sum ≤ bytes.length

/-- The entries are those of exports, and their lengths are numbers for the reader. -/
def Speaks (node : Node) : Prop :=
  ∀ entry ∈ node.entries, (∃ exportInfo : Export, exportInfo.name.bytes = entry.name ∧
    entry.payload = exportPayload exportInfo) ∧ entry.payload.length < 2 ^ 32 ∧ entry.name.length < 2 ^ 31

/-- What was found says what the entry of a terminal node says, and is of that node. -/
structure Tells (terminal : Nat × WriterEntry) (found : EntryWithOffset) : Prop where
  decodes : ∀ exportInfo : Export, exportInfo.name.bytes = terminal.2.name →
    terminal.2.payload = exportPayload exportInfo → Decodes start bytes exportInfo found.entry
  after : offsets terminal.1 < found.nodeOffset
  before : found.nodeOffset < ends terminal.1

/-- The name so far stands in `cummulativeString`. -/
structure Spelled (string : List UInt8) (parsing : Parsing) : Prop where
  length : parsing.cummulativeString.length = bytes.length
  string : parsing.cummulativeString.take string.length = string

/-- The reader has gone over the given terminal nodes. -/
structure Found (string : List UInt8) (terminals : List (Nat × WriterEntry)) (parsing after : Parsing) : Prop where
  spelled : Spelled bytes string after
  output : ∃ found, after.output = parsing.output ++ found ∧
    List.Forall₂ (Tells start bytes offsets ends) terminals found

/-- The name ends behind what stands for it. -/
def Terminated (string : List UInt8) (parsing : Parsing) : Prop :=
  parsing.cummulativeString[string.length]? = some 0

/-- Started at a node, the reader comes back with what it can see. -/
def Visits (node : Node) : Prop :=
  ∀ parsing, Spelled bytes node.cummulativeString parsing →
    (node.terminalEntry.name ≠ [] → Terminated node.cummulativeString parsing) →
      ∃ after, Found start bytes offsets ends node.cummulativeString node.visible parsing after ∧
        Loop.Settles (fun fuel => processExportNode start bytes fuel (start + offsets node.index)
          node.cummulativeString.length parsing) (.ok after)

end Stands

variable {start : Nat} {bytes : List UInt8} {offsets ends : Nat → Nat}

/-! ## cummulativeString -/

variable {string : List UInt8}

theorem Spelled.split {parsing : Parsing} (spelled : Spelled bytes string parsing) :
    ∃ rest, parsing.cummulativeString = string ++ rest :=
  ⟨parsing.cummulativeString.drop string.length, by
    nth_rewrite 1 [← List.take_append_drop string.length parsing.cummulativeString, spelled.string]
    rfl⟩

theorem Spelled.shorter {string more : List UInt8} {parsing : Parsing}
    (spelled : Spelled bytes (string ++ more) parsing) : Spelled bytes string parsing := by
  refine ⟨spelled.length, ?_⟩
  obtain ⟨rest, same⟩ := spelled.split
  rw [same, List.append_assoc, List.take_left]

theorem Spelled.copyEdge {string edgeString : List UInt8} {parsing : Parsing}
    (spelled : Spelled bytes string parsing) (fits : string.length + edgeString.length < bytes.length) :
    Spelled bytes (string ++ edgeString) (parsing.copyEdge string.length edgeString) ∧
      Terminated (string ++ edgeString) (parsing.copyEdge string.length edgeString) := by
  have text : (parsing.copyEdge string.length edgeString).cummulativeString = (string ++ edgeString) ++
      0 :: parsing.cummulativeString.drop (string.length + edgeString.length + 1) := by
    rw [Parsing.copyEdge]
    simp only [spelled.string]
  refine ⟨⟨?_, ?_⟩, ?_⟩
  · rw [Parsing.length_copyEdge (by rwa [spelled.length]), spelled.length]
  · rw [text, List.take_left]
  · rw [Terminated, text, List.getElem?_append_right (le_refl _), Nat.sub_self]
    rfl

theorem Spelled.push {parsing : Parsing} (spelled : Spelled bytes string parsing)
    (terminal : Option EntryWithOffset) : Spelled bytes string (parsing.push terminal) := by
  refine ⟨?_, ?_⟩
  · rw [Parsing.push_cummulativeString, spelled.length]
  · rw [Parsing.push_cummulativeString, spelled.string]

theorem Spelled.name {parsing : Parsing} (spelled : Spelled bytes string parsing)
    (nulFree : (0 : UInt8) ∉ string) (terminated : Terminated string parsing) :
    parsing.cummulativeString.takeWhile (· ≠ 0) = string ∧ parsing.cummulativeString.contains 0 = true := by
  obtain ⟨rest, same⟩ := spelled.split
  rw [Terminated, same, List.getElem?_append_right (le_refl _), Nat.sub_self] at terminated
  cases rest with
  | nil => cases terminated
  | cons byte rest =>
    obtain rfl : byte = 0 := Option.some.inj terminated
    rw [same]
    exact ⟨takeWhile_of_nulFree nulFree rest, by simp⟩

/-! ## The loop over the children -/

theorem Found.trans {first second : List (Nat × WriterEntry)} {parsing mid after : Parsing}
    (one : Found start bytes offsets ends string first parsing mid)
    (two : Found start bytes offsets ends string second mid after) :
    Found start bytes offsets ends string (first ++ second) parsing after := by
  obtain ⟨found, output, tells⟩ := one.output
  obtain ⟨more, output', tells'⟩ := two.output
  exact ⟨two.spelled, found ++ more, by rw [output', output, List.append_assoc], List.rel_append tells tells'⟩

/-- What is asked of an edge: it is read as it was written, and its child is visited. -/
structure Passable (start : Nat) (bytes : List UInt8) (offsets ends : Nat → Nat) (string : List UInt8)
    (edge : Edge) : Prop where
  nulFree : (0 : UInt8) ∉ edge.1
  spells : edge.2.cummulativeString = string ++ edge.1
  fits : string.length + edge.1.length < min bytes.length (2 ^ 31)
  below : 0 < offsets edge.2.index ∧ offsets edge.2.index < 2 ^ 32
  low : start + offsets edge.2.index < 2 ^ 64
  visits : Visits start bytes offsets ends edge.2

theorem processEdges_found {edges : List Edge}
    (passable : ∀ edge ∈ edges, Passable start bytes offsets ends string edge) {count : Nat}
    (inside : count ≤ edges.length) {s : Nat} {rest : List UInt8}
    (here : At start bytes s
      ((edges.map fun edge => (edge.1, edge.2.index)).flatMap (TrieNode.edgeBytes offsets) ++ rest))
    {parsing : Parsing} (spelled : Spelled bytes string parsing) :
    ∃ after, Found start bytes offsets ends string (visibleOf edges count) parsing after ∧
      Loop.Settles (fun fuel =>
        processEdges start bytes (processExportNode start bytes fuel) string.length count s parsing) (.ok after) := by
  induction edges generalizing count s parsing with
  | nil =>
    obtain rfl : count = 0 := Nat.le_zero.mp inside
    refine ⟨parsing, ⟨spelled, [], by simp, ?_⟩, Loop.settles_const _⟩
    rw [visibleOf.eq_def]
    exact .nil
  | cons edge more ih =>
    rw [List.forall_mem_cons] at passable
    obtain ⟨⟨nulFree, spells, fits, below, low, visits⟩, later⟩ := passable
    cases count with
    | zero =>
      refine ⟨parsing, ⟨spelled, [], by simp, ?_⟩, Loop.settles_const _⟩
      rw [visibleOf.eq_def]
      exact .nil
    | succ count =>
      obtain ⟨partialString, child⟩ := edge
      rw [List.map_cons, List.flatMap_cons, List.append_assoc] at here
      have read := @readEdge_at start bytes _ s offsets (partialString, child.index) nulFree string.length here
        fits below.1 below.2 low
      obtain ⟨copied, terminated⟩ := spelled.copyEdge (show string.length + partialString.length < bytes.length by
        have := fits; simp only at this; omega)
      have name : child.cummulativeString.length = string.length + partialString.length := by
        rw [spells, List.length_append]
      obtain ⟨mid, found, needed, ran⟩ := visits (parsing.copyEdge string.length partialString)
        (by rwa [spells]) (fun _ => by rwa [spells])
      rw [name] at ran
      have foundHere : Found start bytes offsets ends string child.visible parsing mid := by
        obtain ⟨more', output, tells⟩ := found.output
        refine ⟨?_, more', output, tells⟩
        have spelled' := found.spelled
        rw [spells] at spelled'
        exact spelled'.shorter
      obtain ⟨after, found', needed', ran'⟩ := ih later (Nat.le_of_succ_le_succ inside) here.advance
        foundHere.spelled
      refine ⟨after, ?_, max needed needed', ?_⟩
      · rw [visibleOf]
        exact foundHere.trans found'
      · intro fuel enough
        have first := ran fuel (by omega)
        have second := ran' fuel (by omega)
        simp only at first second
        simp only [processEdges, read, first, second]

/-! ## A node -/

/-- What the nodes of a tree take. -/
def weight (offsets : Offsets) (node : Node) : Nat :=
  (node.placed.map fun placed => (placed.2.bytes offsets).length).sum

theorem weight_mk (index : Nat) (cummulativeString : List UInt8) (terminalEntry : WriterEntry)
    (children : List Edge) :
    weight offsets (.mk index cummulativeString terminalEntry children) =
      ((TrieNode.of terminalEntry children).bytes offsets).length +
        (children.map fun edge => weight offsets edge.2).sum := by
  rw [weight, Node.placed, placedOf_eq, List.map_cons, List.sum_cons]
  congr 1
  induction children with
  | nil => rfl
  | cons edge rest ih =>
    rw [List.flatMap_cons, List.map_append, List.sum_append, ih, List.map_cons, List.sum_cons]
    rfl

theorem bytes_pos (node : TrieNode) : 0 < (node.bytes offsets).length := by
  rw [TrieNode.bytes]
  simp only [List.length_append, List.length_singleton]
  omega

variable {terminalEntry : WriterEntry} {children : List Edge}

theorem edge_lt {edge : Edge} (member : edge ∈ children) :
    edge.1.length < ((TrieNode.of terminalEntry children).bytes offsets).length := by
  have inside : TrieNode.edgeBytes offsets (edge.1, edge.2.index) ∈
      (TrieNode.of terminalEntry children).children.map (TrieNode.edgeBytes offsets) :=
    List.mem_map_of_mem (List.mem_map_of_mem member)
  have short := (List.sublist_flatten_of_mem inside).length_le
  rw [TrieNode.edgeBytes, List.length_append, List.length_append, List.length_singleton] at short
  rw [TrieNode.bytes, List.length_append, List.flatMap_def]
  simp only at short
  omega

theorem Stands.child {index : Nat} {cummulativeString : List UInt8}
    (stands : Stands bytes offsets ends (.mk index cummulativeString terminalEntry children))
    {edge : Edge} (member : edge ∈ children) (spells : edge.2.cummulativeString = cummulativeString ++ edge.1) :
    Stands bytes offsets ends edge.2 := by
  have inside : ∀ placed ∈ edge.2.placed,
      placed ∈ (Node.mk index cummulativeString terminalEntry children).placed := by
    intro placed there
    rw [Node.placed, placedOf_eq]
    exact List.mem_cons_of_mem _ (List.mem_flatMap.2 ⟨edge, member, there⟩)
  refine ⟨fun placed there => stands.lies placed (inside placed there),
    fun placed there => stands.fits placed (inside placed there),
    fun placed there => stands.below placed (inside placed there), ?_⟩
  have room := stands.room
  change cummulativeString.length + weight offsets _ ≤ bytes.length at room
  change edge.2.cummulativeString.length + weight offsets edge.2 ≤ bytes.length
  have longer := @edge_lt offsets terminalEntry children edge member
  have part : weight offsets edge.2 ≤ (children.map fun edge => weight offsets edge.2).sum :=
    List.le_sum_of_mem (List.mem_map_of_mem member)
  rw [weight_mk] at room
  rw [spells, List.length_append]
  omega

theorem Stands.at {node : TrieNode} {index : Nat} (lies : node.bytes offsets <+: bytes.drop (offsets index)) :
    ∃ rest, At start bytes (start + offsets index) (node.bytes offsets ++ rest) := by
  apply at_drop
  · have short := lies.length_le
    have positive := @bytes_pos offsets node
    rw [List.length_drop] at short
    omega
  · exact lies

theorem passable (low : stop start bytes < 2 ^ 64) {index : Nat} {cummulativeString : List UInt8}

    (good : Good (.mk index cummulativeString terminalEntry children))
    (stands : Stands bytes offsets ends (.mk index cummulativeString terminalEntry children))
    (speaks : Speaks (.mk index cummulativeString terminalEntry children)) {edge : Edge} (member : edge ∈ children)
    (visits : Visits start bytes offsets ends edge.2) :
    Passable start bytes offsets ends cummulativeString edge := by
  cases good with
  | mk firsts nulFree spells terminal empty inhabited goods =>
    have here : edge.2.cummulativeString = cummulativeString ++ edge.1 := spells edge member
    have child := stands.child member here
    -- the child is in front of some entry, whose name is not too long
    obtain ⟨entry, inside⟩ := List.exists_mem_of_ne_nil _ (inhabited edge member)
    have short := (speaks entry (mem_entries.2 (.inr ⟨edge, member, inside⟩))).2.2
    have under := ((goods edge member).spelled entry inside).2.length_le
    have positive : 0 < weight offsets edge.2 := by
      obtain ⟨_, ⟨_, _, _, _⟩⟩ := edge
      rw [weight_mk]
      exact Nat.lt_add_right _ (bytes_pos _)
    have room := child.room
    change edge.2.cummulativeString.length + weight offsets edge.2 ≤ bytes.length at room
    rw [here, List.length_append] at under room
    have below := stands.below _ List.mem_cons_self _ (List.mem_map_of_mem member)
    refine ⟨nulFree edge member, here, lt_min (by omega) (by omega), below, ?_, visits⟩
    have place : edge.2.placed ≠ [] := by
      obtain ⟨_, ⟨_, _, _, _⟩⟩ := edge
      exact List.cons_ne_nil _ _
    obtain ⟨_, ⟨_, _, _, _⟩⟩ := edge
    obtain ⟨rest, there⟩ := @Stands.at start bytes offsets _ _ (child.lies _ List.mem_cons_self)
    exact lt_of_le_of_lt there.inside.2 low

theorem of_payload (small : terminalEntry.payload.length < 2 ^ 32) (children : List Edge) :
    (TrieNode.of terminalEntry children).terminalEntry.payload = terminalEntry.payload := by
  show terminalEntry.payload.take (terminalEntry.payload.length % 2 ^ 32) = terminalEntry.payload
  rw [Nat.mod_eq_of_lt small, List.take_length]

/-- **The reader goes over the tree.** -/
theorem visits (low : stop start bytes < 2 ^ 64) {node : Node} (good : Good node) :
    Stands bytes offsets ends node → Speaks node → Visits start bytes offsets ends node := by
  induction good with
  | @mk index cummulativeString terminalEntry children firsts nulFree spells terminal empty inhabited goods ih =>
    intro stands speaks
    have good : Good (.mk index cummulativeString terminalEntry children) :=
      .mk firsts nulFree spells terminal empty inhabited goods
    have below : ∀ edge ∈ children, Visits start bytes offsets ends edge.2 := by
      intro edge member
      refine ih edge member (stands.child member (spells edge member)) ?_
      exact fun entry inside => speaks entry (mem_entries.2 (.inr ⟨edge, member, inside⟩))
    have onward := @processEdges_found start bytes offsets ends cummulativeString children
      fun edge member => passable low good stands speaks member (below edge member)
    obtain ⟨rest, here⟩ := @Stands.at start bytes offsets _ _ (stands.lies _ List.mem_cons_self)
    intro parsing spelled terminated
    have count : children.length % 256 ≤ children.length := Nat.mod_le _ _
    have number : (TrieNode.of terminalEntry children).children.length = children.length :=
      List.length_map _
    by_cases plain : terminalEntry.name = []
    · obtain ⟨entered, edges⟩ := enterNode_plain low here plain (parsing.cummulativeString.contains 0)
      obtain ⟨after, found, settles⟩ := onward count edges spelled
      refine ⟨after, ?_, Loop.settles_of_succ ?_⟩
      · rw [Node.visible, plain]
        exact found
      · simp only [processExportNode, Node.index, entered, number]
        exact settles
    · have name : terminalEntry.name = cummulativeString := by
        rcases terminal with rfl | ⟨same, -, -⟩
        · exact absurd rfl plain
        · exact same
      obtain ⟨⟨exportInfo, named, payload⟩, small, -⟩ := speaks terminalEntry (mem_entries.2 (.inl ⟨rfl, plain⟩))
      obtain ⟨text, terminator⟩ : parsing.cummulativeString.takeWhile (· ≠ 0) = cummulativeString ∧ _ :=
        spelled.name (by
          show (0 : UInt8) ∉ cummulativeString
          rw [← name, ← named]
          exact exportInfo.name.nulFree) (terminated plain)
      obtain ⟨entry, next, nodeOffset, entered, decodes, past, before, edges⟩ :=
        enterNode_terminal low here plain ((of_payload small children).trans payload)
      have told : Found start bytes offsets ends cummulativeString [(index, terminalEntry)] parsing
          (parsing.push (some ⟨nodeOffset, entry⟩)) := by
        refine ⟨spelled.push _, [⟨nodeOffset, { entry with name := cummulativeString }⟩], ?_, .cons ?_ .nil⟩
        · rw [Parsing.push]
          simp only [text]
        · refine ⟨?_, by simp only at past ⊢; omega, ?_⟩
          · intro other sameName samePayload
            obtain ⟨entry', _, _, entered', decodes', _⟩ :=
              enterNode_terminal low here plain ((of_payload small children).trans samePayload)
            rw [entered] at entered'
            cases entered'
            rw [sameName, show (index, terminalEntry).2.name = cummulativeString from name] at decodes'
            exact decodes'
          · have := stands.fits _ List.mem_cons_self
            simp only at this before ⊢
            omega
      obtain ⟨after, found, settles⟩ := onward count edges told.spelled
      refine ⟨after, ?_, Loop.settles_of_succ ?_⟩
      · have shown : terminalEntry.name.isEmpty = false := by
          rwa [← Bool.not_eq_true, List.isEmpty_iff]
        rw [Node.visible, shown]
        exact told.trans found
      · simp only [processExportNode, Node.index, terminator, entered, number]
        exact settles

end Cctools.MachO
