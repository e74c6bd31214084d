/-
# Cctools.MachO.TrieOffsets -- the offsets of the nodes, and the stream they are written to

`buildTrieBytes` gives every node the offset at which the nodes before it end, again and again,
since an offset is written as uleb128 and its length depends on its value.  All of this is
done in `uint32_t`.

The offsets come to rest where the stream puts the nodes, unless no layout of the nodes stays
below 2^32.
-/
import Cctools.MachO.TrieDuplicates
import Cctools.Theory.Layout
import Cctools.Theory.Loop

namespace Cctools.MachO

set_option autoImplicit false

open Cctools.LinkEdit Cctools.Theory

/-! ## allNodes -/

/-- A node as it stands in `allNodes`: its entry, and its edges with the places of their children there. -/
structure TrieNode where
  terminalEntry : WriterEntry
  children : List (List UInt8 × Nat)
  /-- `terminalStride.size` is a `uint32_t`. -/
  payload_small : terminalEntry.payload.length < 2 ^ 32

/-- `allNodes`: every child is one of the nodes. -/
structure AllNodes where
  nodes : List TrieNode
  closed : ∀ node ∈ nodes, ∀ edge ∈ node.children, edge.2 < nodes.length

/-- `trieOffset` of the nodes. -/
abbrev Offsets := Nat → Nat

/-! ## updateOffset -/

namespace TrieNode

variable (node : TrieNode)

/-- The bytes of the entry, or the one that says that there is none. -/
def terminalSize : Nat :=
  if node.terminalEntry.name.isEmpty then 1
  else node.terminalEntry.payload.length + Leb128.ulebSize 10 node.terminalEntry.payload.length

def edgeSize (offsets : Offsets) (edge : List UInt8 × Nat) : Nat :=
  edge.1.length + 1 + Leb128.ulebSize 10 (offsets edge.2)

/-- `nodeSize`, before it is an `uint32_t`. -/
def size (offsets : Offsets) : Nat :=
  node.terminalSize + 1 + (node.children.map (edgeSize offsets)).sum

/-! ## appendToStream -/

def terminalBytes : List UInt8 :=
  if node.terminalEntry.name.isEmpty then [0]
  else appendUleb128 (BitVec.ofNat 64 node.terminalEntry.payload.length) ++ node.terminalEntry.payload

def edgeBytes (offsets : Offsets) (edge : List UInt8 × Nat) : List UInt8 :=
  edge.1 ++ [0] ++ appendUleb128 (BitVec.ofNat 64 (offsets edge.2))

def bytes (offsets : Offsets) : List UInt8 :=
  node.terminalBytes ++ [UInt8.ofNat node.children.length] ++ node.children.flatMap (edgeBytes offsets)

end TrieNode

/-! ## buildTrieBytes -/

/-- `updateOffset` for the nodes from the place `k` on, with `curOffset`; whether any offset changed. -/
def updateOffsets : List TrieNode → Nat → Nat → Offsets → Offsets × Bool
  | [], _, _, offsets => (offsets, false)
  | node :: rest, k, curOffset, offsets =>
    let later := updateOffsets rest (k + 1) ((curOffset + node.size offsets) % 2 ^ 32)
      (Function.update offsets k curOffset)
    (later.1, offsets k ≠ curOffset || later.2)

namespace AllNodes

variable (trie : AllNodes)

/-- The body of the `do` loop. -/
def pass (offsets : Offsets) : Offsets × Bool := updateOffsets trie.nodes 0 0 offsets

/-- Offsets after so many passes. -/
def afterPasses : Nat → Offsets
  | 0 => fun _ => 0
  | m + 1 => (trie.pass (afterPasses m)).1

def stream (offsets : Offsets) : List UInt8 := trie.nodes.flatMap (TrieNode.bytes · offsets)

/-- `_trieBytes.size()` before a node is appended. -/
def position (offsets : Offsets) (k : Nat) : Nat := ((trie.nodes.take k).flatMap (TrieNode.bytes · offsets)).length

/-- The passes end, no offset ever shrinks, and in the end each is where the node is written, so that every
child is found at the offset that is written for it. -/
def Settles : Prop :=
  (∀ m k, trie.afterPasses m k ≤ trie.afterPasses (m + 1) k) ∧
    ∃ fuel offsets, Loop.doWhile (fun offsets => some (trie.pass offsets)) fuel (fun _ => 0) = some offsets ∧
      (∀ k < trie.nodes.length, offsets k = trie.position offsets k) ∧
      ∀ node ∈ trie.nodes, ∀ edge ∈ node.children, ∃ child, trie.nodes[edge.2]? = some child ∧
        child.bytes offsets <+: (trie.stream offsets).drop (offsets edge.2)

/-- Offsets below 2^32 at which the nodes stand behind each other. -/
def HasLayout : Prop :=
  ∃ offsets : Offsets, (∀ k < trie.nodes.length, offsets k < 2 ^ 32) ∧
    ∀ k < trie.nodes.length, offsets k = ((trie.nodes.take k).map (TrieNode.size · offsets)).sum

end AllNodes

/-! ## Sizes -/

namespace TrieNode

theorem length_appendUleb128_ofNat {value : Nat} (small : value < 2 ^ 64) :
    (appendUleb128 (BitVec.ofNat 64 value)).length = Leb128.ulebSize 10 value := by
  rw [length_appendUleb128, uleb128Size, BitVec.toNat_ofNat, Nat.mod_eq_of_lt small]

theorem length_bytes (node : TrieNode) {offsets : Offsets} (small : ∀ edge ∈ node.children, offsets edge.2 < 2 ^ 64) :
    (node.bytes offsets).length = node.size offsets := by
  have terminal : node.terminalBytes.length = node.terminalSize := by
    rw [terminalBytes, terminalSize]
    split
    · rfl
    · rw [List.length_append, length_appendUleb128_ofNat (lt_trans node.payload_small (by decide)), Nat.add_comm]
  have edges : node.children.map (fun edge => (edgeBytes offsets edge).length) =
      node.children.map (edgeSize offsets) := by
    refine List.map_congr_left fun edge inside => ?_
    rw [edgeBytes, List.length_append, length_appendUleb128_ofNat (small edge inside), List.length_append, edgeSize]
    rfl
  rw [bytes, size, List.length_append, List.length_append, terminal, List.length_flatMap, edges]
  rfl

theorem size_mono (node : TrieNode) : Monotone node.size := by
  intro offsets offsets' above
  refine Nat.add_le_add_left (List.sum_le_sum fun edge _ => ?_) _
  exact Nat.add_le_add_left (Leb128.ulebSize_mono 10 (above edge.2)) _

end TrieNode

/-! ## One pass -/

variable {rest : List TrieNode} {k curOffset : Nat} {offsets : Offsets}

theorem updateOffsets_outside {j : Nat}
    (outside : j < k ∨ k + rest.length ≤ j) : (updateOffsets rest k curOffset offsets).1 j = offsets j := by
  induction rest generalizing k curOffset offsets with
  | nil => rfl
  | cons node rest ih =>
    rw [List.length_cons] at outside
    rw [updateOffsets, ih (by omega), Function.update_of_ne (by omega)]

theorem updateOffsets_small (small : curOffset < 2 ^ 32)
    {j : Nat} (from_k : k ≤ j) (before : j < k + rest.length) :
    (updateOffsets rest k curOffset offsets).1 j < 2 ^ 32 := by
  induction rest generalizing k curOffset offsets with
  | nil =>
    rw [List.length_nil] at before
    omega
  | cons node rest ih =>
    rw [List.length_cons] at before
    rw [updateOffsets]
    rcases Nat.eq_or_lt_of_le from_k with rfl | behind
    · rw [updateOffsets_outside (.inl (Nat.lt_succ_self k)), Function.update_self]
      exact small
    · exact ih (Nat.mod_lt _ (by decide)) behind (by omega)

theorem updateOffsets_more :
    (updateOffsets rest k curOffset offsets).2 = false ↔ (updateOffsets rest k curOffset offsets).1 = offsets := by
  induction rest generalizing k curOffset offsets with
  | nil => exact iff_of_true rfl rfl
  | cons node rest ih =>
    rw [updateOffsets]
    by_cases here : offsets k = curOffset
    · have same : Function.update offsets k curOffset = offsets := by
        rw [← here, Function.update_eq_self]
      simp only [here, ne_eq, not_true_eq_false, decide_false, Bool.false_or, same]
      exact ih
    · simp only [ne_eq, here, not_false_eq_true, decide_true, Bool.true_or, Bool.true_eq_false, false_iff]
      intro same
      have first := congrFun same k
      rw [updateOffsets_outside (.inl (Nat.lt_succ_self k)), Function.update_self] at first
      exact here first.symm

namespace AllNodes

variable (trie : AllNodes)

/-- The sizes of the nodes by their places. -/
def sizeAt (k : Nat) (offsets : Offsets) : Nat := (trie.nodes[k]?.map (TrieNode.size · offsets)).getD 0

variable {trie}

theorem sizeAt_mono (k : Nat) : Monotone (trie.sizeAt k) := by
  intro offsets offsets' above
  rw [sizeAt, sizeAt]
  cases trie.nodes[k]? with
  | none => exact le_refl 0
  | some node => exact node.size_mono above

theorem place_eq (offsets : Offsets) (k : Nat) :
    Layout.place trie.sizeAt offsets k = ((trie.nodes.take k).map (TrieNode.size · offsets)).sum := by
  induction k with
  | zero => rfl
  | succ k ih =>
    rw [Layout.place, ih, sizeAt, List.take_add_one, List.map_append, List.sum_append]
    cases trie.nodes[k]? with
    | none => rfl
    | some node => simp

variable {offsets : Offsets}

theorem updateOffsets_eq {rest : List TrieNode} {k curOffset : Nat} (rest_eq : rest = trie.nodes.drop k)
    (small : ∀ j, k ≤ j → j < k + rest.length → Layout.sweepFrom trie.sizeAt rest.length k curOffset offsets j < 2 ^ 32) :
    (updateOffsets rest k curOffset offsets).1 = Layout.sweepFrom trie.sizeAt rest.length k curOffset offsets := by
  induction rest generalizing k curOffset offsets with
  | nil => rfl
  | cons node rest ih =>
    have here : trie.nodes[k]? = some node := by
      have first := congrArg (·[0]?) rest_eq
      simpa using first.symm
    have size : trie.sizeAt k offsets = node.size offsets := by rw [sizeAt, here]; rfl
    have later : rest = trie.nodes.drop (k + 1) := by
      have tail := congrArg List.tail rest_eq
      rwa [List.tail_cons, List.tail_drop] at tail
    rw [List.length_cons] at small ⊢
    rw [updateOffsets, Layout.sweepFrom, size]
    simp only [Layout.sweepFrom, size] at small
    cases rest with
    | nil => rfl
    | cons next rest =>
      have fits := small (k + 1) (by omega) (by rw [List.length_cons]; omega)
      rw [List.length_cons, Layout.sweepFrom_first] at fits
      rw [Nat.mod_eq_of_lt fits]
      exact ih later fun j from_k before => small j (by omega) (by omega)

/-! ## All passes -/

section Layout

variable {layout : Offsets} (small : ∀ k < trie.nodes.length, layout k < 2 ^ 32)
  (rests : Layout.sweep trie.sizeAt trie.nodes.length layout ≤ layout)

include small rests

theorem pass_eq {offsets : Offsets} (below : offsets ≤ layout) :
    (trie.pass offsets).1 = Layout.sweep trie.sizeAt trie.nodes.length offsets := by
  refine updateOffsets_eq rfl fun j _ before => ?_
  have swept : Layout.sweep trie.sizeAt trie.nodes.length offsets ≤ layout :=
    le_trans (Layout.sweep_mono sizeAt_mono _ below) rests
  exact lt_of_le_of_lt (swept j) (small j (by omega))

theorem afterPasses_eq (m : Nat) :
    trie.afterPasses m = (Layout.sweep trie.sizeAt trie.nodes.length)^[m] fun _ => 0 := by
  induction m with
  | zero => rfl
  | succ m ih =>
    have below := Layout.iterate_sweep_le sizeAt_mono rests m
    rw [afterPasses, Function.iterate_succ_apply', ih, pass_eq small rests below]

/-- The loop ends with offsets that a further pass does not change. -/
theorem passes_end : ∃ fuel m, Loop.doWhile (fun offsets => some (trie.pass offsets)) fuel (fun _ => 0) =
      some (trie.afterPasses m) ∧ (trie.pass (trie.afterPasses m)).1 = trie.afterPasses m := by
  obtain ⟨m, fixed⟩ := Layout.exists_fixed sizeAt_mono rests
  rw [← afterPasses_eq small rests, ← afterPasses_eq small rests] at fixed
  have stops : (trie.pass (trie.afterPasses m)).2 = false := updateOffsets_more.mpr fixed
  obtain ⟨i, -, ended, stopped⟩ := @Loop.doWhile_of_run _ (fun offsets => some (trie.pass offsets)) trie.afterPasses
    (fun i => (trie.pass (trie.afterPasses i)).2) m (fun _ _ => rfl) stops
  have still : trie.afterPasses (i + 1) = trie.afterPasses i := updateOffsets_more.mp stopped
  rw [still] at ended
  exact ⟨_, i, ended, still⟩

end Layout

/-! ## The stream -/

theorem position_eq (small : ∀ k < trie.nodes.length, offsets k < 2 ^ 32) (k : Nat) :
    trie.position offsets k = ((trie.nodes.take k).map (TrieNode.size · offsets)).sum := by
  have lengths : (trie.nodes.take k).map (fun node => (node.bytes offsets).length) =
      (trie.nodes.take k).map (TrieNode.size · offsets) := by
    refine List.map_congr_left fun node inside => node.length_bytes fun edge child => ?_
    exact lt_trans (small _ (trie.closed node (List.mem_of_mem_take inside) edge child)) (by decide)
  rw [position, List.length_flatMap, lengths]

theorem bytes_at_position {k : Nat} {node : TrieNode} (here : trie.nodes[k]? = some node) :
    node.bytes offsets <+: (trie.stream offsets).drop (trie.position offsets k) := by
  obtain ⟨inside, here⟩ := List.getElem?_eq_some_iff.mp here
  have split : trie.stream offsets = (trie.nodes.take k).flatMap (TrieNode.bytes · offsets) ++
      (node.bytes offsets ++ (trie.nodes.drop (k + 1)).flatMap (TrieNode.bytes · offsets)) := by
    have nodes : trie.nodes = trie.nodes.take k ++ node :: trie.nodes.drop (k + 1) := by
      rw [← here, List.getElem_cons_drop, List.take_append_drop]
    rw [stream]
    nth_rewrite 1 [nodes]
    rw [List.flatMap_append, List.flatMap_cons]
  rw [split, position, List.drop_left]
  exact List.prefix_append _ _

theorem consistent_iff :
    Layout.Consistent trie.sizeAt trie.nodes.length offsets ↔
      ∀ k < trie.nodes.length, offsets k = ((trie.nodes.take k).map (TrieNode.size · offsets)).sum := by
  simp only [Layout.Consistent, place_eq]

theorem settles_of_rests {layout : Offsets} (small : ∀ k < trie.nodes.length, layout k < 2 ^ 32)
    (rests : Layout.sweep trie.sizeAt trie.nodes.length layout ≤ layout) : trie.Settles := by
  refine ⟨fun m => ?_, ?_⟩
  · rw [afterPasses_eq small rests, afterPasses_eq small rests]
    exact Layout.iterate_sweep_mono sizeAt_mono _ (Nat.le_succ m)
  · obtain ⟨fuel, m, ended, still⟩ := passes_end small rests
    have below : trie.afterPasses m ≤ layout := by
      rw [afterPasses_eq small rests]
      exact Layout.iterate_sweep_le sizeAt_mono rests m
    have smaller : ∀ k < trie.nodes.length, trie.afterPasses m k < 2 ^ 32 :=
      fun k inside => lt_of_le_of_lt (below k) (small k inside)
    rw [pass_eq small rests below, Layout.sweep_eq_iff, consistent_iff] at still
    have placed : ∀ k < trie.nodes.length, trie.afterPasses m k = trie.position (trie.afterPasses m) k := by
      intro k inside
      rw [position_eq smaller]
      exact still k inside
    refine ⟨fuel, _, ended, placed, fun node member edge child => ?_⟩
    have inside := trie.closed node member edge child
    refine ⟨_, List.getElem?_eq_getElem inside, ?_⟩
    rw [placed _ inside]
    exact bytes_at_position (List.getElem?_eq_getElem inside)

theorem hasLayout_of_settles (settles : trie.Settles) : trie.HasLayout := by
  obtain ⟨-, fuel, offsets, ended, placed, -⟩ := settles
  obtain ⟨last, -, stopped⟩ :=
    @Loop.doWhile_invariant _ _ (fun _ => True) _ _ _ (fun _ _ _ _ => trivial) trivial ended
  have result : (trie.pass last).1 = offsets := congrArg Prod.fst (Option.some.inj stopped)
  have small : ∀ k < trie.nodes.length, offsets k < 2 ^ 32 := by
    intro k inside
    rw [← result]
    exact updateOffsets_small (by decide) (Nat.zero_le k) (by omega)
  exact ⟨offsets, small, fun k inside => by rw [← position_eq small, ← placed k inside]⟩

/-- **The offsets settle exactly when the nodes have a layout below 2^32.** -/
theorem settles_iff : trie.Settles ↔ trie.HasLayout := by
  constructor
  · exact hasLayout_of_settles
  · rintro ⟨layout, small, stands⟩
    exact settles_of_rests small (le_of_eq (Layout.sweep_eq_iff.mpr (consistent_iff.mpr stands)))

/-- Nodes that take 2^32 bytes at most, with five for every offset, settle. -/
theorem settles_of_small (small : (trie.nodes.map fun node =>
      node.terminalSize + 1 + (node.children.map fun edge => edge.1.length + 1 + 5).sum).sum ≤ 2 ^ 32) :
    trie.Settles := by
  let widest : TrieNode → Nat := fun node =>
    node.terminalSize + 1 + (node.children.map fun edge => edge.1.length + 1 + 5).sum
  let bound : Offsets := fun k => ((trie.nodes.take k).map widest).sum
  have next : ∀ k node, trie.nodes[k]? = some node → bound (k + 1) = bound k + widest node := by
    intro k node here
    simp [bound, List.take_add_one, here]
  have total : ∀ k, bound k ≤ 2 ^ 32 := by
    intro k
    have split : (trie.nodes.map widest).sum = bound k + ((trie.nodes.drop k).map widest).sum := by
      rw [← List.sum_append, ← List.map_append, List.take_append_drop]
    have small : (trie.nodes.map widest).sum ≤ 2 ^ 32 := small
    omega
  have below : ∀ k < trie.nodes.length, bound k < 2 ^ 32 := by
    intro k inside
    have step := next k _ (List.getElem?_eq_getElem inside)
    have last := total (k + 1)
    have positive : 0 < widest trie.nodes[k] := by simp only [widest]; omega
    omega
  refine settles_of_rests below (Layout.sweep_le sizeAt_mono fun k inside => ?_)
  have here := List.getElem?_eq_getElem inside
  rw [next k _ here, sizeAt, here]
  refine Nat.add_le_add_left (Nat.add_le_add_left (List.sum_le_sum fun edge member => ?_) _) _
  have child := trie.closed _ (List.getElem_mem inside) edge member
  have short : Leb128.ulebSize 10 (bound edge.2) ≤ 4 + 1 :=
    Leb128.ulebSize_le_of_lt 10 (lt_trans (below _ child) (by decide))
  exact Nat.add_le_add_left short _

end AllNodes

/-! ## A name of 2^32 - 4 characters -/

/-- A root with one edge. -/
def oneEdge (partialString : List UInt8) : AllNodes where
  nodes := [⟨{}, [(partialString, 1)], by decide⟩, ⟨⟨[97], [0, 0]⟩, [], by decide⟩]
  closed := by simp

/-- When the child stands behind 2^32 bytes, its offset cannot say so. -/
theorem not_settles_of_long {partialString : List UInt8} (long : 2 ^ 32 - 4 ≤ partialString.length) :
    ¬ (oneEdge partialString).Settles := by
  intro settles
  obtain ⟨offsets, small, stands⟩ := AllNodes.hasLayout_of_settles settles
  have below := small 1 (Nat.lt_succ_self 1)
  have stands := stands 1 (Nat.lt_succ_self 1)
  have positive : 0 < Leb128.ulebSize 10 (offsets 1) := Leb128.ulebSize_pos 9 (offsets 1)
  simp only [oneEdge, List.take_succ_cons, List.take_zero, List.map_cons, List.map_nil, List.sum_cons, List.sum_nil,
    TrieNode.size, TrieNode.edgeSize, TrieNode.terminalSize, List.isEmpty_nil, ↓reduceIte] at stands
  omega

theorem longName_unsettled : ¬ (oneEdge (List.replicate (2 ^ 32 - 4) 97)).Settles :=
  not_settles_of_long (le_of_eq List.length_replicate.symm)

end Cctools.MachO
