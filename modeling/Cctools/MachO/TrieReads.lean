/-
# Cctools.MachO.TrieReads -- reading what was written

The reader at a place of the trie (`At`) where an operand, a payload, an edge or a
node was written finds that, and is then behind it.
-/
import Cctools.MachO.TrieNodes
import Cctools.MachO.ParseTrie

namespace Cctools.MachO.ParseTrie

set_option autoImplicit false

open Cctools.LinkEdit Cctools.Theory

variable {start : Nat} {bytes rest : List UInt8} {p : Nat}

/-! ## Places -/

/-- What is written from an address on. -/
def At (start : Nat) (bytes : List UInt8) (p : Nat) (ahead : List UInt8) : Prop :=
  ∃ before, bytes = before ++ ahead ∧ p = start + before.length

theorem At.advance {written : List UInt8} (here : At start bytes p (written ++ rest)) :
    At start bytes (p + written.length) rest := by
  obtain ⟨before, rfl, rfl⟩ := here
  exact ⟨before ++ written, (List.append_assoc _ _ _).symm, by rw [List.length_append, Nat.add_assoc]⟩

variable {ahead : List UInt8}

theorem At.inside (here : At start bytes p ahead) : Inside start bytes p := by
  obtain ⟨before, rfl, rfl⟩ := here
  refine ⟨Nat.le_add_right _ _, ?_⟩
  rw [stop, List.length_append]
  omega

theorem At.stop (here : At start bytes p ahead) :
    p + ahead.length = ParseTrie.stop start bytes := by
  obtain ⟨before, rfl, rfl⟩ := here
  rw [ParseTrie.stop, List.length_append, Nat.add_assoc]

theorem At.bytesAt (here : At start bytes p ahead) :
    bytesAt start bytes p = .ok ahead := by
  rw [bytesAt_inside here.inside]
  obtain ⟨before, rfl, rfl⟩ := here
  rw [Nat.add_sub_cancel_left, List.drop_left]

theorem at_drop {written : List UInt8} {offset : Nat} (inside : offset ≤ bytes.length)
    (there : written <+: bytes.drop offset) : ∃ rest, At start bytes (start + offset) (written ++ rest) := by
  obtain ⟨rest, same⟩ := there
  refine ⟨rest, bytes.take offset, ?_, ?_⟩
  · rw [same, List.take_append_drop]
  · rw [List.length_take, Nat.min_eq_left inside]

/-! ## Operands -/

theorem readUleb128At_at {value : BitVec 64} (here : At start bytes p (appendUleb128 value ++ rest)) :
    readUleb128At start bytes p = .ok (value, p + (appendUleb128 value).length) := by
  have behind := here.advance.stop
  rw [readUleb128At, here.bytesAt]
  simp only [Bind.bind, Except.bind, readUleb128_append]
  congr 2
  omega

theorem readByte_at {byte : UInt8} (here : At start bytes p (byte :: rest)) :
    readByte start bytes p = .ok byte := by
  rw [readByte, here.bytesAt]
  rfl

theorem readEdgeString_at {str : CString} (here : At start bytes p (appendString str ++ rest)) :
    readEdgeString start bytes p = .ok (str.bytes, p + (appendString str).length) := by
  have behind := here.advance.stop
  rw [readEdgeString, here.bytesAt]
  simp only [Bind.bind, Except.bind, readString_append]
  congr 2
  omega

/-! ## Payloads -/

/-- An entry says of its export all that is written of it; the name of a re-export is found where
`importName` points. -/
structure Decodes (start : Nat) (bytes : List UInt8) (exportInfo : Export) (entry : Entry) : Prop where
  name : entry.name = exportInfo.name.bytes
  flags : entry.flags = exportInfo.flags
  rest :
    if exportInfo.isReexport then
      entry.address = 0 ∧ entry.other = exportInfo.other ∧ ∃ p next, entry.importName = some p ∧
        readEdgeString start bytes p = .ok (exportInfo.importString.bytes, next)
    else
      entry.address = exportInfo.offset ∧ entry.importName = none ∧
        entry.other = if exportInfo.hasResolver then exportInfo.other else 0

theorem readTerminal_at {exportInfo : Export} (here : At start bytes p (exportPayload exportInfo ++ rest))
    (nodeOffset : Nat) :
    ∃ entry, readTerminal start bytes nodeOffset p = .ok ⟨nodeOffset, entry⟩ ∧
      Decodes start bytes exportInfo { entry with name := exportInfo.name.bytes } := by
  have flags : isReexport exportInfo.flags = exportInfo.isReexport := rfl
  have resolver : hasResolver exportInfo.flags = exportInfo.hasResolver := rfl
  rw [exportPayload] at here
  split at here
  · rename_i reexport
    rw [List.append_assoc, List.append_assoc] at here
    have string := here.advance.advance
    refine ⟨⟨[], 0, exportInfo.flags, exportInfo.other, some (p +
      (appendUleb128 exportInfo.flags).length + (appendUleb128 exportInfo.other).length)⟩, ?_, rfl, rfl, ?_⟩
    · rw [readTerminal, readUleb128At_at here]
      simp only [Bind.bind, Except.bind, flags, reexport, if_true]
      rw [readUleb128At_at here.advance]
    · rw [if_pos reexport]
      exact ⟨rfl, rfl, _, _, rfl, readEdgeString_at string⟩
  · rename_i plain
    split at here
    · rename_i resolves
      rw [List.append_assoc, List.append_assoc] at here
      refine ⟨⟨[], exportInfo.offset, exportInfo.flags, exportInfo.other, none⟩, ?_, rfl, rfl, ?_⟩
      · rw [readTerminal, readUleb128At_at here]
        simp only [Bind.bind, Except.bind, flags, plain, Bool.false_eq_true, if_false]
        rw [readUleb128At_at here.advance]
        simp only [resolver, resolves, if_true]
        rw [readUleb128At_at here.advance.advance]
      · rw [if_neg plain]
        exact ⟨rfl, rfl, by rw [if_pos resolves]⟩
    · rename_i simple
      rw [List.append_assoc] at here
      refine ⟨⟨[], exportInfo.offset, exportInfo.flags, 0, none⟩, ?_, rfl, rfl, ?_⟩
      · rw [readTerminal, readUleb128At_at here]
        simp only [Bind.bind, Except.bind, flags, plain, Bool.false_eq_true, if_false]
        rw [readUleb128At_at here.advance]
        simp only [resolver, simple, Bool.false_eq_true, if_false]
      · rw [if_neg plain]
        exact ⟨rfl, rfl, by rw [if_neg simple]⟩

theorem exportPayload_ne_nil (exportInfo : Export) : exportPayload exportInfo ≠ [] := by
  have some_ := appendUleb128_ne_nil exportInfo.flags
  rw [exportPayload]
  split
  · simp [some_]
  · split <;> simp [some_]

/-! ## Nodes and edges -/

variable {offsets : Offsets}

theorem readEdge_at {edge : List UInt8 × Nat} (nulFree : (0 : UInt8) ∉ edge.1) {curStrOffset : Nat}
    (here : At start bytes p (TrieNode.edgeBytes offsets edge ++ rest))
    (fits : curStrOffset + edge.1.length < min bytes.length (2 ^ 31)) (positive : 0 < offsets edge.2)
    (small : offsets edge.2 < 2 ^ 32) (low : start + offsets edge.2 < 2 ^ 64) :
    readEdge start bytes curStrOffset p = .ok
      { edgeString := edge.1, child := start + offsets edge.2
        next := p + (TrieNode.edgeBytes offsets edge).length } := by
  rw [TrieNode.edgeBytes, List.append_assoc] at here
  have string : At start bytes p (appendString ⟨edge.1, nulFree⟩ ++
      (appendUleb128 (BitVec.ofNat 64 (offsets edge.2)) ++ rest)) := here
  have value : (BitVec.ofNat 64 (offsets edge.2)).toNat % 2 ^ 32 = offsets edge.2 := by
    rw [BitVec.toNat_ofNat, Nat.mod_eq_of_lt (show offsets edge.2 < 2 ^ 64 by omega), Nat.mod_eq_of_lt small]
  rw [readEdge, readEdgeString_at string]
  simp only [Bind.bind, Except.bind]
  rw [if_neg (not_le.mpr fits), readUleb128At_at string.advance]
  simp only [value]
  rw [if_neg (by omega), wrap64, Nat.mod_eq_of_lt low, TrieNode.edgeBytes]
  congr 2
  simp only [appendString, List.length_append]
  omega

variable {node : TrieNode}

theorem childrenPart_at (here : At start bytes p (UInt8.ofNat node.children.length :: rest)) :
    childrenPart start bytes p = .ok (node.children.length % 256, p + 1) := by
  have behind := here.stop
  rw [List.length_cons] at behind
  rw [childrenPart, if_neg (by omega), readByte_at here]
  simp [Except.map, UInt8.toNat_ofNat']

theorem enterNode_plain (low : stop start bytes < 2 ^ 64)
    (here : At start bytes p (node.bytes offsets ++ rest)) (plain : node.terminalEntry.name = [])
    (terminated : Bool) :
    enterNode start bytes p terminated = .ok (none, node.children.length % 256, p + 2) ∧
      At start bytes (p + 2) (node.children.flatMap (TrieNode.edgeBytes offsets) ++ rest) := by
  have terminal : node.terminalBytes = appendUleb128 0 := by
    rw [TrieNode.terminalBytes, plain]
    rfl
  rw [TrieNode.bytes, terminal, List.append_assoc, List.append_assoc] at here
  have count : At start bytes (p + 1) (UInt8.ofNat node.children.length ::
      (node.children.flatMap (TrieNode.edgeBytes offsets) ++ rest)) := here.advance
  have behind := count.stop
  refine ⟨?_, @At.advance start bytes _ _ [_] count⟩
  rw [List.length_cons] at behind
  rw [enterNode, if_neg (by omega), readUleb128At_at here]
  simp only [Bind.bind, Except.bind, terminalPart, if_true]
  rw [show wrap64 (p + (appendUleb128 0).length + (0 : BitVec 64).toNat) = p + 1 from
    Nat.mod_eq_of_lt (show p + 1 < 2 ^ 64 by omega), childrenPart_at count]

theorem enterNode_terminal {exportInfo : Export} (low : stop start bytes < 2 ^ 64)
    (here : At start bytes p (node.bytes offsets ++ rest)) (named : node.terminalEntry.name ≠ [])
    (payload : node.terminalEntry.payload = exportPayload exportInfo) :
    ∃ entry next nodeOffset, enterNode start bytes p true =
        .ok (some ⟨nodeOffset, entry⟩, node.children.length % 256, next) ∧
      Decodes start bytes exportInfo { entry with name := exportInfo.name.bytes } ∧
      p < start + nodeOffset ∧ start + nodeOffset < p + (node.bytes offsets).length ∧
      At start bytes next (node.children.flatMap (TrieNode.edgeBytes offsets) ++ rest) := by
  have terminal : node.terminalBytes =
      appendUleb128 (BitVec.ofNat 64 node.terminalEntry.payload.length) ++ exportPayload exportInfo := by
    rw [TrieNode.terminalBytes, if_neg (by rwa [List.isEmpty_iff]), payload]
  have size := node.payload_small
  have whole : node.bytes offsets = appendUleb128 (BitVec.ofNat 64 node.terminalEntry.payload.length) ++
      (exportPayload exportInfo ++ UInt8.ofNat node.children.length ::
        node.children.flatMap (TrieNode.edgeBytes offsets)) := by
    rw [TrieNode.bytes, terminal]
    simp
  have long := congrArg List.length whole
  rw [List.length_append, List.length_append, List.length_cons] at long
  rw [whole, List.append_assoc, List.append_assoc, List.cons_append] at here
  have behind := here.stop
  have inside := here.advance.inside.1
  have count := here.advance.advance
  have value : (BitVec.ofNat 64 node.terminalEntry.payload.length).toNat = (exportPayload exportInfo).length := by
    rw [BitVec.toNat_ofNat, Nat.mod_eq_of_lt (by omega), payload]
  obtain ⟨entry, read, decodes⟩ := readTerminal_at here.advance
    (p + (appendUleb128 (BitVec.ofNat 64 node.terminalEntry.payload.length)).length - start)
  have shown := List.length_pos_of_ne_nil (exportPayload_ne_nil exportInfo)
  have sized := List.length_pos_of_ne_nil
    (appendUleb128_ne_nil (BitVec.ofNat 64 node.terminalEntry.payload.length))
  have nonzero : BitVec.ofNat 64 node.terminalEntry.payload.length ≠ 0 := by
    intro zero
    rw [zero] at value
    exact absurd value.symm (by simpa using List.length_pos_iff.mp shown)
  rw [List.length_append, List.length_append, List.length_cons] at behind
  refine ⟨entry, _, p + (appendUleb128 (BitVec.ofNat 64 node.terminalEntry.payload.length)).length - start, ?_,
    decodes, ?_, ?_, @At.advance start bytes _ _ [_] count⟩
  · rw [enterNode, if_neg (by omega), readUleb128At_at here]
    simp only [Bind.bind, Except.bind, terminalPart, nonzero, if_false, if_true, read, Except.map, value]
    rw [wrap64, Nat.mod_eq_of_lt (by omega), childrenPart_at count]
    rfl
  · omega
  · omega

end Cctools.MachO.ParseTrie
