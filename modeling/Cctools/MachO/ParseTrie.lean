/-
# Cctools.MachO.ParseTrie -- reading an exports trie back

`read_uleb128`, `processExportNode` and `parseTrie` of `MachOTrie.hpp`.  A pointer is an address:
the bytes lie from `start` on, and sums of addresses are modulo `2^64`.  Every byte that is read
is looked for between `start` and the end.  The name of a node is built in `cummulativeString`,
which `new` leaves as the memory was (`heap`); it has as many bytes as the trie, and an `int`
is the index into it.

The reader is safe when it returns entries or throws (`Safe`).  Below the recursion every step that
reads is told by where it strays: `NodeStrays` for a node, `EdgeStrays` for a child.
-/
import Cctools.LinkEdit.ByteStream
import Cctools.Theory.Transducer

namespace Cctools.MachO.ParseTrie

set_option autoImplicit false

open Cctools.LinkEdit Cctools.Theory

/-! ## What is thrown, and what is not -/

inductive Malformed where
  | nodePastEnd
  | terminalSizeBeyondData
  | childNodeOffsetZero
  | ulebBeyondTrie
  | ulebTooBig
  deriving DecidableEq, Repr

def Malformed.text : Malformed → String
  | nodePastEnd => "malformed trie, node past end"
  | terminalSizeBeyondData => "malformed trie, terminalSize extends beyond trie data"
  | childNodeOffsetZero => "malformed trie, childNodeOffset==0"
  | ulebBeyondTrie => "malformed uleb128 extends beyond trie"
  | ulebTooBig => "uleb128 too big for 64-bits"

/-- Why there is no result: a `throw`, a read outside of the trie, or a read or write outside of
`cummulativeString`. -/
inductive Fault where
  | malformed (thrown : Malformed)
  | outsideTrie
  | outsideString
  deriving DecidableEq, Repr

/-- `Entry`; `importName` points into the trie. -/
structure Entry where
  name : List UInt8
  address : BitVec 64
  flags : BitVec 64
  other : BitVec 64
  importName : Option Nat
  deriving DecidableEq, Repr

structure EntryWithOffset where
  nodeOffset : Nat
  entry : Entry
  deriving DecidableEq, Repr

/-- `cummulativeString` and `output`. -/
structure Parsing where
  cummulativeString : List UInt8
  output : List EntryWithOffset
  deriving DecidableEq, Repr

/-! ## Reading -/

/-- A sum of addresses. -/
def wrap64 (address : Nat) : Nat := address % 2 ^ 64

section Parse

variable (start : Nat) (bytes : List UInt8)

/-- `end`. -/
def stop : Nat := start + bytes.length

/-- The bytes from `p` on, when a pointer may be there. -/
def bytesAt (p : Nat) : Except Fault (List UInt8) :=
  if p < start ∨ stop start bytes < p then .error .outsideTrie else .ok (bytes.drop (p - start))

/-- `read_uleb128(p, end)`, with `p` behind what was read. -/
def readUleb128At (p : Nat) : Except Fault (BitVec 64 × Nat) := do
  let ahead ← bytesAt start bytes p
  match readUleb128 ahead with
  | .ok (value, rest) => .ok (value, stop start bytes - rest.length)
  | .error (.endOfInput, _) => .error (.malformed .ulebBeyondTrie)
  | .error (.tooBig, _) => .error (.malformed .ulebTooBig)

/-- `*p`. -/
def readByte (p : Nat) : Except Fault UInt8 := do
  match ← bytesAt start bytes p with
  | [] => .error .outsideTrie
  | byte :: _ => .ok byte

/-- `while (*s != '\0')`, with `s` behind the terminator. -/
def readEdgeString (s : Nat) : Except Fault (List UInt8 × Nat) := do
  match readString (← bytesAt start bytes s) with
  | none => .error .outsideTrie
  | some (str, rest) => .ok (str.bytes, stop start bytes - rest.length)

/-- `EXPORT_SYMBOL_FLAGS_REEXPORT`. -/
def isReexport (flags : BitVec 64) : Bool := flags &&& 0x08 ≠ 0

/-- `EXPORT_SYMBOL_FLAGS_STUB_AND_RESOLVER`. -/
def hasResolver (flags : BitVec 64) : Bool := flags &&& 0x10 ≠ 0

/-- What a terminal node says, but for the name. -/
def readTerminal (nodeOffset p : Nat) : Except Fault EntryWithOffset := do
  let (flags, p) ← readUleb128At start bytes p
  if isReexport flags then
    let (other, p) ← readUleb128At start bytes p
    .ok { nodeOffset, entry := { name := [], address := 0, flags, other, importName := some p } }
  else
    let (address, p) ← readUleb128At start bytes p
    if hasResolver flags then
      let (other, _) ← readUleb128At start bytes p
      .ok { nodeOffset, entry := { name := [], address, flags, other, importName := none } }
    else .ok { nodeOffset, entry := { name := [], address, flags, other := 0, importName := none } }

/-- The entry of a node without its name.  `strdup` needs a terminator in `cummulativeString`. -/
def terminalPart (p : Nat) (terminalSize : BitVec 64) (terminated : Bool) : Except Fault (Option EntryWithOffset) :=
  if terminalSize = 0 then .ok none
  else if terminated then (readTerminal start bytes (p - start) p).map some
  else .error .outsideString

/-- `childrenCount`, and where the children start. -/
def childrenPart (children : Nat) : Except Fault (Nat × Nat) :=
  if stop start bytes < children then .error (.malformed .terminalSizeBeyondData)
  else (readByte start bytes children).map fun childrenCount => (childrenCount.toNat, children + 1)

/-- A node up to the loop over its children. -/
def enterNode (p : Nat) (terminated : Bool) : Except Fault (Option EntryWithOffset × Nat × Nat) :=
  if stop start bytes ≤ p then .error (.malformed .nodePastEnd)
  else do
    let (terminalSize, p) ← readUleb128At start bytes p
    let terminal ← terminalPart start bytes p terminalSize terminated
    let (childrenCount, s) ← childrenPart start bytes (wrap64 (p + terminalSize.toNat))
    .ok (terminal, childrenCount, s)

/-- What is read of one child. -/
structure EdgeRead where
  edgeString : List UInt8
  child : Nat
  next : Nat
  deriving DecidableEq, Repr

/-- One turn of the loop over the children, up to the call.  The edge string and its terminator
are copied to `cummulativeString + curStrOffset`. -/
def readEdge (curStrOffset s : Nat) : Except Fault EdgeRead := do
  let (edgeString, s) ← readEdgeString start bytes s
  if min bytes.length (2 ^ 31) ≤ curStrOffset + edgeString.length then .error .outsideString
  else
    let (childNodeOffset, s) ← readUleb128At start bytes s
    let childNodeOffset := childNodeOffset.toNat % 2 ^ 32
    if childNodeOffset = 0 then .error (.malformed .childNodeOffsetZero)
    else .ok { edgeString, child := wrap64 (start + childNodeOffset), next := s }

end Parse

/-! ## The recursion -/

namespace Parsing

/-- `output.push_back(e)`, with the name of now. -/
def push (parsing : Parsing) : Option EntryWithOffset → Parsing
  | none => parsing
  | some found =>
    let name := parsing.cummulativeString.takeWhile (· ≠ 0)
    { parsing with output := parsing.output ++ [{ found with entry := { found.entry with name } }] }

def copyEdge (parsing : Parsing) (curStrOffset : Nat) (edgeString : List UInt8) : Parsing :=
  let text := parsing.cummulativeString
  { parsing with
    cummulativeString :=
      text.take curStrOffset ++ edgeString ++ 0 :: text.drop (curStrOffset + edgeString.length + 1) }

end Parsing

section Recursion

variable (start : Nat) (bytes : List UInt8)

/-- The loop over the children. -/
def processEdges (process : Nat → Nat → Parsing → Option (Except Fault Parsing)) (curStrOffset : Nat) :
    Nat → Nat → Parsing → Option (Except Fault Parsing)
  | 0, _, parsing => some (.ok parsing)
  | count + 1, s, parsing =>
    match readEdge start bytes curStrOffset s with
    | .error fault => some (.error fault)
    | .ok edge =>
      match process edge.child (curStrOffset + edge.edgeString.length)
        (parsing.copyEdge curStrOffset edge.edgeString) with
      | some (.ok parsing) => processEdges process curStrOffset count edge.next parsing
      | other => other

def processExportNode : Nat → Nat → Nat → Parsing → Option (Except Fault Parsing)
  | 0, _, _, _ => none
  | fuel + 1, p, curStrOffset, parsing =>
    match enterNode start bytes p (parsing.cummulativeString.contains 0) with
    | .error fault => some (.error fault)
    | .ok (terminal, childrenCount, s) =>
      processEdges start bytes (processExportNode fuel) curStrOffset childrenCount s (parsing.push terminal)

/-- The entries of a whole trie, in the order of their nodes, behind those of `output`. -/
def parseTrie (fuel : Nat) (heap : Nat → UInt8) (output : List Entry) : Option (Except Fault (List Entry)) :=
  if bytes = [] then some (.ok output)
  else
    let cummulativeString := (List.range bytes.length).map heap
    (processExportNode start bytes fuel start 0 { cummulativeString, output := [] }).map fun outcome =>
      outcome.map fun parsing =>
        let entries := parsing.output.mergeSort fun a b => decide (a.nodeOffset ≤ b.nodeOffset)
        output ++ entries.map (·.entry)

/-- **Parsing is safe**: it ends, in entries or in a `throw`. -/
def Safe (heap : Nat → UInt8) (output : List Entry) : Prop :=
  ∃ fuel outcome, parseTrie start bytes fuel heap output = some outcome ∧
    ∀ fault, outcome = .error fault → ∃ thrown, fault = .malformed thrown

end Recursion

/-! ## What is read where -/

section Reads

variable {start : Nat} {bytes : List UInt8}

/-- A pointer into the trie, or to its end. -/
def Inside (start : Nat) (bytes : List UInt8) (p : Nat) : Prop := start ≤ p ∧ p ≤ stop start bytes

/-- Neither entries nor a `throw`. -/
def Fault.Strays (fault : Fault) : Prop := ∀ thrown, fault ≠ .malformed thrown

variable {p : Nat}

theorem bytesAt_inside (inside : Inside start bytes p) :
    bytesAt start bytes p = .ok (bytes.drop (p - start)) :=
  if_neg (by have := inside.1; have := inside.2; omega)

theorem bytesAt_outside (outside : ¬ Inside start bytes p) : bytesAt start bytes p = .error .outsideTrie :=
  if_pos (by unfold Inside at outside; omega)

theorem readUleb128At_inside (inside : Inside start bytes p) :
    (∃ value next, readUleb128At start bytes p = .ok (value, next) ∧ Inside start bytes next) ∨
      ∃ thrown, readUleb128At start bytes p = .error (.malformed thrown) := by
  cases read : readUleb128 (bytes.drop (p - start)) with
  | error failed =>
    obtain ⟨error, rest⟩ := failed
    right
    cases error with
    | endOfInput =>
      refine ⟨.ulebBeyondTrie, ?_⟩
      simp [readUleb128At, bytesAt_inside inside, Bind.bind, Except.bind, read]
    | tooBig =>
      refine ⟨.ulebTooBig, ?_⟩
      simp [readUleb128At, bytesAt_inside inside, Bind.bind, Except.bind, read]
  | ok pair =>
    obtain ⟨value, rest⟩ := pair
    have shorter := length_of_readUleb128 read
    rw [List.length_drop] at shorter
    refine .inl ⟨value, stop start bytes - rest.length, ?_, ?_⟩
    · simp [readUleb128At, bytesAt_inside inside, Bind.bind, Except.bind, read]
    · unfold Inside stop
      omega

theorem readTerminal_inside (inside : Inside start bytes p) (nodeOffset : Nat) :
    (∃ found, readTerminal start bytes nodeOffset p = .ok found) ∨
      ∃ thrown, readTerminal start bytes nodeOffset p = .error (.malformed thrown) := by
  rcases readUleb128At_inside inside with ⟨flags, p, read, inside⟩ | ⟨thrown, read⟩
  · rcases readUleb128At_inside inside with ⟨second, p, again, inside⟩ | ⟨thrown, again⟩
    · rcases readUleb128At_inside inside with ⟨third, p, last, -⟩ | ⟨thrown, last⟩ <;>
      by_cases reexport : isReexport flags <;> by_cases resolver : hasResolver flags <;>
      simp [readTerminal, read, again, last, reexport, resolver, Bind.bind, Except.bind]
    · right
      refine ⟨thrown, ?_⟩
      by_cases reexport : isReexport flags <;> simp [readTerminal, read, again, reexport, Bind.bind, Except.bind]
  · exact .inr ⟨thrown, by simp [readTerminal, read, Bind.bind, Except.bind]⟩

theorem readByte_inside (low : start ≤ p) (high : p < stop start bytes) :
    ∃ byte, readByte start bytes p = .ok byte := by
  have ahead : p - start < bytes.length := by unfold stop at high; omega
  refine ⟨bytes[p - start], ?_⟩
  simp only [readByte, bytesAt_inside ⟨low, le_of_lt high⟩, List.drop_eq_getElem_cons ahead, Bind.bind, Except.bind]

theorem readByte_outside (outside : p < start ∨ stop start bytes ≤ p) :
    readByte start bytes p = .error .outsideTrie := by
  by_cases inside : Inside start bytes p
  · have none : bytes.length ≤ p - start := by
      have low := inside.1
      unfold stop at outside
      omega
    simp only [readByte, bytesAt_inside inside, List.drop_eq_nil_of_le none, Bind.bind, Except.bind]
  · simp only [readByte, bytesAt_outside inside, Bind.bind, Except.bind]

/-! ## Where a node strays -/

theorem not_strays_malformed (thrown : Malformed) : ¬ (Fault.malformed thrown).Strays :=
  fun strays => strays thrown rfl

theorem strays_outsideTrie : Fault.outsideTrie.Strays := fun _ impossible => by cases impossible

theorem strays_outsideString : Fault.outsideString.Strays := fun _ impossible => by cases impossible

/-- The children start at the end of the trie, or in front of it: the check is for behind the end. -/
def ChildrenStray (start : Nat) (bytes : List UInt8) (children : Nat) : Prop :=
  children < start ∨ children = stop start bytes

/-- A node before the end is in front of the trie; or it has a name, and `cummulativeString` no
terminator; or its terminal part is in order, and its children stray. -/
def NodeStrays (start : Nat) (bytes : List UInt8) (p : Nat) (terminated : Bool) : Prop :=
  p < stop start bytes ∧
    (p < start ∨ ∃ terminalSize next, readUleb128At start bytes p = .ok (terminalSize, next) ∧
      (terminalSize ≠ 0 ∧ terminated = false ∨
        (∃ terminal, terminalPart start bytes next terminalSize terminated = .ok terminal) ∧
          ChildrenStray start bytes (wrap64 (next + terminalSize.toNat))))

variable {terminated : Bool}

theorem terminalPart_inside (inside : Inside start bytes p) {terminalSize : BitVec 64}
    (named : ¬ (terminalSize ≠ 0 ∧ terminated = false)) :
    (∃ terminal, terminalPart start bytes p terminalSize terminated = .ok terminal) ∨
      ∃ thrown, terminalPart start bytes p terminalSize terminated = .error (.malformed thrown) := by
  unfold terminalPart
  split
  · exact .inl ⟨none, rfl⟩
  · rename_i nonzero
    rw [if_pos (by simpa using fun unterminated => named ⟨nonzero, unterminated⟩)]
    rcases readTerminal_inside inside (p - start) with ⟨found, read⟩ | ⟨thrown, read⟩
    · exact .inl ⟨some found, by rw [read]; rfl⟩
    · exact .inr ⟨thrown, by rw [read]; rfl⟩

theorem childrenPart_inside {children : Nat} (contained : ¬ ChildrenStray start bytes children) :
    (∃ count s, childrenPart start bytes children = .ok (count, s) ∧ Inside start bytes s) ∨
      ∃ thrown, childrenPart start bytes children = .error (.malformed thrown) := by
  unfold ChildrenStray at contained
  unfold childrenPart
  split
  · exact .inr ⟨_, rfl⟩
  · have low : start ≤ children := by omega
    have high : children < stop start bytes := by omega
    obtain ⟨byte, read⟩ := readByte_inside low high
    exact .inl ⟨byte.toNat, children + 1, by rw [read]; rfl, by unfold Inside; omega⟩

theorem childrenPart_stray {children : Nat} (stray : ChildrenStray start bytes children) :
    childrenPart start bytes children = .error .outsideTrie := by
  unfold ChildrenStray at stray
  unfold childrenPart
  rw [if_neg (by unfold stop at *; omega), readByte_outside (by omega)]
  rfl

/-- **Entering a node** reads outside exactly where the node strays. -/
theorem enterNode_stray (strays : NodeStrays start bytes p terminated) :
    ∃ fault, enterNode start bytes p terminated = .error fault ∧ fault.Strays := by
  obtain ⟨before, front | ⟨terminalSize, next, size, which⟩⟩ := strays
  · have outside : ¬ Inside start bytes p := fun inside => by have := inside.1; omega
    refine ⟨.outsideTrie, ?_, strays_outsideTrie⟩
    rw [enterNode, if_neg (Nat.not_le.mpr before), readUleb128At, bytesAt_outside outside]
    rfl
  · rcases which with ⟨nonzero, unterminated⟩ | ⟨⟨terminal, read⟩, stray⟩
    · refine ⟨.outsideString, ?_, strays_outsideString⟩
      rw [enterNode, if_neg (Nat.not_le.mpr before), size]
      simp only [terminalPart, if_neg nonzero, unterminated, Bool.false_eq_true, if_false, Bind.bind, Except.bind]
    · refine ⟨.outsideTrie, ?_, strays_outsideTrie⟩
      rw [enterNode, if_neg (Nat.not_le.mpr before), size]
      simp only [read, childrenPart_stray stray, Bind.bind, Except.bind]

theorem enterNode_inside (contained : ¬ NodeStrays start bytes p terminated) :
    (∃ terminal count s, enterNode start bytes p terminated = .ok (terminal, count, s) ∧ Inside start bytes s) ∨
      ∃ thrown, enterNode start bytes p terminated = .error (.malformed thrown) := by
  by_cases before : p < stop start bytes
  · simp only [NodeStrays, before, true_and, not_or, not_exists, not_and] at contained
    obtain ⟨front, contained⟩ := contained
    rw [enterNode, if_neg (Nat.not_le.mpr before)]
    rcases readUleb128At_inside ⟨Nat.le_of_not_lt front, le_of_lt before⟩ with
      ⟨size, next, read, inside⟩ | ⟨thrown, read⟩
    · obtain ⟨named, children⟩ := contained size next read
      rcases terminalPart_inside inside fun unnamed => named unnamed.1 unnamed.2 with
        ⟨terminal, part⟩ | ⟨thrown, part⟩
      · rcases childrenPart_inside (children ⟨terminal, part⟩) with ⟨count, s, loop, inside⟩ | ⟨thrown, loop⟩
        · exact .inl ⟨terminal, count, s, by simp only [read, part, loop, Bind.bind, Except.bind], inside⟩
        · exact .inr ⟨thrown, by simp only [read, part, loop, Bind.bind, Except.bind]⟩
      · exact .inr ⟨thrown, by simp only [read, part, Bind.bind, Except.bind]⟩
    · exact .inr ⟨thrown, by simp only [read, Bind.bind, Except.bind]⟩
  · exact .inr ⟨.nodePastEnd, if_pos (Nat.le_of_not_lt before)⟩

/-! ## Where an edge strays -/

/-- No terminator is left in the trie, or the name so far and the edge are too long for
`cummulativeString`. -/
def EdgeStrays (start : Nat) (bytes : List UInt8) (curStrOffset s : Nat) : Prop :=
  0 ∉ bytes.drop (s - start) ∨
    min bytes.length (2 ^ 31) ≤ curStrOffset + ((bytes.drop (s - start)).takeWhile (· ≠ 0)).length

theorem takeWhile_of_nulFree {before : List UInt8} (nulFree : 0 ∉ before) (rest : List UInt8) :
    (before ++ 0 :: rest).takeWhile (· ≠ 0) = before := by
  have others : ∀ byte ∈ before, decide (byte ≠ 0) = true := by
    intro byte member
    exact decide_eq_true fun zero => nulFree (zero ▸ member)
  rw [List.takeWhile_append_of_pos others]
  simp

theorem readEdgeString_inside {s : Nat} (inside : Inside start bytes s) (terminated : 0 ∈ bytes.drop (s - start)) :
    ∃ next, readEdgeString start bytes s = .ok ((bytes.drop (s - start)).takeWhile (· ≠ 0), next) ∧
      Inside start bytes next := by
  obtain ⟨str, rest, read, split⟩ := readString_of_mem terminated
  refine ⟨stop start bytes - rest.length, ?_, ?_⟩
  · rw [readEdgeString, bytesAt_inside inside]
    simp only [read, Bind.bind, Except.bind]
    rw [split, takeWhile_of_nulFree str.nulFree]
  · have shorter := congrArg List.length split
    rw [List.length_drop, List.length_append, List.length_cons] at shorter
    unfold Inside stop
    omega

variable {curStrOffset s : Nat}

theorem readEdge_stray (inside : Inside start bytes s) (strays : EdgeStrays start bytes curStrOffset s) :
    ∃ fault, readEdge start bytes curStrOffset s = .error fault ∧ fault.Strays := by
  by_cases terminated : 0 ∈ bytes.drop (s - start)
  · obtain ⟨next, read, -⟩ := readEdgeString_inside inside terminated
    refine ⟨.outsideString, ?_, strays_outsideString⟩
    simp only [readEdge, read, Bind.bind, Except.bind]
    rw [if_pos (strays.resolve_left (not_not.mpr terminated))]
  · refine ⟨.outsideTrie, ?_, strays_outsideTrie⟩
    simp only [readEdge, readEdgeString, bytesAt_inside inside, readString_of_notMem terminated,
      Bind.bind, Except.bind]

theorem readEdge_inside (inside : Inside start bytes s) (contained : ¬ EdgeStrays start bytes curStrOffset s) :
    (∃ edge, readEdge start bytes curStrOffset s = .ok edge ∧ Inside start bytes edge.next) ∨
      ∃ thrown, readEdge start bytes curStrOffset s = .error (.malformed thrown) := by
  obtain ⟨terminated, fits⟩ := not_or.mp contained
  obtain ⟨next, read, onward⟩ := readEdgeString_inside inside (not_not.mp terminated)
  simp only [readEdge, read, Bind.bind, Except.bind]
  rw [if_neg fits]
  rcases readUleb128At_inside onward with ⟨offset, next, again, last⟩ | ⟨thrown, again⟩
  · simp only [again]
    split
    · exact .inr ⟨_, rfl⟩
    · exact .inl ⟨_, rfl, last⟩
  · exact .inr ⟨thrown, by simp only [again]⟩

/-- An edge that was read fits, and its child is an address. -/
theorem readEdge_fits {edge : EdgeRead} (read : readEdge start bytes curStrOffset s = .ok edge) :
    curStrOffset + edge.edgeString.length < bytes.length ∧ edge.child < 2 ^ 64 := by
  rw [readEdge] at read
  obtain ⟨⟨edgeString, s⟩, -, read⟩ := ok_of_bind read
  dsimp only at read
  split at read
  · cases read
  · rename_i fits
    obtain ⟨⟨offset, next⟩, -, read⟩ := ok_of_bind read
    dsimp only at read
    split at read
    · cases read
    · obtain rfl := Except.ok.inj read
      exact ⟨lt_of_not_ge fun long => fits (le_trans (min_le_left _ _) long), Nat.mod_lt _ (by decide)⟩

end Reads

end Cctools.MachO.ParseTrie
