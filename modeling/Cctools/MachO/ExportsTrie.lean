/-
# Cctools.MachO.ExportsTrie -- building an exports trie

`GenericTrie::Node::addEntry` of `mach_o/ExportsTrie.cpp`: a name goes down the
edges that spell it, splits the edge it leaves in the middle, and ends in a new
leaf.  `ExportsTrie::exportToEntry` makes the payload of the leaf.

Nodes form a tree, so a pointer to a child is the child itself; `index` is the
position of a node in `allNodes`, which is the order of creation.  A name that
runs out at a node that is already there gets an edge with an empty string: that
node never becomes terminal itself.
-/
import Cctools.LinkEdit.ByteStream

namespace Cctools.MachO

set_option autoImplicit false

open Cctools.LinkEdit

/-! ## Entries -/

structure Export where
  name : CString
  offset : BitVec 64 := 0
  flags : BitVec 64 := 0
  other : BitVec 64 := 0
  importName : CString := .empty
  deriving DecidableEq, Repr

/-- A name with its payload, which `terminalStride` finds in the terminal buffer.  The
default, without a name, is what a node has that is not terminal. -/
structure WriterEntry where
  name : List UInt8 := []
  payload : List UInt8 := []
  deriving DecidableEq, Repr

/-- `EXPORT_SYMBOL_FLAGS_REEXPORT`. -/
def Export.isReexport (exportInfo : Export) : Bool := exportInfo.flags &&& 0x08 ≠ 0

/-- `EXPORT_SYMBOL_FLAGS_STUB_AND_RESOLVER`. -/
def Export.hasResolver (exportInfo : Export) : Bool := exportInfo.flags &&& 0x10 ≠ 0

/-- A re-export that keeps its name has an empty import name. -/
def Export.importString (exportInfo : Export) : CString :=
  if exportInfo.importName = exportInfo.name then .empty else exportInfo.importName

def exportPayload (exportInfo : Export) : List UInt8 :=
  if exportInfo.isReexport then
    appendUleb128 exportInfo.flags ++ appendUleb128 exportInfo.other ++
      appendString exportInfo.importString
  else if exportInfo.hasResolver then
    appendUleb128 exportInfo.flags ++ appendUleb128 exportInfo.offset ++
      appendUleb128 exportInfo.other
  else appendUleb128 exportInfo.flags ++ appendUleb128 exportInfo.offset

def exportToEntry (exportInfo : Export) : WriterEntry where
  name := exportInfo.name.bytes
  payload := if exportInfo.name.bytes.isEmpty then [] else exportPayload exportInfo

/-! ## Nodes -/

inductive Node where
  | mk (index : Nat) (cummulativeString : List UInt8) (terminalEntry : WriterEntry)
      (children : List (List UInt8 × Node))

/-- `partialString` and `child`. -/
abbrev Edge := List UInt8 × Node

namespace Node

def index : Node → Nat
  | .mk index _ _ _ => index

def cummulativeString : Node → List UInt8
  | .mk _ cummulativeString _ _ => cummulativeString

def terminalEntry : Node → WriterEntry
  | .mk _ _ terminalEntry _ => terminalEntry

def children : Node → List Edge
  | .mk _ _ _ children => children

/-- Induction over a tree, with the claim for every child. -/
theorem children_induction {P : Node → Prop}
    (step : ∀ index cummulativeString terminalEntry children,
      (∀ edge ∈ children, P edge.2) → P (.mk index cummulativeString terminalEntry children)) :
    ∀ node, P node :=
  @Node.rec P (fun children => ∀ edge ∈ children, P edge.2) (fun edge => P edge.2)
    step (by simp) (fun _ _ here rest => List.forall_mem_cons.2 ⟨here, rest⟩) (fun _ _ here => here)

end Node

/-! ## Adding an entry -/

inductive TrieError where
  | duplicateSymbol (name : List UInt8)
  | tooDeep
  deriving DecidableEq, Repr

/-- The longest prefix of at most `len` characters that the two share, down to 1. -/
def commonPrefix (partialString tail : List UInt8) : Nat → Option Nat
  | 0 => none
  | len + 1 =>
    if partialString.take (len + 1) = tail.take (len + 1) then some (len + 1)
    else commonPrefix partialString tail len

section Add

variable (newEntry : WriterEntry)

/-- The loop over the children; `none` when it runs through.  A string that is used up
shows its terminator to the quick check of the first character. -/
def addEdges (add : Node → Nat → Except TrieError (Node × Nat))
    (cummulativeString tail : List UInt8) (allNodes : Nat) :
    List Edge → Option (Except TrieError (List Edge × Nat))
  | [] => none
  | (partialString, child) :: rest =>
    let onward := (addEdges add cummulativeString tail allNodes rest).map fun added =>
      added.map fun after => ((partialString, child) :: after.1, after.2)
    if partialString.headD 0 ≠ tail.headD 0 then onward
    else if partialString.isPrefixOf tail then
      some ((add child allNodes).map fun after => ((partialString, after.1) :: rest, after.2))
    else
      match commonPrefix partialString tail (partialString.length - 1) with
      | none => onward
      | some len =>
        let cNode := Node.mk allNodes (newEntry.name.take (cummulativeString.length + len)) {}
          [(partialString.drop len, child)]
        some ((add cNode (allNodes + 1)).map fun after =>
          ((partialString.take len, after.1) :: rest, after.2))

/-- `GenericTrie::Node::addEntry`, with a bound on the depth of its recursion; also the
number of nodes made so far. -/
def Node.addEntry : Nat → Node → Nat → Except TrieError (Node × Nat)
  | 0, _, _ => .error .tooDeep
  | depth + 1, .mk index cummulativeString terminalEntry children, allNodes =>
    let tail := newEntry.name.drop cummulativeString.length
    match addEdges newEntry (addEntry depth) cummulativeString tail allNodes children with
    | some added => added.map fun after =>
      (.mk index cummulativeString terminalEntry after.1, after.2)
    | none =>
      if tail.isEmpty ∧ terminalEntry.payload ≠ [] then
        .error (.duplicateSymbol newEntry.name)
      else
        .ok (.mk index cummulativeString terminalEntry
          (children ++ [(tail, .mk allNodes newEntry.name newEntry [])]), allNodes + 1)

end Add

/-- The first loop of `buildTrieBytes`.  An edge spells at least one character on the way
down, or belongs to a chain of nodes without a name, so the depth is enough. -/
def addEntries : List WriterEntry → Node × Nat → Except TrieError (Node × Nat)
  | [], built => .ok built
  | newEntry :: rest, built => do
      let after ← built.1.addEntry newEntry (newEntry.name.length + built.2 + 2) built.2
      addEntries rest after

def buildTrie (exports : List Export) : Except TrieError (Node × Nat) :=
  addEntries (exports.map exportToEntry) (.mk 0 [] {} [], 1)

/-! ## What a tree holds -/

mutual
/-- The entries of the terminal nodes. -/
def Node.entries : Node → List WriterEntry
  | .mk _ _ terminalEntry children =>
    (if terminalEntry.name.isEmpty then [] else [terminalEntry]) ++ entriesOf children
def entriesOf : List Edge → List WriterEntry
  | [] => []
  | (_, child) :: rest => child.entries ++ entriesOf rest
end

mutual
/-- The positions of the nodes in `allNodes`. -/
def Node.indexes : Node → List Nat
  | .mk index _ _ children => index :: indexesOf children
def indexesOf : List Edge → List Nat
  | [] => []
  | (_, child) :: rest => child.indexes ++ indexesOf rest
end

mutual
/-- The lookup of dyld: at each node the first child whose edge is a prefix of what is
left of the name. -/
def Node.lookup : Node → List UInt8 → Option WriterEntry
  | .mk _ _ terminalEntry children, left =>
    if left.isEmpty ∧ ¬ terminalEntry.name.isEmpty then some terminalEntry
    else lookupIn children left
def lookupIn : List Edge → List UInt8 → Option WriterEntry
  | [], _ => none
  | (partialString, child) :: rest, left =>
    if partialString.isPrefixOf left then child.lookup (left.drop partialString.length)
    else lookupIn rest left
end

theorem entriesOf_eq (children : List Edge) :
    entriesOf children = children.flatMap fun edge => edge.2.entries := by
  induction children with
  | nil => rfl
  | cons edge rest ih => rw [entriesOf, ih, List.flatMap_cons]

theorem indexesOf_eq (children : List Edge) :
    indexesOf children = children.flatMap fun edge => edge.2.indexes := by
  induction children with
  | nil => rfl
  | cons edge rest ih => rw [indexesOf, ih, List.flatMap_cons]

end Cctools.MachO
