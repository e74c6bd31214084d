/-
# Cctools.Gprof.Dfn -- numbering the functions of a call graph

The depth-first numbering of `gprof/dfn.c`, with the loop of `doarcs` in `gprof/arcs.c` that starts
it.  A pointer to an entry of the name list `nl` is the index of the entry.  The arcs of a parent
are threaded through `arc_childlist`, the newest first: here they are those of all arcs, the newest
first, that have the parent.

The depth of the recursion of `dfn` is bounded by its stack: a call that finds no room on it ends the
program.  A loop along `cnext` that goes on for more steps than there are functions never ends.
-/
import Cctools.Theory.Chains
import Cctools.Theory.StrongComponents
import Mathlib.Data.Fintype.Card
import Mathlib.Data.Fintype.Basic
import Mathlib.Logic.Function.Basic
import Mathlib.Tactic.Common

namespace Cctools.Gprof

set_option autoImplicit false

open Cctools.Theory

variable {nname : Nat}

/-! ## Arcs -/

/-- `arctype`. -/
structure Arc (nname : Nat) where
  parentp : Fin nname
  childp : Fin nname
  deriving DecidableEq, Repr

/-- All arcs, the newest first. -/
abbrev Arcs (nname : Nat) := List (Arc nname)

namespace Arcs

variable (arcs : Arcs nname)

/-- `children`, along `arc_childlist`. -/
def children (parentp : Fin nname) : List (Arc nname) := arcs.filter (·.parentp = parentp)

/-- There is an arc from the one to the other. -/
def Calls (parentp childp : Fin nname) : Prop := ∃ arc ∈ arcs.children parentp, arc.childp = childp

end Arcs

/-! ## The state of the numbering -/

def dfnBusyMark : Int := -1

def dfnNan : Int := 0

def dfnDepthLimit : Nat := 1000

/-- What `dfn` sets in the entries of `nl`, and its stack, the top first.  `botches` counts the
messages "glommed, but not to cyclehead". -/
structure Numbering (nname : Nat) where
  toporder : Fin nname → Int
  cyclehead : Fin nname → Fin nname
  cnext : Fin nname → Option (Fin nname)
  dfnStack : List (Fin nname)
  dfnCounter : Int
  botches : Nat

/-- Why the program ends, or does not. -/
inductive DfnError where
  | outOfMyDepth
  | couldntFindHeadOfCycle
  | endlessCycle
  deriving DecidableEq, Repr

/-- What a loop along `cnext` visits. -/
def visited (cnext : Fin nname → Option (Fin nname)) : Nat → Fin nname → Option (List (Fin nname))
  | 0, _ => none
  | fuel + 1, memberp =>
    match cnext memberp with
    | none => some [memberp]
    | some next => (visited cnext fuel next).map (memberp :: ·)

namespace Numbering

/-- As `doarcs` leaves the entries before the numbering. -/
def start (nname : Nat) : Numbering nname where
  toporder _ := dfnNan
  cyclehead parentp := parentp
  cnext _ := none
  dfnStack := []
  dfnCounter := dfnNan
  botches := 0

variable (s : Numbering nname)

def members (memberp : Fin nname) : Except DfnError (List (Fin nname)) :=
  match visited s.cnext nname memberp with
  | none => .error .endlessCycle
  | some members => .ok members

def dfnNumbered (childp : Fin nname) : Bool :=
  s.toporder childp ≠ dfnNan ∧ s.toporder childp ≠ dfnBusyMark

def dfnBusy (childp : Fin nname) : Bool := s.toporder childp ≠ dfnNan

def dfnPreVisit (parentp : Fin nname) : Numbering nname :=
  { s with
    toporder := Function.update s.toporder parentp dfnBusyMark
    dfnStack := parentp :: s.dfnStack }

/-- The search of `dfn_findcycle` for `cycletop`: what is above it on the stack, and it. -/
def findTop (childp : Fin nname) : List (Fin nname) → Option (List (Fin nname) × Fin nname)
  | [] => none
  | cycleheadp :: below =>
    if childp = cycleheadp ∨ s.cyclehead childp ≠ childp ∧ s.cyclehead childp = cycleheadp then
      some ([], cycleheadp)
    else (findTop childp below).map fun found => (cycleheadp :: found.1, found.2)

/-- `tailp->cnext = childp`. -/
def link (tailp childp : Fin nname) : Numbering nname :=
  { s with cnext := Function.update s.cnext tailp (some childp) }

def glomMembers (cycleheadp : Fin nname) (members : List (Fin nname)) : Numbering nname :=
  { s with cyclehead := fun memberp => if memberp ∈ members then cycleheadp else s.cyclehead memberp }

/-- The loop of `dfn_findcycle` over the stack above `cycletop`, from there on: what is not yet
glommed anywhere is glommed, with the functions it has glommed. -/
def glom (cycleheadp : Fin nname) :
    List (Fin nname) → Fin nname → Numbering nname → Except DfnError (Numbering nname)
  | [], _, s => .ok s
  | childp :: more, tailp, s =>
    if s.cyclehead childp = childp then do
      let linked := s.link tailp childp
      let members ← linked.members childp
      glom cycleheadp more (members.getLastD childp) (linked.glomMembers cycleheadp members)
    else if s.cyclehead childp ≠ cycleheadp then
      glom cycleheadp more tailp { s with botches := s.botches + 1 }
    else glom cycleheadp more tailp s

def dfnFindcycle (childp : Fin nname) : Except DfnError (Numbering nname) :=
  match s.findTop childp s.dfnStack with
  | none => .error .couldntFindHeadOfCycle
  | some ([], _) => .ok s
  | some (above, cycletop) => do
      let members ← s.members cycletop
      let cycleheadp := if s.cyclehead cycletop ≠ cycletop then s.cyclehead cycletop else cycletop
      glom cycleheadp above.reverse (members.getLastD cycletop) s

def dfnPostVisit (parentp : Fin nname) : Except DfnError (Numbering nname) :=
  if s.cyclehead parentp = parentp then do
    let members ← s.members parentp
    .ok { s with
      dfnCounter := s.dfnCounter + 1
      toporder := fun memberp => if memberp ∈ members then s.dfnCounter + 1 else s.toporder memberp
      dfnStack := s.dfnStack.tail }
  else .ok { s with dfnStack := s.dfnStack.tail }

end Numbering

section Dfn

variable (arcs : Arcs nname)

/-- `room` is what is left of the stack. -/
def dfn : Nat → Numbering nname → Fin nname → Except DfnError (Numbering nname)
  | room, s, parentp =>
    if s.dfnNumbered parentp then .ok s
    else if s.dfnBusy parentp then s.dfnFindcycle parentp
    else
      match room with
      | 0 => .error .outOfMyDepth
      | room + 1 => do
          let s ← (arcs.children parentp).foldlM (fun s arc => dfn room s arc.childp) (s.dfnPreVisit parentp)
          s.dfnPostVisit parentp

/-- The loop of `doarcs` over `nl`.  The stack is empty again after every call. -/
def number : List (Fin nname) → Numbering nname → Except DfnError (Numbering nname)
  | [], s => .ok s
  | parentp :: rest, s =>
    if s.toporder parentp = dfnNan then do
      let s ← dfn arcs (dfnDepthLimit - 1) s parentp
      number rest s
    else number rest s

def numberAll : Except DfnError (Numbering nname) := number arcs (List.finRange nname) (.start nname)

end Dfn

end Cctools.Gprof
