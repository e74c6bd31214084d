/-
# Cctools.MachO.TrieSafety -- on which tries the reader is safe

The calls of `processExportNode` form a descent: what a call reads, and which calls it makes, is
decided by the bytes and the length of the name so far (`processExportNode_follows`).  So it ends
exactly when no node that it comes to leads back to itself, and without a read or write outside of
its buffers exactly when none strays (`parses_iff`).
-/
import Cctools.MachO.ParseTrie
import Cctools.Theory.Descent
import Mathlib.Data.Finite.Prod
import Mathlib.Order.Interval.Finset.Nat

namespace Cctools.MachO.ParseTrie

set_option autoImplicit false

open Cctools.LinkEdit Cctools.Theory Relation

/-! ## The visits -/

/-- A call of `processExportNode`, as far as it decides what is read: the name itself does not. -/
structure Visit where
  node : Nat
  curStrOffset : Nat
  terminated : Bool
  deriving DecidableEq, Repr

def EdgeRead.callee (edge : EdgeRead) (curStrOffset : Nat) : Visit where
  node := edge.child
  curStrOffset := curStrOffset + edge.edgeString.length
  terminated := true

section Visits

variable (start : Nat) (bytes : List UInt8)

def edgePlan (curStrOffset : Nat) : Nat → Nat → Plan Visit Fault
  | 0, _ => {}
  | count + 1, s =>
    match readEdge start bytes curStrOffset s with
    | .error fault => { failure := some fault }
    | .ok edge =>
      let rest := edgePlan curStrOffset count edge.next
      { rest with calls := edge.callee curStrOffset :: rest.calls }

def plan (visit : Visit) : Plan Visit Fault :=
  match enterNode start bytes visit.node visit.terminated with
  | .error fault => { failure := some fault }
  | .ok (_, childrenCount, s) => edgePlan start bytes visit.curStrOffset childrenCount s

end Visits

section Follows

variable {start : Nat} {bytes : List UInt8}

/-- The run ends as the visits do, and leaves `cummulativeString` its length. -/
def Follows (bytes : List UInt8) (ran : Option (Except Fault Parsing)) (visits : Option (Except Fault Unit)) : Prop :=
  ran.map (Except.map fun _ => ()) = visits ∧
    ∀ parsing, ran = some (.ok parsing) → parsing.cummulativeString.length = bytes.length

theorem Parsing.length_copyEdge {parsing : Parsing} {curStrOffset : Nat} {edgeString : List UInt8}
    (fits : curStrOffset + edgeString.length < parsing.cummulativeString.length) :
    (parsing.copyEdge curStrOffset edgeString).cummulativeString.length = parsing.cummulativeString.length := by
  simp only [Parsing.copyEdge, List.length_append, List.length_take, List.length_cons, List.length_drop]
  omega

theorem Parsing.contains_copyEdge (parsing : Parsing) (curStrOffset : Nat) (edgeString : List UInt8) :
    (parsing.copyEdge curStrOffset edgeString).cummulativeString.contains 0 = true := by
  simp [Parsing.copyEdge]

theorem Parsing.push_cummulativeString (parsing : Parsing) (terminal : Option EntryWithOffset) :
    (parsing.push terminal).cummulativeString = parsing.cummulativeString := by
  cases terminal <;> rfl

theorem processEdges_follows {process : Nat → Nat → Parsing → Option (Except Fault Parsing)}
    {visits : Visit → Option (Except Fault Unit)} {curStrOffset : Nat}
    (same : ∀ p offset parsing, parsing.cummulativeString.length = bytes.length →
      Follows bytes (process p offset parsing) (visits ⟨p, offset, parsing.cummulativeString.contains 0⟩))
    (count s : Nat) (parsing : Parsing) (long : parsing.cummulativeString.length = bytes.length) :
    Follows bytes (processEdges start bytes process curStrOffset count s parsing)
      (Theory.runCalls visits (edgePlan start bytes curStrOffset count s).failure
        (edgePlan start bytes curStrOffset count s).calls) := by
  induction count generalizing s parsing with
  | zero => exact ⟨rfl, fun after ran => by obtain rfl := Except.ok.inj (Option.some.inj ran); exact long⟩
  | succ count ih =>
    rw [processEdges, edgePlan]
    cases read : readEdge start bytes curStrOffset s with
    | error fault => exact ⟨rfl, fun after impossible => by cases impossible⟩
    | ok edge =>
      dsimp only
      have fits := (readEdge_fits read).1
      rw [← long] at fits
      have called := same edge.child (curStrOffset + edge.edgeString.length)
        (parsing.copyEdge curStrOffset edge.edgeString) ((Parsing.length_copyEdge fits).trans long)
      rw [Parsing.contains_copyEdge] at called
      obtain ⟨outcome, kept⟩ := called
      rw [Theory.runCalls, show visits (edge.callee curStrOffset) = _ from outcome.symm]
      cases ran : process edge.child (curStrOffset + edge.edgeString.length)
          (parsing.copyEdge curStrOffset edge.edgeString) with
      | none => exact ⟨rfl, fun after impossible => by cases impossible⟩
      | some result =>
        cases result with
        | error fault => exact ⟨rfl, fun after impossible => by cases impossible⟩
        | ok after => exact ih edge.next after (kept after ran)

/-- **The reader makes the visits of the plan**, and ends as they do. -/
theorem processExportNode_follows (fuel p curStrOffset : Nat) (parsing : Parsing)
    (long : parsing.cummulativeString.length = bytes.length) :
    Follows bytes (processExportNode start bytes fuel p curStrOffset parsing)
      (descend (plan start bytes) fuel ⟨p, curStrOffset, parsing.cummulativeString.contains 0⟩) := by
  induction fuel generalizing p curStrOffset parsing with
  | zero => exact ⟨rfl, fun after impossible => by cases impossible⟩
  | succ fuel ih =>
    rw [processExportNode, descend, plan]
    cases entered : enterNode start bytes p (parsing.cummulativeString.contains 0) with
    | error fault => exact ⟨rfl, fun after impossible => by cases impossible⟩
    | ok found =>
      obtain ⟨terminal, childrenCount, s⟩ := found
      refine processEdges_follows ih childrenCount s (parsing.push terminal) ?_
      rw [Parsing.push_cummulativeString, long]

end Follows

/-! ## When parsing is safe -/

section Safe

variable (start : Nat) (bytes : List UInt8)

/-- The positions a visit comes to in its loop, with the children that are left: all before them
are read, and the trie under each of those is in order (`Returns`). -/
inductive ComesTo (visit : Visit) : Nat → Nat → Prop where
  | first {terminal : Option EntryWithOffset} {count s : Nat} :
      enterNode start bytes visit.node visit.terminated = .ok (terminal, count, s) → ComesTo visit count s
  | next {count s : Nat} {edge : EdgeRead} : ComesTo visit (count + 1) s →
      readEdge start bytes visit.curStrOffset s = .ok edge →
      Returns (plan start bytes) (edge.callee visit.curStrOffset) → ComesTo visit count edge.next

/-- The visit of the root, in which `strdup` finds what `new` has left. -/
def root (heap : Nat → UInt8) : Visit where
  node := start
  curStrOffset := 0
  terminated := ((List.range bytes.length).map heap).contains 0

/-- **The tries that are read safely**: from the root, along edges whose earlier siblings are all in
order, no node is come to that leads back to itself, and none that strays or has an edge that does. -/
structure Sound (heap : Nat → UInt8) : Prop where
  acyclic : ∀ visit, ReflTransGen (Comes (plan start bytes)) (root start bytes heap) visit →
    ¬ TransGen (Comes (plan start bytes)) visit visit
  nodes : ∀ visit, ReflTransGen (Comes (plan start bytes)) (root start bytes heap) visit →
    ¬ NodeStrays start bytes visit.node visit.terminated
  edges : ∀ visit count s, ReflTransGen (Comes (plan start bytes)) (root start bytes heap) visit →
    ComesTo start bytes visit (count + 1) s → ¬ EdgeStrays start bytes visit.curStrOffset s

variable {start bytes}

theorem ComesTo.plan_eq {visit : Visit} {count s : Nat} (comes : ComesTo start bytes visit count s) :
    ∃ before, (plan start bytes visit).calls =
        before ++ (edgePlan start bytes visit.curStrOffset count s).calls ∧
      (plan start bytes visit).failure = (edgePlan start bytes visit.curStrOffset count s).failure ∧
      ∀ callee ∈ before, Returns (plan start bytes) callee := by
  induction comes with
  | first entered => exact ⟨[], by simp [plan, entered], by simp [plan, entered], by simp⟩
  | @next count s edge _ read returns ih =>
    obtain ⟨before, calls, failure, earlier⟩ := ih
    rw [edgePlan, read] at calls failure
    refine ⟨before ++ [edge.callee visit.curStrOffset], by rw [calls]; simp, failure, ?_⟩
    intro callee member
    rcases List.mem_append.mp member with old | new
    · exact earlier callee old
    · exact List.mem_singleton.mp new ▸ returns

theorem ComesTo.inside {visit : Visit} {count s : Nat} (comes : ComesTo start bytes visit count s) :
    Inside start bytes s := by
  induction comes with
  | first entered =>
    have contained : ¬ NodeStrays start bytes visit.node visit.terminated := fun strays => by
      obtain ⟨fault, failed, -⟩ := enterNode_stray strays
      cases failed.symm.trans entered
    rcases enterNode_inside contained with ⟨_, _, _, found, inside⟩ | ⟨thrown, found⟩
    · obtain ⟨-, -, rfl⟩ : _ ∧ _ ∧ _ = _ := by simpa using found.symm.trans entered
      exact inside
    · cases found.symm.trans entered
  | next _ read _ inside =>
    have contained : ¬ EdgeStrays start bytes visit.curStrOffset _ := fun strays => by
      obtain ⟨fault, failed, -⟩ := readEdge_stray inside strays
      cases failed.symm.trans read
    rcases readEdge_inside inside contained with ⟨edge, found, onward⟩ | ⟨thrown, found⟩
    · obtain rfl := Except.ok.inj (found.symm.trans read)
      exact onward
    · cases found.symm.trans read

/-- From a position on, the loop ends well or in a `throw` if no edge strays. -/
theorem ComesTo.failure {visit : Visit}
    (edges : ∀ count s, ComesTo start bytes visit (count + 1) s → ¬ EdgeStrays start bytes visit.curStrOffset s)
    {count s : Nat} (comes : ComesTo start bytes visit count s) {fault : Fault}
    (fails : (edgePlan start bytes visit.curStrOffset count s).failure = some fault)
    (returns : ∀ callee ∈ (edgePlan start bytes visit.curStrOffset count s).calls,
      Returns (plan start bytes) callee) : ¬ fault.Strays := by
  induction count generalizing s with
  | zero => cases fails
  | succ count ih =>
    rw [edgePlan] at fails returns
    rcases readEdge_inside comes.inside (edges count s comes) with ⟨edge, read, -⟩ | ⟨thrown, read⟩
    · rw [read] at fails returns
      dsimp only at fails returns
      rw [List.forall_mem_cons] at returns
      exact ih (comes.next read returns.1) fails returns.2
    · rw [read] at fails
      obtain rfl := Option.some.inj fails
      exact not_strays_malformed thrown

/-- A visit ends in a fault that is not thrown exactly when its node strays, or an edge it comes to. -/
theorem failure_iff (visit : Visit) :
    (∀ fault, (plan start bytes visit).failure = some fault →
      (∀ callee ∈ (plan start bytes visit).calls, Returns (plan start bytes) callee) → ¬ fault.Strays) ↔
      ¬ NodeStrays start bytes visit.node visit.terminated ∧
        ∀ count s, ComesTo start bytes visit (count + 1) s → ¬ EdgeStrays start bytes visit.curStrOffset s := by
  constructor
  · intro thrown
    constructor
    · intro strays
      obtain ⟨fault, failed, stray⟩ := enterNode_stray strays
      exact thrown fault (by simp [plan, failed]) (by simp [plan, failed]) stray
    · intro count s comes strays
      obtain ⟨before, calls, failure, returns⟩ := comes.plan_eq
      obtain ⟨fault, failed, stray⟩ := readEdge_stray comes.inside strays
      refine thrown fault (by rw [failure, edgePlan, failed]) ?_ stray
      rw [calls, edgePlan, failed]
      simpa using returns
  · rintro ⟨contained, edges⟩ fault fails returns
    rcases enterNode_inside contained with ⟨terminal, count, s, entered, -⟩ | ⟨thrown, entered⟩
    · have comes : ComesTo start bytes visit count s := .first entered
      rw [plan, entered] at fails returns
      exact comes.failure edges fails returns
    · rw [plan, entered] at fails
      obtain rfl := Option.some.inj fails
      exact not_strays_malformed thrown

theorem mem_edgePlan {curStrOffset count s : Nat} {callee : Visit}
    (member : callee ∈ (edgePlan start bytes curStrOffset count s).calls) :
    callee.node < 2 ^ 64 ∧ callee.curStrOffset < bytes.length := by
  induction count generalizing s with
  | zero => cases member
  | succ count ih =>
    rw [edgePlan] at member
    cases read : readEdge start bytes curStrOffset s with
    | error fault =>
      rw [read] at member
      cases member
    | ok edge =>
      rw [read] at member
      rcases List.mem_cons.mp member with rfl | later
      · exact (readEdge_fits read).symm
      · exact ih later

theorem finite_visits (first : Visit) : {visit | ReflTransGen (Comes (plan start bytes)) first visit}.Finite := by
  have bounded : ((Set.Iio (2 ^ 64) ×ˢ Set.Iio bytes.length) ×ˢ (Set.univ : Set Bool)).Finite :=
    Set.Finite.prod (Set.Finite.prod (Set.finite_Iio _) (Set.finite_Iio _)) Set.finite_univ
  refine ((bounded.image fun place => Visit.mk place.1.1 place.1.2 place.2).insert first).subset ?_
  intro visit reached
  rcases ReflTransGen.cases_tail reached with rfl | ⟨caller, -, before, after, calls, -⟩
  · exact Set.mem_insert _ _
  · have member : visit ∈ (plan start bytes caller).calls := by rw [calls]; simp
    have small : visit.node < 2 ^ 64 ∧ visit.curStrOffset < bytes.length := by
      rw [plan] at member
      split at member
      · cases member
      · exact mem_edgePlan member
    exact Set.mem_insert_of_mem _ ⟨((visit.node, visit.curStrOffset), visit.terminated), by simpa using small, rfl⟩

theorem sound_iff (heap : Nat → UInt8) :
    Sound start bytes heap ↔ EndsWithout (plan start bytes) Fault.Strays (root start bytes heap) := by
  rw [endsWithout_iff (finite_visits _)]
  constructor
  · rintro ⟨acyclic, nodes, edges⟩
    refine ⟨acyclic, fun visit fault reached => ?_⟩
    exact (failure_iff visit).mpr ⟨nodes visit reached, fun count s => edges visit count s reached⟩ fault
  · rintro ⟨acyclic, failures⟩
    refine ⟨acyclic, fun visit reached => ?_, fun visit count s reached => ?_⟩
    · exact ((failure_iff visit).mp fun fault => failures visit fault reached).1
    · exact ((failure_iff visit).mp fun fault => failures visit fault reached).2 count s

theorem not_strays_iff (fault : Fault) : ¬ fault.Strays ↔ ∃ thrown, fault = .malformed thrown := by
  simp only [Fault.Strays, not_forall, not_not]

theorem safe_iff_endsWithout (nonempty : bytes ≠ []) (heap : Nat → UInt8) (output : List Entry) :
    Safe start bytes heap output ↔ EndsWithout (plan start bytes) Fault.Strays (root start bytes heap) := by
  let fresh : Parsing := { cummulativeString := (List.range bytes.length).map heap, output := [] }
  have follows : ∀ fuel, Follows bytes (processExportNode start bytes fuel start 0 fresh)
      (descend (plan start bytes) fuel (root start bytes heap)) :=
    fun fuel => processExportNode_follows fuel start 0 fresh (by simp [fresh])
  unfold Safe EndsWithout
  refine exists_congr fun fuel => ?_
  obtain ⟨same, -⟩ := follows fuel
  rw [parseTrie, if_neg nonempty, ← same]
  simp only [not_strays_iff]
  cases processExportNode start bytes fuel start 0 _ with
  | none => simp
  | some outcome => cases outcome <;> simp [Except.map]

/-- **Parsing returns entries or throws** exactly for the tries that are read safely. -/
theorem parses_iff (start : Nat) (bytes : List UInt8) (heap : Nat → UInt8) (output : List Entry) :
    Safe start bytes heap output ↔ bytes = [] ∨ Sound start bytes heap := by
  by_cases empty : bytes = []
  · simp only [empty, true_or, iff_true]
    exact ⟨0, .ok output, by simp [parseTrie], fun _ impossible => by cases impossible⟩
  · rw [safe_iff_endsWithout empty, ← sound_iff]
    simp [empty]

/-- One zero: a node without a terminal part, whose count of children would be behind the end. -/
theorem lonelyZero_strays : ¬ Safe 4096 [0] (fun _ => 0) [] := by
  rintro ⟨fuel, outcome, ran, thrown⟩
  cases fuel with
  | zero => cases ran
  | succ fuel =>
    have outside : parseTrie 4096 [0] (fuel + 1) (fun _ => 0) [] = some (.error .outsideTrie) := rfl
    obtain rfl := Option.some.inj (outside.symm.trans ran)
    obtain ⟨malformed, impossible⟩ := thrown _ rfl
    cases impossible

end Safe

end Cctools.MachO.ParseTrie
