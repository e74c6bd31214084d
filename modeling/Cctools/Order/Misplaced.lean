/-
# Cctools.Order.Misplaced -- atoms that are put where they may not be

`addFollowOn_misplaced`: where an atom is put into a chain that it may not be put into, the
maps stand for no chains any more, or a pair that was together is torn apart.  So the states
of a run are all well formed exactly when every atom may be put where it is
(`run_wellFormed_iff`).
-/
import Cctools.Order.Clusters
import Mathlib.Data.List.Nodup
import Mathlib.Data.List.Pairwise

namespace Cctools.Order

set_option autoImplicit false

open Relation Cctools.Theory

/-! ## Uniqueness in chains -/

section Unique

variable {Address : Type} {nexts : AtomToAtom Address} {tables : Tables Address} {chains : List (List Address)}

theorem Linked.next_mem_tail {list : List Address} (linked : Linked nexts none list) {a next : Address}
    (member : a ∈ list) (leads : nexts.get a = some next) : next ∈ list.tail := by
  obtain ⟨before, after, rfl⟩ := List.append_of_mem member
  obtain ⟨-, here, -⟩ := linked_append.mp linked
  rw [Option.or_none, leads] at here
  have behind : next ∈ after := List.mem_of_head? here.symm
  cases before with
  | nil => exact behind
  | cons b before => simp [behind]

theorem Linked.next_inj {list : List Address} (linked : Linked nexts none list) (nodup : list.Nodup)
    {a b next : Address} (aMember : a ∈ list) (bMember : b ∈ list) (aLeads : nexts.get a = some next)
    (bLeads : nexts.get b = some next) : a = b := by
  induction list with
  | nil => cases aMember
  | cons c rest ih =>
    obtain ⟨here, later⟩ := linked
    rw [Option.or_none] at here
    rw [List.nodup_cons] at nodup
    -- the one behind the first is behind no other
    have notHead {d : Address} (inside : d ∈ rest) (leads : nexts.get d = some next) : nexts.get c ≠ some next := by
      intro ofFirst
      have isHead := here.symm.trans ofFirst
      have inTail := later.next_mem_tail inside leads
      cases rest with
      | nil => cases inside
      | cons e rest =>
        obtain rfl := Option.some.inj isHead
        exact (List.nodup_cons.mp nodup.2).1 inTail
    obtain rfl | aLater := List.mem_cons.mp aMember <;> obtain rfl | bLater := List.mem_cons.mp bMember
    · rfl
    · exact absurd aLeads (notHead bLater bLeads)
    · exact absurd bLeads (notHead aLater aLeads)
    · exact ih later nodup.2 aLater bLater

theorem Chained.same_chain (chained : Chained tables chains) {a : Address} {first second : List Address}
    (isFirst : first ∈ chains) (isSecond : second ∈ chains) (inFirst : a ∈ first) (inSecond : a ∈ second) :
    first = second := by
  by_contra differ
  have apart : chains.Pairwise List.Disjoint := (List.nodup_flatten.mp chained.nodup).2
  have symmetric : Std.Symm (@List.Disjoint Address) := ⟨fun _ _ apart _ first second => apart second first⟩
  exact apart.forall isFirst isSecond differ inFirst inSecond

theorem Chained.mem_of_next (chained : Chained tables chains) {a next : Address}
    (leads : tables.nexts.get a = some next) : ∃ chain ∈ chains, a ∈ chain ∧ next ∈ chain := by
  have member : a ∈ chains.flatten := by
    by_contra absent
    rw [(chained.unseen a absent).2] at leads
    cases leads
  obtain ⟨chain, isOne, inside⟩ := List.mem_flatten.mp member
  exact ⟨chain, isOne, inside, List.mem_of_mem_tail ((chained.isChain chain isOne).linked.next_mem_tail inside leads)⟩

theorem Chained.next_inj (chained : Chained tables chains) {a b next : Address}
    (aLeads : tables.nexts.get a = some next) (bLeads : tables.nexts.get b = some next) : a = b := by
  obtain ⟨first, isFirst, aInside, inFirst⟩ := chained.mem_of_next aLeads
  obtain ⟨second, isSecond, bInside, inSecond⟩ := chained.mem_of_next bLeads
  obtain rfl := chained.same_chain isFirst isSecond inFirst inSecond
  exact (chained.isChain first isFirst).linked.next_inj ((List.nodup_flatten.mp chained.nodup).1 first isFirst)
    aInside bInside aLeads bLeads

theorem Chained.same_start (chained : Chained tables chains) {a next : Address}
    (leads : tables.nexts.get a = some next) : tables.starts a = tables.starts next := by
  obtain ⟨chain, isOne, inside, nextInside⟩ := chained.mem_of_next leads
  have ofChain := chained.isChain chain isOne
  rw [ofChain.starts a inside, ofChain.starts next nextInside]

/-- Right behind the first atom of a pair is the second one, or an alias. -/
theorem Kept.next {size : Address → Nat} {atom followOn next : Address} {chain : List Address}
    (kept : Kept size atom followOn chain) (linked : Linked nexts none chain) (leads : nexts.get atom = some next) :
    next = followOn ∨ size next = 0 := by
  obtain ⟨before, between, after, rfl, aliases⟩ := kept.split
  obtain ⟨-, here, -⟩ := linked_append.mp linked
  rw [Option.or_none, leads] at here
  cases between with
  | nil => exact .inl (Option.some.inj here)
  | cons b between =>
    obtain rfl := Option.some.inj here
    exact .inr (aliases next List.mem_cons_self)

end Unique

/-! ## Misplaced atoms -/

section Misplaced

variable {Address : Type} [DecidableEq Address] {size : Address → Nat} {tables changed : Tables Address}
variable {chains : List (List Address)} {atom followOn prev : Address} {pairs : List (Address × Address)}
variable {leads : Address → Address → Prop} {before front back : List Address} {others rest : List (List Address)}

/-- Chains in which every pair is together. -/
def WellFormed (size : Address → Nat) (pairs : List (Address × Address)) (tables : Tables Address)
    (chains : List (List Address)) : Prop :=
  Chained tables chains ∧ ∀ pair ∈ pairs, ∃ chain ∈ chains, Kept size pair.1 pair.2 chain

/-- An atom that was the end of a chain has one before it. -/
theorem Splice.before_atom (splice : Splice size tables changed chains atom followOn prev before front back others rest)
    (clustered : Clustered size leads pairs chains) (seen : tables.starts atom ≠ none) (chained : Chained tables chains) :
    ∃ first last, before = first ++ [last] := by
  obtain rfl | ⟨first, last, rfl⟩ := List.eq_nil_or_concat before
  · cases splice.ends with
    | seen perm =>
      have two := clustered.two _ (perm.mem_iff.mpr List.mem_cons_self)
      simp at two
    | unseen fresh => exact absurd ((chained.seen_iff atom).mpr fresh) seen
  · exact ⟨first, last, List.concat_eq_append⟩

/-- **An atom that is put where it may not be spoils the chains.** -/
theorem addFollowOn_misplaced {fuel : Nat} (chained : Chained tables chains)
    (clustered : Clustered size leads pairs chains) (isOk : addFollowOn fuel size tables atom followOn = .ok changed)
    (misplaced : ¬Allowed size tables atom followOn) (differ : atom ≠ followOn)
    (noCycle : ∀ chain ∈ chains, chain.getLast? = some atom → followOn ∉ chain) (after : List (List Address)) :
    ¬WellFormed size (pairs ++ [(atom, followOn)]) changed after := by
  rintro ⟨chainedAfter, keptAfter⟩
  obtain ⟨known, -⟩ | ⟨prev, before, front, back, others, rest, splice⟩ :=
    addFollowOn_cases chained isOk differ noCycle
  · exact misplaced (known.imp_right .inl)
  · have isChain := splice.chained.isChain _ (List.mem_cons_of_mem _ List.mem_cons_self)
    have ofAtom := splice.chained.isChain _ List.mem_cons_self
    have nodup := splice.chained.nodup
    rw [List.flatten_cons, List.flatten_cons, ← List.append_assoc] at nodup
    obtain ⟨bothNodup, -, -⟩ := List.nodup_append.mp nodup
    obtain ⟨endNodup, -, apart⟩ := List.nodup_append.mp bothNodup
    -- the atom before one that was the end of a chain
    have lastBefore (seen : tables.starts atom ≠ none) : ∃ first last, before = first ++ [last] ∧ last ≠ atom ∧
        last ∉ front ++ prev :: followOn :: back ∧ tables.nexts.get last = some atom := by
      obtain ⟨first, last, rfl⟩ := splice.before_atom clustered seen chained
      refine ⟨first, last, rfl, ?_, fun inside => apart last (by simp) last inside rfl, ?_⟩
      · rintro rfl
        rw [List.append_assoc] at endNodup
        exact (List.nodup_cons.mp (List.nodup_append.mp endNodup).2.1).1 List.mem_cons_self
      · obtain ⟨linked, -⟩ := linked_append.mp ofAtom.linked
        exact (linked_append.mp linked).2.1
    cases splice.inserted with
    | alias_ noSize newStart oldStarts prevNext newNext oldNexts =>
      have seen : tables.starts atom ≠ none := fun fresh => misplaced (.inr (.inr ⟨fresh, .inl noSize⟩))
      obtain ⟨-, last, -, notAtom, outside, leads⟩ := lastBefore seen
      have notPrev : last ≠ prev := by
        rintro rfl
        exact outside (by simp)
      exact notPrev (chainedAfter.next_inj ((oldNexts last notAtom notPrev).trans leads) prevNext)
    | first noSize isFirst newStarts oldStarts newNext oldNexts =>
      subst isFirst
      have seen : tables.starts atom ≠ none := fun fresh =>
        misplaced (.inr (.inr ⟨fresh, .inr ⟨prev, splice.start, isChain.linked.1⟩⟩))
      obtain ⟨first, last, rfl, notAtom, outside, leads⟩ := lastBefore seen
      have sameStart := chainedAfter.same_start ((oldNexts last notAtom).trans leads)
      have notInside : last ∉ atom :: prev :: followOn :: back := by
        rw [List.mem_cons, not_or]
        exact ⟨notAtom, outside⟩
      rw [oldStarts last notInside, newStarts atom List.mem_cons_self, ofAtom.starts last (by simp)] at sameStart
      have isHead := Option.some.inj sameStart
      rw [List.append_assoc] at endNodup isHead
      cases first with
      | nil =>
        obtain rfl := Option.some.inj isHead
        exact notAtom rfl
      | cons b first =>
        obtain rfl := Option.some.inj isHead
        exact (List.nodup_cons.mp endNodup).1 (by simp)
    | @between earlier prevPrev hasSize split prevNext =>
      subst split
      have ofOthers : earlier ++ [prevPrev] ++ prev :: followOn :: back ∈ chains := by
        have listed := splice.perm.mem_iff.mpr List.mem_cons_self
        cases splice.ends with
        | seen perm => exact perm.mem_iff.mpr (List.mem_cons_of_mem _ listed)
        | unseen => exact listed
      obtain ⟨next, isPair⟩ := clustered.own _ ofOthers prevPrev (by simp)
      obtain ⟨chain, isOne, kept⟩ := keptAfter (prevPrev, next) (List.mem_append_left _ isPair)
      obtain rfl := (kept.next (chainedAfter.isChain chain isOne).linked prevNext).resolve_right hasSize
      obtain ⟨old, isOld, oldKept⟩ := clustered.kept (prevPrev, atom) isPair
      obtain ⟨start, between, stop, rfl, -⟩ := oldKept.split
      have inOthers : prevPrev ∈ earlier ++ [prevPrev] ++ prev :: followOn :: back := by simp
      have same := chained.same_chain ofOthers isOld inOthers (by simp)
      exact splice.absent (by rw [same]; simp)

/-- **Every state of a run is well formed exactly when every atom may be put where it is.** -/
theorem run_wellFormed_iff {fuel : Nat} (acyclic : ∀ a, ¬TransGen leads a a) (ofPairs : ∀ pair ∈ pairs, leads pair.1 pair.2)
    (isOk : addFollowOns fuel size (.empty Address) pairs = .ok tables) :
    (∀ before after reached, pairs = before ++ after → addFollowOns fuel size (.empty Address) before = .ok reached →
      ∃ chains, WellFormed size before reached chains) ↔ AllAllowed fuel size pairs := by
  constructor
  · intro wellFormed
    induction pairs using List.reverseRecOn generalizing tables with
    | nil =>
      intro before pair after reached split
      exact absurd split.symm (by simp)
    | append_singleton pairs pair ih =>
      obtain ⟨between, first, second⟩ := addFollowOns_append isOk
      have earlier := ih (fun other member => ofPairs other (List.mem_append_left _ member)) first
        fun before after reached split ran => wellFormed before (after ++ [pair]) reached (by rw [split]; simp) ran
      obtain ⟨chains, chained, clustered⟩ := addFollowOns_clustered acyclic
        (fun other member => ofPairs other (List.mem_append_left _ member)) earlier first
      have isPair := ofPairs pair (List.mem_append_right _ (List.mem_singleton_self _))
      have differ : pair.1 ≠ pair.2 := fun same => acyclic pair.1 (.single (same ▸ isPair))
      have noCycle := clustered.noCycle acyclic isPair
      intro before other after reached split ran
      obtain rfl | ⟨after, last, rfl⟩ := List.eq_nil_or_concat after
      · obtain ⟨rfl, same⟩ := List.append_inj' split rfl
        obtain rfl := List.singleton_inj.mp same
        obtain rfl := Except.ok.inj (first.symm.trans ran)
        by_contra misplaced
        obtain ⟨chainsAfter, spoiled⟩ := wellFormed (pairs ++ [pair]) [] tables (by simp) isOk
        exact addFollowOn_misplaced chained clustered second misplaced differ noCycle chainsAfter spoiled
      · rw [List.concat_eq_append, ← List.cons_append, ← List.append_assoc] at split
        obtain ⟨rfl, -⟩ := List.append_inj' split rfl
        exact earlier before other after reached rfl ran
  · intro allowed before after reached split ran
    subst split
    have earlier : AllAllowed fuel size before := by
      intro front pair back state split ran
      exact allowed front pair (back ++ after) state (by rw [split]; simp) ran
    obtain ⟨chains, chained, clustered⟩ := addFollowOns_clustered acyclic
      (fun other member => ofPairs other (List.mem_append_left _ member)) earlier ran
    exact ⟨chains, chained, clustered.kept⟩

end Misplaced

end Cctools.Order
