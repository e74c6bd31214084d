/-
# Cctools.Order.Ending -- the loops over follow-on chains end

The loops of `buildFollowOnTables` and `buildOrdinalOverrideMap` go along the links of a chain, so
they end as long as the maps stand for chains: rounds for twice as many atoms as there are
follow-on fixups are enough.  Then the tables are built or an assert fails, and once they are
built every order file gets its ordinals (`preparation_ends`).
-/
import Cctools.Order.Override

namespace Cctools.Order

set_option autoImplicit false

open Relation Cctools.Theory

variable {Address : Type} [DecidableEq Address] {tables : Tables Address} {chains : List (List Address)} {fuel : Nat}

/-! ## Loops -/

/-- The fuel was enough. -/
def Ends {α : Type} (result : Except Failure α) : Prop := result ≠ .error .endless

theorem Ends.ok {α : Type} (value : α) : Ends (.ok value) := by simp [Ends]

theorem Ends.assertion {α : Type} (text : String) : Ends (.error (.assertion text) : Except Failure α) := by simp [Ends]

theorem Ends.bind {α β : Type} {result : Except Failure α} {f : α → Except Failure β} (ends : Ends result)
    (more : ∀ value, result = .ok value → Ends (f value)) : Ends (result >>= f) := by
  cases done : result with
  | error failure =>
    rintro failed
    obtain rfl := Except.error.inj failed
    exact ends done
  | ok value => exact more value done

theorem followerFrom_ends {target : Address} {list : List Address} {nexts : AtomToAtom Address}
    (linked : Linked nexts none list) (enough : list.length ≤ fuel) : Ends (followerFrom target fuel nexts list.head?) := by
  induction list generalizing fuel nexts with
  | nil =>
    rw [List.head?_nil, followerFrom]
    exact .ok _
  | cons a rest ih =>
    cases fuel with
    | zero => cases enough
    | succ fuel =>
      obtain ⟨leads, later⟩ := linked
      rw [Option.or_none] at leads
      rw [List.head?_cons, followerFrom]
      split
      · exact .ok _
      · rw [leads]
        exact ih (later.congr fun b _ => nexts.get_touch a b) (Nat.le_of_succ_le_succ enough)

theorem adjustStarts_ends {nexts starts : AtomToAtom Address} {followOn atom : Address} {list : List Address}
    (linked : Linked nexts none list) (enough : list.length < fuel) :
    Ends (adjustStarts nexts followOn atom fuel starts list.head?) := by
  induction list generalizing fuel starts with
  | nil =>
    cases fuel with
    | zero => cases enough
    | succ fuel => exact .assertion _
  | cons a rest ih =>
    cases fuel with
    | zero => cases enough
    | succ fuel =>
      obtain ⟨leads, later⟩ := linked
      rw [Option.or_none] at leads
      rw [List.head?_cons, adjustStarts]
      split
      · split
        · rename_i next isNext
          have head : next = rest.head? := by rw [← leads, AtomToAtom.get, isNext]; rfl
          rw [head]
          exact ih later (Nat.lt_of_succ_lt_succ enough)
        · exact .ok _
      · exact .assertion _

theorem startFrom_ends {atom : Address} {list : List Address} (linked : Linked tables.nexts none list)
    (enough : list.length ≤ fuel) : Ends (startFrom atom fuel tables list.head?) := by
  induction list generalizing fuel tables with
  | nil =>
    rw [List.head?_nil, startFrom]
    exact .ok _
  | cons a rest ih =>
    cases fuel with
    | zero => cases enough
    | succ fuel =>
      obtain ⟨leads, later⟩ := linked
      rw [Option.or_none] at leads
      rw [List.head?_cons, startFrom, leads]
      exact ih (later.congr fun b _ => tables.nexts.get_touch a b) (Nat.le_of_succ_le_succ enough)

theorem follower_ends {target : Address} {chain : List Address} (isChain : IsChain tables chain) (member : target ∈ chain)
    (enough : chain.length ≤ fuel) : Ends (follower fuel tables target) := by
  have start : tables.starts.get target = chain.head? := by
    rw [AtomToAtom.get, isChain.starts target member]
    rfl
  rw [follower, start]
  exact (followerFrom_ends isChain.linked enough).bind fun _ _ => .ok _

/-! ## One fixup -/

variable {size : Address → Nat} {atom followOn prev : Address}

theorem insertBefore_ends {front back : List Address} (isChain : IsChain (tables.see atom) (front ++ prev :: followOn :: back))
    (absent : atom ∉ front ++ prev :: followOn :: back) (nodup : (front ++ prev :: followOn :: back).Nodup)
    (enough : (front ++ prev :: followOn :: back).length < fuel) :
    Ends (insertBefore fuel size ⟨tables.starts.see atom, tables.nexts.put atom (some followOn)⟩ atom followOn) := by
  have putNexts (a : Address) (other : a ≠ atom) :
      (tables.nexts.put atom (some followOn)).get a = tables.nexts.get a := AtomToAtom.get_put_of_ne _ other _
  have stillChain : IsChain ⟨tables.starts.see atom, tables.nexts.put atom (some followOn)⟩
      (front ++ prev :: followOn :: back) := ⟨isChain.linked.of_change absent putNexts, isChain.starts⟩
  rw [insertBefore]
  refine (follower_ends stillChain (by simp) (Nat.le_of_lt enough)).bind ?_
  rintro ⟨found, walked⟩ ran
  obtain ⟨isPrev, sameStarts, sameNexts⟩ := follower_prev ran stillChain nodup
  obtain rfl : found = some prev := isPrev
  dsimp only at sameStarts sameNexts ⊢
  split
  · exact .ok _
  · split
    · have walkedChain : IsChain walked (front ++ prev :: followOn :: back) :=
        ⟨stillChain.linked.congr fun a _ => sameNexts a, fun a member => by rw [sameStarts]; exact isChain.starts a member⟩
      refine (follower_ends walkedChain (by simp) (Nat.le_of_lt enough)).bind ?_
      rintro ⟨foundPrev, walkedOn⟩ ran
      obtain rfl | ⟨before, prevPrev, rfl⟩ := List.eq_nil_or_concat front
      · obtain ⟨isNone, -, sameNexts'⟩ := follower_first ran walkedChain nodup
        obtain rfl : foundPrev = none := isNone
        have oldNexts (a : Address) (other : a ≠ atom) :
            (walkedOn.nexts.put atom (some prev)).get a = tables.nexts.get a := by
          rw [AtomToAtom.get_put_of_ne _ other, sameNexts', sameNexts]
          exact putNexts a other
        have linked : Linked (walkedOn.nexts.put atom (some prev)) none (atom :: prev :: followOn :: back) :=
          ⟨AtomToAtom.get_put_self _ _ _, isChain.linked.of_change absent oldNexts⟩
        exact @startFrom_ends _ _ { walkedOn with nexts := walkedOn.nexts.put atom (some prev) } fuel atom _ linked enough
      · simp only [List.concat_eq_append, List.append_assoc, List.singleton_append] at walkedChain nodup
        obtain ⟨isPrevPrev, -, -⟩ := follower_prev ran walkedChain nodup
        obtain rfl : foundPrev = some prevPrev := isPrevPrev
        exact .ok _
    · exact .assertion _

theorem addFollowOn_ends (chained : Chained tables chains) (differ : atom ≠ followOn)
    (noCycle : ∀ chain ∈ chains, chain.getLast? = some atom → followOn ∉ chain) (enough : chains.flatten.length < fuel) :
    Ends (addFollowOn fuel size tables atom followOn) := by
  rw [addFollowOn]
  split
  · rename_i noNext
    rw [AtomToAtom.count_eq_zero] at noNext
    obtain ⟨before, others, ends, -, seen⟩ := chained.see noNext
    dsimp only
    split
    · exact .ok _
    · rename_i hasStart
      rw [AtomToAtom.count_eq_zero] at hasStart
      obtain ⟨front, back, rest, perm, split_, start, nodup⟩ := seen.target hasStart (ends.outside differ noCycle)
      have isChain := split_.isChain _ (List.mem_cons_of_mem _ List.mem_cons_self)
      have absent : atom ∉ front ++ followOn :: back := by
        have apart := seen.nodup
        rw [List.flatten_cons, List.append_assoc, List.singleton_append] at apart
        intro member
        refine (List.nodup_cons.mp (List.nodup_append.mp apart).2.1).1 (perm.flatten.mem_iff.mpr ?_)
        rw [List.flatten_cons]
        exact List.mem_append_left _ member
      have few : (front ++ followOn :: back).length ≤ chains.flatten.length := by
        have inOthers : (front ++ followOn :: back).length ≤ others.flatten.length := by
          rw [perm.flatten.length_eq, List.flatten_cons]
          exact (List.sublist_append_left _ _).length_le
        cases ends with
        | seen perm' =>
          rw [perm'.flatten.length_eq, List.flatten_cons]
          exact Nat.le_trans inOthers (List.sublist_append_right _ _).length_le
        | unseen => exact inOthers
      split
      · rename_i isStart
        cases front with
        | nil =>
          have linked : Linked (tables.nexts.put atom (some followOn)) none (followOn :: back) :=
            isChain.linked.of_change absent fun a other => AtomToAtom.get_put_of_ne _ other _
          exact (adjustStarts_ends linked (Nat.lt_of_le_of_lt few enough)).bind fun _ _ => .ok _
        | cons b front =>
          obtain rfl := Option.some.inj (isStart.symm.trans start)
          exact absurd (by simp) (List.nodup_cons.mp nodup).1
      · rename_i notStart
        obtain rfl | ⟨front, prev, rfl⟩ := List.eq_nil_or_concat front
        · exact absurd start notStart
        · simp only [List.concat_eq_append, List.append_assoc, List.singleton_append] at isChain nodup absent few
          exact insertBefore_ends isChain absent nodup (Nat.lt_of_le_of_lt few enough)
  · exact .assertion _

/-! ## The order file -/

theorem assignCluster_ends {overrides : Overrides Address} {list : List Address} (linked : Linked overrides.nexts none list)
    (enough : list.length ≤ fuel) : ∃ assigned, assignCluster fuel overrides list.head? = .ok assigned ∧
      ∀ a, assigned.nexts.get a = overrides.nexts.get a := by
  induction list generalizing fuel overrides with
  | nil => exact ⟨overrides, by rw [List.head?_nil, assignCluster], fun _ => rfl⟩
  | cons a rest ih =>
    cases fuel with
    | zero => cases enough
    | succ fuel =>
      obtain ⟨leads, later⟩ := linked
      rw [Option.or_none] at leads
      obtain ⟨assigned, isOk, same⟩ := @ih fuel
        ⟨(overrides.assign a).ordinals, (overrides.assign a).index, overrides.nexts.touch a⟩
        (later.congr fun b _ => overrides.nexts.get_touch a b) (Nat.le_of_succ_le_succ enough)
      refine ⟨assigned, ?_, fun b => (same b).trans (overrides.nexts.get_touch a b)⟩
      rw [List.head?_cons, assignCluster, leads]
      exact isOk

/-- Chains of the maps give every order file its ordinals. -/
theorem buildOrdinalOverrideMap_ends (chained : Chained tables chains) (enough : chains.flatten.length ≤ fuel)
    (orderedSymbols : List (Option Address)) :
    ∃ overrides, buildOrdinalOverrideMap fuel true tables orderedSymbols = .ok overrides := by
  have all (entries : List (Option Address)) (overrides : Overrides Address)
      (same : ∀ a, overrides.nexts.get a = tables.nexts.get a) :
      ∃ final, entries.foldlM (addEntry fuel tables.starts) overrides = .ok final := by
    induction entries generalizing overrides with
    | nil => exact ⟨overrides, rfl⟩
    | cons entry rest ih =>
      rw [List.foldlM_cons]
      cases entry with
      | none => exact ih _ same
      | some atom =>
        cases start : tables.starts atom with
        | none =>
          rw [addEntry, start]
          exact ih _ same
        | some first =>
          obtain ⟨before, after, others, perm, isStart, -⟩ := chained.split (by rw [start]; exact Option.some_ne_none first)
          have isOne := perm.mem_iff.mpr List.mem_cons_self
          have head : first = (before ++ atom :: after).head? := by
            rw [start] at isStart
            rw [Option.some.inj isStart]
            cases before <;> rfl
          have few : (before ++ atom :: after).length ≤ fuel := by
            refine Nat.le_trans ?_ enough
            rw [perm.flatten.length_eq, List.flatten_cons]
            exact (List.sublist_append_left _ _).length_le
          obtain ⟨assigned, isOk, kept⟩ :=
            assignCluster_ends ((chained.isChain _ isOne).linked.congr fun a _ => same a) few
          rw [addEntry, start, head]
          dsimp only
          rw [isOk]
          exact ih _ fun a => (kept a).trans (same a)
  rw [buildOrdinalOverrideMap, if_pos rfl]
  exact all orderedSymbols _ fun _ => rfl

/-! ## The preparation -/

theorem addFollowOns_ends {leads : Address → Address → Prop} (acyclic : ∀ a, ¬TransGen leads a a)
    {pairs : List (Address × Address)} (ofPairs : ∀ pair ∈ pairs, leads pair.1 pair.2)
    (allowed : AllAllowed fuel size pairs) (enough : 2 * pairs.length < fuel) :
    Ends (addFollowOns fuel size (.empty Address) pairs) := by
  induction pairs using List.reverseRecOn with
  | nil => exact .ok _
  | append_singleton pairs pair ih =>
    rw [List.length_append, List.length_singleton] at enough
    have earlier : AllAllowed fuel size pairs := by
      intro before other after tables split ran
      exact allowed before other (after ++ [pair]) tables (by rw [split]; simp) ran
    have ofEarlier (other : Address × Address) (member : other ∈ pairs) : leads other.1 other.2 :=
      ofPairs other (List.mem_append_left _ member)
    rw [addFollowOns, List.foldlM_append]
    refine (ih ofEarlier earlier (by omega)).bind fun between ran => ?_
    obtain ⟨chains, chained, clustered⟩ := addFollowOns_clustered acyclic ofEarlier earlier ran
    have isPair := ofPairs pair (List.mem_append_right _ (List.mem_singleton_self _))
    have few := clustered.few
    have differ : pair.1 ≠ pair.2 := fun same => acyclic pair.1 (.single (same ▸ isPair))
    exact (addFollowOn_ends chained differ (clustered.noCycle acyclic isPair) (by omega)).bind fun _ _ => .ok _

/-- **With enough fuel the preparation comes to its end**: the tables are built or an assert fails, and the
order file gets its ordinals. -/
theorem preparation_ends (state : Internal Address) (orderFile : state.haveOrderFile = true)
    (acyclic : ∀ a, ¬TransGen (FollowOn state) a a) (enough : 2 * (allFollowOns state).length < fuel)
    (allowed : AllAllowed fuel (fun a => (state.atom a).size) (allFollowOns state)) (orderedSymbols : List (Option Address)) :
    match buildFollowOnTables fuel state with
    | .error failure => ∃ text, failure = .assertion text
    | .ok tables => ∃ overrides, buildOrdinalOverrideMap fuel true tables orderedSymbols = .ok overrides := by
  have ofPairs := allFollowOns_followOn state
  have ends := addFollowOns_ends acyclic ofPairs allowed enough
  cases built : buildFollowOnTables fuel state with
  | error failure =>
    obtain same | ⟨text, failed⟩ := buildFollowOnTables_run state fuel orderFile
    · cases failure with
      | assertion text => exact ⟨text, rfl⟩
      | endless => exact absurd (same.symm.trans built) ends
    · exact ⟨text, Except.error.inj (built.symm.trans failed)⟩
  | ok tables =>
    obtain ⟨chains, chained, clustered⟩ :=
      addFollowOns_clustered acyclic ofPairs allowed (buildFollowOnTables_ok state orderFile built)
    have few := clustered.few
    exact buildOrdinalOverrideMap_ends chained (by omega) orderedSymbols

end Cctools.Order
