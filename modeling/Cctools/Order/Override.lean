/-
# Cctools.Order.Override -- ordinals for the atoms of an order file

`buildOrdinalOverrideMap` gives the atoms that an order file lists their ordinals, and with an
atom all of its cluster.  `preparation_prepared_iff` puts the two halves of the preparation
together: what the follow-on fixups tie together is kept together and moves together, exactly
when no atom is put into a cluster where it may not be put.

`twoBefore` are atoms for which one is, although they could be laid out in a row.
-/
import Cctools.Order.Misplaced
import Mathlib.Algebra.GroupWithZero.Nat

namespace Cctools.Order

set_option autoImplicit false

open Relation Cctools.Theory

/-! ## Overrides -/

structure Overrides (Address : Type) where
  ordinals : Address → Option (BitVec 32)
  index : BitVec 32
  nexts : AtomToAtom Address

section Assign

variable {Address : Type} [DecidableEq Address]

/-- An atom of a cluster gets the next ordinal, unless it has one. -/
def Overrides.assign (overrides : Overrides Address) (atom : Address) : Overrides Address :=
  if (overrides.ordinals atom).isNone then
    { overrides with
      ordinals := Function.update overrides.ordinals atom (some overrides.index)
      index := overrides.index + 1 }
  else overrides

def assignCluster : Nat → Overrides Address → Option Address → Except Failure (Overrides Address)
  | _, overrides, none => .ok overrides
  | 0, _, some _ => .error .endless
  | fuel + 1, overrides, some nextAtom =>
    let assigned := overrides.assign nextAtom
    assignCluster fuel ⟨assigned.ordinals, assigned.index, overrides.nexts.touch nextAtom⟩
      (overrides.nexts.get nextAtom)

/-- An entry of the order file, with what `findAtom` says of it. -/
def addEntry (fuel : Nat) (starts : AtomToAtom Address) (overrides : Overrides Address) (entry : Option Address) :
    Except Failure (Overrides Address) :=
  match entry with
  | none => .ok { overrides with index := overrides.index + 1 }
  | some atom =>
    match starts atom with
    | some start => do
        let overrides ← assignCluster fuel overrides start
        return { overrides with index := overrides.index + 1 }
    | none => .ok
        { overrides with
          ordinals := Function.update overrides.ordinals atom (some overrides.index)
          index := overrides.index + 1 }

def buildOrdinalOverrideMap (fuel : Nat) (haveOrderFile : Bool) (tables : Tables Address)
    (orderedSymbols : List (Option Address)) : Except Failure (Overrides Address) :=
  if haveOrderFile then
    orderedSymbols.foldlM (addEntry fuel tables.starts) ⟨fun _ => none, 0, tables.nexts⟩
  else .ok ⟨fun _ => none, 0, tables.nexts⟩

omit [DecidableEq Address] in
/-- Ordinals that go up by one. -/
def Consecutive (ordinals : Address → Option (BitVec 32)) : Nat → List Address → Prop
  | _, [] => True
  | ordinal, a :: rest => (ordinals a).map BitVec.toNat = some ordinal ∧ Consecutive ordinals (ordinal + 1) rest

variable {ordinals others : Address → Option (BitVec 32)} {list : List Address}

omit [DecidableEq Address] in
theorem Consecutive.congr {ordinal : Nat}
    (same : ∀ a ∈ list, others a = ordinals a) (consecutive : Consecutive ordinals ordinal list) :
    Consecutive others ordinal list := by
  induction list generalizing ordinal with
  | nil => trivial
  | cons a rest ih =>
    obtain ⟨here, later⟩ := consecutive
    refine ⟨?_, ih (fun b member => same b (List.mem_cons_of_mem _ member)) later⟩
    rw [same a List.mem_cons_self]
    exact here

variable {ordinals : Address → Option (BitVec 32)}

omit [DecidableEq Address] in
theorem Consecutive.isSome {ordinal : Nat}
    (consecutive : Consecutive ordinals ordinal list) : ∀ a ∈ list, (ordinals a).isSome = true := by
  induction list generalizing ordinal with
  | nil => nofun
  | cons b rest ih =>
    obtain ⟨here, later⟩ := consecutive
    intro a member
    obtain rfl | other := List.mem_cons.mp member
    · cases ofA : ordinals a with
      | none =>
        rw [ofA] at here
        cases here
      | some => rfl
    · exact ih later a other

variable {overrides assigned : Overrides Address} {fuel : Nat}

/-- A cluster without ordinals gets them one after the other. -/
theorem assignCluster_fresh
    (isOk : assignCluster fuel overrides list.head? = .ok assigned) (linked : Linked overrides.nexts none list)
    (nodup : list.Nodup) (fresh : ∀ a ∈ list, overrides.ordinals a = none)
    (fits : overrides.index.toNat + list.length < 2 ^ 32) :
    Consecutive assigned.ordinals overrides.index.toNat list ∧
      (∀ a, a ∉ list → assigned.ordinals a = overrides.ordinals a) ∧
      assigned.index.toNat = overrides.index.toNat + list.length ∧
      ∀ a, assigned.nexts.get a = overrides.nexts.get a := by
  induction list generalizing fuel overrides with
  | nil =>
    rw [List.head?_nil, assignCluster] at isOk
    obtain rfl := Except.ok.inj isOk
    exact ⟨trivial, fun _ _ => rfl, rfl, fun _ => rfl⟩
  | cons a rest ih =>
    cases fuel with
    | zero => cases isOk
    | succ fuel =>
      obtain ⟨leads, later⟩ := linked
      rw [Option.or_none] at leads
      rw [List.nodup_cons] at nodup
      rw [List.length_cons] at fits
      have isFresh : (overrides.ordinals a).isNone = true := by rw [fresh a List.mem_cons_self]; rfl
      rw [List.head?_cons, assignCluster, leads, Overrides.assign, if_pos isFresh] at isOk
      dsimp only at isOk
      have next : (overrides.index + 1).toNat = overrides.index.toNat + 1 := by
        rw [BitVec.toNat_add]
        exact Nat.mod_eq_of_lt (by show overrides.index.toNat + 1 < _; omega)
      have others (b : Address) (other : b ≠ a) :
          Function.update overrides.ordinals a (some overrides.index) b = overrides.ordinals b :=
        Function.update_of_ne other _ _
      have stillFresh (b : Address) (member : b ∈ rest) :
          Function.update overrides.ordinals a (some overrides.index) b = none :=
        (others b fun same => nodup.1 (same ▸ member)).trans (fresh b (List.mem_cons_of_mem _ member))
      obtain ⟨consecutive, kept, index, nexts⟩ := ih isOk
        (later.congr fun b _ => overrides.nexts.get_touch a b) nodup.2 stillFresh (by rw [next]; omega)
      rw [next] at consecutive index
      refine ⟨⟨?_, consecutive⟩, ?_, by rw [index, List.length_cons]; omega, ?_⟩
      · have here : assigned.ordinals a = some overrides.index :=
          (kept a nodup.1).trans (Function.update_self _ _ _)
        rw [here]
        rfl
      · intro b absent
        rw [List.mem_cons, not_or] at absent
        exact (kept b absent.2).trans (others b absent.1)
      · exact fun b => (nexts b).trans (overrides.nexts.get_touch a b)

theorem assignCluster_done
    (isOk : assignCluster fuel overrides list.head? = .ok assigned) (linked : Linked overrides.nexts none list)
    (done : ∀ a ∈ list, (overrides.ordinals a).isSome = true) :
    assigned.ordinals = overrides.ordinals ∧ assigned.index = overrides.index ∧
      ∀ a, assigned.nexts.get a = overrides.nexts.get a := by
  induction list generalizing fuel overrides with
  | nil =>
    rw [List.head?_nil, assignCluster] at isOk
    obtain rfl := Except.ok.inj isOk
    exact ⟨rfl, rfl, fun _ => rfl⟩
  | cons a rest ih =>
    cases fuel with
    | zero => cases isOk
    | succ fuel =>
      obtain ⟨leads, later⟩ := linked
      rw [Option.or_none] at leads
      have isDone : ¬(overrides.ordinals a).isNone = true := by
        rw [Option.isNone_iff_eq_none, ← ne_eq, Option.ne_none_iff_isSome]
        exact done a List.mem_cons_self
      rw [List.head?_cons, assignCluster, leads, Overrides.assign, if_neg isDone] at isOk
      obtain ⟨ordinals, index, nexts⟩ := ih isOk (later.congr fun b _ => overrides.nexts.get_touch a b)
        fun b member => done b (List.mem_cons_of_mem _ member)
      exact ⟨ordinals, index, fun b => (nexts b).trans (overrides.nexts.get_touch a b)⟩

/-! ## The order file -/

variable {tables : Tables Address} {chains : List (List Address)}

/-- How many atoms of the clusters have an ordinal. -/
def assignedCount (chains : List (List Address)) (ordinals : Address → Option (BitVec 32)) : Nat :=
  chains.flatten.countP fun a => (ordinals a).isSome

/-- Each cluster has its ordinals or none, and it has them if an entry is in it. -/
structure Assigned (tables : Tables Address) (chains : List (List Address)) (entries : List (Option Address))
    (overrides : Overrides Address) : Prop where
  nexts : ∀ a, overrides.nexts.get a = tables.nexts.get a
  cluster : ∀ chain ∈ chains, (∀ a ∈ chain, overrides.ordinals a = none ∧ some a ∉ entries) ∨
    ∃ ordinal, Consecutive overrides.ordinals ordinal chain
  index : overrides.index.toNat ≤ entries.length + assignedCount chains overrides.ordinals

omit [DecidableEq Address] in
theorem assignedCount_le (ordinals : Address → Option (BitVec 32)) :
    assignedCount chains ordinals ≤ chains.flatten.length := List.countP_le_length

omit [DecidableEq Address] in
theorem assignedCount_congr (same : ∀ a ∈ chains.flatten, (others a).isSome = (ordinals a).isSome) :
    assignedCount chains others = assignedCount chains ordinals :=
  List.countP_congr fun a member => by rw [same a member]

variable {chain : List Address}

omit [DecidableEq Address] in
theorem assignedCount_cluster
    {rest : List (List Address)} (perm : chains.Perm (chain :: rest)) (fresh : ∀ a ∈ chain, ordinals a = none)
    (done : ∀ a ∈ chain, (others a).isSome = true) (kept : ∀ a ∈ rest.flatten, others a = ordinals a) :
    assignedCount chains others = assignedCount chains ordinals + chain.length := by
  have none : chain.countP (fun a => (ordinals a).isSome) = 0 := by
    rw [List.countP_eq_zero]
    intro a member
    rw [fresh a member]
    exact Bool.false_ne_true
  have all : chain.countP (fun a => (others a).isSome) = chain.length := List.countP_eq_length.mpr done
  have sameRest : rest.flatten.countP (fun a => (others a).isSome) = rest.flatten.countP (fun a => (ordinals a).isSome) :=
    List.countP_congr fun a member => by rw [kept a member]
  rw [assignedCount, assignedCount, perm.flatten.countP_eq, perm.flatten.countP_eq, List.flatten_cons,
    List.countP_append, List.countP_append, none, all, sameRest]
  omega

omit [DecidableEq Address] in
theorem assignedCount_fresh
    {rest : List (List Address)} (perm : chains.Perm (chain :: rest)) (fresh : ∀ a ∈ chain, ordinals a = none) :
    assignedCount chains ordinals + chain.length ≤ chains.flatten.length := by
  have none : chain.countP (fun a => (ordinals a).isSome) = 0 := by
    rw [List.countP_eq_zero]
    intro a member
    rw [fresh a member]
    exact Bool.false_ne_true
  have others : rest.flatten.countP (fun a => (ordinals a).isSome) ≤ rest.flatten.length := List.countP_le_length
  rw [assignedCount, perm.flatten.countP_eq, perm.flatten.length_eq, List.flatten_cons, List.countP_append, none,
    List.length_append]
  omega

theorem Assigned.addEntry {entries : List (Option Address)} {entry : Option Address}
    {overrides changed : Overrides Address} (assigned : Assigned tables chains entries overrides)
    (chained : Chained tables chains) (isOk : addEntry fuel tables.starts overrides entry = .ok changed)
    (fits : entries.length + 1 + chains.flatten.length < 2 ^ 32) :
    Assigned tables chains (entries ++ [entry]) changed := by
  have bound : assignedCount chains overrides.ordinals ≤ chains.flatten.length := assignedCount_le _
  have indexLe := assigned.index
  have step (index : BitVec 32) : (index + 1).toNat ≤ index.toNat + 1 := by
    rw [BitVec.toNat_add]
    exact Nat.mod_le _ _
  have longer : (entries ++ [entry]).length = entries.length + 1 := by simp
  cases entry with
  | none =>
    obtain rfl := Except.ok.inj isOk
    refine ⟨assigned.nexts, ?_, ?_⟩
    · intro chain isOne
      refine (assigned.cluster chain isOne).imp_left fun fresh a member => ⟨(fresh a member).1, ?_⟩
      simpa using (fresh a member).2
    · rw [longer]
      have := step overrides.index
      show (overrides.index + 1).toNat ≤ entries.length + 1 + assignedCount chains overrides.ordinals
      omega
  | some atom =>
    cases start : tables.starts atom with
    | none =>
      simp only [Order.addEntry, start] at isOk
      obtain rfl := Except.ok.inj isOk
      have absent := (chained.seen_iff atom).mp start
      have others (a : Address) (member : a ∈ chains.flatten) : a ≠ atom := fun same => absent (same ▸ member)
      have same (a : Address) (member : a ∈ chains.flatten) :
          Function.update overrides.ordinals atom (some overrides.index) a = overrides.ordinals a :=
        Function.update_of_ne (others a member) _ _
      have inFlatten {chain : List Address} (isOne : chain ∈ chains) {a : Address} (member : a ∈ chain) :
          a ∈ chains.flatten := List.mem_flatten.mpr ⟨chain, isOne, member⟩
      refine ⟨assigned.nexts, ?_, ?_⟩
      · intro chain isOne
        refine (assigned.cluster chain isOne).imp ?_ ?_
        · intro fresh a member
          refine ⟨(same a (inFlatten isOne member)).trans (fresh a member).1, ?_⟩
          simpa [others a (inFlatten isOne member)] using (fresh a member).2
        · rintro ⟨ordinal, consecutive⟩
          exact ⟨ordinal, consecutive.congr fun a member => same a (inFlatten isOne member)⟩
      · have count := assignedCount_congr fun a member => congrArg Option.isSome (same a member)
        rw [longer, count]
        have := step overrides.index
        show (overrides.index + 1).toNat ≤ _
        omega
    | some start' =>
      obtain ⟨before, after, rest, perm, isStart, -⟩ := chained.split (by rw [start]; nofun)
      have isOne : before ++ atom :: after ∈ chains := perm.mem_iff.mpr List.mem_cons_self
      have nodup := (perm.flatten.nodup_iff.mp chained.nodup)
      rw [List.flatten_cons] at nodup
      obtain ⟨chainNodup, -, apart⟩ := List.nodup_append.mp nodup
      have head : start' = (before ++ atom :: after).head? := by
        rw [start] at isStart
        rw [Option.some.inj isStart]
        cases before <;> rfl
      simp only [Order.addEntry, start] at isOk
      obtain ⟨clustered, ran, isOk⟩ := ok_of_bind isOk
      obtain rfl := Except.ok.inj isOk
      rw [head] at ran
      have linked : Linked overrides.nexts none (before ++ atom :: after) :=
        (chained.isChain _ isOne).linked.congr fun a _ => assigned.nexts a
      have apartOthers {chain : List Address} (isOther : chain ∈ rest) {a : Address} (member : a ∈ chain) :
          a ∉ before ++ atom :: after := fun here =>
        apart a here a (List.mem_flatten.mpr ⟨chain, isOther, member⟩) rfl
      have inChain : atom ∈ before ++ atom :: after := by simp
      obtain fresh | ⟨ordinal, consecutive⟩ := assigned.cluster _ isOne
      · have noOrdinal := fun a member => (fresh a member).1
        have room := assignedCount_fresh perm noOrdinal
        obtain ⟨consecutive, kept, index, nexts⟩ :=
          assignCluster_fresh ran linked chainNodup noOrdinal (by omega)
        refine ⟨fun a => (nexts a).trans (assigned.nexts a), ?_, ?_⟩
        · intro chain isOne
          obtain rfl | isOther := List.mem_cons.mp (perm.mem_iff.mp isOne)
          · exact .inr ⟨_, consecutive⟩
          · have same (a : Address) (member : a ∈ chain) := kept a (apartOthers isOther member)
            refine (assigned.cluster chain isOne).imp ?_ ?_
            · intro fresh a member
              refine ⟨(same a member).trans (fresh a member).1, ?_⟩
              have differ : a ≠ atom := fun isAtom => apartOthers isOther member (isAtom ▸ inChain)
              simpa [differ] using (fresh a member).2
            · rintro ⟨ordinal, consecutive⟩
              exact ⟨ordinal, consecutive.congr same⟩
        · have count := assignedCount_cluster perm noOrdinal consecutive.isSome fun a member => by
            obtain ⟨chain, isOther, inside⟩ := List.mem_flatten.mp member
            exact kept a (apartOthers isOther inside)
          rw [longer]
          have := step clustered.index
          show (clustered.index + 1).toNat ≤ entries.length + 1 + assignedCount chains clustered.ordinals
          omega
      · obtain ⟨ordinals, index, nexts⟩ := assignCluster_done ran linked consecutive.isSome
        refine ⟨fun a => (nexts a).trans (assigned.nexts a), ?_, ?_⟩
        · intro chain isOne
          rw [ordinals]
          obtain rfl | isOther := List.mem_cons.mp (perm.mem_iff.mp isOne)
          · exact .inr ⟨ordinal, consecutive⟩
          · refine (assigned.cluster chain isOne).imp_left fun fresh a member => ⟨(fresh a member).1, ?_⟩
            have differ : a ≠ atom := fun isAtom => apartOthers isOther member (isAtom ▸ inChain)
            simpa [differ] using (fresh a member).2
        · rw [longer]
          have := step clustered.index
          show (clustered.index + 1).toNat ≤ entries.length + 1 + assignedCount chains clustered.ordinals
          rw [ordinals]
          rw [index] at this
          rw [index]
          omega

/-- **The members of a cluster that is listed have ordinals that go up by one.** -/
theorem buildOrdinalOverrideMap_consecutive {orderedSymbols : List (Option Address)}
    {overrides : Overrides Address} (chained : Chained tables chains)
    (isOk : buildOrdinalOverrideMap fuel true tables orderedSymbols = .ok overrides)
    (fits : orderedSymbols.length + chains.flatten.length < 2 ^ 32) (isOne : chain ∈ chains)
    {atom : Address} (member : atom ∈ chain) (listed : some atom ∈ orderedSymbols) :
    ∃ ordinal, Consecutive overrides.ordinals ordinal chain := by
  have assigned : Assigned tables chains orderedSymbols overrides := by
    rw [buildOrdinalOverrideMap, if_pos rfl] at isOk
    clear listed
    induction orderedSymbols using List.reverseRecOn generalizing overrides with
    | nil =>
      obtain rfl := Except.ok.inj isOk
      exact ⟨fun _ => rfl, fun _ _ => .inl fun _ _ => ⟨rfl, nofun⟩, Nat.zero_le _⟩
    | append_singleton entries entry ih =>
      rw [List.foldlM_append] at isOk
      obtain ⟨between, first, isOk⟩ := ok_of_bind isOk
      obtain ⟨last, second, isOk⟩ := ok_of_bind isOk
      obtain rfl := Except.ok.inj isOk
      rw [List.length_append, List.length_singleton] at fits
      exact (ih first (by omega)).addEntry chained second fits
  obtain fresh | consecutive := assigned.cluster chain isOne
  · exact absurd listed (fresh atom member).2
  · exact consecutive

end Assign

/-! ## The preparation -/

section Pass

variable {Address : Type} [DecidableEq Address]

/-- What the maps are for: every pair is together in a chain, and a chain that is listed moves as one. -/
structure Prepared (size : Address → Nat) (orderedSymbols : List (Option Address)) (pairs : List (Address × Address))
    (tables : Tables Address) (chains : List (List Address)) : Prop where
  wellFormed : WellFormed size pairs tables chains
  consecutive : ∀ fuel overrides, buildOrdinalOverrideMap fuel true tables orderedSymbols = .ok overrides →
    ∀ chain ∈ chains, ∀ atom ∈ chain, some atom ∈ orderedSymbols →
      ∃ ordinal, Consecutive overrides.ordinals ordinal chain

/-- **In every state of the pass the follow-on pairs are together and move together exactly when
every atom may be put where it is.** -/
theorem preparation_prepared_iff (state : Internal Address) {fuel : Nat} {tables : Tables Address}
    {orderedSymbols : List (Option Address)} (orderFile : state.haveOrderFile = true)
    (acyclic : ∀ a, ¬TransGen (FollowOn state) a a) (isOk : buildFollowOnTables fuel state = .ok tables)
    (few : orderedSymbols.length + 2 * (allFollowOns state).length < 2 ^ 32) :
    (∀ before after reached, allFollowOns state = before ++ after →
      addFollowOns fuel (fun a => (state.atom a).size) (.empty Address) before = .ok reached →
        ∃ chains, Prepared (fun a => (state.atom a).size) orderedSymbols before reached chains) ↔
      AllAllowed fuel (fun a => (state.atom a).size) (allFollowOns state) := by
  have ofPairs := allFollowOns_followOn state
  rw [← run_wellFormed_iff acyclic ofPairs (buildFollowOnTables_ok state orderFile isOk)]
  constructor
  · intro prepared before after reached split ran
    obtain ⟨chains, isPrepared⟩ := prepared before after reached split ran
    exact ⟨chains, isPrepared.wellFormed⟩
  · intro wellFormed before after reached split ran
    have allowed := (run_wellFormed_iff acyclic ofPairs (buildFollowOnTables_ok state orderFile isOk)).mp wellFormed
    have earlier : AllAllowed fuel (fun a => (state.atom a).size) before := by
      intro front pair back between splitBefore ranBefore
      exact allowed front pair (back ++ after) between (by rw [split, splitBefore]; simp) ranBefore
    have member (pair : Address × Address) (inside : pair ∈ before) : FollowOn state pair.1 pair.2 :=
      ofPairs pair (by rw [split]; exact List.mem_append_left _ inside)
    obtain ⟨chains, chained, clustered⟩ := addFollowOns_clustered acyclic member earlier ran
    have shorter : before.length ≤ (allFollowOns state).length := by
      rw [split, List.length_append]
      omega
    have fewAtoms := clustered.few
    refine ⟨chains, ⟨chained, clustered.kept⟩, ?_⟩
    intro fuel overrides built chain isOne atom inChain listed
    exact buildOrdinalOverrideMap_consecutive chained built (by omega) isOne inChain listed

end Pass

/-! ## Atoms in a row -/

/-- Atoms with a follow-on each, or none. -/
def rowOf (size : Nat → Nat) (next : Nat → Option Nat) (atoms : List Nat) : Internal Nat where
  atom a := {
    sectionType := .code
    size := size a
    fixups := (next a).toList.map fun target => ⟨.noneFollowOn, .directlyBound target⟩
    isAlias := false
    contentType := .other
    tentative := false
    cold := false
    fileOrdinal := none
    objectAddress := 0
    userVisibleName := [] }
  sections := [⟨.code, "__TEXT", "__text", atoms⟩]
  indirectBindingTable := fun _ => none
  haveCmdLineAliases := false
  haveOrderFile := true
  moveRwSymbol := fun _ => false

theorem rowOf_acyclic {size : Nat → Nat} {next : Nat → Option Nat} {atoms : List Nat}
    (up : ∀ a target, next a = some target → a < target) (a : Nat) : ¬TransGen (FollowOn (rowOf size next atoms)) a a := by
  have step {a b : Nat} (follows : FollowOn (rowOf size next atoms) a b) : a < b := by
    obtain ⟨fixup, member, -, binding⟩ := follows
    obtain ⟨target, isNext, rfl⟩ := List.mem_map.mp member
    obtain rfl := Binding.directlyBound.inj binding
    exact up a _ (Option.mem_toList.mp isNext)
  intro cycle
  have less {a b : Nat} (path : TransGen (FollowOn (rowOf size next atoms)) a b) : a < b := by
    induction path with
    | single follows => exact step follows
    | tail _ follows ih => exact Nat.lt_trans ih (step follows)
  exact Nat.lt_irrefl a (less cycle)

/-- Each of three atoms falls into the next one. -/
def inARow : Internal Nat := rowOf (fun _ => 4) (fun a => if a < 2 then some (a + 1) else none) [0, 1, 2]

theorem inARow_acyclic : ∀ a, ¬TransGen (FollowOn inARow) a a := by
  refine rowOf_acyclic fun a target isNext => ?_
  split at isNext
  · obtain rfl := Option.some.inj isNext
    exact Nat.lt_succ_self a
  · cases isNext

theorem preparation_prepared_iff_inARow : ∃ tables, buildFollowOnTables 9 inARow = .ok tables ∧
    ((∀ before after reached, allFollowOns inARow = before ++ after →
      addFollowOns 9 (fun a => (inARow.atom a).size) (.empty Nat) before = .ok reached →
        ∃ chains, Prepared (fun a => (inARow.atom a).size) [some 1] before reached chains) ↔
      AllAllowed 9 (fun a => (inARow.atom a).size) (allFollowOns inARow)) :=
  ⟨_, rfl, preparation_prepared_iff inARow rfl inARow_acyclic rfl (by decide)⟩

/-- Of atoms 0 and 3 the first falls into the second, 1 and 2 are aliases of no size before 3. -/
def twoBefore : Internal Nat :=
  rowOf (fun a => if a = 1 ∨ a = 2 then 0 else 4)
    (fun a => if a = 0 then some 3 else if a = 1 then some 2 else if a = 2 then some 3 else none) [0, 1, 2, 3]

/-- They could be laid out as 0, 1, 2, 3, but both 0 and 1 lead to 2. -/
theorem twoBefore_spoiled : (∀ a, ¬TransGen (FollowOn twoBefore) a a) ∧ ∃ tables,
    buildFollowOnTables 9 twoBefore = .ok tables ∧ tables.starts 1 ≠ tables.starts 2 ∧
      ∀ chains, ¬Chained tables chains := by
  refine ⟨rowOf_acyclic fun a target isNext => ?_, _, rfl, by decide, fun chains chained => ?_⟩
  · split at isNext
    · obtain rfl := Option.some.inj isNext
      omega
    · split at isNext
      · obtain rfl := Option.some.inj isNext
        omega
      · split at isNext
        · obtain rfl := Option.some.inj isNext
          omega
        · cases isNext
  · have same : 0 = 1 := @Chained.next_inj _ _ _ chained 0 1 2 (by decide) (by decide)
    exact absurd same (by decide)

end Cctools.Order
