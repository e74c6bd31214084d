/-
# Cctools.BranchIslands.Chains -- what an island leads to

The loop only ever adds islands (`Grows`): one in a region that has none for the
branch's target, going to what the chain has reached so far.  An island goes to its
target or to an older island for it, so each of them `Leads` to one atom.  In a pool
that is `Sound`, where that is the atom an island was made for and every island
stands in one region, a branch gets a node that leads to its target, and the pool
stays sound (`retarget_reached`).
-/
import Cctools.BranchIslands.Pass
import Mathlib.Data.List.Flatten

namespace Cctools.BranchIslands

set_option autoImplicit false

variable {options : Options} {atoms : AtomId → Atom} {branch : Branch}

/-! ## Pools that grow -/

/-- Over the islands to an atom. -/
inductive Leads (made : List Island) : Node → AtomId → Prop where
  | atom (id : AtomId) : Leads made (.atom id) id
  | island {serial : Nat} {island : Island} {id : AtomId} (there : made[serial]? = some island)
      (goes : Leads made island.goesTo id) : Leads made (.island serial) id

structure Grows (before after : Pool) : Prop where
  made : before.made <+: after.made
  length : after.regions.length = before.regions.length

theorem Grows.refl (pool : Pool) : Grows pool pool := ⟨List.prefix_refl _, rfl⟩

theorem Grows.trans {first second third : Pool} (one : Grows first second) (two : Grows second third) :
    Grows first third :=
  ⟨one.made.trans two.made, two.length.trans one.length⟩

theorem Leads.grows {before after : Pool} (grows : Grows before after) {node : Node} {id : AtomId}
    (leads : Leads before.made node id) : Leads after.made node id := by
  induction leads with
  | atom id => exact .atom id
  | island there _ ih =>
    refine .island ?_ ih
    obtain ⟨more, same⟩ := grows.made
    rw [← same, List.getElem?_append_left (List.getElem?_eq_some_iff.mp there).1]
    exact there

/-! ## Sound pools -/

structure Sound (pool : Pool) : Prop where
  linked : ∀ region ∈ pool.regions, ∀ entry ∈ region.map, Leads pool.made entry.2 entry.1.atom
  counted : (pool.regions.flatMap (·.islands)).Perm ((List.range pool.made.length).map .island)

/-- What a branch gets from a pool. -/
structure Reached (before : Pool) (branch : Branch) (result : Pool × Node) : Prop where
  grows : Grows before result.1
  sound : Sound result.1
  leads : Leads result.1.made result.2 branch.target.atom

theorem Sound.reached {pool : Pool} (sound : Sound pool) (branch : Branch) :
    Reached pool branch (pool, .atom branch.target.atom) :=
  ⟨Grows.refl _, sound, .atom _⟩

theorem flatMap_set_perm {regions : List Region} {i : Nat} {region new : Region}
    (there : regions[i]? = some region) {node : Node} (more : new.islands = region.islands ++ [node]) :
    ((regions.set i new).flatMap (·.islands)).Perm (regions.flatMap (·.islands) ++ [node]) := by
  induction regions generalizing i with
  | nil => cases there
  | cons first rest ih =>
    cases i with
    | zero =>
      obtain rfl := Option.some.inj there
      simp only [List.set_cons_zero, List.flatMap_cons, more, List.append_assoc]
      exact List.perm_append_comm.append_left _
    | succ i =>
      simp only [List.set_cons_succ, List.flatMap_cons, List.append_assoc]
      exact (ih there).append_left _

variable {state : Pool × Node}

/-- **One island more**: it goes on where the chain has got to. -/
theorem Reached.islandIn {before : Pool} (reached : Reached before branch state)
    {cross : Bool} {i : Nat} {region : Region} (there : state.1.regions[i]? = some region) :
    Reached before branch (islandIn options atoms branch cross state.1 state.2 i region) := by
  obtain ⟨pool, nextTarget⟩ := state
  obtain ⟨grown, sound, leads⟩ := reached
  have inside := List.mem_of_getElem? there
  cases found : region.map.lookup branch.target with
  | some node =>
    simp only [BranchIslands.islandIn, found]
    obtain ⟨_, _, entries, _⟩ := List.lookup_eq_some_iff.mp found
    refine ⟨grown, sound, sound.linked region inside (branch.target, node) ?_⟩
    simp [entries]
  | none =>
    simp only [BranchIslands.islandIn, found]
    generalize isIsland : makeBranchIsland options atoms branch i nextTarget cross = island
    generalize isRegion : ({ region with
      map := (branch.target, Node.island pool.made.length) :: region.map
      islands := region.islands ++ [Node.island pool.made.length] } : Region) = more
    have grows : Grows pool ⟨pool.regions.set i more, pool.made ++ [island], pool.outside⟩ :=
      ⟨List.prefix_append _ _, List.length_set⟩
    have new : Leads (pool.made ++ [island]) (.island pool.made.length) branch.target.atom := by
      refine .island List.getElem?_concat_length ?_
      subst isIsland
      rw [Island.goesTo]
      split
      · exact .atom _
      · exact leads.grows grows
    refine ⟨grown.trans grows, ⟨?_, ?_⟩, new⟩
    · intro other member entry listed
      -- the new entry, or one that was there before
      rcases List.mem_or_eq_of_mem_set member with old | rfl
      · exact (sound.linked other old entry listed).grows grows
      · subst isRegion
        rcases List.mem_cons.mp listed with rfl | old
        · exact new
        · exact (sound.linked region inside entry old).grows grows
    · rw [List.length_append, List.length_singleton, List.range_succ, List.map_append]
      refine (flatMap_set_perm there ?_).trans (sound.counted.append_right _)
      rw [← isRegion]

/-! ## Chains -/

theorem Reached.hop {before : Pool} (reached : Reached before branch state) (crosses : Int → Bool) (i : Nat) :
    Reached before branch (hop options atoms branch crosses state i) := by
  simp only [BranchIslands.hop]
  split
  · exact reached
  · rename_i region there
    split
    · exact reached.islandIn there
    · exact reached

theorem Reached.chain {before : Pool} (reached : Reached before branch state)
    (crosses : Int → Bool) (regions : List Nat) :
    Reached before branch (regions.foldl (BranchIslands.hop options atoms branch crosses) state) := by
  induction regions generalizing state with
  | nil => exact reached
  | cons i rest ih => exact ih (reached.hop crosses i)

/-- **One branch**: whichever way it goes, it gets to its target. -/
theorem retarget_reached {kBranchLimit : Nat} {pool : Pool} (sound : Sound pool) :
    let result := retarget options atoms kBranchLimit branch pool
    Reached pool branch (result.1, result.2.getD (.atom branch.target.atom)) := by
  have start := sound.reached branch
  simp only [retarget]
  split
  · cases there : pool.regions[0]? with
    | none => exact ⟨⟨start.grows.made, rfl⟩, ⟨sound.linked, sound.counted⟩, start.leads⟩
    | some region => exact start.islandIn there
  · split
    · exact start.chain _ _
    · split
      · exact start.chain _ _
      · exact start

/-! ## Regions that are not there -/

theorem islandIn_outside {cross : Bool} {pool : Pool} {nextTarget : Node} {i : Nat} {region : Region} :
    (islandIn options atoms branch cross pool nextTarget i region).1.outside = pool.outside := by
  rw [islandIn]
  split
  · rfl
  · rfl

theorem chain_outside {crosses : Int → Bool} {regions : List Nat} :
    (regions.foldl (hop options atoms branch crosses) state).1.outside = state.1.outside := by
  induction regions generalizing state with
  | nil => rfl
  | cons i rest ih =>
    rw [List.foldl_cons, ih, hop]
    split
    · rfl
    · split
      · exact islandIn_outside
      · rfl

/-- It is a branch to another section, with no region at all, that reads past the regions. -/
theorem retarget_outside {kBranchLimit : Nat} {pool : Pool}
    (outside : (retarget options atoms kBranchLimit branch pool).1.outside = true) :
    pool.outside = true ∨ branch.crossSectionBranch = true ∧ pool.regions = [] := by
  simp only [retarget] at outside
  split at outside
  · rename_i far
    cases there : pool.regions[0]? with
    | none =>
      rw [Bool.and_eq_true] at far
      exact .inr ⟨far.1, List.length_eq_zero_iff.mp (Nat.le_zero.mp (List.getElem?_eq_none_iff.mp there))⟩
    | some region =>
      rw [there] at outside
      exact .inl (islandIn_outside.symm.trans outside)
  · split at outside
    · exact .inl (chain_outside.symm.trans outside)
    · split at outside
      · exact .inl (chain_outside.symm.trans outside)
      · exact .inl outside

end Cctools.BranchIslands
