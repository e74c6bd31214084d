/-
# Cctools.OutputFile.FixupAgreement -- when the plan is what is written

`buildChainedFixupInfo_agrees`: for every image that is planned and written, each
location is recorded exactly when a pointer of a chain is written there, and
every number that is asked for is in the table, if the clusters keep to what both
walks understand alike.  Where the pointers are, that is also necessary; what a
bind asks for may be in the table by another pointer.

The writer of authenticated pointers does not look whether the target is absolute,
as the planner and the other writers do (`authenticated_absolute_disagrees`).
-/
import Cctools.OutputFile.FixupPlans
import Cctools.OutputFile.ImportsLossless

namespace Cctools.OutputFile

set_option autoImplicit false

open Cctools.Theory

/-! ## Agreement -/

section Statement

variable {α : Type} [DecidableEq α] (link : Link α)

/-- The location that a place in a page stands for. -/
def FixupPlace.address (place : FixupPlace) : BitVec 64 :=
  place.startAddr + BitVec.ofNat 64 (place.pageIndex * link.pageSize) + place.pageOffset.setWidth 64

def clusters (image : List (AtomContent α)) : List (AtomContent α × Cluster α) :=
  image.flatMap fun atom => atom.clusters.map fun cluster => (atom, cluster)

structure Agrees (image : List (AtomContent α)) (planned : List (List (Option (PlannedFixup α))))
    (written : List (List (Option (WrittenFixup α)))) : Prop where
  places : ∀ (i : Nat) atom cluster fixup, (clusters image)[i]? = some (atom, cluster) →
    planned.flatten[i]? = some (some fixup) → fixup.place.address link = atom.fixUpAddr link cluster
  locations : ∀ i : Nat, (∃ fixup, planned.flatten[i]? = some (some fixup)) ↔
    ∃ fixup, written.flatten[i]? = some (some fixup)
  lookups : ∀ fixup, some fixup ∈ written.flatten → ∀ bind, fixup.bind = some bind →
    (plannedBinds planned).ordinal bind.target bind.importAddend ≠ none

end Statement

/-! ## Sites -/

section Sites

variable {α : Type} [DecidableEq α] (link : Link α)

/-- A cluster, with what the writer still holds from the ones before it. -/
structure FixupSite (α : Type) where
  atom : AtomContent α
  before : WriteState α
  cluster : Cluster α

def sitesFrom (atom : AtomContent α) : WriteState α → List (Cluster α) → List (FixupSite α)
  | _, [] => []
  | state, cluster :: rest =>
    ⟨atom, state, cluster⟩ ::
      sitesFrom atom (storeState link (setupState link atom.self state cluster) cluster.store) rest

def sites (image : List (AtomContent α)) : List (FixupSite α) :=
  image.flatMap fun atom => sitesFrom link atom .first atom.clusters

namespace FixupSite

variable (site : FixupSite α)

def ready : WriteState α := setupState link site.atom.self site.before site.cluster

def plan : Except String (Option (PlannedFixup α)) := planCluster link site.atom site.cluster

def write : Except String (Option (WrittenFixup α)) :=
  if site.atom.isWritten link then
    writeStore link site.atom site.cluster.offsetInAtom (site.ready link) site.cluster.store
  else .ok none

end FixupSite

variable {link}

theorem map_sitesFrom (atom : AtomContent α) (state : WriteState α) (list : List (Cluster α)) :
    (sitesFrom link atom state list).map (fun site => (site.atom, site.cluster))
      = list.map fun cluster => (atom, cluster) := by
  induction list generalizing state with
  | nil => rfl
  | cons cluster rest ih => rw [sitesFrom, List.map_cons, ih, List.map_cons]

theorem map_sites (image : List (AtomContent α)) :
    (sites link image).map (fun site => (site.atom, site.cluster)) = clusters image := by
  rw [sites, clusters, List.map_flatMap]
  simp only [map_sitesFrom]

variable {list : List (Cluster α)} {atom : AtomContent α} {state : WriteState α}

theorem plan_sitesFrom {planned : List (Option (PlannedFixup α))}
    (each : List.Forall₂ (fun cluster fixup => planCluster link atom cluster = .ok fixup) list planned) :
    List.Forall₂ (fun site fixup => site.plan link = .ok fixup) (sitesFrom link atom state list) planned := by
  induction each generalizing state with
  | nil => exact .nil
  | cons here _ ih => exact .cons here ih

theorem write_sitesFrom {written : List (Option (WrittenFixup α))} (onDisk : atom.isWritten link = true)
    (isOk : applyFixUps link atom state list = .ok written) :
    List.Forall₂ (fun site fixup => site.write link = .ok fixup) (sitesFrom link atom state list) written := by
  induction list generalizing state written with
  | nil =>
    obtain rfl := Except.ok.inj isOk
    exact .nil
  | cons cluster rest ih =>
    obtain ⟨here, stored, more⟩ := ok_of_bind isOk
    obtain ⟨others, applied, rfl⟩ := ok_of_map more
    refine .cons ?_ (ih applied)
    rw [FixupSite.write, if_pos onDisk]
    exact stored

theorem write_sitesFrom_skipped (skipped : ¬ atom.isWritten link = true) :
    List.Forall₂ (fun site fixup => site.write link = .ok fixup) (sitesFrom link atom state list)
      (list.map fun _ => none) := by
  induction list generalizing state with
  | nil => exact .nil
  | cons cluster rest ih =>
    refine .cons ?_ ih
    rw [FixupSite.write, if_neg skipped]

theorem plan_sites {image : List (AtomContent α)} {planned : List (List (Option (PlannedFixup α)))}
    (isOk : buildChainedFixupInfo link image = .ok planned) :
    List.Forall₂ (fun site fixup => site.plan link = .ok fixup) (sites link image) planned.flatten :=
  forall₂_flatMap ((forall₂_of_mapM isOk).imp fun _ _ atomOk => plan_sitesFrom (forall₂_of_mapM atomOk))

theorem write_sites {image : List (AtomContent α)} {written : List (List (Option (WrittenFixup α)))}
    (isOk : writeAtoms link image = .ok written) :
    List.Forall₂ (fun site fixup => site.write link = .ok fixup) (sites link image) written.flatten := by
  refine forall₂_flatMap ((forall₂_of_mapM isOk).imp fun atom fixups atomOk => ?_)
  split at atomOk
  · rename_i onDisk
    exact write_sitesFrom onDisk atomOk
  · rename_i skipped
    obtain rfl := Except.ok.inj atomOk
    exact write_sitesFrom_skipped skipped

end Sites

/-! ## What a cluster says -/

section Says

variable {α : Type}

def Setup.names : Setup α → Option α
  | .setTargetAddress target | .lazyTarget target => some target
  | _ => Option.none

def Setup.holds : Setup α → Option α
  | .setTargetAddress target | .setTargetImageOffset target => some target
  | _ => Option.none

def Setup.isRelative : Setup α → Bool
  | .subtractTargetAddress _ | .setTargetImageOffset _ => true
  | _ => false

def Setup.isAuthData : Setup α → Bool
  | .setAuthData => true
  | _ => false

/-- The last target that the steps have, or the one from before. -/
def lastOf (target : Setup α → Option α) (start : Option α) (setups : List (Setup α)) : Option α :=
  setups.foldl (fun held setup => (target setup).or held) start

theorem lastOf_append {f : Setup α → Option α} {start : Option α} {before after : List (Setup α)} :
    lastOf f start (before ++ after) = lastOf f (lastOf f start before) after :=
  List.foldl_append ..

namespace Cluster

variable (cluster : Cluster α)

def relative : Bool := cluster.setups.any Setup.isRelative

def signs : Bool := cluster.setups.any Setup.isAuthData

/-- The target of a pointer, with the one that the steps name. -/
def pointerTo (loaded : Option α) : Option α :=
  match cluster.store with
  | .littleEndian32 | .littleEndian64 | .littleEndianAuth64 => loaded
  | .targetAddressLittleEndian32 target | .targetAddressLittleEndian64 target
  | .targetAddressLittleEndianAuth64 target => some target
  | .other _ _ => none

def named : Option α := cluster.pointerTo (lastOf Setup.names none cluster.setups)

end Cluster

/-- The target that the writer holds at the store. -/
def FixupSite.held (site : FixupSite α) : Option α :=
  site.cluster.pointerTo (lastOf Setup.holds site.before.toTarget site.cluster.setups)

variable (link : Link α)

/-- A target that is fixed up. -/
def Link.Real (target : Option α) : Prop := ∃ a, target = some a ∧ link.targetNeedsNoFixup a = false

/-- An absolute pointer of the image: not a difference, with a target of its own. -/
def Cluster.IsPointer (cluster : Cluster α) : Prop := cluster.relative = false ∧ link.Real cluster.named

/-- Whether the pointer is authenticated when it is written. -/
def FixupSite.signed (site : FixupSite α) : Bool :=
  match site.cluster.store with
  | .littleEndianAuth64 | .targetAddressLittleEndianAuth64 _ => true
  | .targetAddressLittleEndian64 _ => site.atom.isThunk link site.cluster.offsetInAtom
  | _ => false

theorem planSetups_spec (state : PlanState α) (setups : List (Setup α)) :
    (setups.foldl (planSetup link) state).target = lastOf Setup.names state.target setups ∧
      (setups.foldl (planSetup link) state).hadSubtract
        = (state.hadSubtract || setups.any Setup.isRelative) ∧
      (setups.foldl (planSetup link) state).isAuthPtr = (state.isAuthPtr || setups.any Setup.isAuthData) := by
  induction setups generalizing state with
  | nil => simp [lastOf]
  | cons setup rest ih =>
    obtain ⟨target, subtract, auth⟩ := ih (planSetup link state setup)
    rw [List.foldl_cons, target, subtract, auth]
    cases setup <;> simp [planSetup, lastOf, Setup.names, Setup.isRelative, Setup.isAuthData]

variable {link}

/-- The accumulator of the planner at the store. -/
def planAccumulator (link : Link α) (cluster : Cluster α) : BitVec 64 :=
  match cluster.store with
  | .targetAddressLittleEndian32 target => link.addressWithThumb target
  | .targetAddressLittleEndian64 target | .targetAddressLittleEndianAuth64 target =>
    (link.atom target).finalAddress
  | _ => (cluster.setups.foldl (planSetup link) .first).accumulator

theorem planPointer_eq (cluster : Cluster α) :
    planPointer link cluster = if cluster.relative then none
      else cluster.named.map fun target => ((target, planAccumulator link cluster), cluster.signs) := by
  obtain ⟨target, subtract, auth⟩ := planSetups_spec link .first cluster.setups
  have relative : (cluster.setups.foldl (planSetup link) .first).hadSubtract = cluster.relative := subtract
  have signs : (cluster.setups.foldl (planSetup link) .first).isAuthPtr = cluster.signs := auth
  have loaded : (cluster.setups.foldl (planSetup link) .first).target
      = lastOf Setup.names none cluster.setups := target
  rw [planPointer, relative, signs, Cluster.named, Cluster.pointerTo, planAccumulator]
  split
  · rfl
  · cases cluster.store <;> simp [planStore, loaded, Function.comp_def]

theorem plan_ok {site : FixupSite α} {planned : Option (PlannedFixup α)} (isOk : site.plan link = .ok planned) :
    (planned.isSome ↔ site.cluster.IsPointer link) ∧
      ∀ fixup, planned = some fixup →
        fixup.place = link.placeOf site.atom.segmentStart (site.atom.fixUpAddr link site.cluster) ∧
        fixup.isAuthPtr = site.cluster.signs ∧ ∃ target, site.cluster.named = some target ∧
          fixup.bind = link.needsBind target site.cluster.signs (planAccumulator link site.cluster) := by
  rw [FixupSite.plan, planCluster, planPointer_eq] at isOk
  rw [Cluster.IsPointer, Link.Real]
  cases relative : site.cluster.relative with
  | true =>
    rw [relative, if_pos rfl] at isOk
    obtain rfl := Except.ok.inj isOk
    simp
  | false =>
    rw [relative, if_neg (by decide)] at isOk
    cases named : site.cluster.named with
    | none =>
      rw [named] at isOk
      obtain rfl := Except.ok.inj isOk
      simp
    | some target =>
      rw [named] at isOk
      simp only [Option.map_some] at isOk
      split at isOk
      · cases isOk
      · split at isOk
        · rename_i absolute
          obtain rfl := Except.ok.inj isOk
          simp [absolute]
        · rename_i real
          obtain rfl := Except.ok.inj isOk
          simp [real]

variable {written : Option (WrittenFixup α)}

theorem setFixup_ok {toTarget : Option α} {accumulator : BitVec 64}
    (isOk : setFixup link toTarget accumulator = .ok written) :
    (written.isSome ↔ link.Real toTarget) ∧ ∀ fixup, written = some fixup →
      ∃ target, toTarget = some target ∧ fixup.bind = link.needsBind target false accumulator := by
  cases toTarget with
  | none => cases isOk
  | some target =>
    obtain rfl := Except.ok.inj isOk
    rw [Link.Real]
    cases absolute : link.targetNeedsNoFixup target <;> simp [absolute]

theorem setFixup64e_ok {toTarget : Option α} {accumulator : BitVec 64}
    (isOk : setFixup64e link toTarget accumulator = .ok written) :
    written.isSome ∧ ∀ fixup, written = some fixup →
      ∃ target, toTarget = some target ∧ fixup.bind = link.needsBind target true accumulator := by
  cases toTarget with
  | none => cases isOk
  | some target =>
    obtain rfl := Except.ok.inj isOk
    simp

variable [DecidableEq α]

theorem writeSetups_spec (link : Link α) (self : α) (state : WriteState α) (setups : List (Setup α)) :
    (setups.foldl (writeSetup link self) state).toTarget = lastOf Setup.holds state.toTarget setups ∧
      (setups.foldl (writeSetup link self) state).isRelative
        = (state.isRelative || setups.any Setup.isRelative) := by
  induction setups generalizing state with
  | nil => simp [lastOf]
  | cons setup rest ih =>
    obtain ⟨target, relative⟩ := ih (writeSetup link self state setup)
    rw [List.foldl_cons, target, relative]
    cases setup <;> simp [writeSetup, lastOf, Setup.holds, Setup.isRelative]

theorem ready_relative (site : FixupSite α) : (site.ready link).isRelative = site.cluster.relative := by
  rw [FixupSite.ready, setupState, (writeSetups_spec link _ _ _).2, Bool.false_or, Cluster.relative]

theorem ready_toTarget (site : FixupSite α) :
    (site.ready link).toTarget = lastOf Setup.holds site.before.toTarget site.cluster.setups := by
  rw [FixupSite.ready, setupState, (writeSetups_spec link _ _ _).1]

/-- The accumulator of the writer at the store. -/
def writeAccumulator (link : Link α) (site : FixupSite α) : BitVec 64 :=
  (storeState link (site.ready link) site.cluster.store).accumulator

/-- Whether a pointer of a chain is written, once the atom is. -/
def FixupSite.Writes (link : Link α) (site : FixupSite α) : Prop :=
  match site.cluster.store with
  | .littleEndian32 => site.atom.plain32 = false ∧ site.cluster.relative = false ∧ link.Real site.held
  | .littleEndian64 => site.cluster.relative = false ∧ link.Real site.held
  | .targetAddressLittleEndian32 _ | .targetAddressLittleEndian64 _ =>
    site.signed link = true ∨ link.Real site.held
  | .littleEndianAuth64 | .targetAddressLittleEndianAuth64 _ => True
  | .other _ _ => False

theorem write_ok {site : FixupSite α} (isOk : site.write link = .ok written) :
    (written.isSome ↔ site.atom.isWritten link = true ∧ site.Writes link) ∧
      ∀ fixup, written = some fixup → ∃ target, site.held = some target ∧
        fixup.bind = link.needsBind target (site.signed link) (writeAccumulator link site) := by
  rw [FixupSite.write] at isOk
  split at isOk
  · rename_i onDisk
    have held : (site.ready link).toTarget = _ := ready_toTarget site
    have relative : (site.ready link).isRelative = _ := ready_relative site
    rw [FixupSite.Writes, FixupSite.signed, FixupSite.held, Cluster.pointerTo, writeAccumulator]
    cases store : site.cluster.store with
    | littleEndian32 =>
      simp only [store, writeStore, storeState, relative, held] at isOk ⊢
      split at isOk
      · rename_i plain
        obtain rfl := Except.ok.inj isOk
        rw [Bool.or_eq_true] at plain
        rcases plain with plain | plain <;> simp [plain]
      · rename_i wide
        rw [Bool.or_eq_true, not_or, Bool.not_eq_true, Bool.not_eq_true] at wide
        simpa [onDisk, wide] using setFixup_ok isOk
    | littleEndian64 =>
      simp only [store, writeStore, storeState, relative, held] at isOk ⊢
      split at isOk
      · rename_i difference
        obtain rfl := Except.ok.inj isOk
        simp [difference]
      · rename_i absolute
        simpa [onDisk, absolute] using setFixup_ok isOk
    | targetAddressLittleEndian32 target =>
      simp only [store, writeStore, storeState] at isOk ⊢
      simpa [onDisk] using setFixup_ok isOk
    | targetAddressLittleEndian64 target =>
      simp only [store, writeStore, storeState] at isOk ⊢
      split at isOk
      · rename_i thunk
        simpa [onDisk, thunk] using setFixup64e_ok isOk
      · rename_i plain
        simpa [onDisk, plain] using setFixup_ok isOk
    | littleEndianAuth64 =>
      simp only [store, writeStore, storeState, held] at isOk ⊢
      simpa [onDisk] using setFixup64e_ok isOk
    | targetAddressLittleEndianAuth64 target =>
      simp only [store, writeStore, storeState] at isOk ⊢
      simpa [onDisk] using setFixup64e_ok isOk
    | other target accumulator =>
      simp only [store, writeStore] at isOk ⊢
      obtain rfl := Except.ok.inj isOk
      simp
  · rename_i skipped
    obtain rfl := Except.ok.inj isOk
    simp [skipped]

end Says

/-! ## Clusters that both walks understand alike -/

section Regular

variable {α : Type} (link : Link α)

/-- What a cluster must be like for its location to be planned exactly when it is written. -/
structure FixupSite.Regular (site : FixupSite α) : Prop where
  onDisk : site.cluster.IsPointer link → site.atom.isWritten link = true
  wide : site.cluster.store = .littleEndian32 → site.cluster.IsPointer link → site.atom.plain32 = false
  loaded : site.atom.isWritten link = true → site.cluster.relative = false →
    site.cluster.store = .littleEndian64 ∨
      site.cluster.store = .littleEndian32 ∧ site.atom.plain32 = false →
    (link.Real site.cluster.named ↔ link.Real site.held)
  signed : site.atom.isWritten link = true → site.signed link = true → site.cluster.IsPointer link
  combined : site.atom.isWritten link = true → site.cluster.relative = true → ∀ target,
    site.cluster.store = .targetAddressLittleEndian32 target ∨
      site.cluster.store = .targetAddressLittleEndian64 target → link.targetNeedsNoFixup target = true

variable {link}

theorem pointer_iff_writes {site : FixupSite α} :
    (site.cluster.IsPointer link ↔ site.atom.isWritten link = true ∧ site.Writes link) ↔
      site.Regular link := by
  constructor
  · intro same
    refine ⟨fun pointer => (same.mp pointer).1, fun store pointer => ?_, fun onDisk absolute store => ?_,
      fun onDisk signed => same.mpr ⟨onDisk, ?_⟩, fun onDisk relative target store => ?_⟩
    · have writes := (same.mp pointer).2
      rw [FixupSite.Writes, store] at writes
      exact writes.1
    · rw [Cluster.IsPointer, FixupSite.Writes] at same
      rcases store with store | ⟨store, wide⟩
      · simpa [store, onDisk, absolute] using same
      · simpa [store, onDisk, absolute, wide] using same
    · rw [FixupSite.signed] at signed
      rw [FixupSite.Writes]
      split at signed
      all_goals simp_all [FixupSite.signed]
    · by_contra real
      rw [Bool.not_eq_true] at real
      have writes : site.Writes link := by
        rw [FixupSite.Writes, FixupSite.held, Cluster.pointerTo]
        rcases store with store | store <;> rw [store] <;> exact .inr ⟨target, rfl, real⟩
      have pointer := same.mpr ⟨onDisk, writes⟩
      rw [pointer.1] at relative
      cases relative
  · intro regular
    have combined : ∀ target, site.cluster.named = some target → site.held = some target →
        (site.cluster.store = .targetAddressLittleEndian32 target ∨
          site.cluster.store = .targetAddressLittleEndian64 target) →
        (site.cluster.IsPointer link ↔
          site.atom.isWritten link = true ∧ (site.signed link = true ∨ link.Real site.held)) := by
      intro target named held store
      constructor
      · intro pointer
        exact ⟨regular.onDisk pointer, .inr (by rw [held, ← named]; exact pointer.2)⟩
      · rintro ⟨onDisk, signed | real⟩
        · exact regular.signed onDisk signed
        · refine ⟨?_, by rw [named, ← held]; exact real⟩
          by_contra relative
          rw [Bool.not_eq_false] at relative
          have absolute := regular.combined onDisk relative target store
          obtain ⟨a, same, fixed⟩ := real
          obtain rfl := Option.some.inj (held.symm.trans same)
          rw [absolute] at fixed
          cases fixed
    cases store : site.cluster.store with
    | littleEndian32 =>
      rw [FixupSite.Writes, store]
      constructor
      · intro pointer
        have onDisk := regular.onDisk pointer
        have wide := regular.wide store pointer
        exact ⟨onDisk, wide, pointer.1, (regular.loaded onDisk pointer.1 (.inr ⟨store, wide⟩)).mp pointer.2⟩
      · rintro ⟨onDisk, wide, absolute, real⟩
        exact ⟨absolute, (regular.loaded onDisk absolute (.inr ⟨store, wide⟩)).mpr real⟩
    | littleEndian64 =>
      rw [FixupSite.Writes, store]
      constructor
      · intro pointer
        have onDisk := regular.onDisk pointer
        exact ⟨onDisk, pointer.1, (regular.loaded onDisk pointer.1 (.inl store)).mp pointer.2⟩
      · rintro ⟨onDisk, absolute, real⟩
        exact ⟨absolute, (regular.loaded onDisk absolute (.inl store)).mpr real⟩
    | targetAddressLittleEndian32 target =>
      rw [FixupSite.Writes, store]
      exact combined target (by rw [Cluster.named, Cluster.pointerTo, store])
        (by rw [FixupSite.held, Cluster.pointerTo, store]) (.inl store)
    | targetAddressLittleEndian64 target =>
      rw [FixupSite.Writes, store]
      exact combined target (by rw [Cluster.named, Cluster.pointerTo, store])
        (by rw [FixupSite.held, Cluster.pointerTo, store]) (.inr store)
    | littleEndianAuth64 | targetAddressLittleEndianAuth64 _ =>
      rw [FixupSite.Writes, store]
      exact ⟨fun pointer => ⟨regular.onDisk pointer, trivial⟩,
        fun written => regular.signed written.1 (by rw [FixupSite.signed, store])⟩
    | other _ _ =>
      rw [FixupSite.Writes, store, Cluster.IsPointer, Cluster.named, Cluster.pointerTo, store, Link.Real]
      simp

theorem page_fits_iff (distance pageSize : Nat) :
    distance - distance / pageSize % 2 ^ 32 * pageSize < 2 ^ 16 ↔
      distance / pageSize < 2 ^ 32 ∧ distance % pageSize < 2 ^ 16 := by
  have parts := Nat.div_add_mod' distance pageSize
  by_cases few : distance / pageSize < 2 ^ 32
  · rw [Nat.mod_eq_of_lt few]
    have rest : distance - distance / pageSize * pageSize = distance % pageSize := by omega
    rw [rest]
    exact ⟨fun small => ⟨few, small⟩, And.right⟩
  · have some_ : 1 ≤ pageSize := by
      by_contra none_
      obtain rfl : pageSize = 0 := by omega
      rw [Nat.div_zero] at few
      omega
    have least : (distance / pageSize % 2 ^ 32 + 2 ^ 32) * pageSize ≤ distance / pageSize * pageSize :=
      Nat.mul_le_mul_right _ (by omega)
    rw [Nat.add_mul] at least
    have room : 2 ^ 32 ≤ 2 ^ 32 * pageSize := Nat.le_mul_of_pos_right _ some_
    have large : 2 ^ 32 ≤ distance - distance / pageSize % 2 ^ 32 * pageSize :=
      Nat.le_sub_of_add_le' ((Nat.add_le_add_left room _).trans (least.trans (Nat.div_mul_le_self _ _)))
    exact iff_of_false (fun small => absurd (large.trans_lt small) (by decide)) (fun fits => few fits.1)

/-- The index and the offset of the page fit their variables. -/
theorem placeOf_address_iff (startAddr fixUpAddr : BitVec 64) :
    (link.placeOf startAddr fixUpAddr).address link = fixUpAddr ↔
      (fixUpAddr - startAddr).toNat / link.pageSize < 2 ^ 32 ∧
        (fixUpAddr - startAddr).toNat % link.pageSize < 2 ^ 16 := by
  rw [Link.placeOf, FixupPlace.address]
  dsimp only
  generalize index : (fixUpAddr - startAddr).toNat / link.pageSize % 2 ^ 32 = pageIndex
  generalize rest : fixUpAddr - (startAddr + BitVec.ofNat 64 (pageIndex * link.pageSize)) = pageOffset
  have small : (pageOffset.setWidth 16).setWidth 64 = pageOffset ↔ pageOffset.toNat < 2 ^ 16 := by
    constructor
    · intro same
      rw [← same, BitVec.toNat_setWidth, BitVec.toNat_setWidth]
      omega
    · exact setWidth_setWidth_of_small
  have whole : startAddr + BitVec.ofNat 64 (pageIndex * link.pageSize) + (pageOffset.setWidth 16).setWidth 64
      = fixUpAddr ↔ (pageOffset.setWidth 16).setWidth 64 = pageOffset := by
    rw [← rest, BitVec.eq_sub_iff_add_eq, BitVec.add_comm]
  have inside : pageIndex * link.pageSize ≤ (fixUpAddr - startAddr).toNat := by
    rw [← index]
    exact le_trans (Nat.mul_le_mul_right _ (Nat.mod_le _ _)) (Nat.div_mul_le_self _ _)
  have value : pageOffset.toNat = (fixUpAddr - startAddr).toNat - pageIndex * link.pageSize := by
    have below := lt_of_le_of_lt inside (fixUpAddr - startAddr).isLt
    have start : (BitVec.ofNat 64 (pageIndex * link.pageSize)).toNat = pageIndex * link.pageSize := by
      rw [BitVec.toNat_ofNat, Nat.mod_eq_of_lt below]
    rw [← rest, ← BitVec.sub_sub, BitVec.toNat_sub_of_le (by rwa [BitVec.le_def, start]), start]
  rw [whole, small, value, ← index]
  exact page_fits_iff _ _

end Regular

/-! ## Addends in the table -/

section Addends

variable {α : Type} {link : Link α}

/-- Authentication changes only where the addend of a bind is. -/
theorem needsBind_spec (link : Link α) (target : α) (address : BitVec 64) :
    ∃ addend : Option (BitVec 64), ∀ authPtr,
      link.needsBind target authPtr address = addend.map (link.bind (link.baseOfAlias target) authPtr) := by
  refine ⟨(link.needsBind target true address).map BindTarget.importAddend, fun authPtr => ?_⟩
  simp only [Link.needsBind]
  cases (link.atom (link.baseOfAlias target)).definition with
  | absolute => rfl
  | proxy | regular | tentative =>
    dsimp only
    repeat' (first | rfl | split)

theorem bind_target {base : α} {authPtr : Bool} {addend : BitVec 64} :
    (link.bind base authPtr addend).target = base := by
  rw [Link.bind]
  split <;> rfl

/-- The table has the same addend for a signed and an unsigned pointer exactly when the unsigned one
has none in itself. -/
theorem importAddend_alike_iff {base : α} {addend : BitVec 64} {signs signed : Bool} :
    (link.bind base signs addend).importAddend = (link.bind base signed addend).importAddend ↔
      (signs = signed ∨ (link.bind base false addend).inlineAddend = 0) := by
  have zero : 0#64 = addend ↔ addend = 0#64 := eq_comm
  cases signs <;> cases signed <;> cases fits : link.pointerFormat.addendFitsInline addend <;>
    simp [Link.bind, fits, zero]

end Addends

/-! ## Clusters with the same addend in both walks -/

section Same

variable {α : Type} [DecidableEq α] (link : Link α)

/-- A step that both walks count alike, after the address of `target` in the atom `self`. -/
def Setup.IsAddend (self target : α) : Setup α → Prop
  | .addAddend addend => ¬ ((link.atom target).isThumb = true ∧ target = self ∧ 0 < (addend.setWidth 32).toInt)
  | .subtractAddend _ | .setAuthData | .none => True
  | _ => False

/-- The sum of the addends. -/
def addends (setups : List (Setup α)) : BitVec 64 :=
  setups.foldr (fun setup sum =>
    match setup with
    | .addAddend addend => addend + sum
    | .subtractAddend addend => sum - addend
    | _ => sum) 0

/-- The address of a target, with addends that both walks count alike. -/
def FixupSite.PointsTo (site : FixupSite α) (target : α) (address : BitVec 64) : Prop :=
  match site.cluster.store with
  | .littleEndian32 | .littleEndian64 | .littleEndianAuth64 => ∃ before after,
      site.cluster.setups = before ++ .setTargetAddress target :: after ∧
        (∀ setup ∈ after, setup.IsAddend link site.atom.self target) ∧
        address = link.addressWithThumb target + addends after
  | .targetAddressLittleEndian32 a => a = target ∧ address = link.addressWithThumb target
  | .targetAddressLittleEndian64 a | .targetAddressLittleEndianAuth64 a =>
    a = target ∧ address = (link.atom target).finalAddress
  | .other _ _ => False

/-- Authentication data just when the pointer is signed, or no addend that an unsigned pointer has
in itself. -/
def FixupSite.SignsAlike (site : FixupSite α) (target : α) (address : BitVec 64) : Prop :=
  site.cluster.signs = site.signed link ∨
    ∀ bind, link.needsBind target false address = some bind → bind.inlineAddend = 0

def FixupSite.Usual (site : FixupSite α) : Prop :=
  ∃ target address, site.PointsTo link target address ∧ site.SignsAlike link target address

variable {link}

/-- After the address of a target both walks have the same accumulator and target. -/
theorem addends_alike {self target : α} {setups : List (Setup α)}
    (each : ∀ setup ∈ setups, setup.IsAddend link self target) {plan : PlanState α} {write : WriteState α}
    {address : BitVec 64} (planned : plan.accumulator = address) (written : write.accumulator = address)
    (sameTarget : write.toTarget = some target) (thumb : write.thumbTarget = (link.atom target).isThumb) :
    (setups.foldl (planSetup link) plan).accumulator = address + addends setups ∧
      (setups.foldl (writeSetup link self) write).accumulator = address + addends setups ∧
      lastOf Setup.names (some target) setups = some target ∧
      lastOf Setup.holds (some target) setups = some target := by
  induction setups generalizing plan write address with
  | nil => simp [addends, planned, written, lastOf]
  | cons setup rest ih =>
    have here := each setup List.mem_cons_self
    have others := fun other member => each other (List.mem_cons_of_mem _ member)
    rw [List.foldl_cons, List.foldl_cons, lastOf, lastOf, List.foldl_cons, List.foldl_cons, ← lastOf, ← lastOf]
    cases setup with
    | addAddend addend =>
      have outside : isInterior write self addend = false := by
        rw [Setup.IsAddend] at here
        rw [isInterior, sameTarget, thumb]
        simpa [and_assoc] using here
      have sum : addends (.addAddend addend :: rest) = addend + addends rest := rfl
      rw [sum, ← BitVec.add_assoc]
      refine ih others (by rw [planSetup, planned]) ?_ sameTarget thumb
      simp only [writeSetup, outside, clearThumb, written, Bool.false_eq_true, if_false]
    | subtractAddend addend =>
      have sum : address + addends (.subtractAddend addend :: rest) = address - addend + addends rest := by
        rw [show addends (.subtractAddend addend :: rest) = addends rest - addend from rfl]
        rw [BitVec.sub_eq_add_neg, BitVec.sub_eq_add_neg, BitVec.add_assoc, BitVec.add_comm (addends rest)]
      rw [sum]
      exact ih others (by rw [planSetup, planned]) (by rw [writeSetup, written]) sameTarget thumb
    | setAuthData | none => exact ih others planned written sameTarget thumb
    | _ => exact here.elim

/-- Such a pointer has the same target and accumulator in both walks. -/
theorem FixupSite.PointsTo.same {site : FixupSite α} {target : α} {address : BitVec 64}
    (points : site.PointsTo link target address) :
    (site.cluster.named = some target ∧ planAccumulator link site.cluster = address) ∧
      site.held = some target ∧ writeAccumulator link site = address := by
  rw [FixupSite.PointsTo] at points
  rw [Cluster.named, Cluster.pointerTo, planAccumulator, FixupSite.held, Cluster.pointerTo, writeAccumulator,
    FixupSite.ready, setupState]
  cases store : site.cluster.store with
  | littleEndian32 | littleEndian64 | littleEndianAuth64 =>
    rw [store] at points
    obtain ⟨before, after, setups, each, rfl⟩ := points
    rw [setups, lastOf_append, lastOf_append, List.foldl_append, List.foldl_append]
    obtain ⟨plans, writes, names, holds⟩ := @addends_alike α _ link site.atom.self target after each
      (planSetup link (before.foldl (planSetup link) .first) (.setTargetAddress target))
      (writeSetup link site.atom.self (before.foldl (writeSetup link site.atom.self)
        { site.before with isRelative := false }) (.setTargetAddress target)) _ rfl rfl rfl rfl
    exact ⟨⟨names, plans⟩, holds, writes⟩
  | targetAddressLittleEndian32 _ | targetAddressLittleEndian64 _ | targetAddressLittleEndianAuth64 _ =>
    rw [store] at points
    obtain ⟨rfl, rfl⟩ := points
    exact ⟨⟨rfl, rfl⟩, rfl, rfl⟩
  | other _ _ =>
    rw [store] at points
    exact points.elim

/-! ## The table -/

theorem ensureTarget_ordinal {binds : ChainedFixupBinds α} {atom target : α} {addend table : BitVec 64}
    {authPtr : Bool} :
    (binds.ensureTarget atom authPtr addend).ordinal target table ≠ none ↔
      binds.ordinal target table ≠ none ∨ (atom = target ∧ addend = table) := by
  by_cases new : binds.ordinal atom addend = none
  · obtain ⟨-, ordinals, -⟩ := @ensureTarget_new α _ binds atom addend authPtr new
    rw [ordinals]
    split
    · rename_i same
      simp [same]
    · rename_i other
      rw [or_iff_left fun same => other ⟨same.1.symm, same.2.symm⟩]
  · rw [ensureTarget_known new]
    refine ⟨.inl, ?_⟩
    rintro (known | ⟨rfl, rfl⟩)
    · exact known
    · exact new

theorem plannedBinds_ordinal {planned : List (List (Option (PlannedFixup α)))} {target : α}
    {addend : BitVec 64} :
    (plannedBinds planned).ordinal target addend ≠ none ↔
      ∃ fixup, some fixup ∈ planned.flatten ∧ ∃ bind, fixup.bind = some bind ∧
        bind.target = target ∧ bind.importAddend = addend := by
  have members : ∀ fixup, some fixup ∈ planned.flatten ↔ fixup ∈ planned.flatten.filterMap id := by
    simp
  simp only [members]
  rw [plannedBinds]
  generalize planned.flatten.filterMap id = fixups
  induction fixups using List.reverseRecOn with
  | nil => simp [ChainedFixupBinds.empty, ChainedFixupBinds.ordinal]
  | append_singleton fixups fixup ih =>
    rw [List.foldl_append, List.foldl_cons, List.foldl_nil]
    simp only [List.mem_append, List.mem_singleton, or_and_right, exists_or, exists_eq_left]
    cases bound : fixup.bind with
    | none =>
      exact ih.trans (by simp)
    | some bind =>
      exact ensureTarget_ordinal.trans ((or_congr_left ih).trans (by simp))

end Same

/-! ## Images -/

section Image

variable {α : Type} [DecidableEq α] (link : Link α)

/-- The bind that a cluster plans, and the one that it asks for. -/
def FixupSite.Registers (site : FixupSite α) (target : α) (addend : BitVec 64) : Prop :=
  ∃ fixup bind, site.plan link = .ok (some fixup) ∧ fixup.bind = some bind ∧ bind.target = target ∧
    bind.importAddend = addend

def FixupSite.Asks (site : FixupSite α) (target : α) (addend : BitVec 64) : Prop :=
  ∃ fixup bind, site.write link = .ok (some fixup) ∧ fixup.bind = some bind ∧ bind.target = target ∧
    bind.importAddend = addend

/-- A target that binds, whatever the address. -/
def Link.Binds (target : α) : Prop := ∃ authPtr address, link.needsBind target authPtr address ≠ none

/-- What both walks understand alike of where a pointer is. -/
structure FixupSite.Located (site : FixupSite α) : Prop where
  regular : site.Regular link
  page : site.cluster.IsPointer link →
    (site.atom.fixUpAddr link site.cluster - site.atom.segmentStart).toNat / link.pageSize < 2 ^ 32 ∧
      (site.atom.fixUpAddr link site.cluster - site.atom.segmentStart).toNat % link.pageSize < 2 ^ 16

structure Understood (image : List (AtomContent α)) : Prop where
  located : ∀ site ∈ sites link image, site.Located link
  usual : ∀ site ∈ sites link image, site.cluster.IsPointer link → ∀ target,
    site.held = some target → link.Binds target → site.Usual link

/-- No other pointer of the image is to the target. -/
def FixupSite.Alone (site : FixupSite α) (image : List (AtomContent α)) (target : α) : Prop :=
  ∀ other ∈ sites link image, ∀ a, other.cluster.named = some a →
    link.baseOfAlias a = link.baseOfAlias target → other = site

variable {link}

theorem FixupSite.Usual.registers {site : FixupSite α} (usual : site.Usual link) (regular : site.Regular link)
    {planned : Option (PlannedFixup α)} (isOk : site.plan link = .ok planned) {target : α}
    {addend : BitVec 64} (asks : site.Asks link target addend) : site.Registers link target addend := by
  obtain ⟨fixup, bind, writes, bound, rfl, rfl⟩ := asks
  obtain ⟨isWritten, from_⟩ := write_ok writes
  obtain ⟨pointsTo, held, needs⟩ := from_ fixup rfl
  obtain ⟨a, address, points, alike⟩ := usual
  obtain ⟨⟨named, planAddress⟩, sameHeld, writeAddress⟩ := points.same
  obtain rfl := Option.some.inj (sameHeld.symm.trans held)
  obtain ⟨isPlanned, plans⟩ := plan_ok isOk
  have pointer := pointer_iff_writes.mpr regular |>.mpr (isWritten.mp rfl)
  obtain ⟨planFixup, rfl⟩ := Option.isSome_iff_exists.mp (isPlanned.mpr pointer)
  obtain ⟨-, -, toTarget, sameNamed, planNeeds⟩ := plans planFixup rfl
  obtain rfl := Option.some.inj (named.symm.trans sameNamed)
  rw [planAddress] at planNeeds
  rw [writeAddress, bound] at needs
  obtain ⟨binds, both⟩ := needsBind_spec link a address
  rw [both] at planNeeds needs
  cases binds with
  | none => cases needs
  | some binds =>
    obtain rfl := Option.some.inj needs
    refine ⟨planFixup, _, isOk, planNeeds, by rw [bind_target, bind_target], ?_⟩
    exact importAddend_alike_iff.mpr (alike.imp id fun small => small _ (both false))

section Walks

variable {image : List (AtomContent α)} {planned : List (List (Option (PlannedFixup α)))}
variable {written : List (List (Option (WrittenFixup α)))}
variable (plans : buildChainedFixupInfo link image = .ok planned) (writes : writeAtoms link image = .ok written)

include plans writes

theorem located_of_agrees (agrees : Agrees link image planned written) :
    ∀ site ∈ sites link image, site.Located link := by
  intro site member
  obtain ⟨i, found⟩ := List.mem_iff_getElem?.mp member
  obtain ⟨fixup, plannedHere, plan⟩ := forall₂_getElem? (plan_sites plans) found
  obtain ⟨stored, writtenHere, write⟩ := forall₂_getElem? (write_sites writes) found
  refine ⟨?_, fun pointer => ?_⟩
  · have here := agrees.locations i
    rw [plannedHere, writtenHere] at here
    rw [← pointer_iff_writes, ← (plan_ok plan).1, ← (write_ok write).1]
    simpa [Option.isSome_iff_exists] using here
  · obtain ⟨isPlanned, plansTo⟩ := plan_ok plan
    obtain ⟨fixup, rfl⟩ := Option.isSome_iff_exists.mp (isPlanned.mpr pointer)
    have cluster : (clusters image)[i]? = some (site.atom, site.cluster) := by
      rw [← @map_sites α _ link image, List.getElem?_map, found]
      rfl
    rw [← placeOf_address_iff, ← (plansTo fixup rfl).1]
    exact agrees.places i _ _ fixup cluster plannedHere

/-- A number that is asked for is one that a cluster plans. -/
theorem registers_of_agrees (agrees : Agrees link image planned written) {site : FixupSite α}
    (member : site ∈ sites link image) {target : α} {addend : BitVec 64} (asks : site.Asks link target addend) :
    ∃ other ∈ sites link image, other.Registers link target addend := by
  obtain ⟨i, found⟩ := List.mem_iff_getElem?.mp member
  obtain ⟨fixup, bind, write, bound, rfl, rfl⟩ := asks
  obtain ⟨stored, writtenHere, same⟩ := forall₂_getElem? (write_sites writes) found
  obtain rfl := Except.ok.inj (write.symm.trans same)
  have known := agrees.lookups fixup (List.mem_of_getElem? writtenHere) bind bound
  obtain ⟨other, listed, otherBind, otherBound, sameTarget, sameAddend⟩ := plannedBinds_ordinal.mp known
  obtain ⟨j, plannedThere⟩ := List.mem_iff_getElem?.mp listed
  obtain ⟨otherSite, there, plan⟩ := forall₂_getElem? (plan_sites plans).flip plannedThere
  exact ⟨otherSite, List.mem_of_getElem? there, other, otherBind, plan, otherBound, sameTarget, sameAddend⟩

/-- The only pointer to a target has authentication data just when it is signed, or its addend is
in no pointer. -/
theorem signsAlike_of_agrees (agrees : Agrees link image planned written) {site : FixupSite α}
    (member : site ∈ sites link image) (pointer : site.cluster.IsPointer link) {target : α} {address : BitVec 64}
    (points : site.PointsTo link target address) (alone : site.Alone link image target) :
    site.SignsAlike link target address := by
  obtain ⟨⟨named, planAddress⟩, held, writeAddress⟩ := points.same
  obtain ⟨binds, both⟩ := needsBind_spec link target address
  refine or_iff_not_imp_left.mpr fun different bind unsigned => ?_
  rw [both, Option.map_eq_some_iff] at unsigned
  obtain ⟨addend, rfl, rfl⟩ := unsigned
  obtain ⟨i, found⟩ := List.mem_iff_getElem?.mp member
  obtain ⟨stored, -, write⟩ := forall₂_getElem? (write_sites writes) found
  obtain ⟨isWritten, from_⟩ := write_ok write
  have regular := (located_of_agrees plans writes agrees site member).regular
  obtain ⟨fixup, rfl⟩ := Option.isSome_iff_exists.mp
    (isWritten.mpr ((pointer_iff_writes.mpr regular).mp pointer))
  obtain ⟨a, sameHeld, needs⟩ := from_ fixup rfl
  obtain rfl := Option.some.inj (held.symm.trans sameHeld)
  rw [writeAddress, both] at needs
  obtain ⟨other, there, planFixup, planBind, plan, planBound, sameTarget, sameAddend⟩ :=
    registers_of_agrees plans writes agrees member ⟨fixup, _, write, needs, rfl, rfl⟩
  obtain ⟨-, -, plansTo⟩ := (plan_ok plan).2 planFixup rfl
  obtain ⟨otherTarget, otherNamed, otherNeeds⟩ := plansTo
  obtain ⟨otherBinds, otherBoth⟩ := needsBind_spec link otherTarget (planAccumulator link other.cluster)
  obtain ⟨otherAddend, -, rfl⟩ := Option.map_eq_some_iff.mp ((otherBoth _).symm.trans (otherNeeds.symm.trans planBound))
  rw [bind_target, bind_target] at sameTarget
  obtain rfl := alone other there otherTarget otherNamed sameTarget
  obtain rfl := Option.some.inj (named.symm.trans otherNamed)
  rw [planAddress, both, planBound] at otherNeeds
  rw [Option.some.inj otherNeeds] at sameAddend
  exact (importAddend_alike_iff.mp sameAddend).resolve_left different

theorem agrees_of_understood (understood : Understood link image) : Agrees link image planned written := by
  have planAt := fun {i : Nat} {site} => forall₂_getElem? (plan_sites plans) (i := i) (x := site)
  have writeAt := fun {i : Nat} {site} => forall₂_getElem? (write_sites writes) (i := i) (x := site)
  have planFrom := fun {i : Nat} {fixup} => forall₂_getElem? (plan_sites plans).flip (i := i) (x := fixup)
  have writeFrom := fun {i : Nat} {fixup} => forall₂_getElem? (write_sites writes).flip (i := i) (x := fixup)
  refine ⟨fun i atom cluster fixup found plannedHere => ?_, fun i => ?_, fun fixup listed bind bound => ?_⟩
  · obtain ⟨site, there, plan⟩ := planFrom plannedHere
    obtain ⟨isPlanned, plansTo⟩ := plan_ok plan
    have same : (site.atom, site.cluster) = (atom, cluster) := by
      rw [← @map_sites α _ link image, List.getElem?_map, there] at found
      exact Option.some.inj found
    obtain ⟨rfl, rfl⟩ := Prod.mk.inj same
    rw [(plansTo fixup rfl).1, placeOf_address_iff]
    exact (understood.located site (List.mem_of_getElem? there)).page (isPlanned.mp rfl)
  · have alike : ∀ site, (sites link image)[i]? = some site → ∀ {fixup stored},
        site.plan link = .ok fixup → site.write link = .ok stored → (fixup.isSome ↔ stored.isSome) := by
      intro site there fixup stored plan write
      rw [(plan_ok plan).1, (write_ok write).1]
      exact pointer_iff_writes.mpr (understood.located site (List.mem_of_getElem? there)).regular
    constructor
    · rintro ⟨fixup, plannedHere⟩
      obtain ⟨site, there, plan⟩ := planFrom plannedHere
      obtain ⟨stored, writtenHere, write⟩ := writeAt there
      obtain ⟨stored, rfl⟩ := Option.isSome_iff_exists.mp ((alike site there plan write).mp rfl)
      exact ⟨stored, writtenHere⟩
    · rintro ⟨stored, writtenHere⟩
      obtain ⟨site, there, write⟩ := writeFrom writtenHere
      obtain ⟨fixup, plannedHere, plan⟩ := planAt there
      obtain ⟨fixup, rfl⟩ := Option.isSome_iff_exists.mp ((alike site there plan write).mpr rfl)
      exact ⟨fixup, plannedHere⟩
  · obtain ⟨i, writtenHere⟩ := List.mem_iff_getElem?.mp listed
    obtain ⟨site, there, write⟩ := writeFrom writtenHere
    obtain ⟨fixupPlan, -, plan⟩ := planAt there
    have member := List.mem_of_getElem? there
    have asks : site.Asks link bind.target bind.importAddend := ⟨fixup, bind, write, bound, rfl, rfl⟩
    have regular := (understood.located site member).regular
    obtain ⟨isWritten, from_⟩ := write_ok write
    obtain ⟨target, held, needs⟩ := from_ fixup rfl
    have pointer := (pointer_iff_writes.mpr regular).mpr (isWritten.mp rfl)
    have binds : link.Binds target := ⟨_, _, by rw [← needs, bound]; exact Option.some_ne_none bind⟩
    obtain ⟨planned', otherBind, planToo, otherBound, sameTarget, sameAddend⟩ :=
      (understood.usual site member pointer target held binds).registers regular plan asks
    obtain ⟨j, found⟩ := List.mem_iff_getElem?.mp member
    obtain ⟨fixupThere, plannedThere, samePlan⟩ := planAt found
    obtain rfl := Except.ok.inj (planToo.symm.trans samePlan)
    rw [plannedBinds_ordinal]
    exact ⟨planned', List.mem_of_getElem? plannedThere, otherBind, otherBound, sameTarget, sameAddend⟩

end Walks

/-- **The plan is what is written when the clusters keep to what both walks understand alike**, and
only when they do so in where the pointers are and, for a pointer that is alone with its target, in
whether it is signed. -/
theorem buildChainedFixupInfo_agrees {image : List (AtomContent α)}
    {planned : List (List (Option (PlannedFixup α)))} {written : List (List (Option (WrittenFixup α)))}
    (plans : buildChainedFixupInfo link image = .ok planned) (writes : writeAtoms link image = .ok written) :
    (Understood link image → Agrees link image planned written) ∧
      (Agrees link image planned written → ∀ site ∈ sites link image, site.Located link ∧
        (site.cluster.IsPointer link → ∀ target address, site.PointsTo link target address →
          site.Alone link image target → site.SignsAlike link target address)) :=
  ⟨agrees_of_understood plans writes, fun agrees site member => ⟨located_of_agrees plans writes agrees site member,
    fun pointer _ _ points alone => signsAlike_of_agrees plans writes agrees member pointer points alone⟩⟩

end Image

/-! ## Authenticated pointers -/

/-- A signed pointer of an arm64e program: `true` is an absolute symbol, `false` the atom of the
pointer itself. -/
def signedLink : Link Bool where
  atom absolute := if absolute then ⟨.absolute, true, false, false, false, 0x42⟩
    else ⟨.regular, false, false, false, false, 0x100004000⟩
  followOns _ := []
  pointerFormat := .arm64eUserland24
  pageSize := 0x4000
  dyldLoadsOutput := true
  dyldOrKernelLoadsOutput := true
  dynamicExecutable := true
  twoLevelNameSpace := true
  interposable _ := false
  forceCoalesce _ := false
  supportsAuthenticatedPointers := true
  mhAddress := 0x100000000

def signedImage (target : Bool) : List (AtomContent Bool) :=
  [⟨false, .other, false, false, 0x100004000, [⟨0, [.setAuthData], .targetAddressLittleEndianAuth64 target⟩]⟩]

theorem buildChainedFixupInfo_agrees_signed :
    Agrees signedLink (signedImage false) [[some ⟨⟨0x100004000, 0, 0⟩, true, none⟩]] [[some ⟨none⟩]] := by
  refine (buildChainedFixupInfo_agrees rfl rfl).1 ⟨fun site member => ⟨?_, fun _ => ?_⟩, ?_⟩
  · obtain rfl := List.mem_singleton.mp member
    exact pointer_iff_writes.mp ⟨fun _ => ⟨rfl, trivial⟩, fun _ => ⟨rfl, false, rfl, rfl⟩⟩
  · obtain rfl := List.mem_singleton.mp member
    decide
  · intro site member _ _ _ _
    obtain rfl := List.mem_singleton.mp member
    exact ⟨false, 0x100004000, ⟨rfl, rfl⟩, .inl rfl⟩

/-- A signed pointer to an absolute symbol is not planned, but written into a chain. -/
theorem authenticated_absolute_disagrees :
    buildChainedFixupInfo signedLink (signedImage true) = .ok [[none]] ∧
      writeAtoms signedLink (signedImage true) = .ok [[some ⟨none⟩]] ∧
      ¬ Agrees signedLink (signedImage true) [[none]] [[some ⟨none⟩]] := by
  refine ⟨rfl, rfl, fun agrees => ?_⟩
  obtain ⟨fixup, plannedHere⟩ := (agrees.locations 0).mpr ⟨⟨none⟩, rfl⟩
  cases plannedHere

end Cctools.OutputFile
