/-
# Cctools.DeadStrip.LeastLive -- the live atoms and the needed ones

`Needed` is the least set with the roots, what its members refer to by a kind that
`markLive` follows, and the atoms that are to be live if they refer to a member.

Everything live is needed (`needed_of_live`).  The other way round something can be
missed, because the list of those atoms is gone through once: an atom whose turn comes
before that of the one that makes its reference live (`NonePassedOver` says that there
is none).  `TakesEffect` are the atoms of the list that refer to something live in
their turn.  `liveAtoms_least` puts it together, with what is kept.
-/
import Cctools.DeadStrip.MarkLive

namespace Cctools.DeadStrip

set_option autoImplicit false

open Relation Cctools.Theory

section Needed

variable {α : Type} (opts : Options) (resolver : Resolver α) (force : Bool)

/-- What should be live. -/
inductive Needed : α → Prop where
  | root {atom : α} (root : atom ∈ forEachDeadStripRoot opts resolver force) : Needed atom
  | reference {atom target : α} (needed : Needed atom) (refers : target ∈ resolver.followed atom) :
      Needed target
  | ifReferencesLive {atom target : α} (listed : atom ∈ liveIfReferencesLive opts resolver force)
      (refers : target ∈ resolver.boundReferences atom) (needed : Needed target) : Needed atom

/-- `markLive` gets from one to the other. -/
def Follows : α → α → Prop := ReflTransGen (Edge resolver.followed)

/-- The atoms of the list, by their places, that are marked in their turn at the latest: they refer
to what the roots lead to, or what an earlier one of them does. -/
inductive TakesEffect : Nat → Prop where
  | root {i : Nat} {atom root target : α}
      (listed : (liveIfReferencesLive opts resolver force)[i]? = some atom)
      (refers : target ∈ resolver.boundReferences atom)
      (member : root ∈ forEachDeadStripRoot opts resolver force)
      (follows : Follows resolver root target) : TakesEffect i
  | later {i j : Nat} {atom earlier target : α}
      (listed : (liveIfReferencesLive opts resolver force)[i]? = some atom)
      (refers : target ∈ resolver.boundReferences atom) (before : j < i)
      (takesEffect : TakesEffect j)
      (there : (liveIfReferencesLive opts resolver force)[j]? = some earlier)
      (follows : Follows resolver earlier target) : TakesEffect i

/-- What is marked on account of the roots and the first `n` atoms of the list. -/
def ReachedBy (n : Nat) (atom : α) : Prop :=
  (∃ root ∈ forEachDeadStripRoot opts resolver force, Follows resolver root atom) ∨
    ∃ j < n, TakesEffect opts resolver force j ∧
      ∃ earlier, (liveIfReferencesLive opts resolver force)[j]? = some earlier ∧
        Follows resolver earlier atom

/-- Where an atom of the list refers to what a later one that takes effect leads to, it is led to all
the same. -/
def NonePassedOver : Prop :=
  ∀ (i j : Nat) (atom later target : α), i < j →
    (liveIfReferencesLive opts resolver force)[i]? = some atom →
      (liveIfReferencesLive opts resolver force)[j]? = some later →
        TakesEffect opts resolver force j → target ∈ resolver.boundReferences atom →
          Follows resolver later target →
            ReachedBy opts resolver force (liveIfReferencesLive opts resolver force).length atom

end Needed

/-! ## Marking -/

section Marking

variable {α : Type} [DecidableEq α] [Fintype α] {opts : Options} {resolver : Resolver α} {force : Bool}

variable {live : Finset α}

/-- Marking from a set that is closed adds what can be reached. -/
theorem markLive_iff (closed : Closed resolver.followed live) (atom : α) :
    Closed resolver.followed (markLive resolver live atom) ∧
      ∀ other, other ∈ markLive resolver live atom ↔ other ∈ live ∨ Follows resolver atom other := by
  have enough : (Finset.univ \ live).card < Fintype.card α + 1 :=
    Nat.lt_succ_of_le (Finset.card_le_univ _)
  obtain ⟨after, done⟩ := @visit_isSome _ _ _ resolver.followed _ atom _ enough
  have all : visitAll resolver.followed (Fintype.card α + 1) live [atom] = some after := by
    rw [visitAll, List.foldlM_cons, done]
    rfl
  obtain ⟨whole, members⟩ := visitAll_iff closed all
  have is : markLive resolver live atom = after := by rw [markLive, done, Option.getD_some]
  rw [is]
  refine ⟨whole, fun other => (members other).trans ?_⟩
  simp [Follows]

theorem markRoots_iff (closed : Closed resolver.followed live) (roots : List α) :
    Closed resolver.followed (roots.foldl (markLive resolver) live) ∧
      ∀ other, other ∈ roots.foldl (markLive resolver) live ↔
        other ∈ live ∨ ∃ root ∈ roots, Follows resolver root other := by
  induction roots generalizing live with
  | nil => simp [closed]
  | cons root rest ih =>
    obtain ⟨whole, members⟩ := markLive_iff closed root
    obtain ⟨final, more⟩ := ih whole
    refine ⟨final, fun other => ?_⟩
    rw [List.foldl_cons, more, members]
    simp [or_assoc]

omit [DecidableEq α] [Fintype α] in
theorem takesEffect_iff {i : Nat} {atom : α}
    (listed : (liveIfReferencesLive opts resolver force)[i]? = some atom) :
    TakesEffect opts resolver force i ↔
      ∃ target ∈ resolver.boundReferences atom, ReachedBy opts resolver force i target := by
  constructor
  · rintro (⟨listed', refers, member, follows⟩ | ⟨listed', refers, before, takesEffect, there, follows⟩)
    · rw [listed] at listed'
      cases listed'
      exact ⟨_, refers, .inl ⟨_, member, follows⟩⟩
    · rw [listed] at listed'
      cases listed'
      exact ⟨_, refers, .inr ⟨_, before, takesEffect, _, there, follows⟩⟩
  · rintro ⟨target, refers, ⟨root, member, follows⟩ | ⟨j, before, takesEffect, earlier, there, follows⟩⟩
    · exact .root listed refers member follows
    · exact .later listed refers before takesEffect there follows

omit [DecidableEq α] [Fintype α] in
theorem reachedBy_succ {n : Nat} {atom : α}
    (listed : (liveIfReferencesLive opts resolver force)[n]? = some atom) (other : α) :
    ReachedBy opts resolver force (n + 1) other ↔ ReachedBy opts resolver force n other ∨
      TakesEffect opts resolver force n ∧ Follows resolver atom other := by
  constructor
  · rintro (roots | ⟨j, before, takesEffect, earlier, there, follows⟩)
    · exact .inl (.inl roots)
    · obtain less | rfl := Nat.lt_or_eq_of_le (Nat.le_of_lt_succ before)
      · exact .inl (.inr ⟨j, less, takesEffect, earlier, there, follows⟩)
      · rw [listed] at there
        cases there
        exact .inr ⟨takesEffect, follows⟩
  · rintro ((roots | ⟨j, before, rest⟩) | ⟨takesEffect, follows⟩)
    · exact .inl roots
    · exact .inr ⟨j, Nat.lt_succ_of_lt before, rest⟩
    · exact .inr ⟨n, Nat.lt_succ_self n, takesEffect, atom, listed, follows⟩

omit [DecidableEq α] [Fintype α] in
theorem Follows.closed (closed : Closed resolver.followed live) {atom other : α}
    (member : atom ∈ live) (follows : Follows resolver atom other) : other ∈ live := by
  induction follows with
  | refl => exact member
  | tail _ along ih => exact closed _ ih _ along

/-- **One turn of the second loop.** -/
theorem markIfReferencesLive_iff {n : Nat} {atom : α} (closed : Closed resolver.followed live)
    (members : ∀ other, other ∈ live ↔ ReachedBy opts resolver force n other)
    (listed : (liveIfReferencesLive opts resolver force)[n]? = some atom) :
    Closed resolver.followed (markIfReferencesLive resolver live atom) ∧
      ∀ other, other ∈ markIfReferencesLive resolver live atom ↔
        ReachedBy opts resolver force (n + 1) other := by
  have effect : atomHasLiveRef resolver live atom = true ↔ TakesEffect opts resolver force n := by
    rw [takesEffect_iff listed, atomHasLiveRef, List.any_eq_true]
    simp only [decide_eq_true_eq, members]
  rw [markIfReferencesLive]
  split
  · rename_i already
    refine ⟨closed, fun other => ?_⟩
    rw [reachedBy_succ listed, ← members]
    exact ⟨.inl, fun either => either.elim id fun ⟨_, follows⟩ => follows.closed closed already⟩
  · split
    · rename_i hasLiveRef
      obtain ⟨whole, marked⟩ := markLive_iff closed atom
      refine ⟨whole, fun other => ?_⟩
      rw [marked, reachedBy_succ listed, ← members]
      simp only [effect.mp hasLiveRef, true_and]
    · rename_i noLiveRef
      refine ⟨closed, fun other => ?_⟩
      rw [reachedBy_succ listed, ← members]
      simp only [mt effect.mpr noLiveRef, false_and, or_false]

theorem secondLoop_iff (n : Nat) :
    Closed resolver.followed (((liveIfReferencesLive opts resolver force).take n).foldl
        (markIfReferencesLive resolver)
        ((forEachDeadStripRoot opts resolver force).foldl (markLive resolver) ∅)) ∧
      ∀ other, other ∈ ((liveIfReferencesLive opts resolver force).take n).foldl
          (markIfReferencesLive resolver)
          ((forEachDeadStripRoot opts resolver force).foldl (markLive resolver) ∅) ↔
        ReachedBy opts resolver force (min n (liveIfReferencesLive opts resolver force).length)
          other := by
  induction n with
  | zero =>
    have nothing : Closed resolver.followed (∅ : Finset α) := fun _ member => by simp at member
    obtain ⟨closed, members⟩ :=
      markRoots_iff nothing (forEachDeadStripRoot opts resolver force)
    refine ⟨closed, fun other => (members other).trans ?_⟩
    simp [ReachedBy]
  | succ n ih =>
    by_cases inside : n < (liveIfReferencesLive opts resolver force).length
    · have listed := List.getElem?_eq_getElem inside
      rw [List.take_succ_eq_append_getElem inside, List.foldl_append]
      rw [Nat.min_eq_left (Nat.le_of_lt inside)] at ih
      rw [Nat.min_eq_left inside]
      exact markIfReferencesLive_iff ih.1 ih.2 listed
    · rw [List.take_of_length_le (by omega)] at ih ⊢
      rw [Nat.min_eq_right (by omega)] at ih ⊢
      exact ih

/-- **The live atoms** are those the roots or an atom of the list that takes effect lead to. -/
theorem mem_liveAtoms (atom : α) : atom ∈ liveAtoms opts resolver force ↔
    ReachedBy opts resolver force (liveIfReferencesLive opts resolver force).length atom := by
  have all := (@secondLoop_iff _ _ _ opts resolver force
    (liveIfReferencesLive opts resolver force).length).2 atom
  rwa [List.take_length, Nat.min_self] at all

theorem liveAtoms_closed : Closed resolver.followed (liveAtoms opts resolver force) := by
  have all := (@secondLoop_iff _ _ _ opts resolver force
    (liveIfReferencesLive opts resolver force).length).1
  rwa [List.take_length] at all

end Marking

/-! ## Needed atoms -/

section Least

variable {α : Type} {opts : Options} {resolver : Resolver α} {force : Bool}

theorem Needed.follows {atom other : α} (needed : Needed opts resolver force atom)
    (follows : Follows resolver atom other) : Needed opts resolver force other := by
  induction follows with
  | refl => exact needed
  | tail _ along ih => exact .reference ih along

variable {atom : α}

theorem TakesEffect.needed {i : Nat} (takesEffect : TakesEffect opts resolver force i)
    (listed : (liveIfReferencesLive opts resolver force)[i]? = some atom) :
    Needed opts resolver force atom := by
  induction takesEffect generalizing atom with
  | root listed' refers member follows =>
    rw [listed] at listed'
    cases listed'
    exact .ifReferencesLive (List.mem_of_getElem? listed) refers
      ((Needed.root member).follows follows)
  | later listed' refers _ _ there follows ih =>
    rw [listed] at listed'
    cases listed'
    exact .ifReferencesLive (List.mem_of_getElem? listed) refers
      ((ih there).follows follows)

theorem ReachedBy.needed {n : Nat} (reached : ReachedBy opts resolver force n atom) :
    Needed opts resolver force atom := by
  obtain ⟨root, member, follows⟩ | ⟨j, _, takesEffect, earlier, there, follows⟩ := reached
  · exact (Needed.root member).follows follows
  · exact (takesEffect.needed there).follows follows

variable [DecidableEq α] [Fintype α]

theorem needed_of_live (live : atom ∈ liveAtoms opts resolver force) :
    Needed opts resolver force atom :=
  ((mem_liveAtoms atom).mp live).needed

omit [DecidableEq α] [Fintype α] in
/-- **What is needed is led to**, where no atom of the list is passed over. -/
theorem reachedBy_of_needed (none_ : NonePassedOver opts resolver force)
    (needed : Needed opts resolver force atom) :
    ReachedBy opts resolver force (liveIfReferencesLive opts resolver force).length atom := by
  induction needed with
  | root member => exact .inl ⟨_, member, .refl⟩
  | reference _ refers ih =>
    obtain ⟨root, member, follows⟩ | ⟨j, inside, takesEffect, earlier, there, follows⟩ := ih
    · exact .inl ⟨root, member, follows.tail refers⟩
    · exact .inr ⟨j, inside, takesEffect, earlier, there, follows.tail refers⟩
  | @ifReferencesLive atom target among refers _ ih =>
    obtain ⟨i, listed⟩ := List.mem_iff_getElem?.mp among
    have place := (List.getElem?_eq_some_iff.mp listed).1
    have led := fun takesEffect : TakesEffect opts resolver force i =>
      (.inr ⟨i, place, takesEffect, atom, listed, .refl⟩ :
        ReachedBy opts resolver force (liveIfReferencesLive opts resolver force).length atom)
    obtain ⟨root, member, follows⟩ | ⟨j, _, takesEffect, other, there, follows⟩ := ih
    · exact led (.root listed refers member follows)
    · obtain before | rfl | behind := Nat.lt_trichotomy j i
      · exact led (.later listed refers before takesEffect there follows)
      · exact led takesEffect
      · exact none_ i j atom other target behind listed there takesEffect refers follows

theorem live_iff_needed (none_ : NonePassedOver opts resolver force) (atom : α) :
    atom ∈ liveAtoms opts resolver force ↔ Needed opts resolver force atom :=
  ⟨needed_of_live, fun needed => (mem_liveAtoms atom).mpr (reachedBy_of_needed none_ needed)⟩

end Least

/-! ## What is kept -/

section Kept

variable {α : Type} {opts : Options} {resolver : Resolver α} {force : Bool}

/-- The needed atoms do not depend on the order of the list. -/
theorem Needed.perm {atoms : List α} (same : atoms.Perm resolver.atoms) {atom : α}
    (needed : Needed opts resolver force atom) :
    Needed opts { resolver with atoms := atoms } force atom := by
  induction needed with
  | root member =>
    refine .root ?_
    rw [forEachDeadStripRoot, List.mem_append] at member ⊢
    exact member.imp_right fun among => (same.symm.filter _).subset among
  | reference _ refers ih => exact .reference ih refers
  | ifReferencesLive listed refers _ ih =>
    exact .ifReferencesLive ((same.symm.filter _).subset listed) refers ih

variable [DecidableEq α] [Fintype α]

/-- **The order does not matter** among those in which no atom of the list is passed over. -/
theorem liveAtoms_perm {atoms : List α} (same : atoms.Perm resolver.atoms)
    (one : NonePassedOver opts resolver force)
    (other : NonePassedOver opts { resolver with atoms := atoms } force) :
    liveAtoms opts resolver force = liveAtoms opts { resolver with atoms := atoms } force := by
  ext atom
  rw [live_iff_needed one, live_iff_needed other]
  exact ⟨fun needed => needed.perm same, fun needed => needed.perm same.symm⟩

/-- In the last run, what is kept is live: only atoms that were coalesced away, and the stand-in of
the code generator, are kept without being marked. -/
theorem live_of_kept (strips : opts.deadCodeStrip = true)
    (last : resolver.haveLLVMObjs = false ∨ force = true) {atom : α}
    (kept : atom ∈ deadStripOptimize opts resolver force)
    (present : (resolver.atom atom).coalescedAway = false)
    (import_ : (force && (resolver.atom atom).isLTOtemporary &&
      (resolver.atom atom).name = "import-atom") = false) :
    atom ∈ liveAtoms opts resolver force := by
  rw [deadStripOptimize, if_neg (by simp [strips])] at kept
  obtain ⟨listed, why⟩ := List.mem_filter.mp kept
  have combinable : (resolver.haveLLVMObjs && !force) = false := by
    obtain none_ | second := last
    · rw [none_, Bool.false_and]
    · rw [second]
      simp
  simp only [combinable, Bool.false_and, Bool.or_false, Bool.or_eq_true, decide_eq_true_eq] at why
  obtain live | dontDeadStrip := why
  · exact live
  · have root : atomIsDeadStripRoot opts resolver force (resolver.atom atom) = true := by
      rw [atomIsDeadStripRoot, if_neg (by simp [import_]), if_pos dontDeadStrip]
    refine (mem_liveAtoms atom).mpr (.inl ⟨atom, ?_, .refl⟩)
    rw [forEachDeadStripRoot, List.mem_append]
    exact .inr (List.mem_filter.mpr ⟨listed, by simp [present, root]⟩)

/-- **No reference to a removed atom is kept** in the last run, of the kinds that are followed. -/
theorem references_kept (strips : opts.deadCodeStrip = true)
    (last : resolver.haveLLVMObjs = false ∨ force = true) {atom target : α}
    (kept : atom ∈ deadStripOptimize opts resolver force)
    (present : (resolver.atom atom).coalescedAway = false)
    (import_ : (force && (resolver.atom atom).isLTOtemporary &&
      (resolver.atom atom).name = "import-atom") = false)
    (refers : target ∈ resolver.followed atom) (there : target ∈ resolver.atoms) :
    target ∈ deadStripOptimize opts resolver force := by
  have live : target ∈ liveAtoms opts resolver force :=
    liveAtoms_closed atom (live_of_kept strips last kept present import_) target refers
  rw [deadStripOptimize, if_neg (by simp [strips])]
  apply List.mem_filter.mpr
  exact ⟨there, by simp [live]⟩

theorem kept_of_live (strips : opts.deadCodeStrip = true) {atom : α}
    (live : atom ∈ liveAtoms opts resolver force) (there : atom ∈ resolver.atoms) :
    atom ∈ deadStripOptimize opts resolver force := by
  rw [deadStripOptimize, if_neg (by simp [strips])]
  exact List.mem_filter.mpr ⟨there, by simp [live]⟩

end Kept

/-! ## An order in which once is not enough -/

/-- `1` refers to `2` and is to be live if that is; `2` refers to `0`, a root, and likewise. -/
def chained : Resolver (Fin 3) where
  atom i := ⟨"", false, false, .combineNever, i = 0, i ≠ 0, false, false,
    if i = 0 then [] else [⟨.kindSetTargetAddress, .bindingDirectlyBound (if i = 1 then 2 else 0)⟩]⟩
  atoms := [0, 1, 2]
  indirectBindingTable _ := none
  entryPoint := none
  initialUndefines := []
  classicBindingHelper := none
  compressedFastBinderProxy := none
  lazyBindingHelper := none
  objcMsgSendProxy := none
  haveLLVMObjs := false

theorem references_kept_chained :
    0 ∈ deadStripOptimize ⟨true, false, false, fun _ => true⟩ chained false :=
  @references_kept _ _ chained _ _ _ rfl (.inl rfl) 2 0 (by decide) rfl rfl (by decide) (by decide)

/-- `0` is a root and refers to `1` by a kind that is not followed; `2`, which the code generator may
bring back, refers to `1` as well. -/
def combinable : Resolver (Fin 3) where
  atom i := ⟨"", false, false, if i = 2 then .combineByNameAndContent else .combineNever, i = 0, false,
    false, false, if i = 1 then []
      else [⟨if i = 0 then .other 0 else .kindSetTargetAddress, .bindingDirectlyBound 1⟩]⟩
  atoms := [0, 1, 2]
  indirectBindingTable _ := none
  entryPoint := none
  initialUndefines := []
  classicBindingHelper := none
  compressedFastBinderProxy := none
  lazyBindingHelper := none
  objcMsgSendProxy := none
  haveLLVMObjs := true

end Cctools.DeadStrip
