/-
# Cctools.Resolver.PickOrder -- when the order of the atoms does not matter

Among regular, tentative and proxy atoms the pick follows a ranking.  Absolute atoms are
compared by ordinal with regular ones, lower first, while regular ones prefer the higher
ordinal; and a tentative atom is compared by ordinal with an absolute one only when it
comes second.

`addAll_same_iff`: all orders end with the same atom if and only if there is no absolute
atom, or one comes before all that could replace it, or the best regular atom comes before
all absolute ones.
-/
import Cctools.Resolver.SymbolTable
import Cctools.Theory.Knockout
import Mathlib.Data.Prod.Lex
import Mathlib.Data.List.Induction
import Mathlib.Data.Finset.Max

namespace Cctools.Resolver

set_option autoImplicit false

open Cctools.Theory

/-! ## The ranking -/

/-- All that the picker compares of two atoms is the same. -/
def Tied (a b : Atom) : Prop :=
  match a.definition, b.definition with
  | .regular, .regular =>
    (a.combine = .byName ∧ b.combine = .byName ∧ a.isLTO = b.isLTO ∧ a.autoHide = b.autoHide ∧
      (a.autoHide = true ∨ a.scope = b.scope) ∧ a.alignment.trailingZeros = b.alignment.trailingZeros) ∨
    (a.combine = .never ∧ b.combine = .never ∧ a.sectionType = .machHeader ∧ b.sectionType = .machHeader)
  | .tentative, .tentative => a.size = b.size ∧ a.ordinal = b.ordinal
  | .absolute, .absolute => a.ordinal = b.ordinal
  | .proxy, .proxy => a.combine = .byName ∧ b.combine = .byName
  | _, _ => False

def weakRank (atom : Atom) : ℕ ×ₗ ℕ ×ₗ ℕ ×ₗ ℕ :=
  toLex (if atom.isLTO then 0 else 1, toLex (if atom.autoHide then 0 else 1,
    toLex (if atom.autoHide then 0 else if atom.scope = .global then 1 else 0, atom.alignment.trailingZeros)))

def regularRank (atom : Atom) : ℕ ×ₗ ℕ ×ₗ ℕ ×ₗ ℕ ×ₗ ℕ :=
  match atom.combine with
  | .byName => toLex (0, weakRank atom)
  | .never =>
    if atom.sectionType = .machHeader then toLex (2, toLex (0, toLex (0, toLex (0, 0))))
    else toLex (1, toLex (atom.ordinal, toLex (0, toLex (0, 0))))

theorem pickBetweenWeakAtoms_of_lt {a b : Atom} (sharedA : a.scope ≠ .translationUnit)
    (sharedB : b.scope ≠ .translationUnit) (lower : weakRank b < weakRank a) :
    pickBetweenWeakAtoms a b = .atomA ∧ pickBetweenWeakAtoms b a = .atomB := by
  simp only [weakRank, Prod.Lex.toLex_lt_toLex] at lower
  unfold pickBetweenWeakAtoms pickGreaterAlignment
  cases ltoA : a.isLTO <;> cases ltoB : b.isLTO <;> cases hideA : a.autoHide <;> cases hideB : b.autoHide <;>
    cases scopeA : a.scope <;> cases scopeB : b.scope <;>
    simp_all [pickAOrB] <;> omega

/-- Duplicates are a warning or allowed. -/
def Treatment.Lenient (duplicates : Treatment) : Prop := duplicates = .warning ∨ duplicates = .suppress

theorem pickBetweenStrongAtoms_lenient {duplicates : Treatment} (lenient : duplicates.Lenient) {a b : Atom}
    (notHeaderA : a.sectionType ≠ .machHeader) (notHeaderB : b.sectionType ≠ .machHeader) :
    (pickBetweenStrongAtoms duplicates a b).chosen = pickLowerOrdinal a b := by
  rcases lenient with rfl | rfl <;> simp [pickBetweenStrongAtoms, notHeaderA, notHeaderB]

theorem pickBetweenRegularAtoms_of_lt {duplicates : Treatment} (lenient : duplicates.Lenient) {a b : Atom}
    (sharedA : a.scope ≠ .translationUnit) (sharedB : b.scope ≠ .translationUnit)
    (lower : regularRank b < regularRank a) :
    (pickBetweenRegularAtoms duplicates a b).chosen = .atomA ∧
      (pickBetweenRegularAtoms duplicates b a).chosen = .atomB := by
  unfold regularRank at lower
  unfold pickBetweenRegularAtoms
  cases combineA : a.combine <;> cases combineB : b.combine <;> simp only [combineA, combineB] at lower ⊢
  · by_cases headerA : a.sectionType = .machHeader
    · have notHeaderB : b.sectionType ≠ .machHeader := by
        intro headerB
        simp [headerA, headerB] at lower
      simp [pickBetweenStrongAtoms, headerA, notHeaderB]
    · have notHeaderB : b.sectionType ≠ .machHeader := by
        intro headerB
        simp [headerA, headerB, Prod.Lex.toLex_lt_toLex] at lower
      have behind : b.ordinal < a.ordinal := by
        simpa [headerA, notHeaderB, Prod.Lex.toLex_lt_toLex] using lower
      rw [pickBetweenStrongAtoms_lenient lenient headerA notHeaderB,
        pickBetweenStrongAtoms_lenient lenient notHeaderB headerA]
      simp [pickLowerOrdinal, pickAOrB, behind, behind.le]
  · trivial
  · split at lower <;> simp [Prod.Lex.toLex_lt_toLex] at lower
  · refine pickBetweenWeakAtoms_of_lt sharedA sharedB ?_
    simpa [Prod.Lex.toLex_lt_toLex] using lower

/-- Absolute atoms have no rank. -/
def rank (mode : CommonsMode) (atom : Atom) : ℕ ×ₗ ℕ ×ₗ ℕ ×ₗ ℕ ×ₗ ℕ ×ₗ ℕ :=
  match atom.definition with
  | .regular => toLex (2, regularRank atom)
  | .tentative => toLex (if mode = .overriddenByDylibs then 0 else 1,
      toLex (atom.size, toLex (atom.ordinal, toLex (0, toLex (0, 0)))))
  | .proxy => toLex (if mode = .overriddenByDylibs then 1 else 0,
      toLex (if atom.combine = .never then 1 else 0, toLex (0, toLex (0, toLex (0, 0)))))
  | .absolute => toLex (0, toLex (0, toLex (0, toLex (0, toLex (0, 0)))))

section Prefers

variable {mode : CommonsMode} {duplicates : Treatment} {a b : Atom}

/-- The first of two atoms is used, whichever is new, unless the pick is an error. -/
def Prefers (mode : CommonsMode) (duplicates : Treatment) (a b : Atom) : Prop :=
  (∀ picker, pickAtom mode duplicates a b = .ok picker → picker.chosen = .atomA) ∧
    ∀ picker, pickAtom mode duplicates b a = .ok picker → picker.chosen = .atomB

theorem Prefers.of_chosen {forth back : Resolution} (pickedForth : pickAtom mode duplicates a b = .ok forth)
    (pickedBack : pickAtom mode duplicates b a = .ok back) (isA : forth.chosen = .atomA)
    (isB : back.chosen = .atomB) : Prefers mode duplicates a b := by
  constructor
  · intro picker picked
    rwa [← Except.ok.inj (pickedForth.symm.trans picked)]
  · intro picker picked
    rwa [← Except.ok.inj (pickedBack.symm.trans picked)]

theorem prefers_of_rank_lt (lenient : duplicates.Lenient) (relativeA : a.definition ≠ .absolute)
    (relativeB : b.definition ≠ .absolute) (sharedA : a.scope ≠ .translationUnit)
    (sharedB : b.scope ≠ .translationUnit) (lower : rank mode b < rank mode a) : Prefers mode duplicates a b := by
  unfold rank at lower
  cases defA : a.definition with
  | absolute => exact absurd defA relativeA
  | regular =>
    cases defB : b.definition with
    | absolute => exact absurd defB relativeB
    | regular =>
      have lowerRank : regularRank b < regularRank a := by
        simpa [defA, defB, Prod.Lex.toLex_lt_toLex] using lower
      obtain ⟨isA, isB⟩ := pickBetweenRegularAtoms_of_lt lenient sharedA sharedB lowerRank
      exact .of_chosen (by unfold pickAtom; rw [defA, defB]) (by unfold pickAtom; rw [defA, defB]) isA isB
    | tentative => exact .of_chosen (by unfold pickAtom; rw [defA, defB]) (by unfold pickAtom; rw [defA, defB]) rfl rfl
    | proxy => exact .of_chosen (by unfold pickAtom; rw [defA, defB]) (by unfold pickAtom; rw [defA, defB]) rfl rfl
  | tentative =>
    cases defB : b.definition with
    | absolute => exact absurd defB relativeB
    | regular =>
      simp only [defA, defB, Prod.Lex.toLex_lt_toLex] at lower
      split at lower <;> omega
    | tentative =>
      have larger : b.size < a.size ∨ b.size = a.size ∧ b.ordinal < a.ordinal := by
        simpa [defA, defB, Prod.Lex.toLex_lt_toLex] using lower
      refine .of_chosen (by unfold pickAtom; rw [defA, defB]) (by unfold pickAtom; rw [defA, defB]) ?_ ?_
      · rcases larger with bigger | ⟨same, behind⟩
        · simp [pickLargerSize, pickAOrB, bigger, bigger.ne']
        · simp [pickLargerSize, pickLowerOrdinal, pickAOrB, same, behind]
      · rcases larger with bigger | ⟨same, behind⟩
        · simp [pickLargerSize, pickAOrB, bigger.ne, bigger.le]
        · simp [pickLargerSize, pickLowerOrdinal, pickAOrB, same, behind.le]
    | proxy =>
      have notOverridden : mode ≠ .overriddenByDylibs := by
        rintro rfl
        simp [defA, defB, Prod.Lex.toLex_lt_toLex] at lower
      constructor <;> intro picker picked <;> cases mode <;>
        simp_all [pickAtom, pickCommonsMode, Except.map] <;> rw [← picked]
  | proxy =>
    cases defB : b.definition with
    | absolute => exact absurd defB relativeB
    | regular =>
      simp only [defA, defB, Prod.Lex.toLex_lt_toLex] at lower
      split at lower <;> omega
    | tentative =>
      have overridden : mode = .overriddenByDylibs := by
        by_contra other
        simp [defA, defB, other, Prod.Lex.toLex_lt_toLex] at lower
      subst overridden
      exact .of_chosen (by unfold pickAtom; rw [defA, defB]; rfl)
        (by unfold pickAtom; rw [defA, defB]; rfl) rfl rfl
    | proxy =>
      have weaker : a.combine = .never ∧ b.combine = .byName := by
        cases combineA : a.combine <;> cases combineB : b.combine <;>
          simp [defA, defB, combineA, combineB, Prod.Lex.toLex_lt_toLex] at lower ⊢
      exact .of_chosen (by unfold pickAtom pickProxyAtom; rw [defA, defB, weaker.1, weaker.2]; rfl)
        (by unfold pickAtom pickProxyAtom; rw [defA, defB, weaker.2]; rfl) rfl rfl

theorem regularRank_ne (sharedA : a.scope ≠ .translationUnit) (sharedB : b.scope ≠ .translationUnit)
    (ordinals : a.ordinal ≠ b.ordinal) (defA : a.definition = .regular) (defB : b.definition = .regular)
    (untied : ¬ Tied a b) : regularRank a ≠ regularRank b := by
  intro ranks
  apply untied
  unfold Tied
  rw [defA, defB]
  unfold regularRank at ranks
  cases combineA : a.combine <;> cases combineB : b.combine <;> simp only [combineA, combineB] at ranks ⊢
  · split at ranks <;> split at ranks <;> simp_all
  · split at ranks <;> simp at ranks
  · split at ranks <;> simp at ranks
  · simp only [weakRank, toLex_inj, Prod.mk.injEq, true_and] at ranks
    obtain ⟨lto, hide, visible, align⟩ := ranks
    left
    refine ⟨trivial, trivial, ?_, ?_, ?_, align⟩
    · cases ltoA : a.isLTO <;> cases ltoB : b.isLTO <;> simp [ltoA, ltoB] at lto ⊢
    · cases hideA : a.autoHide <;> cases hideB : b.autoHide <;> simp [hideA, hideB] at hide ⊢
    · cases hideA : a.autoHide <;> cases hideB : b.autoHide <;> cases scopeA : a.scope <;>
        cases scopeB : b.scope <;> simp_all

/-- Equal ranks of atoms that are not tied are those of two proxies, and the pick is an error. -/
theorem prefers_of_rank_eq (relativeA : a.definition ≠ .absolute) (relativeB : b.definition ≠ .absolute)
    (sharedA : a.scope ≠ .translationUnit) (sharedB : b.scope ≠ .translationUnit)
    (ordinals : a.ordinal ≠ b.ordinal) (untied : ¬ Tied a b) (same : rank mode a = rank mode b) :
    Prefers mode duplicates a b := by
  unfold rank at same
  cases defA : a.definition with
  | absolute => exact absurd defA relativeA
  | regular =>
    cases defB : b.definition with
    | absolute => exact absurd defB relativeB
    | regular =>
      simp only [defA, defB, toLex_inj, Prod.mk.injEq, true_and] at same
      exact absurd same (regularRank_ne sharedA sharedB ordinals defA defB untied)
    | tentative =>
      simp only [defA, defB, toLex_inj, Prod.mk.injEq] at same
      split at same <;> omega
    | proxy =>
      simp only [defA, defB, toLex_inj, Prod.mk.injEq] at same
      split at same <;> omega
  | tentative =>
    cases defB : b.definition with
    | absolute => exact absurd defB relativeB
    | regular =>
      simp only [defA, defB, toLex_inj, Prod.mk.injEq] at same
      split at same <;> omega
    | tentative =>
      simp only [defA, defB, toLex_inj, Prod.mk.injEq] at same
      exact absurd same.2.2.1 ordinals
    | proxy =>
      simp only [defA, defB, toLex_inj, Prod.mk.injEq] at same
      split at same <;> omega
  | proxy =>
    cases defB : b.definition with
    | absolute => exact absurd defB relativeB
    | regular =>
      simp only [defA, defB, toLex_inj, Prod.mk.injEq] at same
      split at same <;> omega
    | tentative =>
      simp only [defA, defB, toLex_inj, Prod.mk.injEq] at same
      split at same <;> omega
    | proxy =>
      have strong : a.combine = .never ∧ b.combine = .never := by
        unfold Tied at untied
        cases combineA : a.combine <;> cases combineB : b.combine <;> simp_all
      constructor <;> intro picker picked <;> unfold pickAtom pickProxyAtom at picked <;>
        rw [defA, defB, strong.1, strong.2] at picked <;> cases picked

/-! ## Absolute atoms -/

theorem absolute_prefers (absA : a.definition = .absolute)
    (first : b.definition ≠ .proxy → a.ordinal < b.ordinal) : Prefers mode duplicates a b := by
  cases defB : b.definition with
  | proxy => exact .of_chosen (by unfold pickAtom; rw [absA, defB]) (by unfold pickAtom; rw [absA, defB]) rfl rfl
  | regular =>
    have lower := first (by rw [defB]; nofun)
    exact .of_chosen (by unfold pickAtom; rw [absA, defB]) (by unfold pickAtom; rw [absA, defB])
      (by simp [pickHigherOrdinal, pickAOrB, lower]) (by simp [pickHigherOrdinal, pickAOrB, lower.le])
  | tentative =>
    have lower := first (by rw [defB]; nofun)
    exact .of_chosen (by unfold pickAtom; rw [absA, defB]) (by unfold pickAtom; rw [absA, defB])
      rfl (by simp [pickHigherOrdinal, pickAOrB, lower.le])
  | absolute =>
    have lower := first (by rw [defB]; nofun)
    exact .of_chosen (by unfold pickAtom; rw [absA, defB]) (by unfold pickAtom; rw [absA, defB])
      (by simp [pickHigherOrdinal, pickAOrB, lower]) (by simp [pickHigherOrdinal, pickAOrB, lower.le])

theorem regular_prefers_absolute (defA : a.definition = .regular) (absB : b.definition = .absolute)
    (lower : a.ordinal < b.ordinal) : Prefers mode duplicates a b :=
  .of_chosen (by unfold pickAtom; rw [defA, absB]) (by unfold pickAtom; rw [defA, absB])
    (by simp [pickHigherOrdinal, pickAOrB, lower]) (by simp [pickHigherOrdinal, pickAOrB, lower.le])

end Prefers

/-! ## Contests -/

section Contests

variable {Address : Type} {atomOf : Address → Atom} {mode : CommonsMode} {duplicates : Treatment}
  {junk : Address → Bool} {a b c : Address}

/-- The new atom comes first. -/
def contest (atomOf : Address → Atom) (mode : CommonsMode) (duplicates : Treatment) (junk : Address → Bool)
    (newAtom existing : Address) : Except String Address :=
  (pickAtom mode duplicates (atomOf newAtom) (atomOf existing)).map fun picker =>
    if picker.chosen.choseAtomA (junk newAtom) then newAtom else existing

theorem contest_one (a b c : Address) (isOk : contest atomOf mode duplicates junk a b = .ok c) : c = a ∨ c = b := by
  obtain ⟨picker, -, rfl⟩ := ok_of_map isOk
  split
  · exact .inl rfl
  · exact .inr rfl

theorem Prefers.beats (prefers : Prefers mode duplicates (atomOf a) (atomOf b)) :
    Beats (contest atomOf mode duplicates junk) a b := by
  constructor
  · intro c isOk
    obtain ⟨picker, picked, rfl⟩ := ok_of_map isOk
    rw [prefers.1 picker picked]
    rfl
  · intro c isOk
    obtain ⟨picker, picked, rfl⟩ := ok_of_map isOk
    rw [prefers.2 picker picked]
    rfl

theorem contest_total (notA : (atomOf a).definition ≠ .proxy) (notB : (atomOf b).definition ≠ .proxy) :
    ∃ c, contest atomOf mode duplicates junk a b = .ok c := by
  unfold contest pickAtom
  cases defA : (atomOf a).definition <;> cases defB : (atomOf b).definition <;>
    first
      | exact ⟨_, rfl⟩
      | exact absurd defA notA
      | exact absurd defB notB

theorem contest_eq (prefers : Prefers mode duplicates (atomOf a) (atomOf b))
    (isOk : ∃ c, contest atomOf mode duplicates junk a b = .ok c) :
    contest atomOf mode duplicates junk a b = .ok a := by
  obtain ⟨c, isOk⟩ := isOk
  rw [isOk, prefers.beats.1 c isOk]

theorem contest_proxy (absB : (atomOf b).definition = .absolute) (proxyA : (atomOf a).definition = .proxy) :
    contest atomOf mode duplicates junk a b = .ok b := by
  unfold contest pickAtom
  rw [proxyA, absB]
  rfl

/-- A regular or tentative atom with a lower ordinal replaces an absolute one. -/
theorem contest_before (absB : (atomOf b).definition = .absolute)
    (kind : (atomOf a).definition = .regular ∨ (atomOf a).definition = .tentative)
    (lower : (atomOf a).ordinal < (atomOf b).ordinal) : contest atomOf mode duplicates junk a b = .ok a := by
  unfold contest pickAtom
  rcases kind with defA | defA <;> rw [defA, absB] <;>
    simp [Except.map, pickHigherOrdinal, pickAOrB, lower, Chosen.choseAtomA]

end Contests

/-! ## The condition -/

section Orders

variable {Address : Type} [DecidableEq Address] {atomOf : Address → Atom} {mode : CommonsMode}
  {duplicates : Treatment} {junk : Address → Bool} {atoms : List Address}

/-- An absolute atom comes before all atoms that could replace it. -/
def AbsoluteFirst (atomOf : Address → Atom) (atoms : List Address) : Prop :=
  ∃ a ∈ atoms, (atomOf a).definition = .absolute ∧
    ∀ x ∈ atoms, x ≠ a → (atomOf x).definition ≠ .proxy → (atomOf a).ordinal < (atomOf x).ordinal

/-- The best regular atom comes before all absolute ones. -/
def RegularFirst (atomOf : Address → Atom) (atoms : List Address) : Prop :=
  ∃ r ∈ atoms, (atomOf r).definition = .regular ∧
    (∀ x ∈ atoms, x ≠ r → (atomOf x).definition = .regular → regularRank (atomOf x) < regularRank (atomOf r)) ∧
    ∀ x ∈ atoms, (atomOf x).definition = .absolute → (atomOf r).ordinal < (atomOf x).ordinal

def OrderFree (atomOf : Address → Atom) (atoms : List Address) : Prop :=
  (∀ x ∈ atoms, (atomOf x).definition ≠ .absolute) ∨ AbsoluteFirst atomOf atoms ∨ RegularFirst atomOf atoms

/-- Different atoms of one name, from different files. -/
structure OneName (atomOf : Address → Atom) (atoms : List Address) : Prop where
  once : atoms.Nodup
  shared : ∀ a ∈ atoms, (atomOf a).scope ≠ .translationUnit
  ordinals : ∀ a ∈ atoms, ∀ b ∈ atoms, a ≠ b → (atomOf a).ordinal ≠ (atomOf b).ordinal
  untied : ∀ a ∈ atoms, ∀ b ∈ atoms, a ≠ b → ¬ Tied (atomOf a) (atomOf b)

/-! ## Enough -/

omit [DecidableEq Address] in
theorem OneName.prefers (one : OneName atomOf atoms) (lenient : duplicates.Lenient) {a b : Address}
    (memberA : a ∈ atoms) (memberB : b ∈ atoms) (differ : a ≠ b) (relativeA : (atomOf a).definition ≠ .absolute)
    (relativeB : (atomOf b).definition ≠ .absolute) (best : rank mode (atomOf b) ≤ rank mode (atomOf a)) :
    Prefers mode duplicates (atomOf a) (atomOf b) := by
  rcases best.lt_or_eq with lower | same
  · exact prefers_of_rank_lt lenient relativeA relativeB (one.shared a memberA) (one.shared b memberB) lower
  · exact prefers_of_rank_eq relativeA relativeB (one.shared a memberA) (one.shared b memberB)
      (one.ordinals a memberA b memberB differ) (one.untied a memberA b memberB differ) same.symm

omit [DecidableEq Address] in
theorem rank_le_of_regular {a b : Address} (defA : (atomOf a).definition = .regular)
    (relativeB : (atomOf b).definition ≠ .absolute)
    (best : (atomOf b).definition = .regular → regularRank (atomOf b) ≤ regularRank (atomOf a)) :
    rank mode (atomOf b) ≤ rank mode (atomOf a) := by
  unfold rank
  cases defB : (atomOf b).definition with
  | absolute => exact absurd defB relativeB
  | regular => simpa [defA, Prod.Lex.toLex_le_toLex] using best defB
  | tentative =>
    simp only [defA, Prod.Lex.toLex_le_toLex]
    left
    split <;> omega
  | proxy =>
    simp only [defA, Prod.Lex.toLex_le_toLex]
    left
    split <;> omega

/-- Under the condition one atom wins all matches that have a winner. -/
theorem OrderFree.unbeaten (free : OrderFree atomOf atoms) (one : OneName atomOf atoms) (lenient : duplicates.Lenient)
    (some_ : atoms ≠ []) :
    ∃ a ∈ atoms, ∀ b ∈ atoms, b ≠ a → Prefers mode duplicates (atomOf a) (atomOf b) := by
  rcases free with relative | ⟨a, member, absA, first⟩ | ⟨r, member, defR, best, before⟩
  · obtain ⟨a, member, best⟩ := atoms.toFinset.exists_max_image (fun x => rank mode (atomOf x))
      (List.toFinset_nonempty_iff atoms |>.mpr some_)
    rw [List.mem_toFinset] at member
    exact ⟨a, member, fun b listed differ => one.prefers lenient member listed differ.symm (relative a member)
      (relative b listed) (best b (List.mem_toFinset.mpr listed))⟩
  · exact ⟨a, member, fun b listed differ => absolute_prefers absA (first b listed differ)⟩
  · refine ⟨r, member, fun b listed differ => ?_⟩
    by_cases absB : (atomOf b).definition = .absolute
    · exact regular_prefers_absolute defR absB (before b listed absB)
    · exact one.prefers lenient member listed differ.symm (by rw [defR]; nofun) absB
        (rank_le_of_regular defR absB fun defB => (best b listed differ defB).le)

/-! ## Needed -/

def isProxy (atomOf : Address → Atom) (a : Address) : Bool := (atomOf a).definition = .proxy

def proxies (atomOf : Address → Atom) (atoms : List Address) : List Address := atoms.filter (isProxy atomOf)

def others (atomOf : Address → Atom) (atoms kept : List Address) : List Address :=
  atoms.filter fun a => !isProxy atomOf a && a ∉ kept

variable {kept : List Address}

theorem parts_perm (once : atoms.Nodup) (keptOnce : kept.Nodup) (inside : ∀ a ∈ kept, a ∈ atoms)
    (notProxy : ∀ a ∈ kept, isProxy atomOf a = false) :
    (kept ++ (others atomOf atoms kept ++ proxies atomOf atoms)).Perm atoms := by
  refine (List.perm_ext_iff_of_nodup ?_ once).mpr fun a => ?_
  · refine List.nodup_append.mpr ⟨keptOnce, List.nodup_append.mpr ⟨once.filter _, once.filter _, ?_⟩, ?_⟩
    · rintro a listed b proxy rfl
      have := (List.mem_filter.mp listed).2
      rw [(List.mem_filter.mp proxy).2] at this
      cases this
    · rintro a member b elsewhere rfl
      rcases List.mem_append.mp elsewhere with other | proxy
      · have := (List.mem_filter.mp other).2
        simp [member] at this
      · have := (List.mem_filter.mp proxy).2
        rw [notProxy a member] at this
        cases this
  · simp only [List.mem_append, others, proxies, List.mem_filter, Bool.and_eq_true, Bool.not_eq_true',
      decide_eq_true_eq]
    constructor
    · rintro (member | ⟨member, -⟩ | ⟨member, -⟩)
      · exact inside a member
      · exact member
      · exact member
    · intro member
      by_cases keep : a ∈ kept
      · exact .inl keep
      · cases proxy : isProxy atomOf a with
        | true => exact .inr (.inr ⟨member, rfl⟩)
        | false => exact .inr (.inl ⟨member, rfl, keep⟩)

omit [DecidableEq Address] in
theorem not_proxy_iff {a : Address} : isProxy atomOf a = false ↔ (atomOf a).definition ≠ .proxy := by
  rw [isProxy, decide_eq_false_iff_not]

theorem others_not_proxy : ∀ a ∈ others atomOf atoms kept, (atomOf a).definition ≠ .proxy := by
  intro a listed
  have := (List.mem_filter.mp listed).2
  rw [Bool.and_eq_true, Bool.not_eq_true', not_proxy_iff] at this
  exact this.1

variable (mode duplicates junk) in
theorem knockout_others (some_ : others atomOf atoms kept ≠ []) :
    ∃ winner ∈ others atomOf atoms kept,
      knockout (contest atomOf mode duplicates junk) none (others atomOf atoms kept) = .ok (some winner) :=
  knockout_total_none contest_one (fun _ _ => contest_total) others_not_proxy some_

omit [DecidableEq Address] in
theorem knockout_proxies {a : Address} (absA : (atomOf a).definition = .absolute) :
    knockout (contest atomOf mode duplicates junk) (some a) (proxies atomOf atoms) = .ok (some a) :=
  knockout_wins fun _ listed => contest_proxy absA (of_decide_eq_true (List.mem_filter.mp listed).2)

variable (mode duplicates junk) in
/-- An absolute atom that comes first does not survive a lower one at the end. -/
theorem absolute_replaced (one : OneName atomOf atoms) {a x : Address} (memberA : a ∈ atoms) (memberX : x ∈ atoms)
    (absA : (atomOf a).definition = .absolute)
    (kind : (atomOf x).definition = .regular ∨ (atomOf x).definition = .tentative)
    (lower : (atomOf x).ordinal < (atomOf a).ordinal) :
    ∃ order final, order.Perm atoms ∧
      knockout (contest atomOf mode duplicates junk) none order = .ok final ∧ final ≠ some a := by
  have differ : x ≠ a := by
    rintro rfl
    exact lt_irrefl _ lower
  have notA : isProxy atomOf a = false := by rw [not_proxy_iff, absA]; nofun
  have notX : isProxy atomOf x = false := by
    rw [not_proxy_iff]
    rcases kind with defX | defX <;> rw [defX] <;> nofun
  have parts := @parts_perm _ _ atomOf atoms [a, x] one.once (by simp [differ.symm])
    (by simp [memberA, memberX]) (by simp [notA, notX])
  obtain ⟨winner, listed, reached⟩ := @knockout_total _ _ (contest atomOf mode duplicates junk) a
    (fun b => (atomOf b).definition ≠ .proxy) (others atomOf atoms [a, x]) contest_one (fun _ _ => contest_total)
    (not_proxy_iff.mp notA) others_not_proxy
  have notWinner : (atomOf winner).definition ≠ .proxy := by
    rcases List.mem_cons.mp listed with rfl | other
    · exact not_proxy_iff.mp notA
    · exact others_not_proxy winner other
  obtain ⟨last, picked⟩ := @contest_total _ atomOf mode duplicates junk x winner (not_proxy_iff.mp notX) notWinner
  refine ⟨a :: (proxies atomOf atoms ++ (others atomOf atoms [a, x] ++ [x])), some last, ?_, ?_, ?_⟩
  · refine List.Perm.trans (List.perm_iff_count.mpr fun y => ?_) parts
    simp only [List.count_cons, List.count_append, List.count_nil]
    omega
  · rw [knockout_cons]
    show knockout _ (some a) _ = _
    rw [knockout_append, knockout_proxies absA]
    show knockout _ (some a) _ = _
    rw [knockout_append, reached]
    show knockout _ (some winner) [x] = _
    rw [knockout_cons, meet, picked]
    rfl
  · intro same
    obtain rfl := Option.some.inj same
    by_cases stays : winner = last
    · subst stays
      rw [contest_before absA kind lower] at picked
      exact differ (Except.ok.inj picked)
    · rcases contest_one _ _ _ picked with isX | isWinner
      · exact differ isX.symm
      · exact stays isWinner.symm

/-- An absolute atom that beats the last of the others is the end of an order. -/
theorem absolute_last (one : OneName atomOf atoms) {a winner : Address} {lead : List Address} (memberA : a ∈ atoms)
    (absA : (atomOf a).definition = .absolute) (leadOnce : lead.Nodup) (notLead : a ∉ lead)
    (inside : ∀ b ∈ lead, b ∈ atoms) (notProxy : ∀ b ∈ lead, isProxy atomOf b = false)
    (reached : knockout (contest atomOf mode duplicates junk) none (others atomOf atoms (a :: lead) ++ lead)
      = .ok (some winner))
    (wins : contest atomOf mode duplicates junk a winner = .ok a) :
    ∃ order, order.Perm atoms ∧ knockout (contest atomOf mode duplicates junk) none order = .ok (some a) := by
  have notA : isProxy atomOf a = false := by rw [not_proxy_iff, absA]; nofun
  have parts := @parts_perm _ _ atomOf atoms (a :: lead) one.once (List.nodup_cons.mpr ⟨notLead, leadOnce⟩)
    (List.forall_mem_cons.mpr ⟨memberA, inside⟩) (List.forall_mem_cons.mpr ⟨notA, notProxy⟩)
  refine ⟨(others atomOf atoms (a :: lead) ++ lead) ++ a :: proxies atomOf atoms, ?_, ?_⟩
  · refine List.Perm.trans (List.perm_iff_count.mpr fun y => ?_) parts
    simp only [List.count_cons, List.count_append]
    omega
  · rw [knockout_append, reached]
    show knockout _ (some winner) _ = _
    rw [knockout_cons, meet, wins]
    exact knockout_proxies absA

/-- An absolute atom that no other absolute one precedes. -/
structure LowestAbsolute (atomOf : Address → Atom) (atoms : List Address) (a : Address) : Prop where
  member : a ∈ atoms
  absolute : (atomOf a).definition = .absolute
  least : ∀ b ∈ atoms, (atomOf b).definition = .absolute → (atomOf a).ordinal ≤ (atomOf b).ordinal

structure BestRegular (atomOf : Address → Atom) (atoms : List Address) (r : Address) : Prop where
  member : r ∈ atoms
  regular : (atomOf r).definition = .regular
  best : ∀ b ∈ atoms, (atomOf b).definition = .regular → regularRank (atomOf b) ≤ regularRank (atomOf r)

theorem exists_lowestAbsolute {b : Address} (member : b ∈ atoms) (absB : (atomOf b).definition = .absolute) :
    ∃ a, LowestAbsolute atomOf atoms a := by
  obtain ⟨a, listed, least⟩ := (atoms.toFinset.filter fun y => (atomOf y).definition = .absolute).exists_min_image
    (fun y => (atomOf y).ordinal) ⟨b, by simp [member, absB]⟩
  simp only [Finset.mem_filter, List.mem_toFinset] at listed least
  exact ⟨a, listed.1, listed.2, fun b memberB absB => least b ⟨memberB, absB⟩⟩

theorem exists_bestRegular {b : Address} (member : b ∈ atoms) (defB : (atomOf b).definition = .regular) :
    ∃ r, BestRegular atomOf atoms r := by
  obtain ⟨r, listed, best⟩ := (atoms.toFinset.filter fun y => (atomOf y).definition = .regular).exists_max_image
    (fun y => regularRank (atomOf y)) ⟨b, by simp [member, defB]⟩
  simp only [Finset.mem_filter, List.mem_toFinset] at listed best
  exact ⟨r, listed.1, listed.2, fun b memberB defB => best b ⟨memberB, defB⟩⟩

omit [DecidableEq Address] in
theorem LowestAbsolute.before {a b : Address} (lowest : LowestAbsolute atomOf atoms a) (one : OneName atomOf atoms)
    (memberB : b ∈ atoms) (absB : (atomOf b).definition = .absolute) (differ : b ≠ a) :
    (atomOf a).ordinal < (atomOf b).ordinal :=
  lt_of_le_of_ne (lowest.least b memberB absB) (one.ordinals b memberB a lowest.member differ).symm

omit [DecidableEq Address] in
theorem LowestAbsolute.preceded {a : Address} (lowest : LowestAbsolute atomOf atoms a) (one : OneName atomOf atoms)
    (notFirst : ¬ AbsoluteFirst atomOf atoms) :
    ∃ x ∈ atoms, ((atomOf x).definition = .regular ∨ (atomOf x).definition = .tentative) ∧
      (atomOf x).ordinal < (atomOf a).ordinal := by
  by_contra none_
  refine notFirst ⟨a, lowest.member, lowest.absolute, fun x memberX differ notProxy => ?_⟩
  have apart := one.ordinals x memberX a lowest.member differ
  cases defX : (atomOf x).definition with
  | proxy => exact absurd defX notProxy
  | absolute => exact lowest.before one memberX defX differ
  | regular =>
    by_contra notLower
    exact none_ ⟨x, memberX, .inl defX, by omega⟩
  | tentative =>
    by_contra notLower
    exact none_ ⟨x, memberX, .inr defX, by omega⟩

omit [DecidableEq Address] in
/-- The lowest absolute atom precedes the best regular one. -/
theorem LowestAbsolute.before_regular {a r : Address} (lowest : LowestAbsolute atomOf atoms a)
    (best : BestRegular atomOf atoms r) (one : OneName atomOf atoms) (notFirst : ¬ RegularFirst atomOf atoms) :
    (atomOf a).ordinal < (atomOf r).ordinal := by
  have differ : r ≠ a := by
    rintro rfl
    exact nomatch best.regular.symm.trans lowest.absolute
  by_contra notBehind
  refine notFirst ⟨r, best.member, best.regular, fun y memberY apart defY => ?_, fun y memberY absY => ?_⟩
  · refine lt_of_le_of_ne (best.best y memberY defY) ?_
    exact regularRank_ne (one.shared y memberY) (one.shared r best.member)
      (one.ordinals y memberY r best.member apart) defY best.regular (one.untied y memberY r best.member apart)
  · have := lowest.least y memberY absY
    have := one.ordinals r best.member a lowest.member differ
    omega

/-- The lowest absolute atom wins when the best regular one is right before it. -/
theorem LowestAbsolute.last_after_regular {a r x : Address} (lowest : LowestAbsolute atomOf atoms a)
    (best : BestRegular atomOf atoms r) (one : OneName atomOf atoms) (lenient : duplicates.Lenient)
    (behind : (atomOf a).ordinal < (atomOf r).ordinal) (memberX : x ∈ atoms) (notX : isProxy atomOf x = false)
    (lower : (atomOf x).ordinal < (atomOf a).ordinal) :
    ∃ order, order.Perm atoms ∧ knockout (contest atomOf mode duplicates junk) none order = .ok (some a) := by
  have notA : (atomOf a).definition ≠ .proxy := by rw [lowest.absolute]; nofun
  have notR : (atomOf r).definition ≠ .proxy := by rw [best.regular]; nofun
  have differA : x ≠ a := fun same => lt_irrefl _ (same ▸ lower)
  have differR : x ≠ r := by
    rintro rfl
    omega
  have apart : r ≠ a := fun same => lt_irrefl _ (same ▸ behind)
  have some_ : others atomOf atoms [a, r] ≠ [] := List.ne_nil_of_mem
    (List.mem_filter.mpr ⟨memberX, by simp [notX, differA, differR]⟩)
  obtain ⟨winner, listed, reached⟩ := knockout_others mode duplicates junk some_
  have notWinner := others_not_proxy winner listed
  obtain ⟨memberW, kept⟩ := List.mem_filter.mp listed
  simp only [Bool.and_eq_true, decide_eq_true_eq, List.mem_cons, List.not_mem_nil, or_false, not_or] at kept
  obtain ⟨next, picked⟩ := @contest_total _ atomOf mode duplicates junk r winner notR notWinner
  have isNext : next = r ∨ next = winner ∧ (atomOf winner).definition = .absolute := by
    rcases contest_one _ _ _ picked with isR | isW
    · exact .inl isR
    · by_cases absW : (atomOf winner).definition = .absolute
      · exact .inr ⟨isW, absW⟩
      · have prefers : Prefers mode duplicates (atomOf r) (atomOf winner) :=
          one.prefers lenient best.member memberW (Ne.symm kept.2.2) (by rw [best.regular]; nofun) absW
            (rank_le_of_regular best.regular absW fun defW => best.best winner memberW defW)
        exact .inl (prefers.beats.1 next picked)
  have wins : contest atomOf mode duplicates junk a next = .ok a := by
    rcases isNext with rfl | ⟨rfl, absW⟩
    · exact contest_eq (absolute_prefers lowest.absolute fun _ => behind) (contest_total notA notR)
    · exact contest_eq (absolute_prefers lowest.absolute fun _ => lowest.before one memberW absW kept.2.1)
        (contest_total notA notWinner)
  refine absolute_last one lowest.member lowest.absolute (List.nodup_singleton r) (by simpa using apart.symm)
    (by simp [best.member]) (by simpa using not_proxy_iff.mpr notR) ?_ wins
  rw [knockout_append, reached]
  show knockout _ (some winner) [r] = _
  rw [knockout_cons, meet, picked]
  rfl

/-- Without regular atoms, the lowest absolute atom wins at the end. -/
theorem LowestAbsolute.last_without_regular {a x : Address} (lowest : LowestAbsolute atomOf atoms a)
    (one : OneName atomOf atoms) (noRegular : ¬ ∃ r ∈ atoms, (atomOf r).definition = .regular) (memberX : x ∈ atoms)
    (notX : isProxy atomOf x = false) (differX : x ≠ a) :
    ∃ order, order.Perm atoms ∧ knockout (contest atomOf mode duplicates junk) none order = .ok (some a) := by
  have notA : (atomOf a).definition ≠ .proxy := by rw [lowest.absolute]; nofun
  have some_ : others atomOf atoms [a] ≠ [] := List.ne_nil_of_mem
    (List.mem_filter.mpr ⟨memberX, by simp [notX, differX]⟩)
  obtain ⟨winner, listed, reached⟩ := knockout_others mode duplicates junk some_
  have notWinner := others_not_proxy winner listed
  obtain ⟨memberW, kept⟩ := List.mem_filter.mp listed
  simp only [Bool.and_eq_true, decide_eq_true_eq, List.mem_singleton] at kept
  have wins : contest atomOf mode duplicates junk a winner = .ok a := by
    cases defW : (atomOf winner).definition with
    | proxy => exact absurd defW notWinner
    | regular => exact absurd ⟨winner, memberW, defW⟩ noRegular
    | tentative =>
      unfold contest pickAtom
      rw [lowest.absolute, defW]
      rfl
    | absolute =>
      exact contest_eq (absolute_prefers lowest.absolute fun _ => lowest.before one memberW defW kept.2)
        (contest_total notA notWinner)
  refine absolute_last one lowest.member lowest.absolute List.nodup_nil List.not_mem_nil nofun nofun ?_ wins
  rw [List.append_nil]
  exact reached

variable (mode junk) in
theorem two_orders (one : OneName atomOf atoms) (lenient : duplicates.Lenient) (bound : ¬ OrderFree atomOf atoms) :
    ∃ order₁ order₂ final₁ final₂, order₁.Perm atoms ∧ order₂.Perm atoms ∧
      knockout (contest atomOf mode duplicates junk) none order₁ = .ok final₁ ∧
      knockout (contest atomOf mode duplicates junk) none order₂ = .ok final₂ ∧ final₁ ≠ final₂ := by
  rw [OrderFree, not_or, not_or] at bound
  obtain ⟨someAbsolute, notAbsolute, notRegular⟩ := bound
  push Not at someAbsolute
  obtain ⟨b, memberB, absB⟩ := someAbsolute
  obtain ⟨a, lowest⟩ := exists_lowestAbsolute memberB absB
  obtain ⟨x, memberX, kind, lower⟩ := lowest.preceded one notAbsolute
  have differ : x ≠ a := fun same => lt_irrefl _ (same ▸ lower)
  have notX : isProxy atomOf x = false := by
    rw [not_proxy_iff]
    rcases kind with defX | defX <;> rw [defX] <;> nofun
  obtain ⟨order₁, final₁, perm₁, reached₁, notLast⟩ :=
    absolute_replaced mode duplicates junk one lowest.member memberX lowest.absolute kind lower
  have last : ∃ order, order.Perm atoms ∧
      knockout (contest atomOf mode duplicates junk) none order = .ok (some a) := by
    by_cases someRegular : ∃ r ∈ atoms, (atomOf r).definition = .regular
    · obtain ⟨r₀, memberR, defR⟩ := someRegular
      obtain ⟨r, best⟩ := exists_bestRegular memberR defR
      exact lowest.last_after_regular best one lenient (lowest.before_regular best one notRegular) memberX notX lower
    · exact lowest.last_without_regular one someRegular memberX notX differ
  obtain ⟨order₂, perm₂, reached₂⟩ := last
  exact ⟨order₁, order₂, final₁, some a, perm₁, perm₂, reached₁, reached₂, notLast⟩

/-! ## Runs -/

def calls (duplicates : Treatment) (junk : Address → Bool) (order : List Address) : List (Call Address) :=
  order.map fun a => ⟨a, duplicates, junk a⟩

section Runs

variable {link : Link Address} {depth : Nat} {name : String} {order : List Address} {table : SymbolTable Address}

theorem addAll_knockout (named : ∀ a ∈ order, (link.atom a).name = name)
    (isOk : addAll link mode depth (.empty Address) (calls duplicates junk order) = .ok table) :
    knockout (contest link.atom mode duplicates junk) none order = .ok (table.atomForName name) := by
  induction order using List.reverseRecOn generalizing table with
  | nil =>
    obtain rfl := Except.ok.inj isOk
    rfl
  | append_singleton before a ih =>
    have nameA : (link.atom a).name = name := named a (List.mem_append_right _ (List.mem_singleton_self a))
    rw [calls, List.map_append] at isOk
    obtain ⟨middle, replaced, reached, added⟩ := addAll_last isOk
    rw [knockout_append, ih (fun b listed => named b (List.mem_append_left _ listed)) reached]
    show knockout _ (middle.atomForName name) [a] = _
    rw [knockout_cons]
    rcases (add_ok added).2 with first | ⟨existing, winner, loser, picker, second⟩
    · have fresh := first.fresh
      have kept := first.kept
      rw [Call.name, nameA] at fresh kept
      rw [fresh, kept, Function.update_self]
      rfl
    · have found := second.found
      have kept := second.kept
      rw [Call.name, nameA] at found kept
      rw [found, kept, Function.update_self, meet, contest, second.picked]
      rcases second.both with ⟨isNew, rfl, -⟩ | ⟨isOld, rfl, -⟩
      · simp only [Except.map, isNew, if_true]
        rfl
      · simp only [Except.map, isOld, Bool.false_eq_true, if_false]
        rfl

/-- Atoms without groups are added when their knockout has a winner. -/
theorem addAll_of_knockout (once : order.Nodup) (shared : ∀ a ∈ order, (atomOf a).scope ≠ .translationUnit)
    (named : ∀ a ∈ order, (atomOf a).name = name) {final : Option Address}
    (reached : knockout (contest atomOf mode duplicates junk) none order = .ok final) :
    ∃ table, addAll ⟨atomOf, fun _ => []⟩ mode 1 (.empty Address) (calls duplicates junk order) = .ok table := by
  induction order using List.reverseRecOn generalizing final with
  | nil => exact ⟨_, rfl⟩
  | append_singleton before a ih =>
    have nameA : (atomOf a).name = name := named a (List.mem_append_right _ (List.mem_singleton_self a))
    have namedBefore : ∀ b ∈ before, (atomOf b).name = name := fun b listed =>
      named b (List.mem_append_left _ listed)
    rw [knockout_append] at reached
    obtain ⟨champion, earlier, last⟩ := ok_of_bind reached
    obtain ⟨middle, isOk⟩ := ih (List.nodup_append.mp once).1
      (fun b listed => shared b (List.mem_append_left _ listed)) namedBefore earlier
    have holds := (addAll_knockout namedBefore isOk).symm.trans earlier
    rw [calls, List.map_append, List.map_singleton, addAll_append]
    rw [calls] at isOk
    rw [isOk]
    have goes : ∃ result, add ⟨atomOf, fun _ => []⟩ mode 1 middle ⟨a, duplicates, junk a⟩ = .ok result := by
      refine add_succeeds (shared a (List.mem_append_right _ (List.mem_singleton_self a)))
        (fun coalescedAway address => ⟨_, rfl⟩) fun existing found => ?_
      rw [Call.name, nameA, Except.ok.inj holds] at found
      subst found
      constructor
      · rintro rfl
        rcases knockout_mem contest_one earlier with began | listed
        · cases began
        · exact (List.nodup_append.mp once).2.2 _ listed _ (List.mem_singleton_self _) rfl
      · rw [knockout_cons] at last
        obtain ⟨next, met, -⟩ := ok_of_bind last
        obtain ⟨winner, picked, -⟩ := ok_of_map met
        obtain ⟨picker, isOk, -⟩ := ok_of_map picked
        exact ⟨picker, isOk⟩
    obtain ⟨result, added⟩ := goes
    rw [Except.bind, added]
    exact ⟨result.1, rfl⟩

end Runs

/-- **All orders end with the same atom if and only if the atoms are order free.** -/
theorem addAll_same_iff {name : String} (one : OneName atomOf atoms) (named : ∀ a ∈ atoms, (atomOf a).name = name)
    (lenient : duplicates.Lenient) :
    (∀ fixups depth junk order₁ order₂ table₁ table₂, order₁.Perm atoms → order₂.Perm atoms →
      addAll ⟨atomOf, fixups⟩ mode depth (.empty Address) (calls duplicates junk order₁) = .ok table₁ →
      addAll ⟨atomOf, fixups⟩ mode depth (.empty Address) (calls duplicates junk order₂) = .ok table₂ →
      table₁.atomForName name = table₂.atomForName name) ↔ OrderFree atomOf atoms := by
  constructor
  · intro same
    by_contra bound
    obtain ⟨order₁, order₂, final₁, final₂, perm₁, perm₂, reached₁, reached₂, differ⟩ :=
      two_orders mode (fun _ => false) one lenient bound
    have named₁ : ∀ a ∈ order₁, (atomOf a).name = name := fun a listed => named a (perm₁.mem_iff.mp listed)
    have named₂ : ∀ a ∈ order₂, (atomOf a).name = name := fun a listed => named a (perm₂.mem_iff.mp listed)
    obtain ⟨table₁, isOk₁⟩ := addAll_of_knockout (perm₁.nodup_iff.mpr one.once)
      (fun a listed => one.shared a (perm₁.mem_iff.mp listed)) named₁ reached₁
    obtain ⟨table₂, isOk₂⟩ := addAll_of_knockout (perm₂.nodup_iff.mpr one.once)
      (fun a listed => one.shared a (perm₂.mem_iff.mp listed)) named₂ reached₂
    have holds₁ := Except.ok.inj ((addAll_knockout named₁ isOk₁).symm.trans reached₁)
    have holds₂ := Except.ok.inj ((addAll_knockout named₂ isOk₂).symm.trans reached₂)
    apply differ
    rw [← holds₁, ← holds₂]
    exact same _ _ _ order₁ order₂ table₁ table₂ perm₁ perm₂ isOk₁ isOk₂
  · intro free fixups depth junk order₁ order₂ table₁ table₂ perm₁ perm₂ isOk₁ isOk₂
    have holds₁ := addAll_knockout (fun a listed => named a (perm₁.mem_iff.mp listed)) isOk₁
    have holds₂ := addAll_knockout (fun a listed => named a (perm₂.mem_iff.mp listed)) isOk₂
    by_cases some_ : atoms = []
    · obtain rfl := List.perm_nil.mp (some_ ▸ perm₁)
      obtain rfl := List.perm_nil.mp (some_ ▸ perm₂)
      exact Except.ok.inj (holds₁.symm.trans holds₂)
    · obtain ⟨a, member, beats⟩ : ∃ a ∈ atoms, ∀ b ∈ atoms, b ≠ a →
          Prefers mode duplicates (atomOf a) (atomOf b) := free.unbeaten one lenient some_
      have wins {order : List Address} {final : Option Address} (perm : order.Perm atoms)
          (reached : knockout (contest atomOf mode duplicates junk) none order = .ok final) : final = some a :=
        knockout_unbeaten contest_one (perm.nodup_iff.mpr one.once) (perm.mem_iff.mpr member)
          (fun b listed differ => (beats b (perm.mem_iff.mp listed) differ).beats) reached
      rw [wins perm₁ holds₁, wins perm₂ holds₂]

end Orders

/-! ## A common symbol and an absolute one -/

def dataAtom (definition : Definition) (ordinal : Nat) : Atom :=
  ⟨"_x", definition, .never, .global, .other, .other, false, ⟨2, 0⟩, 4, ordinal, "x.o"⟩

/-- A common symbol in the first file and an absolute one in the second. -/
def commonAndAbsolute (isAbsolute : Bool) : Atom :=
  if isAbsolute then dataAtom .absolute 2 else dataAtom .tentative 1

theorem commonAndAbsolute_oneName : OneName commonAndAbsolute [false, true] := by
  refine ⟨by decide, by decide, by decide, ?_⟩
  intro a _ b _ differ
  cases a <;> cases b <;> simp [Tied, commonAndAbsolute, dataAtom] at differ ⊢

theorem addAll_same_iff_common :
    (∀ fixups depth junk order₁ order₂ table₁ table₂, order₁.Perm [false, true] → order₂.Perm [false, true] →
      addAll ⟨commonAndAbsolute, fixups⟩ .ignoreDylibs depth (.empty Bool) (calls .warning junk order₁) = .ok table₁ →
      addAll ⟨commonAndAbsolute, fixups⟩ .ignoreDylibs depth (.empty Bool) (calls .warning junk order₂) = .ok table₂ →
      table₁.atomForName "_x" = table₂.atomForName "_x") ↔ OrderFree commonAndAbsolute [false, true] :=
  addAll_same_iff commonAndAbsolute_oneName (by decide) (.inl rfl)

/-- **A common symbol that is added second replaces the absolute one, and is replaced when it is first.** -/
theorem addAll_order_matters : ∃ table₁ table₂,
    addAll ⟨commonAndAbsolute, fun _ => []⟩ .ignoreDylibs 1 (.empty Bool) (calls .warning (fun _ => false) [false, true])
      = .ok table₁ ∧
    addAll ⟨commonAndAbsolute, fun _ => []⟩ .ignoreDylibs 1 (.empty Bool) (calls .warning (fun _ => false) [true, false])
      = .ok table₂ ∧
    table₁.atomForName "_x" ≠ table₂.atomForName "_x" :=
  ⟨_, _, rfl, rfl, by decide⟩

end Cctools.Resolver
