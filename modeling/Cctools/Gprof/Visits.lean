/-
# Cctools.Gprof.Visits -- entering and leaving a function

A function is pushed as its own cycle (`dfnPreVisit_spec`).  It leaves the stack with its whole cycle
numbered when it is the cycle head (`Good.finish`), and unnumbered when it is not (`Good.leave`).
-/
import Cctools.Gprof.Glom

namespace Cctools.Gprof

set_option autoImplicit false

open Cctools.Theory

variable {nname : Nat}

section Visits

variable {arcs : Arcs nname} {s : Numbering nname} {parentp : Fin nname}

theorem dfnPreVisit_spec (good : Good arcs s) (fresh : s.toporder parentp = dfnNan)
    (called : ∀ top below, s.dfnStack = top :: below → arcs.Calls top parentp) :
    Good arcs (s.dfnPreVisit parentp) ∧ Later s (s.dfnPreVisit parentp) := by
  obtain ⟨self, stop⟩ := good.fresh parentp fresh
  have outside : parentp ∉ s.dfnStack := by
    intro member
    rw [good.onStack parentp member] at fresh
    cases fresh
  have there : (s.dfnPreVisit parentp).toporder parentp = dfnBusyMark := Function.update_self _ _ _
  have elsewhere : ∀ u, u ≠ parentp → (s.dfnPreVisit parentp).toporder u = s.toporder u :=
    fun u other => Function.update_of_ne other _ _
  have headed_other : ∀ u, u ≠ parentp → s.cyclehead u ≠ parentp := by
    intro u other same
    have nan : s.toporder u = dfnNan := by rw [← good.level u, same, fresh]
    exact other ((good.fresh u nan).1.symm.trans same)
  have not_fresh : ∀ u, (s.dfnPreVisit parentp).toporder u = dfnNan → u ≠ parentp := by
    rintro u nan rfl
    rw [there] at nan
    cases nan
  constructor
  · refine ⟨List.nodup_cons.mpr ⟨outside, good.distinct⟩, ?_, good.segmented.push self, good.headed, ?_, ?_, ?_, ?_,
      good.listed, ?_, ?_, good.joined, ?_, good.counted, good.smooth⟩
    · cases stack : s.dfnStack with
      | nil =>
        show (parentp :: s.dfnStack).IsChain _
        rw [stack]
        exact .singleton _
      | cons top below =>
        show (parentp :: s.dfnStack).IsChain _
        have path := good.path
        rw [stack] at path ⊢
        exact .cons_cons (called top below stack) path
    · intro u
      show (s.dfnPreVisit parentp).toporder (s.cyclehead u) = _
      by_cases same : u = parentp
      · rw [same, self]
      · rw [elsewhere u same, elsewhere _ (headed_other u same), good.level]
    · intro u member
      rcases List.mem_cons.mp member with rfl | old
      · exact there
      · rw [elsewhere u fun same => outside (same ▸ old)]
        exact good.onStack u old
    · intro u busy
      show s.cyclehead u ∈ parentp :: s.dfnStack
      by_cases same : u = parentp
      · rw [same, self]
        exact List.mem_cons_self
      · rw [elsewhere u same] at busy
        exact List.mem_cons_of_mem _ (good.busy u busy)
    · intro u nan
      have other := not_fresh u nan
      rw [elsewhere u other] at nan
      exact good.fresh u nan
    · intro u
      show _ ≤ s.dfnCounter ∧ _
      by_cases same : u = parentp
      · have counted := good.counted
        rw [same, there]
        exact ⟨by simp only [dfnBusyMark]; omega, .inl rfl⟩
      · rw [elsewhere u same]
        exact good.ranked u
    · intro u v numbered same
      have notU : u ≠ parentp := by
        rintro rfl
        rw [there] at numbered
        simp [dfnBusyMark] at numbered
      have notV : v ≠ parentp := by
        rintro rfl
        rw [same, there] at numbered
        simp [dfnBusyMark] at numbered
      rw [elsewhere u notU] at numbered same
      rw [elsewhere v notV] at same
      exact good.apart u v numbered same
    · intro u off seen v calls
      have off' : u ∉ parentp :: s.dfnStack := off
      have notU : u ≠ parentp := fun same => off' (same ▸ List.mem_cons_self)
      rw [elsewhere u notU] at seen
      rcases good.settled u (fun member => off' (List.mem_cons_of_mem _ member)) seen v calls with one | ⟨numbered, order⟩
      · exact .inl one
      · have notV : v ≠ parentp := by
          rintro rfl
          rw [fresh] at numbered
          exact absurd numbered (lt_irrefl _)
        exact .inr ⟨by rw [elsewhere v notV]; exact numbered, by rw [elsewhere u notU, elsewhere v notV]; exact order⟩
  · refine ⟨?_, fun _ _ same => same, ?_, ?_, ?_, le_refl _⟩
    · intro u numbered
      refine elsewhere u ?_
      rintro rfl
      rw [fresh] at numbered
      exact absurd numbered (lt_irrefl _)
    · intro u seen
      rw [elsewhere u fun same => seen (same ▸ fresh)]
      exact seen
    · intro u busy
      by_cases same : u = parentp
      · exact .inl (same ▸ there)
      · exact .inl (by rw [elsewhere u same]; exact busy)
    · intro u nan
      by_cases same : u = parentp
      · exact .inl (by rw [same, there]; simp [dfnBusyMark])
      · exact .inl (by rw [elsewhere u same, nan]; exact le_refl _)

/-- A function that is not its own cycle head leaves the stack without a number. -/
theorem Good.leave (good : Good arcs s) {below : List (Fin nname)}
    (stack : s.dfnStack = parentp :: below) (member : s.cyclehead parentp ≠ parentp)
    (done : ∀ v, arcs.Calls parentp v → Settled s parentp v) :
    Good arcs { s with dfnStack := s.dfnStack.tail } := by
  have tail : s.dfnStack.tail = below := by rw [stack]; rfl
  have distinct := good.distinct
  have path := good.path
  have segmented := good.segmented
  rw [stack] at distinct path segmented
  rw [tail]
  refine ⟨(List.nodup_cons.mp distinct).2, path.tail, segmented.tail, good.headed, good.level, ?_, ?_, good.fresh,
    good.listed, good.ranked, good.apart, good.joined, ?_, good.counted, good.smooth⟩
  · exact fun u inside => good.onStack u (by rw [stack]; exact List.mem_cons_of_mem _ inside)
  · intro u busy
    have inside := good.busy u busy
    rw [stack] at inside
    refine (List.mem_cons.mp inside).resolve_left fun same => member ?_
    rw [← same, good.headed]
  · intro u off seen v calls
    by_cases same : u = parentp
    · exact same ▸ done v (same ▸ calls)
    · refine good.settled u ?_ seen v calls
      rw [stack]
      exact fun inside => (List.mem_cons.mp inside).elim same off

/-- A cycle head leaves the stack, and its cycle is numbered. -/
theorem Good.finish (good : Good arcs s) {below members : List (Fin nname)}
    (stack : s.dfnStack = parentp :: below) (listed : ∀ u, u ∈ members ↔ s.cyclehead u = parentp)
    (done : ∀ v, arcs.Calls parentp v → Settled s parentp v) {s' : Numbering nname}
    (made : s' = { s with
      dfnCounter := s.dfnCounter + 1
      toporder := fun memberp => if memberp ∈ members then s.dfnCounter + 1 else s.toporder memberp
      dfnStack := s.dfnStack.tail }) :
    Good arcs s' ∧ Later s s' := by
  have tail : s'.dfnStack = below := by rw [made, stack]; rfl
  have heads : s'.cyclehead = s.cyclehead := by rw [made]
  have next : s'.cnext = s.cnext := by rw [made]
  have counter : s'.dfnCounter = s.dfnCounter + 1 := by rw [made]
  have inside : ∀ u, s.cyclehead u = parentp → s'.toporder u = s.dfnCounter + 1 := by
    intro u own
    rw [made]
    exact if_pos ((listed u).mpr own)
  have outside : ∀ u, s.cyclehead u ≠ parentp → s'.toporder u = s.toporder u := by
    intro u other
    rw [made]
    exact if_neg fun member => other ((listed u).mp member)
  have was_busy : ∀ u, s.cyclehead u = parentp → s.toporder u = dfnBusyMark := by
    intro u own
    exact good.stack_busy (by rw [own, stack]; exact List.mem_cons_self)
  have counted := good.counted
  have distinct := good.distinct
  have path := good.path
  have segmented := good.segmented
  rw [stack] at distinct path segmented
  have later : Later s s' := by
    refine ⟨fun u numbered => outside u fun own => ?_, fun u v same => by rw [heads]; exact same, ?_, ?_, ?_, by omega⟩
    · rw [was_busy u own] at numbered
      simp [dfnBusyMark] at numbered
    · intro u seen
      by_cases own : s.cyclehead u = parentp
      · rw [inside u own]
        simp only [dfnNan]
        omega
      · rw [outside u own]
        exact seen
    · intro u busy
      by_cases own : s.cyclehead u = parentp
      · exact .inr (by rw [inside u own]; omega)
      · exact .inl (by rw [outside u own]; exact busy)
    · intro u nan
      by_cases own : s.cyclehead u = parentp
      · exact .inr (by rw [inside u own]; omega)
      · exact .inl (by rw [outside u own, nan]; exact le_refl _)
  refine ⟨⟨?_, ?_, ?_, ?_, ?_, ?_, ?_, ?_, ?_, ?_, ?_, ?_, ?_, by omega, by rw [made]; exact good.smooth⟩, later⟩
  · rw [tail]
    exact (List.nodup_cons.mp distinct).2
  · rw [tail]
    exact path.tail
  · rw [tail, heads]
    exact segmented.tail
  · rw [heads]
    exact good.headed
  · intro u
    rw [heads]
    by_cases own : s.cyclehead u = parentp
    · rw [inside u own, inside _ (by rw [good.headed, own])]
    · rw [outside u own, outside _ (by rw [good.headed]; exact own), good.level]
  · intro u member
    rw [tail] at member
    have notOwn : s.cyclehead u ≠ parentp := by
      intro own
      exact (List.nodup_cons.mp distinct).1 (own ▸ segmented.tail.mem member)
    rw [outside u notOwn]
    exact good.onStack u (by rw [stack]; exact List.mem_cons_of_mem _ member)
  · intro u busy
    rw [tail, heads]
    by_cases own : s.cyclehead u = parentp
    · rw [inside u own] at busy
      simp only [dfnBusyMark] at busy
      omega
    · rw [outside u own] at busy
      have member := good.busy u busy
      rw [stack] at member
      exact (List.mem_cons.mp member).resolve_left own
  · intro u nan
    rw [heads, next]
    by_cases own : s.cyclehead u = parentp
    · rw [inside u own] at nan
      simp only [dfnNan] at nan
      omega
    · exact good.fresh u (outside u own ▸ nan)
  · rw [heads, next]
    exact good.listed
  · intro u
    rw [counter]
    by_cases own : s.cyclehead u = parentp
    · rw [inside u own]
      exact ⟨le_refl _, .inr (by omega)⟩
    · rw [outside u own]
      exact ⟨(good.ranked u).1.trans (by omega), (good.ranked u).2⟩
  · intro u v numbered same
    rw [heads]
    by_cases ownU : s.cyclehead u = parentp <;> by_cases ownV : s.cyclehead v = parentp
    · rw [ownU, ownV]
    · rw [inside u ownU, outside v ownV] at same
      have := (good.ranked v).1
      omega
    · rw [outside u ownU, inside v ownV] at same
      have := (good.ranked u).1
      omega
    · rw [outside u ownU, outside v ownV] at same
      exact good.apart u v (outside u ownU ▸ numbered) same
  · rw [heads]
    exact good.joined
  · intro u off seen v calls
    rw [tail] at off
    have seen' : s.toporder u ≠ dfnNan := by
      intro nan
      have notOwn : s.cyclehead u ≠ parentp := by
        intro own
        rw [was_busy u own] at nan
        cases nan
      exact seen (by rw [outside u notOwn, nan])
    have before : Settled s u v := by
      by_cases same : u = parentp
      · exact same ▸ done v (same ▸ calls)
      · refine good.settled u ?_ seen' v calls
        rw [stack]
        exact fun member => (List.mem_cons.mp member).elim same off
    exact before.later good later seen'

/-- **After its children a function leaves the stack**: it is numbered, or belongs to the cycle of the
function below it. -/
theorem dfnPostVisit_spec (good : Good arcs s) {below : List (Fin nname)}
    (stack : s.dfnStack = parentp :: below) (done : ∀ v, arcs.Calls parentp v → Settled s parentp v) :
    ∃ s', s.dfnPostVisit parentp = .ok s' ∧ Good arcs s' ∧ s'.dfnStack = below ∧ Later s s' ∧
      ∀ top rest, below = top :: rest → 0 < s'.toporder parentp ∨ s'.cyclehead top = s'.cyclehead parentp := by
  rw [Numbering.dfnPostVisit]
  by_cases own : s.cyclehead parentp = parentp
  · obtain ⟨members, walk, distinct, listed⟩ := good.listed parentp own
    obtain ⟨good', later⟩ := good.finish stack listed done rfl
    rw [if_pos own, Numbering.members_of_walk walk distinct]
    refine ⟨_, rfl, good', by rw [stack]; rfl, later, fun top rest _ => .inl ?_⟩
    have counted := good.counted
    show 0 < if parentp ∈ members then s.dfnCounter + 1 else s.toporder parentp
    rw [if_pos ((listed parentp).mpr own)]
    omega
  · rw [if_neg own]
    refine ⟨_, rfl, good.leave stack own done, by rw [stack]; rfl, .of_joined rfl rfl fun _ _ same => same, ?_⟩
    rintro top rest rfl
    have segmented := good.segmented
    rw [stack] at segmented
    exact .inr (segmented.1.resolve_left own).symm

end Visits

end Cctools.Gprof
