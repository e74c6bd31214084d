/-
# Cctools.Gprof.Cycles -- the cycles of gprof are the strong components

A call of `dfn` leaves the stack as it was and settles the arc that led to it (`dfn_spec`), so that the
numbering of all functions tells the strong components of the call graph apart (`numberAll_cycles`).
-/
import Cctools.Gprof.Visits

namespace Cctools.Gprof

set_option autoImplicit false

open Cctools.Theory Relation

variable {nname : Nat}

section Numbered

variable {arcs : Arcs nname}

/-- How `dfn` ends: with the stack as it was and the arc that led to the function settled, or out of its
depth, with more functions than there is room for on the stack. -/
def Ends (arcs : Arcs nname) (s : Numbering nname) (parentp : Fin nname) :
    Except DfnError (Numbering nname) → Prop
  | .error error => error = .outOfMyDepth ∧ dfnDepthLimit ≤ nname
  | .ok s' => Good arcs s' ∧ s'.dfnStack = s.dfnStack ∧ Later s s' ∧ s'.toporder parentp ≠ dfnNan ∧
      ∀ top below, s.dfnStack = top :: below → Settled s' top parentp

variable {parentp : Fin nname}

theorem children_spec {room : Nat} {below : List (Fin nname)}
    (each : ∀ s childp, Good arcs s → s.dfnStack = parentp :: below → arcs.Calls parentp childp →
      Ends arcs s childp (dfn arcs room s childp))
    {todo : List (Arc nname)} (among : ∀ arc ∈ todo, arcs.Calls parentp arc.childp) {s : Numbering nname}
    (good : Good arcs s) (stack : s.dfnStack = parentp :: below) :
    match todo.foldlM (fun s arc => dfn arcs room s arc.childp) s with
    | .error error => error = .outOfMyDepth ∧ dfnDepthLimit ≤ nname
    | .ok s' => Good arcs s' ∧ s'.dfnStack = parentp :: below ∧ Later s s' ∧
        ∀ arc ∈ todo, Settled s' parentp arc.childp := by
  induction todo generalizing s with
  | nil => exact ⟨good, stack, .refl s, fun _ member => by cases member⟩
  | cons arc rest ih =>
    have here := each s arc.childp good stack (among arc List.mem_cons_self)
    rw [List.foldlM_cons]
    cases ran : dfn arcs room s arc.childp with
    | error error =>
      rw [ran] at here
      exact here
    | ok middle =>
      rw [ran] at here
      obtain ⟨good', kept, later, -, settled⟩ := here
      have onward := ih (fun arc member => among arc (List.mem_cons_of_mem _ member)) good' (kept.trans stack)
      have busy : middle.toporder parentp = dfnBusyMark :=
        good'.onStack parentp (by rw [kept, stack]; exact List.mem_cons_self)
      show match rest.foldlM (fun s arc => dfn arcs room s arc.childp) middle with
        | .error error => _
        | .ok s' => _
      cases more : rest.foldlM (fun s arc => dfn arcs room s arc.childp) middle with
      | error error =>
        rw [more] at onward
        exact onward
      | ok last =>
        rw [more] at onward
        obtain ⟨good'', stack'', later', others⟩ := onward
        refine ⟨good'', stack'', later.trans later' (fun u => (good'.ranked u).2) good.counted, ?_⟩
        intro child member
        rcases List.mem_cons.mp member with rfl | among'
        · exact (settled parentp below stack).later good' later' (by rw [busy]; decide)
        · exact others child among'

/-- What `dfn` does at a function that is numbered or busy. -/
theorem seen_spec {s : Numbering nname} (good : Good arcs s)
    (called : ∀ top below, s.dfnStack = top :: below → arcs.Calls top parentp)
    (seen : s.toporder parentp ≠ dfnNan) :
    Ends arcs s parentp (if s.dfnNumbered parentp then .ok s else s.dfnFindcycle parentp) := by
  by_cases busy : s.toporder parentp = dfnBusyMark
  · have notNumbered : ¬ s.dfnNumbered parentp := by simp [Numbering.dfnNumbered, busy]
    rw [if_neg notNumbered]
    cases stack : s.dfnStack with
    | nil =>
      have inside := good.busy parentp busy
      rw [stack] at inside
      cases inside
    | cons top below =>
      obtain ⟨s', ran, good', kept, toporder, later, headed⟩ :=
        dfnFindcycle_spec good stack busy (called top below stack)
      rw [ran]
      refine ⟨good', kept, later, later.seen parentp seen, fun top' below' first => ?_⟩
      obtain ⟨rfl, -⟩ := List.cons.inj (stack.symm.trans first)
      exact .inl headed
  · have numbered : s.dfnNumbered parentp := by simp [Numbering.dfnNumbered, busy, seen]
    rw [if_pos numbered]
    refine ⟨good, rfl, .refl s, seen, fun top below first => .inr ⟨?_, .inl ?_⟩⟩
    · have natural := (good.ranked parentp).2.resolve_left busy
      exact lt_of_le_of_ne natural (Ne.symm seen)
    · exact good.onStack top (by rw [first]; exact List.mem_cons_self)

/-- **`dfn` keeps the numbering good.** -/
theorem dfn_spec {room : Nat} {s : Numbering nname} (good : Good arcs s)
    (deep : s.dfnStack.length + room = dfnDepthLimit - 1)
    (called : ∀ top below, s.dfnStack = top :: below → arcs.Calls top parentp) :
    Ends arcs s parentp (dfn arcs room s parentp) := by
  induction room generalizing s parentp with
  | zero =>
    by_cases seen : s.toporder parentp = dfnNan
    · have passed : dfn arcs 0 s parentp = .error .outOfMyDepth := by
        rw [dfn, if_neg (by simp [Numbering.dfnNumbered, seen]), if_neg (by simp [Numbering.dfnBusy, seen])]
      have outside : parentp ∉ s.dfnStack := by
        intro member
        rw [good.onStack parentp member] at seen
        cases seen
      have many := (List.nodup_cons.mpr ⟨outside, good.distinct⟩).length_le_card
      rw [passed]
      refine ⟨rfl, ?_⟩
      simp only [dfnDepthLimit, List.length_cons, Fintype.card_fin] at deep many ⊢
      omega
    · have same := seen_spec good called seen
      rw [dfn]
      simpa [Numbering.dfnBusy, seen] using same
  | succ room ih =>
    by_cases seen : s.toporder parentp = dfnNan
    · obtain ⟨pushed, first⟩ := dfnPreVisit_spec good seen called
      have each : ∀ s' childp, Good arcs s' → s'.dfnStack = parentp :: s.dfnStack → arcs.Calls parentp childp →
          Ends arcs s' childp (dfn arcs room s' childp) := by
        intro s' childp good' stack calls
        refine ih good' (by rw [stack, List.length_cons]; omega) fun top below split => ?_
        obtain ⟨rfl, -⟩ := List.cons.inj (stack.symm.trans split)
        exact calls
      have among : ∀ arc ∈ arcs.children parentp, arcs.Calls parentp arc.childp :=
        fun arc member => ⟨arc, member, rfl⟩
      have loop := children_spec each among pushed rfl
      rw [dfn, if_neg (by simp [Numbering.dfnNumbered, seen]), if_neg (by simp [Numbering.dfnBusy, seen])]
      cases ran : (arcs.children parentp).foldlM (fun s arc => dfn arcs room s arc.childp) (s.dfnPreVisit parentp) with
      | error error =>
        rw [ran] at loop
        exact loop
      | ok middle =>
        rw [ran] at loop
        obtain ⟨good', stack, later, settled⟩ := loop
        have done : ∀ v, arcs.Calls parentp v → Settled middle parentp v := by
          rintro v ⟨arc, member, rfl⟩
          exact settled arc member
        obtain ⟨last, posted, good'', kept, later', final⟩ := dfnPostVisit_spec good' stack done
        show Ends arcs s parentp (middle.dfnPostVisit parentp)
        rw [posted]
        have whole : Later s last :=
          (first.trans later (fun u => (pushed.ranked u).2) good.counted).trans later'
            (fun u => (good'.ranked u).2) good.counted
        have busy : middle.toporder parentp = dfnBusyMark :=
          good'.onStack parentp (by rw [stack]; exact List.mem_cons_self)
        refine ⟨good'', kept, whole, later'.seen parentp (by rw [busy]; decide), fun top below split => ?_⟩
        rcases final top below split with numbered | same
        · refine .inr ⟨numbered, .inl ?_⟩
          exact good''.onStack top (by rw [kept, split]; exact List.mem_cons_self)
        · exact .inl same
    · have same := seen_spec good called seen
      rw [dfn]
      simpa [Numbering.dfnBusy, seen] using same

theorem start_good : Good arcs (.start nname) where
  distinct := List.nodup_nil
  path := .nil
  segmented := trivial
  headed _ := rfl
  level _ := rfl
  onStack _ member := by cases member
  busy _ busy := by cases busy
  fresh _ _ := ⟨rfl, rfl⟩
  listed h _ := ⟨[h], .last rfl, List.nodup_singleton h, fun u => by simp [Numbering.start, eq_comm]⟩
  ranked _ := ⟨le_refl _, .inr (le_refl _)⟩
  apart _ _ numbered := absurd numbered (lt_irrefl _)
  joined u v same := by
    obtain rfl : u = v := same
    exact .refl u
  settled _ _ seen := absurd rfl seen
  counted := le_refl _
  smooth := rfl

theorem number_spec {todo : List (Fin nname)} {s : Numbering nname} (good : Good arcs s) (empty : s.dfnStack = []) :
    match number arcs todo s with
    | .error error => error = .outOfMyDepth ∧ dfnDepthLimit ≤ nname
    | .ok s' => Good arcs s' ∧ s'.dfnStack = [] ∧ Later s s' ∧ ∀ u ∈ todo, s'.toporder u ≠ dfnNan := by
  induction todo generalizing s with
  | nil => exact ⟨good, empty, .refl s, fun _ member => by cases member⟩
  | cons parentp rest ih =>
    by_cases fresh : s.toporder parentp = dfnNan
    · have visited : Ends arcs s parentp (dfn arcs (dfnDepthLimit - 1) s parentp) :=
        dfn_spec good (by simp [empty]) fun top below split => by rw [empty] at split; cases split
      rw [number, if_pos fresh]
      cases ran : dfn arcs (dfnDepthLimit - 1) s parentp with
      | error error =>
        rw [ran] at visited
        exact visited
      | ok middle =>
        rw [ran] at visited
        obtain ⟨good', kept, later, seen, -⟩ := visited
        have onward := ih good' (kept.trans empty)
        show match number arcs rest middle with
          | .error error => _
          | .ok s' => _
        cases more : number arcs rest middle with
        | error error =>
          rw [more] at onward
          exact onward
        | ok last =>
          rw [more] at onward
          obtain ⟨good'', empty', later', others⟩ := onward
          refine ⟨good'', empty', later.trans later' (fun u => (good'.ranked u).2) good.counted, ?_⟩
          intro u member
          rcases List.mem_cons.mp member with rfl | among
          · exact later'.seen u seen
          · exact others u among
    · have onward := ih good empty
      rw [number, if_neg fresh]
      cases more : number arcs rest s with
      | error error =>
        rw [more] at onward
        exact onward
      | ok last =>
        rw [more] at onward
        obtain ⟨good'', empty', later', others⟩ := onward
        refine ⟨good'', empty', later', fun u member => ?_⟩
        rcases List.mem_cons.mp member with rfl | among
        · exact later'.seen u fresh
        · exact others u among

/-- What the numbering is for: the cycle heads tell the strong components of the call graph apart, the members
of each are listed along `cnext`, once each, and arcs between components lead to lower numbers. -/
structure Numbering.Cycles (arcs : Arcs nname) (s : Numbering nname) : Prop where
  components : ∀ u v, s.cyclehead u = s.cyclehead v ↔ Mutual arcs.Calls u v
  headed : ∀ u, s.cyclehead (s.cyclehead u) = s.cyclehead u
  listed : ∀ u, ∃ members, s.members (s.cyclehead u) = .ok members ∧ members.Nodup ∧
    ∀ v, v ∈ members ↔ Mutual arcs.Calls u v
  numbered : ∀ u, 0 < s.toporder u
  level : ∀ u v, s.toporder u = s.toporder v ↔ Mutual arcs.Calls u v
  descends : ∀ u v, ReflTransGen arcs.Calls u v → ¬ Mutual arcs.Calls u v → s.toporder v < s.toporder u
  smooth : s.botches = 0

/-- **The cycles of gprof are the strong components of its call graph**, numbered from the callees to their
callers.  The numbering fails only out of its depth, and not with fewer functions than that. -/
theorem numberAll_cycles (arcs : Arcs nname) :
    match numberAll arcs with
    | .error error => error = .outOfMyDepth ∧ dfnDepthLimit ≤ nname
    | .ok s => s.Cycles arcs := by
  have spec := @number_spec nname arcs (List.finRange nname) (.start nname) start_good rfl
  rw [numberAll]
  cases ran : number arcs (List.finRange nname) (.start nname) with
  | error error =>
    rw [ran] at spec
    exact spec
  | ok s =>
    rw [ran] at spec
    obtain ⟨good, empty, -, seen⟩ := spec
    have positive : ∀ u, 0 < s.toporder u := by
      intro u
      have notBusy : s.toporder u ≠ dfnBusyMark := by
        intro busy
        have inside := good.busy u busy
        rw [empty] at inside
        cases inside
      have natural := (good.ranked u).2.resolve_left notBusy
      exact lt_of_le_of_ne natural (Ne.symm (seen u (List.mem_finRange u)))
    have condenses : Condenses arcs.Calls s.cyclehead s.toporder := by
      refine ⟨fun u v calls => ?_, fun u v same => ?_, good.joined⟩
      · have settled := good.settled u (by rw [empty]; exact List.not_mem_nil) (seen u (List.mem_finRange u)) v calls
        refine settled.imp_right fun ⟨_, order⟩ => order.resolve_left fun busy => ?_
        have := positive u
        rw [busy] at this
        cases this
      · rw [← good.level u, ← good.level v, same]
    refine ⟨condenses.label_eq_iff, good.headed, fun u => ?_, positive, fun u v => ⟨fun same => ?_, fun both => ?_⟩,
      fun u v reaches apart => condenses.rank_lt reaches apart, good.smooth⟩
    · obtain ⟨members, walk, distinct, listed⟩ := good.listed (s.cyclehead u) (good.headed u)
      refine ⟨members, Numbering.members_of_walk walk distinct, distinct, fun v => ?_⟩
      rw [listed, eq_comm, condenses.label_eq_iff]
    · exact good.joined u v (good.apart u v (positive u) same)
    · exact condenses.level u v ((condenses.label_eq_iff u v).mpr both)

end Numbered

end Cctools.Gprof
