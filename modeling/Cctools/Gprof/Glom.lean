/-
# Cctools.Gprof.Glom -- joining the functions of a cycle

What `dfn` keeps (`Good`): the stack is a path of the call graph, cut into segments whose functions have
one cycle head, the lowest of the segment; the functions of a head are listed along `cnext`, reach each
other, and are numbered together once the head leaves the stack.  Every arc of a function that has left
the stack is `Settled`: it stays in its cycle, or leads to a function that was numbered before.

`dfnFindcycle_spec`: a busy child joins the segments down to its own, and nothing else changes.
-/
import Cctools.Gprof.Dfn

namespace Cctools.Gprof

set_option autoImplicit false

open Cctools.Theory Relation

variable {nname : Nat}

/-! ## Loops along cnext -/

theorem visited_of_walk {cnext : Fin nname → Option (Fin nname)} {memberp : Fin nname} {members : List (Fin nname)}
    (walk : Walk cnext memberp members) {fuel : Nat} (short : members.length ≤ fuel) :
    visited cnext fuel memberp = some members := by
  induction walk generalizing fuel with
  | last stop =>
    obtain ⟨fuel, rfl⟩ : ∃ less, fuel = less + 1 := ⟨fuel - 1, by simp at short; omega⟩
    simp [visited, stop]
  | step go _ ih =>
    obtain ⟨fuel, rfl⟩ : ∃ less, fuel = less + 1 := ⟨fuel - 1, by simp at short; omega⟩
    simp only [visited, go, ih (by simpa using short), Option.map_some]

theorem Numbering.members_of_walk {s : Numbering nname} {memberp : Fin nname} {members : List (Fin nname)}
    (walk : Walk s.cnext memberp members) (distinct : members.Nodup) : s.members memberp = .ok members := by
  have short : members.length ≤ nname := by simpa using distinct.length_le_card
  rw [Numbering.members, visited_of_walk walk short]

/-! ## Segments of the stack -/

/-- A function on the stack is its own cycle head, or has that of the function below it. -/
def Segmented (cyclehead : Fin nname → Fin nname) : List (Fin nname) → Prop
  | [] => True
  | [v] => cyclehead v = v
  | v :: u :: rest => (cyclehead v = v ∨ cyclehead v = cyclehead u) ∧ Segmented cyclehead (u :: rest)

namespace Segmented

variable {cyclehead : Fin nname → Fin nname}

theorem tail {v : Fin nname} {rest : List (Fin nname)} (segmented : Segmented cyclehead (v :: rest)) :
    Segmented cyclehead rest := by
  cases rest with
  | nil => trivial
  | cons u rest => exact segmented.2

theorem head_mem {v : Fin nname} {rest : List (Fin nname)} (segmented : Segmented cyclehead (v :: rest)) :
    cyclehead v ∈ v :: rest := by
  induction rest generalizing v with
  | nil => exact List.mem_singleton.mpr segmented
  | cons u rest ih =>
    rcases segmented.1 with own | same
    · rw [own]
      exact List.mem_cons_self
    · rw [same]
      exact List.mem_cons_of_mem _ (ih segmented.2)

/-- The cycle head of a function lies on the stack, and not above it. -/
theorem mem {stack : List (Fin nname)} (segmented : Segmented cyclehead stack) {u : Fin nname} (member : u ∈ stack) :
    cyclehead u ∈ stack := by
  induction stack with
  | nil => cases member
  | cons v rest ih =>
    rcases List.mem_cons.mp member with rfl | later
    · exact segmented.head_mem
    · exact List.mem_cons_of_mem _ (ih segmented.tail later)

theorem drop {above below : List (Fin nname)} (segmented : Segmented cyclehead (above ++ below)) :
    Segmented cyclehead below := by
  induction above with
  | nil => exact segmented
  | cons v rest ih => exact ih segmented.tail

theorem push {stack : List (Fin nname)} (segmented : Segmented cyclehead stack) {v : Fin nname}
    (own : cyclehead v = v) : Segmented cyclehead (v :: stack) := by
  cases stack with
  | nil => exact own
  | cons u rest => exact ⟨.inl own, segmented⟩

section Rename

variable {x h : Fin nname}

/-- The cycle head `x` gives way to `h`. -/
def rename (x h head : Fin nname) : Fin nname := if head = x then h else head

theorem rename_of_notMem {stack : List (Fin nname)} (segmented : Segmented cyclehead stack) (outside : x ∉ stack) :
    Segmented (fun v => rename x h (cyclehead v)) stack := by
  have kept : ∀ v ∈ stack, cyclehead v = v → rename x h (cyclehead v) = v := by
    intro v member own
    rw [own, rename, if_neg fun same : v = x => outside (same ▸ member)]
  induction stack with
  | nil => trivial
  | cons v rest ih =>
    have outside' : x ∉ rest := fun member => outside (List.mem_cons_of_mem _ member)
    cases rest with
    | nil => exact kept v List.mem_cons_self segmented
    | cons u rest =>
      refine ⟨?_, ih segmented.2 outside' fun w member => kept w (List.mem_cons_of_mem _ member)⟩
      rcases segmented.1 with own | same
      · exact .inl (kept v List.mem_cons_self own)
      · exact .inr (congrArg (rename x h) same)

theorem join {above below : List (Fin nname)} {y : Fin nname}
    (segmented : Segmented cyclehead (above ++ x :: y :: below)) (distinct : (above ++ x :: y :: below).Nodup)
    (own : cyclehead x = x) (headed : cyclehead y = h) (other : h ≠ x) :
    Segmented (fun v => rename x h (cyclehead v)) (above ++ x :: y :: below) := by
  induction above with
  | nil =>
    have outside : x ∉ y :: below := (List.nodup_cons.mp distinct).1
    refine ⟨.inr ?_, rename_of_notMem segmented.2 outside⟩
    simp only [own, headed, rename, if_true, if_neg other]
  | cons v rest ih =>
    have onward := ih segmented.tail (List.nodup_cons.mp distinct).2
    have notX : v ≠ x := fun same => (List.nodup_cons.mp distinct).1 (by simp [same])
    have here : ∀ u tail, rest ++ x :: y :: below = u :: tail →
        rename x h (cyclehead v) = v ∨ rename x h (cyclehead v) = rename x h (cyclehead u) := by
      intro u tail split
      have first : cyclehead v = v ∨ cyclehead v = cyclehead u := by
        rw [List.cons_append, split] at segmented
        exact segmented.1
      rcases first with own | same
      · exact .inl (by rw [own, rename, if_neg notX])
      · exact .inr (congrArg (rename x h) same)
    cases split : rest ++ x :: y :: below with
    | nil => simp at split
    | cons u tail =>
      rw [split] at onward
      rw [List.cons_append, split]
      exact ⟨here u tail split, onward⟩

end Rename

end Segmented

/-! ## What the numbering keeps -/

/-- The arc stays in its cycle, or leads to a function that was numbered before. -/
def Settled (s : Numbering nname) (u v : Fin nname) : Prop :=
  s.cyclehead u = s.cyclehead v ∨ 0 < s.toporder v ∧ (s.toporder u = dfnBusyMark ∨ s.toporder v < s.toporder u)

structure Good (arcs : Arcs nname) (s : Numbering nname) : Prop where
  distinct : s.dfnStack.Nodup
  path : s.dfnStack.IsChain fun later earlier => arcs.Calls earlier later
  segmented : Segmented s.cyclehead s.dfnStack
  headed : ∀ u, s.cyclehead (s.cyclehead u) = s.cyclehead u
  level : ∀ u, s.toporder (s.cyclehead u) = s.toporder u
  onStack : ∀ u ∈ s.dfnStack, s.toporder u = dfnBusyMark
  busy : ∀ u, s.toporder u = dfnBusyMark → s.cyclehead u ∈ s.dfnStack
  fresh : ∀ u, s.toporder u = dfnNan → s.cyclehead u = u ∧ s.cnext u = none
  listed : ∀ h, s.cyclehead h = h → ∃ members, Walk s.cnext h members ∧ members.Nodup ∧
    ∀ u, u ∈ members ↔ s.cyclehead u = h
  ranked : ∀ u, s.toporder u ≤ s.dfnCounter ∧ (s.toporder u = dfnBusyMark ∨ 0 ≤ s.toporder u)
  apart : ∀ u v, 0 < s.toporder u → s.toporder u = s.toporder v → s.cyclehead u = s.cyclehead v
  joined : ∀ u v, s.cyclehead u = s.cyclehead v → Mutual arcs.Calls u v
  settled : ∀ u, u ∉ s.dfnStack → s.toporder u ≠ dfnNan → ∀ v, arcs.Calls u v → Settled s u v
  counted : 0 ≤ s.dfnCounter
  smooth : s.botches = 0

/-- What a later state keeps of an earlier one. -/
structure Later (s s' : Numbering nname) : Prop where
  numbered : ∀ u, 0 < s.toporder u → s'.toporder u = s.toporder u
  joined : ∀ u v, s.cyclehead u = s.cyclehead v → s'.cyclehead u = s'.cyclehead v
  seen : ∀ u, s.toporder u ≠ dfnNan → s'.toporder u ≠ dfnNan
  busy : ∀ u, s.toporder u = dfnBusyMark → s'.toporder u = dfnBusyMark ∨ s.dfnCounter < s'.toporder u
  fresh : ∀ u, s.toporder u = dfnNan → s'.toporder u ≤ 0 ∨ s.dfnCounter < s'.toporder u
  counted : s.dfnCounter ≤ s'.dfnCounter

namespace Later

theorem refl (s : Numbering nname) : Later s s where
  numbered _ _ := rfl
  joined _ _ same := same
  seen _ seen := seen
  busy _ busy := .inl busy
  fresh _ fresh := .inl (by simp [fresh, dfnNan])
  counted := le_refl _

theorem trans {first second third : Numbering nname} (one : Later first second) (two : Later second third)
    (ranked : ∀ u, second.toporder u = dfnBusyMark ∨ 0 ≤ second.toporder u) (positive : 0 ≤ first.dfnCounter) :
    Later first third where
  numbered u numbered := by
    have here := one.numbered u numbered
    rw [two.numbered u (by omega), here]
  joined u v same := two.joined u v (one.joined u v same)
  seen u seen := two.seen u (one.seen u seen)
  busy u busy := by
    rcases one.busy u busy with still | new
    · rcases two.busy u still with still | new
      · exact .inl still
      · exact .inr (lt_of_le_of_lt one.counted new)
    · exact .inr (by rw [two.numbered u (by omega)]; exact new)
  fresh u fresh := by
    rcases one.fresh u fresh with low | new
    · rcases ranked u with mark | natural
      · rcases two.busy u mark with still | new
        · exact .inl (by simp [still, dfnBusyMark])
        · exact .inr (lt_of_le_of_lt one.counted new)
      · have nan : second.toporder u = dfnNan := by simp only [dfnNan]; omega
        exact (two.fresh u nan).imp_right (lt_of_le_of_lt one.counted)
    · exact .inr (by rw [two.numbered u (by omega)]; exact new)
  counted := one.counted.trans two.counted

end Later

theorem Settled.later {arcs : Arcs nname} {s s' : Numbering nname} (good : Good arcs s) (later : Later s s')
    {u v : Fin nname} (seen : s.toporder u ≠ dfnNan) (settled : Settled s u v) : Settled s' u v := by
  rcases settled with same | ⟨numbered, order⟩
  · exact .inl (later.joined u v same)
  · have kept := later.numbered v numbered
    refine .inr ⟨by rw [kept]; exact numbered, ?_⟩
    rcases (good.ranked u).2 with mark | natural
    · rcases later.busy u mark with still | new
      · exact .inl still
      · exact .inr (by rw [kept]; exact lt_of_le_of_lt (good.ranked v).1 new)
    · have positive : 0 < s.toporder u := lt_of_le_of_ne natural (Ne.symm seen)
      rcases order with mark | below
      · simp only [dfnBusyMark] at mark
        omega
      · exact .inr (by rw [kept, later.numbered u positive]; exact below)

/-! ## Glomming -/

section Glom

variable {arcs : Arcs nname} {s : Numbering nname}

/-- The function `x` of the stack is glommed onto the cycle of `h`, to which the function below it belongs. -/
def Numbering.glommed (s : Numbering nname) (h t x : Fin nname) (members : List (Fin nname)) : Numbering nname :=
  (s.link t x).glomMembers h members

theorem Good.stack_busy (good : Good arcs s) {u : Fin nname} (member : s.cyclehead u ∈ s.dfnStack) :
    s.toporder u = dfnBusyMark := by
  rw [← good.level u]
  exact good.onStack _ member

/-- What is glommed: the list of `x` follows that of `h`, and is found along `cnext`. -/
theorem Good.glom_members (good : Good arcs s) {x h t : Fin nname} (own : s.cyclehead x = x)
    (belongs : s.cyclehead t = h) (other : h ≠ x) :
    ∃ members, Walk (s.link t x).cnext x members ∧ Walk s.cnext x members ∧ members.Nodup ∧
      (∀ u, u ∈ members ↔ s.cyclehead u = x) ∧ (s.link t x).members x = .ok members := by
  obtain ⟨members, walk, distinct, listed⟩ := good.listed x own
  have outside : t ∉ members := fun member => other (belongs ▸ (listed t).mp member)
  have kept : Walk (s.link t x).cnext x members := by
    refine walk.congr fun u member => Function.update_of_ne ?_ _ _
    rintro rfl
    exact outside member
  exact ⟨members, kept, walk, distinct, listed, Numbering.members_of_walk kept distinct⟩

/-- **Glomming keeps the numbering good**: the two cycles become one. -/
theorem Good.glom_one (good : Good arcs s) {above below before members : List (Fin nname)} {x y h t : Fin nname}
    (stack : s.dfnStack = above ++ x :: y :: below) (own : s.cyclehead x = x) (headed : s.cyclehead y = h)
    (walk : Walk s.cnext h (before ++ [t])) (both : Mutual arcs.Calls x h)
    (glommed : Walk (s.link t x).cnext x members) (listed : ∀ u, u ∈ members ↔ s.cyclehead u = x)
    (distinct : members.Nodup) :
    Good arcs (s.glommed h t x members) ∧
      Walk (s.glommed h t x members).cnext h ((before ++ [t]) ++ members) ∧
      ∀ u, (s.glommed h t x members).cyclehead u = Segmented.rename x h (s.cyclehead u) := by
  have heads : ∀ u, (s.glommed h t x members).cyclehead u = Segmented.rename x h (s.cyclehead u) := by
    intro u
    show (if u ∈ members then h else s.cyclehead u) = _
    simp only [Segmented.rename, listed u]
  have own_h : s.cyclehead h = h := by rw [← headed, good.headed]
  have xIn : x ∈ s.dfnStack := by simp [stack]
  have hIn : h ∈ s.dfnStack := by
    rw [← headed]
    exact good.segmented.mem (by simp [stack])
  have other : h ≠ x := by
    have nodup := good.distinct
    rw [stack] at nodup
    have inside : h ∈ y :: below := by
      rw [← headed]
      have segmented := good.segmented
      rw [stack] at segmented
      exact segmented.drop.2.head_mem
    rintro rfl
    exact (List.nodup_cons.mp (List.nodup_append.mp nodup).2.1).1 inside
  obtain ⟨all, walk', distinct_h, listed_h⟩ := good.listed h own_h
  obtain rfl := walk'.unique walk
  have t_h : s.cyclehead t = h := (listed_h t).mp (by simp)
  have t_busy : s.toporder t = dfnBusyMark := good.stack_busy (by rw [t_h]; exact hIn)
  have x_busy : s.toporder x = dfnBusyMark := good.onStack x xIn
  have before_kept : ∀ u ∈ before, (s.link t x).cnext u = s.cnext u := by
    intro u member
    refine Function.update_of_ne ?_ _ _
    rintro rfl
    exact (List.nodup_append.mp distinct_h).2.2 u member u List.mem_cons_self rfl
  have joined_walk : Walk (s.link t x).cnext h ((before ++ [t]) ++ members) :=
    walk.append rfl before_kept (Function.update_self _ _ _) glommed
  -- the heads that two functions have in common now are one cycle of before, or the two that are joined
  have same_cases : ∀ u v, Segmented.rename x h (s.cyclehead u) = Segmented.rename x h (s.cyclehead v) →
      s.cyclehead u = s.cyclehead v ∨ s.cyclehead u = x ∧ s.cyclehead v = h ∨
        s.cyclehead u = h ∧ s.cyclehead v = x := by
    intro u v same
    unfold Segmented.rename at same
    split at same <;> rename_i first <;> split at same <;> rename_i second
    · exact .inl (first.trans second.symm)
    · exact .inr (.inl ⟨first, same.symm⟩)
    · exact .inr (.inr ⟨same, second⟩)
    · exact .inl same
  have to_head : ∀ u w, s.cyclehead u = w → s.cyclehead w = w → Mutual arcs.Calls u w := by
    intro u w is self
    exact good.joined u w (is.trans self.symm)
  refine ⟨⟨good.distinct, good.path, ?_, ?_, ?_, good.onStack, ?_, ?_, ?_, good.ranked, ?_, ?_, ?_, good.counted,
    good.smooth⟩, joined_walk, heads⟩
  · show Segmented (s.glommed h t x members).cyclehead s.dfnStack
    rw [funext heads, stack]
    refine Segmented.join ?_ ?_ own headed other
    · rw [← stack]
      exact good.segmented
    · rw [← stack]
      exact good.distinct
  · intro u
    rw [heads, heads]
    by_cases isX : s.cyclehead u = x
    · simp only [Segmented.rename, isX, if_true, own_h, if_neg other]
    · simp only [Segmented.rename, if_neg isX, good.headed]
  · intro u
    rw [heads]
    show s.toporder _ = s.toporder u
    by_cases isX : s.cyclehead u = x
    · rw [Segmented.rename, if_pos isX, good.onStack h hIn, ← good.level u, isX, x_busy]
    · rw [Segmented.rename, if_neg isX, good.level]
  · intro u busy
    rw [heads]
    by_cases isX : s.cyclehead u = x
    · rw [Segmented.rename, if_pos isX]
      exact hIn
    · rw [Segmented.rename, if_neg isX]
      exact good.busy u busy
  · intro u fresh
    have nan : s.toporder u = dfnNan := fresh
    obtain ⟨self, stop⟩ := good.fresh u nan
    have notX : u ≠ x := by
      rintro rfl
      rw [x_busy] at nan
      cases nan
    have notT : u ≠ t := by
      rintro rfl
      rw [t_busy] at nan
      cases nan
    refine ⟨by rw [heads, self, Segmented.rename, if_neg notX], ?_⟩
    exact (Function.update_of_ne notT _ _).trans stop
  · intro z self
    rw [heads] at self
    by_cases isX : s.cyclehead z = x
    · rw [Segmented.rename, if_pos isX] at self
      rw [← self, own_h] at isX
      exact absurd isX other
    · rw [Segmented.rename, if_neg isX] at self
      by_cases isH : z = h
      · subst isH
        refine ⟨_, joined_walk, ?_, ?_⟩
        · rw [List.nodup_append]
          refine ⟨distinct_h, distinct, fun u inH v inX same => ?_⟩
          subst same
          exact other (((listed_h u).mp inH).symm.trans ((listed u).mp inX))
        · intro u
          rw [List.mem_append, listed_h, listed, heads, Segmented.rename]
          by_cases isX' : s.cyclehead u = x <;> simp [isX', other.symm]
      · obtain ⟨own_members, own_walk, own_distinct, own_listed⟩ := good.listed z self
        refine ⟨own_members, own_walk.congr fun u member => Function.update_of_ne ?_ _ _, own_distinct, ?_⟩
        · rintro rfl
          exact isH (((own_listed u).mp member).symm.trans t_h)
        · intro u
          rw [own_listed, heads, Segmented.rename]
          have notX : z ≠ x := fun same => isX (self.trans same)
          by_cases isX' : s.cyclehead u = x
          · simp only [isX', if_true]
            exact ⟨fun same => absurd same.symm notX, fun same => absurd same.symm isH⟩
          · simp only [if_neg isX']
  · intro u v numbered same
    rw [heads, heads]
    exact congrArg _ (good.apart u v numbered same)
  · intro u v same
    rw [heads, heads] at same
    rcases same_cases u v same with one | ⟨toX, toH⟩ | ⟨toH, toX⟩
    · exact good.joined u v one
    · exact (to_head u x toX own).trans (both.trans (to_head v h toH own_h).symm)
    · exact (to_head u h toH own_h).trans (both.symm.trans (to_head v x toX own).symm)
  · intro u off seen v calls
    rcases good.settled u off seen v calls with one | earlier
    · exact .inl (by rw [heads, heads, one])
    · exact .inr earlier

/-- The state after a step in which nothing was numbered and cycles were only joined. -/
theorem Later.of_joined {s s' : Numbering nname} (same : s'.toporder = s.toporder)
    (counter : s'.dfnCounter = s.dfnCounter)
    (joined : ∀ u v, s.cyclehead u = s.cyclehead v → s'.cyclehead u = s'.cyclehead v) : Later s s' where
  numbered u _ := by rw [same]
  joined := joined
  seen u seen := by rwa [same]
  busy u busy := .inl (by rwa [same])
  fresh u fresh := .inl (by rw [same, fresh]; exact le_refl _)
  counted := counter.ge

/-- The functions above the top of the cycle, from below. -/
theorem glom_spec {h : Fin nname} {pending : List (Fin nname)} {s : Numbering nname} (good : Good arcs s)
    {below before : List (Fin nname)} {y t : Fin nname} (stack : s.dfnStack = pending.reverse ++ y :: below)
    (headed : s.cyclehead y = h) (walk : Walk s.cnext h (before ++ [t]))
    (both : ∀ x ∈ pending, Mutual arcs.Calls x h) :
    ∃ s', Numbering.glom h pending t s = .ok s' ∧ Good arcs s' ∧ s'.dfnStack = s.dfnStack ∧
      s'.toporder = s.toporder ∧ Later s s' ∧ ∀ top rest, s.dfnStack = top :: rest → s'.cyclehead top = h := by
  induction pending generalizing s below before y t with
  | nil =>
    refine ⟨s, rfl, good, rfl, rfl, .refl s, fun top rest first => ?_⟩
    obtain ⟨rfl, -⟩ := List.cons.inj (first.symm.trans stack)
    exact headed
  | cons x more ih =>
    rw [List.reverse_cons, List.append_assoc, List.singleton_append] at stack
    have own_h : s.cyclehead h = h := by rw [← headed, good.headed]
    by_cases own : s.cyclehead x = x
    · have belongs : s.cyclehead t = h := by
        obtain ⟨all, walk', -, listed⟩ := good.listed h own_h
        obtain rfl := walk'.unique walk
        exact (listed t).mp (by simp)
      have other : h ≠ x := by
        have nodup := good.distinct
        have segmented := good.segmented
        rw [stack] at nodup segmented
        rintro rfl
        refine (List.nodup_cons.mp (List.nodup_append.mp nodup).2.1).1 ?_
        rw [← headed]
        exact segmented.drop.2.head_mem
      obtain ⟨members, glommed, -, distinct, listed, run⟩ := good.glom_members own belongs other
      obtain ⟨good', joined, heads⟩ :=
        good.glom_one stack own headed walk (both x List.mem_cons_self) glommed listed distinct
      obtain ⟨initial, last, split, -⟩ := glommed.ends
      have joined' : Walk (s.glommed h t x members).cnext h ((before ++ [t] ++ initial) ++ [last]) := by
        rw [List.append_assoc, ← split]
        exact joined
      have headed' : (s.glommed h t x members).cyclehead x = h := by
        rw [heads, own, Segmented.rename, if_pos rfl]
      obtain ⟨s', ran, good'', stack', toporder, later, top⟩ :=
        @ih (s.glommed h t x members) good' _ _ _ _ stack headed' joined'
          fun z member => both z (List.mem_cons_of_mem _ member)
      have first : Later s (s.glommed h t x members) :=
        .of_joined rfl rfl fun u v same => by rw [heads, heads, same]
      refine ⟨s', ?_, good'', stack', toporder, first.trans later (fun u => (good'.ranked u).2) good.counted, top⟩
      rw [Numbering.glom, if_pos own]
      simp only [run, Bind.bind, Except.bind]
      rw [split, List.getLastD_concat, ← split]
      exact ran
    · have headed' : s.cyclehead x = h := by
        have segmented := good.segmented
        rw [stack] at segmented
        exact (segmented.drop.1.resolve_left own).trans headed
      obtain ⟨s', ran, rest⟩ :=
        ih good stack headed' walk fun z member => both z (List.mem_cons_of_mem _ member)
      refine ⟨s', ?_, rest⟩
      rw [Numbering.glom, if_neg own, if_neg (not_not.mpr headed')]
      exact ran

theorem findTop_spec {childp : Fin nname} {stack : List (Fin nname)}
    (member : childp ∈ stack ∨ s.cyclehead childp ∈ stack) :
    ∃ above cycletop below, s.findTop childp stack = some (above, cycletop) ∧ stack = above ++ cycletop :: below ∧
      (childp = cycletop ∨ s.cyclehead childp = cycletop) := by
  induction stack with
  | nil => simp at member
  | cons top rest ih =>
    rw [Numbering.findTop]
    split
    · rename_i found
      exact ⟨[], top, rest, rfl, rfl, found.imp_right And.right⟩
    · rename_i passed
      rw [not_or, not_and] at passed
      have later : childp ∈ rest ∨ s.cyclehead childp ∈ rest := by
        rcases member with here | here <;> rcases List.mem_cons.mp here with same | later
        · exact absurd same passed.1
        · exact .inl later
        · exact absurd same (passed.2 fun self => passed.1 (self.symm.trans same))
        · exact .inr later
      obtain ⟨above, cycletop, below, found, split, which⟩ := ih later
      exact ⟨top :: above, cycletop, below, by rw [found]; rfl, by rw [split]; rfl, which⟩

/-- **A busy child closes a cycle**: the function on top of the stack gets its cycle head. -/
theorem dfnFindcycle_spec (good : Good arcs s) {top childp : Fin nname} {below : List (Fin nname)}
    (stack : s.dfnStack = top :: below) (busy : s.toporder childp = dfnBusyMark) (calls : arcs.Calls top childp) :
    ∃ s', s.dfnFindcycle childp = .ok s' ∧ Good arcs s' ∧ s'.dfnStack = s.dfnStack ∧ s'.toporder = s.toporder ∧
      Later s s' ∧ s'.cyclehead top = s'.cyclehead childp := by
  obtain ⟨above, cycletop, rest, found, split, which⟩ := findTop_spec (.inr (good.busy childp busy))
  have same_head : s.cyclehead cycletop = s.cyclehead childp := by
    rcases which with rfl | rfl
    · rfl
    · exact good.headed childp
  cases above with
  | nil =>
    obtain ⟨rfl, -⟩ := List.cons.inj (stack.symm.trans split)
    refine ⟨s, ?_, good, rfl, rfl, .refl s, same_head⟩
    rw [Numbering.dfnFindcycle, found]
  | cons first above =>
    obtain ⟨rfl, -⟩ := List.cons.inj (stack.symm.trans split)
    have cycle : ∀ x ∈ top :: above, Mutual arcs.Calls x (s.cyclehead cycletop) := by
      have path : (top :: above ++ [cycletop]).IsChain fun later earlier => arcs.Calls earlier later := by
        have whole := good.path
        rw [split, show top :: above ++ cycletop :: rest = (top :: above ++ [cycletop]) ++ rest by simp] at whole
        exact whole.left_of_append
      have back : ReflTransGen arcs.Calls top cycletop :=
        .head calls (good.joined childp cycletop same_head.symm).1
      intro x member
      exact (mutual_of_path path back member).trans (good.joined _ _ (good.headed cycletop).symm)
    obtain ⟨all, walk, distinct, listed⟩ := good.listed (s.cyclehead cycletop) (good.headed cycletop)
    obtain ⟨before, after, allSplit, onward⟩ := walk.suffix ((listed cycletop).mpr rfl)
    obtain ⟨initial, last, afterSplit, -⟩ := onward.ends
    have walk' : Walk s.cnext (s.cyclehead cycletop) ((before ++ initial) ++ [last]) := by
      rw [List.append_assoc, ← afterSplit, ← allSplit]
      exact walk
    have members : s.members cycletop = .ok after := by
      refine Numbering.members_of_walk onward ?_
      rw [allSplit] at distinct
      exact (List.nodup_append.mp distinct).2.1
    have stack' : s.dfnStack = (top :: above).reverse.reverse ++ cycletop :: rest := by
      rw [List.reverse_reverse]
      exact split
    obtain ⟨s', ran, good', kept, toporder, later, headed⟩ := glom_spec good stack' rfl walk' fun x member =>
      cycle x (List.mem_reverse.mp member)
    have top_head : s'.cyclehead top = s.cyclehead cycletop := headed top below stack
    refine ⟨s', ?_, good', kept, toporder, later, ?_⟩
    · have head : (if s.cyclehead cycletop ≠ cycletop then s.cyclehead cycletop else cycletop) =
          s.cyclehead cycletop := by
        split
        · rfl
        · rename_i self
          exact (not_not.mp self).symm
      rw [Numbering.dfnFindcycle, found]
      simp only [members, Bind.bind, Except.bind, head]
      rw [afterSplit, List.getLastD_concat]
      exact ran
    · have onward : s'.cyclehead (s.cyclehead cycletop) = s.cyclehead cycletop := by
        rw [← top_head, good'.headed]
      have child : s'.cyclehead childp = s'.cyclehead (s.cyclehead cycletop) := by
        refine later.joined _ _ ?_
        rw [good.headed, same_head]
      rw [top_head, child, onward]

end Glom

end Cctools.Gprof
