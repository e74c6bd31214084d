/-
# Cctools.Order.Chains -- what the follow-on maps say

The maps stand for chains of atoms with no atom in two of them (`Chained`).  `Attach` is what
should happen to the chains when one more atom is to come right before another one, and
`addFollowOn_attach` says for which states the code does it.

It does not where the other atom is in the middle of a chain and the atom is already the end
of one: the atom is put in with two atoms before it.
-/
import Cctools.Order.FollowOn
import Cctools.Theory.Transducer
import Mathlib.Data.List.Perm.Basic

namespace Cctools.Order

set_option autoImplicit false

open Cctools.Theory

/-! ## Chains -/

section Chains

variable {Address : Type} [DecidableEq Address]

/-- Each of the list leads to the one behind it, and the last one to `stop`. -/
def Linked (nexts : AtomToAtom Address) (stop : Option Address) : List Address → Prop
  | [] => True
  | a :: rest => nexts.get a = rest.head?.or stop ∧ Linked nexts stop rest

variable {list : List Address}

omit [DecidableEq Address] in
theorem Linked.congr {nexts other : AtomToAtom Address} {stop : Option Address}
    (same : ∀ a ∈ list, other.get a = nexts.get a) (linked : Linked nexts stop list) : Linked other stop list := by
  induction list with
  | nil => trivial
  | cons a rest ih =>
    obtain ⟨here, later⟩ := linked
    exact ⟨(same a List.mem_cons_self).trans here, ih (fun b member => same b (List.mem_cons_of_mem _ member)) later⟩

variable {nexts : AtomToAtom Address}

omit [DecidableEq Address] in
theorem linked_append {stop : Option Address} {list more : List Address} :
    Linked nexts stop (list ++ more) ↔ Linked nexts (more.head?.or stop) list ∧ Linked nexts stop more := by
  induction list with
  | nil => simp [Linked]
  | cons a rest ih => rw [List.cons_append, Linked, Linked, ih, List.head?_append, Option.or_assoc, and_assoc]

/-- The links of a chain, and for each atom of it where it begins. -/
structure IsChain (tables : Tables Address) (chain : List Address) : Prop where
  linked : Linked tables.nexts none chain
  starts : ∀ a ∈ chain, tables.starts a = some chain.head?

structure Chained (tables : Tables Address) (chains : List (List Address)) : Prop where
  isChain : ∀ chain ∈ chains, IsChain tables chain
  nodup : chains.flatten.Nodup
  unseen : ∀ a, a ∉ chains.flatten → tables.starts a = none ∧ tables.nexts.get a = none

omit [DecidableEq Address] in
theorem chained_empty : Chained (Tables.empty Address) [] := ⟨nofun, .nil, fun _ _ => ⟨rfl, rfl⟩⟩

variable {tables : Tables Address}

omit [DecidableEq Address] in
theorem Chained.perm {chains others : List (List Address)} (chained : Chained tables chains)
    (perm : chains.Perm others) : Chained tables others where
  isChain chain member := chained.isChain chain (perm.mem_iff.mpr member)
  nodup := perm.flatten.nodup_iff.mp chained.nodup
  unseen a absent := chained.unseen a fun member => absent (perm.flatten.mem_iff.mp member)

omit [DecidableEq Address] in
theorem Chained.seen_iff {chains : List (List Address)} (chained : Chained tables chains)
    (a : Address) : tables.starts a = none ↔ a ∉ chains.flatten := by
  refine ⟨fun absent member => ?_, fun absent => (chained.unseen a absent).1⟩
  obtain ⟨chain, isOne, inside⟩ := List.mem_flatten.mp member
  have start := (chained.isChain chain isOne).starts a inside
  rw [absent] at start
  cases start

omit [DecidableEq Address] in
/-- Some chains become one, and the maps change nowhere else. -/
theorem Chained.replace {tables changed : Tables Address} {others : List (List Address)} {chain : List Address}
    (olds : List (List Address)) (chained : Chained tables (olds ++ others)) (nodup : (chain ++ others.flatten).Nodup)
    (covers : ∀ a ∈ olds.flatten, a ∈ chain) (isChain : IsChain changed chain)
    (kept : ∀ a, a ∉ chain → changed.starts a = tables.starts a ∧ changed.nexts.get a = tables.nexts.get a) :
    Chained changed (chain :: others) := by
  refine ⟨?_, by rwa [List.flatten_cons], ?_⟩
  · intro other member
    obtain rfl | later := List.mem_cons.mp member
    · exact isChain
    · have old := chained.isChain other (List.mem_append_right _ later)
      have outside : ∀ a ∈ other, a ∉ chain := fun a inside here =>
        (List.nodup_append.mp nodup).2.2 a here a (List.mem_flatten.mpr ⟨other, later, inside⟩) rfl
      exact ⟨old.linked.congr fun a inside => (kept a (outside a inside)).2,
        fun a inside => (kept a (outside a inside)).1.trans (old.starts a inside)⟩
  · intro a absent
    rw [List.flatten_cons, List.mem_append, not_or] at absent
    obtain ⟨sameStarts, sameNexts⟩ := kept a absent.1
    rw [sameStarts, sameNexts]
    refine chained.unseen a ?_
    rw [List.flatten_append, List.mem_append]
    rintro (old | other)
    · exact absent.1 (covers a old)
    · exact absent.2 other

omit [DecidableEq Address] in
theorem Chained.split {chains : List (List Address)} (chained : Chained tables chains)
    {a : Address} (seen : tables.starts a ≠ none) : ∃ before after others,
      chains.Perm ((before ++ a :: after) :: others) ∧ tables.starts a = some (before ++ [a]).head? ∧
        tables.nexts.get a = after.head? := by
  have member : a ∈ chains.flatten := by
    by_contra absent
    exact seen ((chained.seen_iff a).mpr absent)
  obtain ⟨chain, isOne, inside⟩ := List.mem_flatten.mp member
  obtain ⟨first, second, rfl⟩ := List.append_of_mem isOne
  obtain ⟨before, after, rfl⟩ := List.append_of_mem inside
  have ofChain := chained.isChain _ isOne
  refine ⟨before, after, first ++ second, List.perm_middle, ?_, ?_⟩
  · rw [ofChain.starts a inside]
    cases before <;> rfl
  · rw [(linked_append.mp ofChain.linked).2.1, Option.or_none]

/-! ## The loops -/

variable {fuel : Nat} {result : Option Address × AtomToAtom Address}

theorem followerFrom_found {target prev : Address} {before after : List Address}

    (isOk : followerFrom target fuel nexts (before ++ prev :: target :: after).head? = .ok result)
    (linked : Linked nexts none (before ++ prev :: target :: after)) (nodup : (before ++ prev :: target :: after).Nodup) :
    result.1 = some prev ∧ ∀ a, result.2.get a = nexts.get a := by
  induction before generalizing fuel nexts with
  | nil =>
    cases fuel with
    | zero => cases isOk
    | succ fuel =>
      have leads : nexts.get prev = some target := linked.1
      rw [List.nil_append, List.head?_cons, followerFrom, if_pos leads] at isOk
      obtain rfl := Except.ok.inj isOk
      exact ⟨rfl, fun a => nexts.get_touch prev a⟩
  | cons a before ih =>
    cases fuel with
    | zero => cases isOk
    | succ fuel =>
      obtain ⟨leads, later⟩ := linked
      rw [List.cons_append, List.nodup_cons] at nodup
      rw [Option.or_none] at leads
      have elsewhere : nexts.get a ≠ some target := by
        rw [leads]
        intro isTarget
        cases before with
        | nil =>
          obtain rfl := Option.some.inj isTarget
          exact (List.nodup_cons.mp nodup.2).1 List.mem_cons_self
        | cons b before =>
          obtain rfl := Option.some.inj isTarget
          exact (List.nodup_cons.mp nodup.2).1 (by simp)
      rw [List.cons_append, List.head?_cons, followerFrom, if_neg elsewhere, leads] at isOk
      obtain ⟨found, same⟩ := ih isOk (later.congr fun b _ => nexts.get_touch a b) nodup.2
      exact ⟨found, fun b => (same b).trans (nexts.get_touch a b)⟩

theorem followerFrom_none {target : Address}
    (isOk : followerFrom target fuel nexts list.head? = .ok result) (linked : Linked nexts none list)
    (first : target ∉ list.tail) : result.1 = none ∧ ∀ a, result.2.get a = nexts.get a := by
  induction list generalizing fuel nexts with
  | nil =>
    rw [List.head?_nil, followerFrom] at isOk
    obtain rfl := Except.ok.inj isOk
    exact ⟨rfl, fun _ => rfl⟩
  | cons a rest ih =>
    cases fuel with
    | zero => cases isOk
    | succ fuel =>
      obtain ⟨leads, later⟩ := linked
      rw [Option.or_none] at leads
      have elsewhere : nexts.get a ≠ some target := by
        rw [leads]
        intro isTarget
        exact first (List.mem_of_head? isTarget)
      rw [List.head?_cons, followerFrom, if_neg elsewhere, leads] at isOk
      obtain ⟨found, same⟩ := ih isOk (later.congr fun b _ => nexts.get_touch a b)
        fun member => first (List.mem_of_mem_tail member)
      exact ⟨found, fun b => (same b).trans (nexts.get_touch a b)⟩

/-- The atoms of the chain get the start of the atom that it now follows. -/
theorem adjustStarts_ok {nexts starts adjusted : AtomToAtom Address} {followOn atom : Address}
    (isOk : adjustStarts nexts followOn atom fuel starts list.head? = .ok adjusted)
    (linked : Linked nexts none list) (nodup : list.Nodup) (outside : atom ∉ list) (a : Address) :
    adjusted a = if a ∈ list then some (starts.get atom) else starts a := by
  induction list generalizing fuel starts with
  | nil => cases fuel <;> cases isOk
  | cons b rest ih =>
    cases fuel with
    | zero => cases isOk
    | succ fuel =>
      obtain ⟨leads, later⟩ := linked
      rw [List.nodup_cons] at nodup
      rw [List.mem_cons, not_or] at outside
      rw [List.head?_cons, adjustStarts] at isOk
      split at isOk
      · have atEnd : a ∉ rest → (starts.put b (starts.get atom)) a =
            if a ∈ b :: rest then some (starts.get atom) else starts a := by
          intro absent
          by_cases same : a = b
          · rw [same, starts.put_self, if_pos List.mem_cons_self]
          · rw [starts.put_of_ne same, if_neg (by simp [same, absent])]
        rw [Option.or_none] at leads
        split at isOk
        · rename_i next isNext
          have head : next = rest.head? := by rw [← leads, AtomToAtom.get, isNext]; rfl
          rw [head] at isOk
          rw [ih isOk later nodup.2 outside.2, AtomToAtom.get_put_of_ne _ outside.1]
          by_cases inside : a ∈ rest
          · rw [if_pos inside, if_pos (List.mem_cons_of_mem _ inside)]
          · rw [if_neg inside, atEnd inside]
        · rename_i isLast
          obtain rfl := Except.ok.inj isOk
          have none : rest = [] := by
            rw [← List.head?_eq_none_iff, ← leads, AtomToAtom.get, isLast]
            rfl
          exact atEnd (by simp [none])
      · cases isOk

theorem startFrom_ok {tables started : Tables Address} {atom : Address}
    (isOk : startFrom atom fuel tables list.head? = .ok started) (linked : Linked tables.nexts none list)
    (a : Address) : started.starts a = (if a ∈ list then some (some atom) else tables.starts a) ∧
      started.nexts.get a = tables.nexts.get a := by
  induction list generalizing fuel tables with
  | nil =>
    rw [List.head?_nil, startFrom] at isOk
    obtain rfl := Except.ok.inj isOk
    exact ⟨by simp, rfl⟩
  | cons b rest ih =>
    cases fuel with
    | zero => cases isOk
    | succ fuel =>
      obtain ⟨leads, later⟩ := linked
      rw [Option.or_none] at leads
      rw [List.head?_cons, startFrom, leads] at isOk
      obtain ⟨starts, nexts⟩ := ih isOk (later.congr fun c _ => tables.nexts.get_touch b c)
      refine ⟨?_, nexts.trans (tables.nexts.get_touch b a)⟩
      rw [starts]
      by_cases inside : a ∈ rest
      · rw [if_pos inside, if_pos (List.mem_cons_of_mem _ inside)]
      · rw [if_neg inside]
        show tables.starts.put b (some atom) a = _
        by_cases same : a = b
        · rw [same, AtomToAtom.put_self, if_pos List.mem_cons_self]
        · rw [AtomToAtom.put_of_ne _ same, if_neg (by simp [same, inside])]

variable {result : Option Address × Tables Address}

theorem follower_prev {target prev : Address} {before after : List Address}
    (isOk : follower fuel tables target = .ok result)
    (isChain : IsChain tables (before ++ prev :: target :: after)) (nodup : (before ++ prev :: target :: after).Nodup) :
    result.1 = some prev ∧ result.2.starts = tables.starts ∧ ∀ a, result.2.nexts.get a = tables.nexts.get a := by
  rw [follower] at isOk
  obtain ⟨⟨found, nexts⟩, walked, isOk⟩ := ok_of_bind isOk
  obtain rfl := Except.ok.inj isOk
  have start := isChain.starts target (by simp)
  rw [show tables.starts.get target = (before ++ prev :: target :: after).head? by rw [AtomToAtom.get, start]; rfl]
    at walked
  obtain ⟨isPrev, same⟩ := followerFrom_found walked isChain.linked nodup
  exact ⟨isPrev, AtomToAtom.touch_of_some _ (by rw [start]; rfl), same⟩

theorem follower_first {target : Address} {after : List Address}
    (isOk : follower fuel tables target = .ok result)
    (isChain : IsChain tables (target :: after)) (nodup : (target :: after).Nodup) :
    result.1 = none ∧ result.2.starts = tables.starts ∧ ∀ a, result.2.nexts.get a = tables.nexts.get a := by
  rw [follower] at isOk
  obtain ⟨⟨found, nexts⟩, walked, isOk⟩ := ok_of_bind isOk
  obtain rfl := Except.ok.inj isOk
  have start := isChain.starts target List.mem_cons_self
  rw [show tables.starts.get target = (target :: after).head? by rw [AtomToAtom.get, start]; rfl] at walked
  obtain ⟨isNone, same⟩ := followerFrom_none walked isChain.linked (List.nodup_cons.mp nodup).1
  exact ⟨isNone, AtomToAtom.touch_of_some _ (by rw [start]; rfl), same⟩

end Chains

/-! ## What should happen -/

section Attach

variable {α : Type} (size : α → Nat)

/-- The atom is the last of a chain, or in none. -/
inductive EndsAt (atom : α) (chains : List (List α)) : List α → List (List α) → Prop
  | seen {before : List α} {others : List (List α)} (perm : chains.Perm ((before ++ [atom]) :: others)) :
      EndsAt atom chains before others
  | unseen (fresh : atom ∉ chains.flatten) : EndsAt atom chains [] chains

/-- One more atom comes right before another one, or only aliases come between. -/
inductive Attach (atom followOn : α) (chains : List (List α)) : List (List α) → Prop
  | append {before : List α} {others : List (List α)} (ends : EndsAt atom chains before others)
      (fresh : followOn ∉ chains.flatten) : Attach atom followOn chains ((before ++ [atom, followOn]) :: others)
  | merge {before after : List α} {others rest : List (List α)} (ends : EndsAt atom chains before others)
      (start : others.Perm ((followOn :: after) :: rest)) :
      Attach atom followOn chains ((before ++ atom :: followOn :: after) :: rest)
  | alias_ {before after : List α} {prev : α} {rest : List (List α)} (fresh : atom ∉ chains.flatten)
      (noSize : size atom = 0) (inside : chains.Perm ((before ++ prev :: followOn :: after) :: rest)) :
      Attach atom followOn chains ((before ++ prev :: atom :: followOn :: after) :: rest)
  | beforeAlias {after : List α} {prev : α} {rest : List (List α)} (fresh : atom ∉ chains.flatten)
      (noSize : size prev = 0) (inside : chains.Perm ((prev :: followOn :: after) :: rest)) :
      Attach atom followOn chains ((atom :: prev :: followOn :: after) :: rest)

end Attach

/-! ## What happens -/

section Steps

variable {Address : Type} [DecidableEq Address] {tables changed : Tables Address} {atom followOn prev : Address}
variable {before after : List Address} {others : List (List Address)}

omit [DecidableEq Address] in
theorem Linked.of_change {nexts other : AtomToAtom Address} {stop : Option Address} {list : List Address}
    {key : Address} (linked : Linked nexts stop list) (absent : key ∉ list)
    (same : ∀ a, a ≠ key → other.get a = nexts.get a) : Linked other stop list :=
  linked.congr fun a member => same a fun isKey => absent (isKey ▸ member)

omit [DecidableEq Address] in
theorem Chained.append (chained : Chained tables ((before ++ [atom]) :: others))
    (fresh : followOn ∉ ((before ++ [atom]) :: others).flatten)
    (newStart : changed.starts followOn = some (tables.starts.get atom))
    (oldStarts : ∀ a, a ≠ followOn → changed.starts a = tables.starts a)
    (newNext : changed.nexts.get atom = some followOn)
    (oldNexts : ∀ a, a ≠ atom → changed.nexts.get a = tables.nexts.get a) :
    Chained changed ((before ++ [atom, followOn]) :: others) := by
  have isChain := chained.isChain _ List.mem_cons_self
  have nodup := chained.nodup
  have unseen := chained.unseen followOn fresh
  rw [List.flatten_cons] at nodup fresh
  have outside : followOn ∉ before ++ [atom] := fun member => fresh (List.mem_append_left _ member)
  have apart : atom ∉ before := fun member =>
    (List.nodup_append.mp (List.nodup_append.mp nodup).1).2.2 atom member atom List.mem_cons_self rfl
  have differ : followOn ≠ atom := by
    rintro rfl
    exact outside (by simp)
  obtain ⟨linkedBefore, -⟩ := linked_append.mp isChain.linked
  refine chained.replace [before ++ [atom]] ?_ ?_ ⟨?_, ?_⟩ ?_
  · have moved : (before ++ [atom, followOn] ++ others.flatten).Perm
        (followOn :: (before ++ [atom] ++ others.flatten)) := by
      have : before ++ [atom, followOn] ++ others.flatten = before ++ [atom] ++ followOn :: others.flatten := by simp
      rw [this]
      exact List.perm_middle
    exact moved.nodup_iff.mpr (List.nodup_cons.mpr ⟨fresh, nodup⟩)
  · intro a
    simp only [List.flatten_cons, List.flatten_nil, List.append_nil, List.mem_append, List.mem_cons]
    tauto
  · refine linked_append.mpr ⟨linkedBefore.of_change apart oldNexts, newNext, ?_, trivial⟩
    rw [oldNexts followOn differ, unseen.2]
    rfl
  · have head : (before ++ [atom, followOn]).head? = (before ++ [atom]).head? := by cases before <;> rfl
    have ofAtom : tables.starts.get atom = (before ++ [atom]).head? := by
      rw [AtomToAtom.get, isChain.starts atom (by simp)]
      rfl
    intro a member
    rw [head]
    by_cases same : a = followOn
    · rw [same, newStart, ofAtom]
    · rw [oldStarts a same]
      refine isChain.starts a ?_
      simp only [List.mem_append, List.mem_cons] at member ⊢
      tauto
  · intro a absent
    simp only [List.mem_append, List.mem_cons, List.not_mem_nil, or_false, not_or] at absent
    exact ⟨oldStarts a absent.2.2, oldNexts a absent.2.1⟩

omit [DecidableEq Address] in
theorem Chained.merge (chained : Chained tables ((before ++ [atom]) :: (followOn :: after) :: others))
    (newStarts : ∀ a ∈ followOn :: after, changed.starts a = some (tables.starts.get atom))
    (oldStarts : ∀ a, a ∉ followOn :: after → changed.starts a = tables.starts a)
    (newNext : changed.nexts.get atom = some followOn)
    (oldNexts : ∀ a, a ≠ atom → changed.nexts.get a = tables.nexts.get a) :
    Chained changed ((before ++ atom :: followOn :: after) :: others) := by
  have isChain := chained.isChain _ List.mem_cons_self
  have isOther := chained.isChain _ (List.mem_cons_of_mem _ List.mem_cons_self)
  have nodup := chained.nodup
  have joined : ((before ++ [atom]) :: (followOn :: after) :: others).flatten =
      before ++ atom :: followOn :: after ++ others.flatten := by simp
  rw [joined] at nodup
  obtain ⟨wholeNodup, -, -⟩ := List.nodup_append.mp nodup
  obtain ⟨-, endNodup, apart⟩ := List.nodup_append.mp wholeNodup
  obtain ⟨linkedBefore, -⟩ := linked_append.mp isChain.linked
  have ofAtom : tables.starts.get atom = (before ++ [atom]).head? := by
    rw [AtomToAtom.get, isChain.starts atom (by simp)]
    rfl
  refine chained.replace [before ++ [atom], followOn :: after] nodup ?_ ⟨?_, ?_⟩ ?_
  · intro a
    simp only [List.flatten_cons, List.flatten_nil, List.append_nil, List.mem_append, List.mem_cons]
    tauto
  · refine linked_append.mpr ⟨linkedBefore.of_change (fun member => apart atom member atom List.mem_cons_self rfl)
      oldNexts, newNext, ?_⟩
    exact isOther.linked.of_change (List.nodup_cons.mp endNodup).1 oldNexts
  · have head : (before ++ atom :: followOn :: after).head? = (before ++ [atom]).head? := by cases before <;> rfl
    intro a member
    rw [head]
    by_cases inside : a ∈ followOn :: after
    · rw [newStarts a inside, ofAtom]
    · rw [oldStarts a inside]
      refine isChain.starts a ?_
      simp only [List.mem_append, List.mem_cons] at member inside ⊢
      tauto
  · intro a absent
    simp only [List.mem_append, List.mem_cons, not_or] at absent
    exact ⟨oldStarts a (by simp only [List.mem_cons]; tauto), oldNexts a absent.2.1⟩

omit [DecidableEq Address] in
theorem Chained.insert (chained : Chained tables ([atom] :: (before ++ prev :: followOn :: after) :: others))
    (newStart : changed.starts atom = some (tables.starts.get followOn))
    (oldStarts : ∀ a, a ≠ atom → changed.starts a = tables.starts a)
    (prevNext : changed.nexts.get prev = some atom) (newNext : changed.nexts.get atom = some followOn)
    (oldNexts : ∀ a, a ≠ atom → a ≠ prev → changed.nexts.get a = tables.nexts.get a) :
    Chained changed ((before ++ prev :: atom :: followOn :: after) :: others) := by
  have isChain := chained.isChain _ (List.mem_cons_of_mem _ List.mem_cons_self)
  have nodup := chained.nodup
  have joined : ([atom] :: (before ++ prev :: followOn :: after) :: others).flatten =
      atom :: (before ++ prev :: followOn :: after ++ others.flatten) := by simp
  rw [joined, List.nodup_cons] at nodup
  have moved : (before ++ prev :: atom :: followOn :: after ++ others.flatten).Perm
      (atom :: (before ++ prev :: followOn :: after ++ others.flatten)) := by
    have left : before ++ prev :: atom :: followOn :: after ++ others.flatten =
        (before ++ [prev]) ++ atom :: (followOn :: after ++ others.flatten) := by simp
    have right : before ++ prev :: followOn :: after ++ others.flatten =
        (before ++ [prev]) ++ (followOn :: after ++ others.flatten) := by simp
    rw [left, right]
    exact List.perm_middle
  obtain ⟨wholeNodup, -, -⟩ := List.nodup_append.mp nodup.2
  obtain ⟨-, endNodup, apart⟩ := List.nodup_append.mp wholeNodup
  obtain ⟨linkedBefore, -, linkedAfter⟩ := linked_append.mp isChain.linked
  have absent : atom ∉ before ++ prev :: followOn :: after := fun member => nodup.1 (List.mem_append_left _ member)
  simp only [List.mem_append, List.mem_cons, not_or] at absent
  refine chained.replace [[atom], before ++ prev :: followOn :: after] ?_ ?_ ⟨?_, ?_⟩ ?_
  · exact moved.nodup_iff.mpr (List.nodup_cons.mpr nodup)
  · intro a
    simp only [List.flatten_cons, List.flatten_nil, List.append_nil, List.mem_append, List.mem_cons, List.not_mem_nil,
      or_false]
    tauto
  · refine linked_append.mpr ⟨linkedBefore.congr fun a member => oldNexts a ?_ ?_, prevNext, newNext, ?_⟩
    · rintro rfl
      exact absent.1 member
    · rintro rfl
      exact apart a member a List.mem_cons_self rfl
    · refine linkedAfter.congr fun a member => oldNexts a ?_ ?_
      · rintro rfl
        simp only [List.mem_cons] at member
        tauto
      · rintro rfl
        exact (List.nodup_cons.mp endNodup).1 member
  · have head : (before ++ prev :: atom :: followOn :: after).head? = (before ++ prev :: followOn :: after).head? := by
      cases before <;> rfl
    have ofFollowOn : tables.starts.get followOn = (before ++ prev :: followOn :: after).head? := by
      rw [AtomToAtom.get, isChain.starts followOn (by simp)]
      rfl
    intro a member
    rw [head]
    by_cases same : a = atom
    · rw [same, newStart, ofFollowOn]
    · rw [oldStarts a same]
      refine isChain.starts a ?_
      simp only [List.mem_append, List.mem_cons] at member ⊢
      tauto
  · intro a outside
    simp only [List.mem_append, List.mem_cons, not_or] at outside
    exact ⟨oldStarts a outside.2.2.1, oldNexts a outside.2.2.1 outside.2.1⟩

omit [DecidableEq Address] in
theorem Chained.prepend (chained : Chained tables ([atom] :: (prev :: after) :: others))
    (newStarts : ∀ a ∈ atom :: prev :: after, changed.starts a = some (some atom))
    (oldStarts : ∀ a, a ∉ atom :: prev :: after → changed.starts a = tables.starts a)
    (newNext : changed.nexts.get atom = some prev)
    (oldNexts : ∀ a, a ≠ atom → changed.nexts.get a = tables.nexts.get a) :
    Chained changed ((atom :: prev :: after) :: others) := by
  have isChain := chained.isChain _ (List.mem_cons_of_mem _ List.mem_cons_self)
  have nodup : (atom :: prev :: after ++ others.flatten).Nodup := chained.nodup
  obtain ⟨wholeNodup, -, -⟩ := List.nodup_append.mp nodup
  refine chained.replace [[atom], prev :: after] nodup ?_ ⟨⟨newNext, ?_⟩, newStarts⟩ ?_
  · intro a
    simp
  · exact isChain.linked.of_change (List.nodup_cons.mp wholeNodup).1 oldNexts
  · intro a absent
    exact ⟨oldStarts a absent, oldNexts a fun same => absent (same ▸ List.mem_cons_self)⟩

end Steps

end Cctools.Order
