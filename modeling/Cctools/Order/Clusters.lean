/-
# Cctools.Order.Clusters -- the clusters that the follow-on fixups make

`addFollowOn_attach`: one fixup does to the maps what `Attach` says, unless it puts an atom
into a chain that it may not be put into (`Allowed`).  What `Attach` keeps (`Clustered`) is
then kept by a whole run.
-/
import Cctools.Order.Chains
import Mathlib.Data.List.Induction
import Mathlib.Logic.Relation
import Mathlib.Tactic.Common

namespace Cctools.Order

set_option autoImplicit false

open Relation Cctools.Theory

/-! ## One fixup -/

section Step

variable {Address : Type} [DecidableEq Address] {tables : Tables Address} {chains : List (List Address)}
variable {atom followOn : Address}

/-- The atom is the first of its chain or in none, or an atom that is in none may go before it: one
of no size anywhere, another one only where the second of a chain is. -/
def Allowed (size : Address → Nat) (tables : Tables Address) (atom followOn : Address) : Prop :=
  tables.starts followOn = none ∨ tables.starts.get followOn = some followOn ∨
    tables.starts atom = none ∧ (size atom = 0 ∨
      ∃ first, tables.starts.get followOn = some first ∧ tables.nexts.get first = some followOn)

omit [DecidableEq Address] in
theorem AtomToAtom.count_eq_zero (map : AtomToAtom Address) (key : Address) : map.count key = 0 ↔ map key = none := by
  rw [AtomToAtom.count]
  cases map key <;> simp

/-- The maps when the atom has been looked at. -/
def Tables.see (tables : Tables Address) (atom : Address) : Tables Address := ⟨tables.starts.see atom, tables.nexts⟩

theorem Tables.see_of_ne {a : Address} (differ : a ≠ atom) : (tables.see atom).starts a = tables.starts a := by
  rw [Tables.see, AtomToAtom.see]
  split
  · exact AtomToAtom.put_of_ne _ differ _
  · rfl

/-- Then it is the end of a chain, perhaps of itself alone. -/
theorem Chained.see (chained : Chained tables chains) (noNext : tables.nexts atom = none) : ∃ before others,
    EndsAt atom chains before others ∧ (tables.starts atom = none → before = [] ∧ others = chains) ∧
      Chained (tables.see atom) ((before ++ [atom]) :: others) := by
  rw [Tables.see, AtomToAtom.see]
  by_cases unseen : tables.starts atom = none
  · have fresh := (chained.seen_iff atom).mp unseen
    refine ⟨[], chains, .unseen fresh, fun _ => ⟨rfl, rfl⟩, ?_⟩
    rw [if_pos ((AtomToAtom.count_eq_zero _ _).mpr unseen)]
    refine Chained.replace [] chained (List.nodup_cons.mpr ⟨fresh, chained.nodup⟩) nofun ⟨⟨?_, trivial⟩, ?_⟩ ?_
    · exact (chained.unseen atom fresh).2
    · intro a member
      obtain rfl := List.mem_singleton.mp member
      exact AtomToAtom.put_self _ _ _
    · intro a absent
      exact ⟨AtomToAtom.put_of_ne _ (fun same => absent (List.mem_singleton.mpr same)) _, rfl⟩
  · obtain ⟨before, after, others, perm, -, next⟩ := chained.split unseen
    rw [AtomToAtom.get, noNext] at next
    obtain rfl := List.head?_eq_none_iff.mp next.symm
    rw [if_neg fun absent => unseen ((AtomToAtom.count_eq_zero _ _).mp absent)]
    exact ⟨before, others, .seen perm, fun absent => absurd absent unseen, chained.perm perm⟩

variable {others : List (List Address)} {before : List Address}

omit [DecidableEq Address] in
theorem EndsAt.mem (ends : EndsAt atom chains before others)
    {a : Address} (member : a ∈ chains.flatten) : a ∈ ((before ++ [atom]) :: others).flatten := by
  cases ends with
  | seen perm => exact perm.flatten.mem_iff.mp member
  | unseen => exact List.mem_append_right _ member

omit [DecidableEq Address] in
/-- What comes before the end of a chain is not reached from there. -/
theorem EndsAt.outside (ends : EndsAt atom chains before others)
    (differ : atom ≠ followOn) (noCycle : ∀ chain ∈ chains, chain.getLast? = some atom → followOn ∉ chain) :
    followOn ∉ before ++ [atom] := by
  cases ends with
  | seen perm => exact noCycle _ (perm.mem_iff.mpr List.mem_cons_self) (by simp)
  | unseen => simpa using differ.symm

theorem Chained.target (seen : Chained (tables.see atom) ((before ++ [atom]) :: others))
    (isSeen : (tables.see atom).starts followOn ≠ none) (outside : followOn ∉ before ++ [atom]) :
    ∃ front back rest, others.Perm ((front ++ followOn :: back) :: rest) ∧
      Chained (tables.see atom) ((before ++ [atom]) :: (front ++ followOn :: back) :: rest) ∧
      (tables.see atom).starts.get followOn = (front ++ [followOn]).head? ∧ (front ++ followOn :: back).Nodup := by
  have member : followOn ∈ ((before ++ [atom]) :: others).flatten := by
    by_contra absent
    exact isSeen ((seen.seen_iff followOn).mpr absent)
  rw [List.flatten_cons, List.mem_append] at member
  obtain ⟨chain, isOne, inside⟩ := List.mem_flatten.mp (member.resolve_left outside)
  obtain ⟨first, second, rfl⟩ := List.append_of_mem isOne
  obtain ⟨front, back, rfl⟩ := List.append_of_mem inside
  have perm : (first ++ (front ++ followOn :: back) :: second).Perm ((front ++ followOn :: back) :: (first ++ second)) :=
    List.perm_middle
  have split := seen.perm (perm.cons _)
  have isChain := split.isChain _ (List.mem_cons_of_mem _ List.mem_cons_self)
  refine ⟨front, back, first ++ second, perm, split, ?_, ?_⟩
  · rw [AtomToAtom.get, isChain.starts followOn inside]
    cases front <;> rfl
  · have nodup := split.nodup
    rw [List.flatten_cons, List.flatten_cons] at nodup
    exact (List.nodup_append.mp (List.nodup_append.mp nodup).2.1).1

variable {front back : List Address}

omit [DecidableEq Address] in
theorem head?_ne_of_nodup {prev : Address} (nodup : (front ++ prev :: followOn :: back).Nodup) :
    some followOn ≠ (front ++ prev :: followOn :: back).head? := by
  intro isHead
  cases front with
  | nil =>
    obtain rfl := Option.some.inj isHead
    exact (List.nodup_cons.mp nodup).1 List.mem_cons_self
  | cons b front =>
    obtain rfl := Option.some.inj isHead
    exact (List.nodup_cons.mp nodup).1 (by simp)

/-- What putting an atom into a chain does to the maps. -/
inductive Inserted (size : Address → Nat) (tables changed : Tables Address) (atom followOn prev : Address)
    (front back : List Address) : Prop
  | alias_ (noSize : size atom = 0) (newStart : changed.starts atom = some (tables.starts.get followOn))
      (oldStarts : ∀ a, a ≠ atom → changed.starts a = tables.starts a) (prevNext : changed.nexts.get prev = some atom)
      (newNext : changed.nexts.get atom = some followOn)
      (oldNexts : ∀ a, a ≠ atom → a ≠ prev → changed.nexts.get a = tables.nexts.get a)
  | first (noSize : size prev = 0) (isFirst : front = [])
      (newStarts : ∀ a ∈ atom :: prev :: followOn :: back, changed.starts a = some (some atom))
      (oldStarts : ∀ a, a ∉ atom :: prev :: followOn :: back → changed.starts a = tables.starts a)
      (newNext : changed.nexts.get atom = some prev)
      (oldNexts : ∀ a, a ≠ atom → changed.nexts.get a = tables.nexts.get a)
  | between {before : List Address} {prevPrev : Address} (hasSize : size atom ≠ 0)
      (split : front = before ++ [prevPrev]) (prevNext : changed.nexts.get prevPrev = some atom)

variable {changed : Tables Address} {size : Address → Nat}

theorem insertBefore_cases {fuel : Nat} {prev : Address}
    (isChain : IsChain (tables.see atom) (front ++ prev :: followOn :: back))
    (isOk : insertBefore fuel size ⟨tables.starts.see atom, tables.nexts.put atom (some followOn)⟩ atom followOn =
      .ok changed)
    (absent : atom ∉ front ++ prev :: followOn :: back) (nodup : (front ++ prev :: followOn :: back).Nodup) :
    Inserted size (tables.see atom) changed atom followOn prev front back := by
  have putNexts (a : Address) (other : a ≠ atom) :
      (tables.nexts.put atom (some followOn)).get a = tables.nexts.get a := AtomToAtom.get_put_of_ne _ other _
  have stillChain : IsChain ⟨tables.starts.see atom, tables.nexts.put atom (some followOn)⟩
      (front ++ prev :: followOn :: back) := ⟨isChain.linked.of_change absent putNexts, isChain.starts⟩
  have prevNe : prev ≠ atom := by
    rintro rfl
    exact absent (by simp)
  rw [insertBefore] at isOk
  obtain ⟨⟨found, walked⟩, ran, isOk⟩ := ok_of_bind isOk
  obtain ⟨isPrev, sameStarts, sameNexts⟩ := follower_prev ran stillChain nodup
  obtain rfl : found = some prev := isPrev
  dsimp only at isOk sameStarts sameNexts
  split at isOk
  · rename_i noSize
    obtain rfl := Except.ok.inj isOk
    refine .alias_ noSize ?_ ?_ ?_ (AtomToAtom.get_put_self _ _ _) ?_
    · rw [sameStarts]
      exact AtomToAtom.put_self _ _ _
    · intro a other
      rw [sameStarts]
      exact AtomToAtom.put_of_ne _ other _
    · exact (AtomToAtom.get_put_of_ne _ prevNe _).trans (AtomToAtom.get_put_self _ _ _)
    · intro a other notPrev
      refine (AtomToAtom.get_put_of_ne _ other _).trans ((AtomToAtom.get_put_of_ne _ notPrev _).trans ?_)
      exact (sameNexts a).trans (putNexts a other)
  · rename_i hasSize
    split at isOk
    · rename_i noSize
      have walkedChain : IsChain walked (front ++ prev :: followOn :: back) :=
        ⟨stillChain.linked.congr fun a _ => sameNexts a, fun a member => by rw [sameStarts]; exact isChain.starts a member⟩
      obtain ⟨⟨foundPrev, walkedOn⟩, ran, isOk⟩ := ok_of_bind isOk
      obtain rfl | ⟨before, prevPrev, rfl⟩ := List.eq_nil_or_concat front
      · obtain ⟨isNone, sameStarts', sameNexts'⟩ := follower_first ran walkedChain nodup
        obtain rfl : foundPrev = none := isNone
        dsimp only at isOk sameStarts' sameNexts'
        have oldNexts (a : Address) (other : a ≠ atom) :
            (walkedOn.nexts.put atom (some prev)).get a = tables.nexts.get a := by
          rw [AtomToAtom.get_put_of_ne _ other, sameNexts', sameNexts]
          exact putNexts a other
        have linked : Linked (walkedOn.nexts.put atom (some prev)) none (atom :: prev :: followOn :: back) :=
          ⟨AtomToAtom.get_put_self _ _ _, isChain.linked.of_change absent oldNexts⟩
        have fromAtom : startFrom atom fuel _ (atom :: prev :: followOn :: back).head? = .ok changed := isOk
        have started := startFrom_ok fromAtom linked
        refine .first noSize rfl ?_ ?_ ?_ ?_
        · intro a member
          exact (started a).1.trans (if_pos member)
        · intro a other
          rw [(started a).1, if_neg other]
          show walkedOn.starts a = _
          rw [sameStarts', sameStarts]
          rfl
        · exact (started atom).2.trans (AtomToAtom.get_put_self _ _ _)
        · intro a other
          exact (started a).2.trans (oldNexts a other)
      · simp only [List.concat_eq_append, List.append_assoc, List.singleton_append] at walkedChain nodup absent
        obtain ⟨isPrevPrev, -, -⟩ := follower_prev ran walkedChain nodup
        obtain rfl : foundPrev = some prevPrev := isPrevPrev
        obtain rfl := Except.ok.inj isOk
        refine .between hasSize List.concat_eq_append ?_
        refine (AtomToAtom.get_put_of_ne _ ?_ _).trans (AtomToAtom.get_put_self _ _ _)
        rintro rfl
        exact absent (by simp)
    · cases isOk

/-- An atom that is in no chain yet is put where it should be. -/
theorem Inserted.chained {prev : Address} {rest : List (List Address)}
    (inserted : Inserted size (tables.see atom) changed atom followOn prev front back)
    (chained : Chained (tables.see atom) ([atom] :: (front ++ prev :: followOn :: back) :: rest))
    (place : size atom = 0 ∨ front = []) :
    (size atom = 0 ∧ Chained changed ((front ++ prev :: atom :: followOn :: back) :: rest)) ∨
      (front = [] ∧ size prev = 0 ∧ Chained changed ((atom :: prev :: followOn :: back) :: rest)) := by
  cases inserted with
  | alias_ noSize newStart oldStarts prevNext newNext oldNexts =>
    exact .inl ⟨noSize, chained.insert newStart oldStarts prevNext newNext oldNexts⟩
  | first noSize isFirst newStarts oldStarts newNext oldNexts =>
    subst isFirst
    exact .inr ⟨rfl, noSize, chained.prepend newStarts oldStarts newNext oldNexts⟩
  | between hasSize split prevNext =>
    subst split
    exact absurd (place.resolve_left hasSize) (by simp)

/-- The atom was put into the middle of a chain. -/
structure Splice (size : Address → Nat) (tables changed : Tables Address) (chains : List (List Address))
    (atom followOn prev : Address) (before front back : List Address) (others rest : List (List Address)) : Prop where
  ends : EndsAt atom chains before others
  ofUnseen : tables.starts atom = none → before = [] ∧ others = chains
  perm : others.Perm ((front ++ prev :: followOn :: back) :: rest)
  chained : Chained (tables.see atom) ((before ++ [atom]) :: (front ++ prev :: followOn :: back) :: rest)
  absent : atom ∉ front ++ prev :: followOn :: back
  nodup : (front ++ prev :: followOn :: back).Nodup
  seen : tables.starts followOn ≠ none
  start : tables.starts.get followOn = (front ++ [prev]).head?
  notStart : tables.starts.get followOn ≠ some followOn
  inserted : Inserted size (tables.see atom) changed atom followOn prev front back

/-- One fixup appends to a chain, hooks two together, or puts the atom into one. -/
theorem addFollowOn_cases {fuel : Nat}
    (chained : Chained tables chains) (isOk : addFollowOn fuel size tables atom followOn = .ok changed)
    (differ : atom ≠ followOn) (noCycle : ∀ chain ∈ chains, chain.getLast? = some atom → followOn ∉ chain) :
    ((tables.starts followOn = none ∨ tables.starts.get followOn = some followOn) ∧
      ∃ attached, Attach size atom followOn chains attached ∧ Chained changed attached) ∨
    ∃ prev before front back others rest,
      Splice size tables changed chains atom followOn prev before front back others rest := by
  rw [addFollowOn] at isOk
  split at isOk
  · rename_i noNext
    rw [AtomToAtom.count_eq_zero] at noNext
    obtain ⟨before, others, ends, ofUnseen, seen⟩ := chained.see noNext
    have outside := ends.outside differ noCycle
    have sameStart : (tables.see atom).starts followOn = tables.starts followOn := Tables.see_of_ne differ.symm
    have sameGet : (tables.see atom).starts.get followOn = tables.starts.get followOn := congrArg Option.join sameStart
    have apart : atom ∉ others.flatten := by
      have nodup := seen.nodup
      rw [List.flatten_cons, List.append_assoc, List.singleton_append] at nodup
      exact (List.nodup_cons.mp (List.nodup_append.mp nodup).2.1).1
    have oldNexts (a : Address) (other : a ≠ atom) :
        (tables.nexts.put atom (some followOn)).get a = (tables.see atom).nexts.get a :=
      AtomToAtom.get_put_of_ne _ other _
    dsimp only at isOk
    split at isOk
    · rename_i noStart
      rw [AtomToAtom.count_eq_zero] at noStart
      have fresh := (seen.seen_iff followOn).mp noStart
      obtain rfl := Except.ok.inj isOk
      refine .inl ⟨.inl (sameStart.symm.trans noStart), _, .append ends (fun member => fresh (ends.mem member)), ?_⟩
      exact seen.append fresh (AtomToAtom.put_self _ _ _) (fun a other => AtomToAtom.put_of_ne _ other _)
        (AtomToAtom.get_put_self _ _ _) oldNexts
    · rename_i hasStart
      rw [AtomToAtom.count_eq_zero] at hasStart
      obtain ⟨front, back, rest, perm, split_, start, nodup⟩ := seen.target hasStart outside
      have absent : atom ∉ front ++ followOn :: back := by
        intro member
        refine apart (perm.flatten.mem_iff.mpr ?_)
        rw [List.flatten_cons]
        exact List.mem_append_left _ member
      split at isOk
      · rename_i isStart
        have first : front = [] := by
          replace start := isStart.symm.trans start
          cases front with
          | nil => rfl
          | cons b front =>
            obtain rfl := Option.some.inj start
            exact absurd (by simp) (List.nodup_cons.mp nodup).1
        subst first
        obtain ⟨adjusted, ran, isOk⟩ := ok_of_bind isOk
        obtain rfl := Except.ok.inj isOk
        have linked := (split_.isChain _ (List.mem_cons_of_mem _ List.mem_cons_self)).linked
        have fromStart : adjustStarts _ followOn atom fuel _ (followOn :: back).head? = .ok adjusted := ran
        have starts := adjustStarts_ok fromStart (linked.of_change absent oldNexts) nodup absent
        refine .inl ⟨.inr (sameGet.symm.trans isStart), _, .merge ends perm,
          split_.merge ?_ ?_ (AtomToAtom.get_put_self _ _ _) oldNexts⟩
        · intro a member
          exact (starts a).trans (if_pos member)
        · intro a other
          exact (starts a).trans (if_neg other)
      · rename_i notStart
        obtain rfl | ⟨front, prev, rfl⟩ := List.eq_nil_or_concat front
        · exact absurd start notStart
        · simp only [List.concat_eq_append, List.append_assoc, List.singleton_append] at perm split_ nodup absent start
          have isChain := split_.isChain _ (List.mem_cons_of_mem _ List.mem_cons_self)
          have head : (front ++ prev :: [followOn]).head? = (front ++ [prev]).head? := by cases front <;> rfl
          exact .inr ⟨prev, before, front, back, others, rest, ends, ofUnseen, perm, split_, absent, nodup,
            sameStart ▸ hasStart, sameGet.symm.trans (start.trans head), fun isStart => notStart (sameGet.trans isStart),
            insertBefore_cases isChain isOk absent nodup⟩
  · cases isOk

/-- **One fixup puts the atom where it should be, if it may be put there and makes no cycle.** -/
theorem addFollowOn_attach {fuel : Nat}
    (chained : Chained tables chains) (isOk : addFollowOn fuel size tables atom followOn = .ok changed)
    (allowed : Allowed size tables atom followOn) (differ : atom ≠ followOn)
    (noCycle : ∀ chain ∈ chains, chain.getLast? = some atom → followOn ∉ chain) :
    ∃ attached, Attach size atom followOn chains attached ∧ Chained changed attached := by
  obtain ⟨-, attached⟩ | ⟨prev, before, front, back, others, rest, splice⟩ :=
    addFollowOn_cases chained isOk differ noCycle
  · exact attached
  · have isChain := splice.chained.isChain _ (List.mem_cons_of_mem _ List.mem_cons_self)
    obtain ⟨fresh, place⟩ := (allowed.resolve_left splice.seen).resolve_left splice.notStart
    obtain ⟨rfl, rfl⟩ := splice.ofUnseen fresh
    have isFresh := (chained.seen_iff atom).mp fresh
    have second : size atom = 0 ∨ front = [] := by
      refine place.imp_right ?_
      rintro ⟨first, ofFollowOn, leads⟩
      rw [splice.start] at ofFollowOn
      cases front with
      | nil => rfl
      | cons b front =>
        obtain rfl := Option.some.inj ofFollowOn
        have next := isChain.linked.1
        rw [Option.or_none] at next
        have isHead := leads.symm.trans next
        exact absurd isHead (head?_ne_of_nodup (List.nodup_cons.mp splice.nodup).2)
    obtain ⟨noSize, inserted⟩ | ⟨rfl, noSize, prepended⟩ := splice.inserted.chained splice.chained second
    · exact ⟨_, .alias_ isFresh noSize splice.perm, inserted⟩
    · exact ⟨_, .beforeAlias isFresh noSize splice.perm, prepended⟩

end Step

/-! ## What attaching keeps -/

section Keep

variable {α : Type} (size : α → Nat) (leads : α → α → Prop)

/-- Only atoms of no size come before the atom. -/
def Follows (followOn : α) : List α → Prop
  | [] => False
  | a :: rest => a = followOn ∨ size a = 0 ∧ Follows followOn rest

/-- The atom has the other one behind it, with only atoms of no size between. -/
def Kept (atom followOn : α) : List α → Prop
  | [] => False
  | a :: rest => a = atom ∧ Follows size followOn rest ∨ Kept atom followOn rest

variable {size} {atom followOn extra : α}

theorem Follows.append {list more : List α} (follows : Follows size followOn list) :
    Follows size followOn (list ++ more) := by
  induction list with
  | nil => exact follows.elim
  | cons a rest ih => exact follows.imp_right fun later => ⟨later.1, ih later.2⟩

theorem Kept.append {list more : List α} (kept : Kept size atom followOn list) :
    Kept size atom followOn (list ++ more) := by
  induction list with
  | nil => exact kept.elim
  | cons a rest ih => exact kept.imp (fun here => ⟨here.1, here.2.append⟩) ih

theorem Kept.prepend {list : List α} (more : List α) (kept : Kept size atom followOn list) :
    Kept size atom followOn (more ++ list) := by
  induction more with
  | nil => exact kept
  | cons a more ih => exact .inr ih

theorem Follows.insert {front back : List α} (noSize : size extra = 0) (follows : Follows size followOn (front ++ back)) :
    Follows size followOn (front ++ extra :: back) := by
  induction front with
  | nil => exact .inr ⟨noSize, follows⟩
  | cons a front ih => exact follows.imp_right fun later => ⟨later.1, ih later.2⟩

theorem Kept.insert {front back : List α} (noSize : size extra = 0) (kept : Kept size atom followOn (front ++ back)) :
    Kept size atom followOn (front ++ extra :: back) := by
  induction front with
  | nil => exact .inr kept
  | cons a front ih => exact kept.imp (fun here => ⟨here.1, here.2.insert noSize⟩) ih

theorem Follows.split {list : List α} (follows : Follows size followOn list) :
    ∃ between after, list = between ++ followOn :: after ∧ ∀ a ∈ between, size a = 0 := by
  induction list with
  | nil => exact follows.elim
  | cons a rest ih =>
    obtain rfl | ⟨noSize, later⟩ := follows
    · exact ⟨[], rest, rfl, nofun⟩
    · obtain ⟨between, after, rfl, aliases⟩ := ih later
      exact ⟨a :: between, after, rfl, List.forall_mem_cons.mpr ⟨noSize, aliases⟩⟩

theorem Kept.split {list : List α} (kept : Kept size atom followOn list) : ∃ before between after,
    list = before ++ atom :: (between ++ followOn :: after) ∧ ∀ a ∈ between, size a = 0 := by
  induction list with
  | nil => exact kept.elim
  | cons a rest ih =>
    obtain ⟨rfl, follows⟩ | later := kept
    · obtain ⟨between, after, rfl, aliases⟩ := follows.split
      exact ⟨[], between, after, rfl, aliases⟩
    · obtain ⟨before, between, after, rfl, aliases⟩ := ih later
      exact ⟨a :: before, between, after, rfl, aliases⟩

variable (size) in
/-- The pairs so far are in the chains, which follow the fixups. -/
structure Clustered (pairs : List (α × α)) (chains : List (List α)) : Prop where
  reaches : ∀ chain ∈ chains, ∀ a ∈ chain, ∀ last, chain.getLast? = some last → ReflTransGen leads a last
  kept : ∀ pair ∈ pairs, ∃ chain ∈ chains, Kept size pair.1 pair.2 chain
  /-- Every atom but the last has a pair of its own. -/
  own : ∀ chain ∈ chains, ∀ a ∈ chain.dropLast, ∃ followOn, (a, followOn) ∈ pairs
  two : ∀ chain ∈ chains, 2 ≤ chain.length
  few : chains.flatten.length ≤ 2 * pairs.length

variable {leads} {pairs : List (α × α)} {chains attached : List (List α)} {others : List (List α)}

theorem Clustered.perm (clustered : Clustered size leads pairs chains)
    (perm : chains.Perm others) : Clustered size leads pairs others where
  reaches chain member := clustered.reaches chain (perm.mem_iff.mpr member)
  kept pair member := by
    obtain ⟨chain, isOne, kept⟩ := clustered.kept pair member
    exact ⟨chain, perm.mem_iff.mp isOne, kept⟩
  own chain member := clustered.own chain (perm.mem_iff.mpr member)
  two chain member := clustered.two chain (perm.mem_iff.mpr member)
  few := by
    rw [← perm.flatten.length_eq]
    exact clustered.few

/-- Some chains become one that has what they have, and one pair more. -/
theorem Clustered.replace {chain : List α} (olds : List (List α))
    (clustered : Clustered size leads pairs (olds ++ others))
    (reaches : ∀ a ∈ chain, ∀ last, chain.getLast? = some last → ReflTransGen leads a last)
    (covers : ∀ old ∈ olds, ∀ pair : α × α, Kept size pair.1 pair.2 old → Kept size pair.1 pair.2 chain)
    (newKept : Kept size atom followOn chain)
    (own : ∀ a ∈ chain.dropLast, a = atom ∨ ∃ old ∈ olds, a ∈ old.dropLast) (two : 2 ≤ chain.length)
    (few : chain.length ≤ olds.flatten.length + 2) :
    Clustered size leads (pairs ++ [(atom, followOn)]) (chain :: others) := by
  refine ⟨?_, ?_, ?_, ?_, ?_⟩
  · intro other member
    obtain rfl | later := List.mem_cons.mp member
    · exact reaches
    · exact clustered.reaches other (List.mem_append_right _ later)
  · intro pair member
    rw [List.mem_append, List.mem_singleton] at member
    obtain old | rfl := member
    · obtain ⟨other, isOne, kept⟩ := clustered.kept pair old
      obtain isOld | later := List.mem_append.mp isOne
      · exact ⟨chain, List.mem_cons_self, covers other isOld pair kept⟩
      · exact ⟨other, List.mem_cons_of_mem _ later, kept⟩
    · exact ⟨chain, List.mem_cons_self, newKept⟩
  · have still {other : List α} (isOne : other ∈ olds ++ others) {a : α} (member : a ∈ other.dropLast) :
        ∃ next, (a, next) ∈ pairs ++ [(atom, followOn)] := by
      obtain ⟨next, isPair⟩ := clustered.own other isOne a member
      exact ⟨next, List.mem_append_left _ isPair⟩
    intro other member a inside
    obtain rfl | later := List.mem_cons.mp member
    · obtain rfl | ⟨old, isOld, inOld⟩ := own a inside
      · exact ⟨followOn, List.mem_append_right _ (List.mem_singleton_self _)⟩
      · exact still (List.mem_append_left _ isOld) inOld
    · exact still (List.mem_append_right _ later) inside
  · intro other member
    obtain rfl | later := List.mem_cons.mp member
    · exact two
    · exact clustered.two other (List.mem_append_right _ later)
  · have before := clustered.few
    simp only [List.flatten_append, List.flatten_cons, List.length_append, List.length_cons, List.length_nil] at before ⊢
    omega

theorem Clustered.noCycle (clustered : Clustered size leads pairs chains) (acyclic : ∀ a, ¬TransGen leads a a)
    (isPair : leads atom followOn) : ∀ chain ∈ chains, chain.getLast? = some atom → followOn ∉ chain := by
  intro chain isOne isLast member
  exact acyclic atom (TransGen.head' isPair (clustered.reaches chain isOne followOn member atom isLast))

theorem EndsAt.clustered {before : List α} (ends : EndsAt atom chains before others)
    (clustered : Clustered size leads pairs chains) : ∃ olds, Clustered size leads pairs (olds ++ others) ∧
      (∀ old ∈ olds, old = before ++ [atom]) ∧ before.length ≤ olds.flatten.length ∧
        (∀ a ∈ before, ∃ old ∈ olds, a ∈ old.dropLast) ∧ ∀ a ∈ before ++ [atom], ReflTransGen leads a atom := by
  cases ends with
  | seen perm =>
    refine ⟨[before ++ [atom]], clustered.perm perm, by simp, by simp, by simp, ?_⟩
    intro a member
    exact clustered.reaches _ (perm.mem_iff.mpr List.mem_cons_self) a member atom (by simp)
  | unseen fresh =>
    refine ⟨[], clustered, nofun, Nat.zero_le _, nofun, ?_⟩
    intro a member
    obtain rfl := List.mem_singleton.mp member
    exact .refl

/-- **What is attached keeps every pair that was, and the chains follow the fixups.** -/
theorem Attach.clustered (attach : Attach size atom followOn chains attached) (isPair : leads atom followOn)
    (clustered : Clustered size leads pairs chains) :
    Clustered size leads (pairs ++ [(atom, followOn)]) attached := by
  cases attach with
  | @append before others ends fresh =>
    obtain ⟨olds, ofOlds, each, few, own, reaches⟩ := ends.clustered clustered
    refine Clustered.replace olds ofOlds ?_ ?_ (Kept.prepend before (.inl ⟨rfl, .inl rfl⟩)) ?_ (by simp) ?_
    · intro a member last isLast
      obtain rfl : followOn = last := by simpa using isLast
      have split : before ++ [atom, followOn] = before ++ [atom] ++ [followOn] := by simp
      rw [split, List.mem_append, List.mem_singleton] at member
      obtain old | rfl := member
      · exact (reaches a old).tail isPair
      · exact .refl
    · intro old isOld pair kept
      obtain rfl := each old isOld
      have longer : Kept size pair.1 pair.2 (before ++ [atom] ++ [followOn]) := kept.append
      rwa [List.append_assoc] at longer
    · intro a member
      rw [List.dropLast_append_cons, List.dropLast_cons_cons, List.dropLast_singleton, List.mem_append,
        List.mem_singleton] at member
      exact member.symm.imp_right (own a)
    · rw [List.length_append, List.length_cons, List.length_cons, List.length_nil]
      omega
  | @merge before after others rest ends start =>
    obtain ⟨olds, ofOlds, each, few, own, reaches⟩ := ends.clustered clustered
    have regrouped : Clustered size leads pairs (olds ++ [followOn :: after] ++ rest) := by
      rw [List.append_assoc]
      exact ofOlds.perm (List.Perm.append_left olds start)
    have ofOther := regrouped.reaches (followOn :: after) (by simp)
    refine Clustered.replace _ regrouped ?_ ?_ (Kept.prepend before (.inl ⟨rfl, .inl rfl⟩)) ?_ (by simp; omega) ?_
    · intro a member last isLast
      have split : before ++ atom :: followOn :: after = before ++ [atom] ++ followOn :: after := by simp
      rw [split, List.getLast?_append, List.getLast?_cons, Option.some_or] at isLast
      rw [← List.getLast?_cons] at isLast
      rw [split, List.mem_append] at member
      obtain old | other := member
      · exact ((reaches a old).tail isPair).trans (ofOther followOn List.mem_cons_self last isLast)
      · exact ofOther a other last isLast
    · intro old isOld pair kept
      rw [List.mem_append, List.mem_singleton] at isOld
      obtain isOld | rfl := isOld
      · obtain rfl := each old isOld
        have longer : Kept size pair.1 pair.2 (before ++ [atom] ++ followOn :: after) := kept.append
        rwa [List.append_assoc] at longer
      · exact Kept.prepend before (.inr kept)
    · intro a member
      rw [List.dropLast_append_cons, List.dropLast_cons_cons, List.mem_append, List.mem_cons] at member
      obtain old | rfl | other := member
      · obtain ⟨chain, isOld, inside⟩ := own a old
        exact .inr ⟨chain, List.mem_append_left _ isOld, inside⟩
      · exact .inl rfl
      · exact .inr ⟨_, List.mem_append_right _ (List.mem_singleton_self _), other⟩
    · simp only [List.flatten_append, List.flatten_cons, List.length_append, List.length_cons, List.flatten_nil,
        List.append_nil]
      omega
  | @alias_ before after prev rest fresh noSize inside =>
    have ofOld := clustered.perm inside
    have reaches := ofOld.reaches _ List.mem_cons_self
    have sameLast : (before ++ prev :: atom :: followOn :: after).getLast? =
        (before ++ prev :: followOn :: after).getLast? := by
      simp [List.getLast?_append, List.getLast?_cons]
    refine Clustered.replace [before ++ prev :: followOn :: after] ofOld ?_ ?_ ?_ ?_ (by simp; omega) ?_
    · intro a member last isLast
      rw [sameLast] at isLast
      by_cases same : a = atom
      · rw [same]
        exact .head isPair (reaches followOn (by simp) last isLast)
      · refine reaches a ?_ last isLast
        simp only [List.mem_append, List.mem_cons] at member ⊢
        tauto
    · intro old isOld pair kept
      obtain rfl := List.mem_singleton.mp isOld
      have regrouped : Kept size pair.1 pair.2 ((before ++ [prev]) ++ followOn :: after) := by simpa using kept
      simpa using regrouped.insert noSize
    · have here : Kept size atom followOn ((before ++ [prev]) ++ atom :: followOn :: after) :=
        Kept.prepend _ (.inl ⟨rfl, .inl rfl⟩)
      simpa using here
    · intro a member
      rw [List.dropLast_append_cons, List.dropLast_cons_cons, List.dropLast_cons_cons, List.mem_append, List.mem_cons,
        List.mem_cons] at member
      refine or_iff_not_imp_left.mpr fun differ => ⟨_, List.mem_singleton_self _, ?_⟩
      rw [List.dropLast_append_cons, List.dropLast_cons_cons, List.mem_append, List.mem_cons]
      tauto
    · simp
      omega
  | @beforeAlias after prev rest fresh noSize inside =>
    have ofOld := clustered.perm inside
    have reaches := ofOld.reaches _ List.mem_cons_self
    refine Clustered.replace [prev :: followOn :: after] ofOld ?_ ?_ (.inl ⟨rfl, .inr ⟨noSize, .inl rfl⟩⟩) ?_
      (by simp) ?_
    · intro a member last isLast
      rw [List.getLast?_cons_cons] at isLast
      obtain rfl | old := List.mem_cons.mp member
      · exact .head isPair (reaches followOn (by simp) last isLast)
      · exact reaches a old last isLast
    · intro old isOld pair kept
      obtain rfl := List.mem_singleton.mp isOld
      exact .inr kept
    · intro a member
      rw [List.dropLast_cons_cons, List.mem_cons] at member
      exact member.imp_right fun old => ⟨_, List.mem_singleton_self _, old⟩
    · simp

end Keep

/-! ## A whole run -/

section Run

variable {Address : Type} [DecidableEq Address] (fuel : Nat) (size : Address → Nat)

/-- The fixups one after the other. -/
def addFollowOns (tables : Tables Address) (pairs : List (Address × Address)) : Except Failure (Tables Address) :=
  pairs.foldlM (fun tables pair => addFollowOn fuel size tables pair.1 pair.2) tables

/-- In every state of the run the next atom may be put where it is put. -/
def AllAllowed (pairs : List (Address × Address)) : Prop :=
  ∀ before pair after tables, pairs = before ++ pair :: after →
    addFollowOns fuel size (.empty Address) before = .ok tables → Allowed size tables pair.1 pair.2

variable {fuel size} {pairs : List (Address × Address)}

theorem addFollowOns_append {tables changed : Tables Address}
    {pair : Address × Address} (isOk : addFollowOns fuel size tables (pairs ++ [pair]) = .ok changed) :
    ∃ between, addFollowOns fuel size tables pairs = .ok between ∧
      addFollowOn fuel size between pair.1 pair.2 = .ok changed := by
  rw [addFollowOns, List.foldlM_append] at isOk
  obtain ⟨between, first, isOk⟩ := ok_of_bind isOk
  obtain ⟨last, second, isOk⟩ := ok_of_bind isOk
  obtain rfl := Except.ok.inj isOk
  exact ⟨between, first, second⟩

/-- **If every atom may be put where it is, the maps stand for chains in which every pair is kept.** -/
theorem addFollowOns_clustered {leads : Address → Address → Prop} (acyclic : ∀ a, ¬TransGen leads a a)
    (ofPairs : ∀ pair ∈ pairs, leads pair.1 pair.2)
    (allowed : AllAllowed fuel size pairs) {tables : Tables Address}
    (isOk : addFollowOns fuel size (.empty Address) pairs = .ok tables) :
    ∃ chains, Chained tables chains ∧ Clustered size leads pairs chains := by
  induction pairs using List.reverseRecOn generalizing tables with
  | nil =>
    obtain rfl := Except.ok.inj isOk
    exact ⟨[], chained_empty, nofun, nofun, nofun, nofun, Nat.le_refl _⟩
  | append_singleton pairs pair ih =>
    obtain ⟨between, first, second⟩ := addFollowOns_append isOk
    have earlier : AllAllowed fuel size pairs := by
      intro before other after tables split ran
      exact allowed before other (after ++ [pair]) tables (by rw [split]; simp) ran
    obtain ⟨chains, chained, clustered⟩ :=
      ih (fun other member => ofPairs other (List.mem_append_left _ member)) earlier first
    have isPair := ofPairs pair (List.mem_append_right _ (List.mem_singleton_self _))
    have differ : pair.1 ≠ pair.2 := by
      intro same
      exact acyclic pair.1 (.single (same ▸ isPair))
    have noCycle := clustered.noCycle acyclic isPair
    obtain ⟨attached, attach, changed⟩ :=
      addFollowOn_attach chained second (allowed pairs pair [] between rfl first) differ noCycle
    exact ⟨attached, changed, attach.clustered isPair clustered⟩

end Run

section Pass

variable {Address : Type} (state : Internal Address)

/-- The follow-on fixups of the atoms that the pass goes over. -/
def followOns (atom : Address) (fixups : List (Fixup Address)) : List (Address × Address) :=
  fixups.filterMap fun fixup =>
    match fixup.kind, fixup.binding with
    | .noneFollowOn, .directlyBound target => some (atom, target)
    | _, _ => none

def allFollowOns : List (Address × Address) :=
  (orderedAtoms state).flatMap fun atom => followOns atom (state.atom atom).fixups

/-- A fixup of the first atom says that the second one follows it. -/
def FollowOn (atom followOn : Address) : Prop :=
  ∃ fixup ∈ (state.atom atom).fixups, fixup.kind = .noneFollowOn ∧ fixup.binding = .directlyBound followOn

theorem allFollowOns_followOn : ∀ pair ∈ allFollowOns state, FollowOn state pair.1 pair.2 := by
  intro pair member
  obtain ⟨atom, -, ofAtom⟩ := List.mem_flatMap.mp member
  obtain ⟨fixup, isFixup, isPair⟩ := List.mem_filterMap.mp ofAtom
  split at isPair
  · rename_i target kind binding
    obtain rfl := Option.some.inj isPair
    exact ⟨fixup, isFixup, kind, binding⟩
  · cases isPair

variable [DecidableEq Address]

/-- A result, or the run that it is of has come to an assert. -/
def OrAssertion {α : Type} (result run : Except Failure α) : Prop := run = result ∨ ∃ text, run = .error (.assertion text)

theorem addFixups_run {fuel : Nat} {size : Address → Nat} {atom : Address} (fixups : List (Fixup Address))
    (tables : Tables Address) : OrAssertion (addFollowOns fuel size tables (followOns atom fixups))
      (fixups.foldlM (addFixup fuel size atom) tables) := by
  induction fixups generalizing tables with
  | nil => exact .inl rfl
  | cons fixup rest ih =>
    obtain ⟨kind, binding⟩ := fixup
    cases kind with
    | other => exact ih tables
    | noneFollowOn =>
      cases binding with
      | directlyBound target =>
        show OrAssertion
          (addFollowOn fuel size tables atom target >>= (addFollowOns fuel size · (followOns atom rest)))
          (addFollowOn fuel size tables atom target >>= (rest.foldlM (addFixup fuel size atom) ·))
        cases addFollowOn fuel size tables atom target with
        | error failure => exact .inl rfl
        | ok between => exact ih between
      | indirectlyBound => exact .inr ⟨_, rfl⟩
      | other => exact .inr ⟨_, rfl⟩

theorem addFollowOns_flatMap {fuel : Nat} {size : Address → Nat} {fixups : Address → List (Fixup Address)}
    (atoms : List Address) (tables : Tables Address) :
    OrAssertion (addFollowOns fuel size tables (atoms.flatMap fun atom => followOns atom (fixups atom)))
      (atoms.foldlM (fun tables atom => (fixups atom).foldlM (addFixup fuel size atom) tables) tables) := by
  induction atoms generalizing tables with
  | nil => exact .inl rfl
  | cons atom rest ih =>
    rw [List.foldlM_cons, List.flatMap_cons, addFollowOns, List.foldlM_append]
    obtain here | ⟨text, failed⟩ := @addFixups_run _ _ fuel size atom (fixups atom) tables
    · rw [here, addFollowOns]
      cases (followOns atom (fixups atom)).foldlM (fun tables pair => addFollowOn fuel size tables pair.1 pair.2) tables with
      | error failure => exact .inl rfl
      | ok between => exact ih between
    · rw [failed]
      exact .inr ⟨text, rfl⟩

theorem buildFollowOnTables_run (fuel : Nat) (orderFile : state.haveOrderFile = true) :
    OrAssertion (addFollowOns fuel (fun a => (state.atom a).size) (.empty Address) (allFollowOns state))
      (buildFollowOnTables fuel state) := by
  rw [buildFollowOnTables, if_pos orderFile]
  exact addFollowOns_flatMap _ _

theorem buildFollowOnTables_ok {fuel : Nat} {tables : Tables Address} (orderFile : state.haveOrderFile = true)
    (isOk : buildFollowOnTables fuel state = .ok tables) :
    addFollowOns fuel (fun a => (state.atom a).size) (.empty Address) (allFollowOns state) = .ok tables := by
  obtain same | ⟨text, failed⟩ := buildFollowOnTables_run state fuel orderFile
  · exact same.symm.trans isOk
  · rw [failed] at isOk
    cases isOk

end Pass

end Cctools.Order
