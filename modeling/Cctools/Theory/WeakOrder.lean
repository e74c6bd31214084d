/-
# Cctools.Theory.WeakOrder -- comparisons that a sort may be given

A sort that is only given a comparison needs it to be a strict weak order on the elements it
sorts.  Comparisons are mostly put together from others: by one key and then, where the keys are
the same, by something else (`byKey`), or by what elements stand for and, where they stand for
the same, among themselves (`strictWeakOn_iff_of_grouped`).
-/
import Mathlib.Data.Set.Basic
import Mathlib.Order.Basic

namespace Cctools.Theory

set_option autoImplicit false

variable {α : Type}

/-! ## Strict weak orders -/

/-- **A strict weak order** on the elements of a set. -/
structure StrictWeakOn (s : Set α) (less : α → α → Bool) : Prop where
  irrefl : ∀ x ∈ s, less x x = false
  trans : ∀ x ∈ s, ∀ y ∈ s, ∀ z ∈ s, less x y = true → less y z = true → less x z = true
  incomparable : ∀ x ∈ s, ∀ y ∈ s, ∀ z ∈ s, less x y = false → less y x = false →
    less y z = false → less z y = false → less x z = false

section

variable {s t : Set α} {less other : α → α → Bool}

theorem StrictWeakOn.asymm (weak : StrictWeakOn s less) {x y : α} (hx : x ∈ s) (hy : y ∈ s)
    (isLess : less x y = true) : less y x = false := by
  by_contra back
  have self := weak.trans x hx y hy x hx isLess (Bool.eq_true_of_not_eq_false back)
  rw [weak.irrefl x hx] at self
  cases self

/-- What is between two elements is apart from one of them. -/
theorem StrictWeakOn.cotrans (weak : StrictWeakOn s less) {x y z : α} (hx : x ∈ s) (hy : y ∈ s) (hz : z ∈ s)
    (isLess : less x y = true) : less x z = true ∨ less z y = true := by
  by_contra neither
  rw [not_or, Bool.not_eq_true, Bool.not_eq_true] at neither
  obtain ⟨notLeft, notRight⟩ := neither
  have left : less z x = false := by
    by_contra back
    have := weak.trans z hz x hx y hy (Bool.eq_true_of_not_eq_false back) isLess
    rw [notRight] at this
    cases this
  have right : less y z = false := by
    by_contra back
    have := weak.trans x hx y hy z hz isLess (Bool.eq_true_of_not_eq_false back)
    rw [notLeft] at this
    cases this
  have := weak.incomparable x hx z hz y hy notLeft left notRight right
  rw [isLess] at this
  cases this

theorem StrictWeakOn.of_cotrans (asymm : ∀ x ∈ s, ∀ y ∈ s, less x y = true → less y x = false)
    (cotrans : ∀ x ∈ s, ∀ y ∈ s, ∀ z ∈ s, less x y = true → less x z = true ∨ less z y = true) :
    StrictWeakOn s less where
  irrefl x hx := by
    by_contra self
    exact self (asymm x hx x hx (Bool.eq_true_of_not_eq_false self))
  trans x hx y hy z hz left right := by
    obtain isLess | back := cotrans x hx y hy z hz left
    · exact isLess
    · rw [asymm y hy z hz right] at back
      cases back
  incomparable x hx y hy z hz left _ right _ := by
    by_contra isLess
    obtain isLess | isLess := cotrans x hx z hz y hy (Bool.eq_true_of_not_eq_false isLess)
    · rw [left] at isLess
      cases isLess
    · rw [right] at isLess
      cases isLess

theorem StrictWeakOn.mono (weak : StrictWeakOn t less) (subset : s ⊆ t) : StrictWeakOn s less :=
  .of_cotrans (fun _ hx _ hy => weak.asymm (subset hx) (subset hy))
    (fun _ hx _ hy _ hz => weak.cotrans (subset hx) (subset hy) (subset hz))

theorem StrictWeakOn.congr (weak : StrictWeakOn s less) (same : ∀ x ∈ s, ∀ y ∈ s, other x y = less x y) :
    StrictWeakOn s other := by
  refine .of_cotrans (fun x hx y hy => ?_) (fun x hx y hy z hz => ?_)
  · rw [same x hx y hy, same y hy x hx]
    exact weak.asymm hx hy
  · rw [same x hx y hy, same x hx z hz, same z hz y hy]
    exact weak.cotrans hx hy hz

theorem StrictWeakOn.comap {β : Type} {f : β → α} {u : Set β} (weak : StrictWeakOn s less)
    (maps : ∀ x ∈ u, f x ∈ s) : StrictWeakOn u fun x y => less (f x) (f y) :=
  .of_cotrans (fun x hx y hy => weak.asymm (maps x hx) (maps y hy))
    (fun x hx y hy z hz => weak.cotrans (maps x hx) (maps y hy) (maps z hz))

theorem strictWeakOn_never (s : Set α) : StrictWeakOn s fun _ _ => false :=
  .of_cotrans (fun _ _ _ _ _ => rfl) (fun _ _ _ _ _ _ isLess => absurd isLess Bool.false_ne_true)

end

/-! ## By a key -/

section Key

variable {κ : Type} [DecidableEq κ] [LE κ] [LT κ] [DecidableLT κ]

/-- By a key, and by `next` where the keys are the same. -/
def byKey (key : α → κ) (next : κ → α → α → Bool) (x y : α) : Bool :=
  if key x = key y then next (key x) x y else decide (key x < key y)

variable {next : κ → α → α → Bool}

omit [LE κ] in
theorem byKey_of_eq {key : α → κ} {x y : α} (same : key x = key y) :
    byKey key next x y = next (key x) x y := if_pos same

omit [LE κ] in
theorem byKey_of_ne {key : α → κ} {x y : α} (differ : key x ≠ key y) :
    byKey key next x y = decide (key x < key y) := if_neg differ

omit [DecidableEq κ] [DecidableLT κ] in
private theorem lt_or_gt [Std.LawfulOrderLT κ] [Std.IsLinearOrder κ] {c d : κ} (differ : c ≠ d) : c < d ∨ d < c := by
  obtain less | same | greater := Std.lt_trichotomy c d
  · exact .inl less
  · exact absurd same differ
  · exact .inr greater

theorem byKey_strictWeakOn [Std.LawfulOrderLT κ] [Std.IsLinearOrder κ] {s : Set α} {key : α → κ}
    (weak : ∀ c, StrictWeakOn {x ∈ s | key x = c} (next c)) :
    StrictWeakOn s (byKey key next) := by
  refine .of_cotrans (fun x hx y hy => ?_) (fun x hx y hy z hz => ?_)
  · rw [byKey, byKey]
    by_cases same : key x = key y
    · rw [if_pos same, if_pos same.symm, same]
      exact (weak (key y)).asymm ⟨hx, same⟩ ⟨hy, rfl⟩
    · rw [if_neg same, if_neg (Ne.symm same), decide_eq_true_eq, decide_eq_false_iff_not]
      exact Std.not_gt_of_lt
  · rw [byKey, byKey, byKey]
    by_cases same : key x = key y
    · rw [if_pos same]
      by_cases between : key x = key z
      · rw [if_pos between, if_pos (between.symm.trans same), ← between]
        exact (weak (key x)).cotrans ⟨hx, rfl⟩ ⟨hy, same.symm⟩ ⟨hz, between.symm⟩
      · rw [if_neg between, if_neg (fun back => between (same.trans back.symm)), ← same]
        intro _
        rw [decide_eq_true_eq, decide_eq_true_eq]
        exact lt_or_gt between
    · rw [if_neg same, decide_eq_true_eq]
      intro isLess
      by_cases left : key x = key z
      · right
        rw [if_neg (left ▸ same), ← left, decide_eq_true_eq]
        exact isLess
      · by_cases right : key z = key y
        · left
          rw [if_neg left, right, decide_eq_true_eq]
          exact isLess
        · rw [if_neg left, if_neg right, decide_eq_true_eq, decide_eq_true_eq]
          obtain less | greater := lt_or_gt left
          · exact .inl less
          · exact .inr (Std.lt_trans greater isLess)

theorem strictWeakOn_key [Std.LawfulOrderLT κ] [Std.IsLinearOrder κ] (s : Set α) (key : α → κ) :
    StrictWeakOn s fun x y => decide (key x < key y) := by
  have weak : StrictWeakOn s (byKey key fun _ _ _ => false) := byKey_strictWeakOn fun _ => strictWeakOn_never _
  refine weak.congr fun x _ y _ => ?_
  rw [byKey]
  split
  next same => rw [same, decide_eq_false (Std.lt_irrefl)]
  next => rfl

end Key

/-! ## By groups -/

section Grouped

variable {β : Type} {s : Set α} {rep : α → β} {less : α → α → Bool} {outer : β → β → Bool}

/-- **Groups that must not be torn**: elements that stand for different things are compared by what they
stand for.  This is a strict weak order exactly when it is one on what they stand for and in every group, and
no group of elements that are not all alike is tied with another. -/
theorem strictWeakOn_iff_of_grouped (irrefl : ∀ c, outer c c = false)
    (apart : ∀ x ∈ s, ∀ y ∈ s, rep x ≠ rep y → less x y = outer (rep x) (rep y)) :
    StrictWeakOn s less ↔ StrictWeakOn (rep '' s) outer ∧ (∀ c, StrictWeakOn {x ∈ s | rep x = c} less) ∧
      ∀ x ∈ s, ∀ y ∈ s, ∀ z ∈ s, rep x = rep y → less x y = true → rep z ≠ rep x →
        outer (rep x) (rep z) = true ∨ outer (rep z) (rep x) = true := by
  constructor
  · intro weak
    have differ {c d : β} (isLess : outer c d = true) : c ≠ d := by
      rintro rfl
      rw [irrefl] at isLess
      cases isLess
    refine ⟨.of_cotrans ?_ ?_, fun c => weak.mono fun _ member => member.1, ?_⟩
    · rintro _ ⟨x, hx, rfl⟩ _ ⟨y, hy, rfl⟩ isLess
      have differ := differ isLess
      rw [← apart x hx y hy differ] at isLess
      rw [← apart y hy x hx differ.symm]
      exact weak.asymm hx hy isLess
    · rintro _ ⟨x, hx, rfl⟩ _ ⟨y, hy, rfl⟩ _ ⟨z, hz, rfl⟩ isLess
      by_cases left : rep x = rep z
      · exact .inr (left ▸ isLess)
      by_cases right : rep z = rep y
      · exact .inl (right ▸ isLess)
      have differ := differ isLess
      rw [← apart x hx y hy differ] at isLess
      rw [← apart x hx z hz left, ← apart z hz y hy right]
      exact weak.cotrans hx hy hz isLess
    · intro x hx y hy z hz same isLess different
      rw [← apart x hx z hz different.symm, same, ← apart z hz y hy (same ▸ different)]
      exact weak.cotrans hx hy hz isLess
  · rintro ⟨outerWeak, inner, untorn⟩
    have here {x : α} (hx : x ∈ s) : rep x ∈ rep '' s := ⟨x, hx, rfl⟩
    refine .of_cotrans (fun x hx y hy isLess => ?_) (fun x hx y hy z hz isLess => ?_)
    · by_cases same : rep x = rep y
      · exact (inner (rep y)).asymm ⟨hx, same⟩ ⟨hy, rfl⟩ isLess
      · rw [apart x hx y hy same] at isLess
        rw [apart y hy x hx (Ne.symm same)]
        exact outerWeak.asymm (here hx) (here hy) isLess
    · by_cases same : rep x = rep y
      · by_cases third : rep z = rep x
        · exact (inner (rep x)).cotrans ⟨hx, rfl⟩ ⟨hy, same.symm⟩ ⟨hz, third⟩ isLess
        · rw [apart x hx z hz (Ne.symm third), apart z hz y hy (same ▸ third), ← same]
          exact untorn x hx y hy z hz same isLess third
      · have across := isLess
        rw [apart x hx y hy same] at across
        by_cases left : rep x = rep z
        · right
          rw [apart z hz y hy (left ▸ same), ← left]
          exact across
        by_cases right : rep z = rep y
        · left
          rw [apart x hx z hz left, right]
          exact across
        rw [apart x hx z hz left, apart z hz y hy right]
        exact outerWeak.cotrans (here hx) (here hy) (here hz) across

end Grouped

/-! ## Sorted lists -/

section Sorted

variable {less : α → α → Bool}

/-- No element is less than one before it. -/
def Sorted (less : α → α → Bool) (l : List α) : Prop := l.Pairwise fun earlier later => less later earlier = false

/-- What is promised of a sort: nothing, if it is given a comparison that is no strict weak order. -/
structure SortContract (sort : (α → α → Bool) → List α → List α) : Prop where
  perm : ∀ less l, StrictWeakOn {x | x ∈ l} less → (sort less l).Perm l
  sorted : ∀ less l, StrictWeakOn {x | x ∈ l} less → Sorted less (sort less l)

/-- The stable merge. -/
def stableMerge (less : α → α → Bool) (left right : List α) : List α :=
  left.merge right fun x y => !less y x

theorem stableMerge_perm (left right : List α) : (stableMerge less left right).Perm (left ++ right) :=
  List.merge_perm_append _

section Members

variable {l : List α} (weak : StrictWeakOn {x | x ∈ l} less)
include weak

private theorem members_trans (x y z : {x // x ∈ l}) :
    (!less y.1 x.1) = true → (!less z.1 y.1) = true → (!less z.1 x.1) = true := by
  rw [Bool.not_eq_true', Bool.not_eq_true', Bool.not_eq_true']
  intro left right
  by_contra isLess
  obtain isLess | isLess := weak.cotrans z.2 x.2 y.2 (Bool.eq_true_of_not_eq_false isLess)
  · rw [right] at isLess
    cases isLess
  · rw [left] at isLess
    cases isLess

private theorem members_total (x y : {x // x ∈ l}) : ((!less y.1 x.1) || !less x.1 y.1) = true := by
  rw [Bool.or_eq_true, Bool.not_eq_true', Bool.not_eq_true']
  by_contra neither
  rw [not_or, Bool.not_eq_false, Bool.not_eq_false] at neither
  have back := weak.asymm x.2 y.2 neither.2
  rw [neither.1] at back
  cases back

end Members

theorem stableMerge_sorted {left right : List α} (weak : StrictWeakOn {x | x ∈ left ++ right} less)
    (leftSorted : Sorted less left) (rightSorted : Sorted less right) :
    Sorted less (stableMerge less left right) := by
  obtain ⟨all, members⟩ : ∃ all, all = left ++ right := ⟨_, rfl⟩
  rw [← members] at weak
  obtain ⟨left, rfl⟩ : ∃ left' : List {x // x ∈ all}, left = left'.map Subtype.val :=
    ⟨left.attachWith _ fun _ member => members ▸ List.mem_append_left _ member,
      (List.attachWith_map_subtype_val _).symm⟩
  obtain ⟨right, rfl⟩ : ∃ right' : List {x // x ∈ all}, right = right'.map Subtype.val :=
    ⟨right.attachWith _ fun _ member => members ▸ List.mem_append_right _ member,
      (List.attachWith_map_subtype_val _).symm⟩
  have merged := List.pairwise_merge (members_trans weak) (members_total weak) left right
    ((List.pairwise_map.mp leftSorted).imp fun notLess => by simp [notLess])
    ((List.pairwise_map.mp rightSorted).imp fun notLess => by simp [notLess])
  have same : stableMerge less (left.map Subtype.val) (right.map Subtype.val) =
      (left.merge right fun x y => !less y.1 x.1).map Subtype.val :=
    (List.map_merge (f := Subtype.val) (s := fun x y => !less y x) fun _ _ _ _ => rfl).symm
  rw [same]
  exact List.pairwise_map.mpr (merged.imp (Bool.not_eq_true' _).mp)

theorem mergeSort_contract : SortContract fun (less : α → α → Bool) l => l.mergeSort fun x y => !less y x where
  perm less l _ := List.mergeSort_perm l _
  sorted less l weak := by
    have sorted := List.pairwise_mergeSort (members_trans weak) (members_total weak) l.attach
    have same : l.mergeSort (fun x y => !less y x) =
        (l.attach.mergeSort fun x y => !less y.1 x.1).map Subtype.val := by
      rw [List.map_mergeSort (f := Subtype.val) (s := fun x y => !less y x) fun _ _ _ _ => rfl,
        List.attach_map_subtype_val]
    rw [same]
    exact List.pairwise_map.mpr (sorted.imp (Bool.not_eq_true' _).mp)

/-- **A group stays together**: what comes behind an element that is less than another one of its group, up to
that one, is of the group too. -/
theorem Sorted.grouped {β : Type} {rep : α → β} {outer : β → β → Bool} {before after : List α} {x y : α}
    (sorted : Sorted less (before ++ x :: after)) (weak : StrictWeakOn {z | z ∈ before ++ x :: after} less)
    (apart : ∀ u ∈ before ++ x :: after, ∀ v ∈ before ++ x :: after, rep u ≠ rep v →
      less u v = outer (rep u) (rep v))
    (member : y ∈ before ++ x :: after) (same : rep x = rep y) (isLess : less x y = true) :
    ∃ between rest, after = between ++ y :: rest ∧ ∀ z ∈ between, rep z = rep y ∧ z ≠ y := by
  have hx : x ∈ before ++ x :: after := by simp
  obtain ⟨_, later, ahead⟩ := List.pairwise_append.mp sorted
  obtain ⟨behind, afterSorted⟩ := List.pairwise_cons.mp later
  have inAfter : y ∈ after := by
    rw [List.mem_append, List.mem_cons] at member
    obtain early | rfl | late := member
    · have := ahead y early x List.mem_cons_self
      rw [isLess] at this
      cases this
    · rw [weak.irrefl y hx] at isLess
      cases isLess
    · exact late
  obtain ⟨between, rest, rfl, first⟩ := List.eq_append_cons_of_mem inAfter
  refine ⟨between, rest, rfl, fun z inBetween => ⟨?_, fun isY => first (isY ▸ inBetween)⟩⟩
  have hz : z ∈ before ++ x :: (between ++ y :: rest) := by simp [inBetween]
  by_contra other
  have left : less z x = false := behind z (List.mem_append_left _ inBetween)
  have right : less y z = false :=
    (List.pairwise_append.mp afterSorted).2.2 z inBetween y List.mem_cons_self
  obtain isLess | isLess := weak.cotrans hx member hz isLess
  · rw [apart x hx z hz (same ▸ Ne.symm other), same, ← apart y member z hz (Ne.symm other), right] at isLess
    cases isLess
  · rw [apart z hz y member other, ← same, ← apart z hz x hx (same ▸ other), left] at isLess
    cases isLess

end Sorted

end Cctools.Theory
