/-
# Cctools.Libstuff.Overlap -- the list of file elements, and what it misses

`check_overlaping_element` of libstuff's ofile.c keeps the ranges of a file that are in
use on a list, and refuses a range that overlaps one of them.  The scan stops at the first
place where the new range fits, so it depends on the list being ordered.

The new element is linked in front of the element it follows, so the list is ordered only
while every range lies behind all the ranges before it, or in front of two or more:
`checkOverlapingElement_exact_iff`.
-/
import Mathlib.Data.List.Induction
import Mathlib.Data.List.Perm.Basic
import Mathlib.Tactic.Common
import Mathlib.Algebra.GroupWithZero.Nat

namespace Cctools.Libstuff

set_option autoImplicit false

/-! ## Elements -/

/-- `struct element`; its link is the place in the list. -/
structure Element where
  offset : BitVec 32
  size : BitVec 32
  name : String
  deriving DecidableEq, Repr

namespace Element

/-- `offset + size`, in 32 bits. -/
def stop (element : Element) : BitVec 32 := element.offset + element.size

/-- The test of the scan. -/
def overlaps (new old : Element) : Bool :=
  (old.offset ≤ new.offset && new.offset < old.stop) ||
    (old.offset < new.stop && new.stop < old.stop) ||
    (new.offset ≤ old.offset && old.stop ≤ new.stop)

def overlapError (new old : Element) : String :=
  "malformed object (" ++ new.name ++ " at offset " ++ toString new.offset.toNat ++ " with a size of " ++
    toString new.size.toNat ++ ", overlaps " ++ old.name ++ " at offset " ++ toString old.offset.toNat ++
    " with a size of " ++ toString old.size.toNat ++ ")"

/-- The range ends below 2^32. -/
def Fits (element : Element) : Prop := element.offset.toNat + element.size.toNat < 2 ^ 32

instance (element : Element) : Decidable element.Fits := inferInstanceAs (Decidable (_ < _))

/-- The first range ends before the second begins. -/
def Before (first second : Element) : Prop :=
  first.offset.toNat + first.size.toNat ≤ second.offset.toNat

instance (first second : Element) : Decidable (first.Before second) := inferInstanceAs (Decidable (_ ≤ _))

/-- The ranges have no byte in common. -/
def Apart (first second : Element) : Prop := first.Before second ∨ second.Before first

instance (first second : Element) : Decidable (first.Apart second) := inferInstanceAs (Decidable (_ ∨ _))

variable {first second : Element}

theorem Apart.symm (apart : first.Apart second) : second.Apart first := Or.symm apart

theorem Fits.stop_toNat {element : Element} (fits : element.Fits) :
    element.stop.toNat = element.offset.toNat + element.size.toNat := by
  rw [stop, BitVec.toNat_add, Nat.mod_eq_of_lt fits]

theorem size_pos {element : Element} (nonempty : element.size ≠ 0) : 0 < element.size.toNat := by
  have := mt BitVec.eq_of_toNat_eq nonempty
  exact Nat.pos_of_ne_zero this

/-- Without a wrap, the three cases of the test are an overlap. -/
theorem overlaps_eq_false_iff {new old : Element} (newFits : new.Fits) (oldFits : old.Fits)
    (newNonempty : new.size ≠ 0) (oldNonempty : old.size ≠ 0) : new.overlaps old = false ↔ new.Apart old := by
  have newPos := size_pos newNonempty
  have oldPos := size_pos oldNonempty
  rw [← Bool.not_eq_true]
  simp only [overlaps, Bool.or_eq_true, Bool.and_eq_true, decide_eq_true_eq, BitVec.le_def, BitVec.lt_def,
    newFits.stop_toNat, oldFits.stop_toNat, Apart, Before]
  omega

theorem Apart.offset_le_iff (apart : first.Apart second) (firstNonempty : first.size ≠ 0)
    (secondNonempty : second.size ≠ 0) : first.offset ≤ second.offset ↔ first.Before second := by
  have firstPos := size_pos firstNonempty
  have secondPos := size_pos secondNonempty
  unfold Apart Before at apart
  rw [BitVec.le_def, Before]
  omega

theorem Before.offset_le (before : first.Before second) : first.offset ≤ second.offset := by
  unfold Before at before
  rw [BitVec.le_def]
  omega

theorem Before.trans {first second third : Element} (before : first.Before second) (later : second.Before third) :
    first.Before third := by
  unfold Before at *
  omega

theorem Before.asymm (before : first.Before second) (nonempty : first.size ≠ 0) :
    ¬ second.Before first := by
  have pos := size_pos nonempty
  unfold Before at *
  omega

theorem stop_le_iff {new old : Element} (newFits : new.Fits) : new.stop ≤ old.offset ↔ new.Before old := by
  rw [BitVec.le_def, newFits.stop_toNat, Before]

end Element

/-! ## The scan -/

/-- The loop, on the elements behind the head.  `n->next = e; p->next = n` puts the new
element in front of the one that was looked at, not behind it. -/
def scanElements (new : Element) : List Element → Except String (List Element)
  | [] => .ok [new]
  | [old] => if new.overlaps old then .error (new.overlapError old) else .ok [old, new]
  | old :: next :: rest =>
    if new.overlaps old then .error (new.overlapError old)
    else if new.stop ≤ next.offset then .ok (new :: old :: next :: rest)
    else (scanElements new (next :: rest)).map (old :: ·)

/-- `check_overlaping_element`: `CHECK_BAD` is an error. -/
def checkOverlapingElement (elements : List Element) (new : Element) : Except String (List Element) :=
  if new.size = 0 then .ok elements else scanElements new elements

/-- `CHECK_GOOD` -/
def Accepts (elements : List Element) (new : Element) : Prop := (checkOverlapingElement elements new).toBool = true

instance (elements : List Element) (new : Element) : Decidable (Accepts elements new) :=
  inferInstanceAs (Decidable (_ = true))

/-- The list after a call: a refused element leaves it as it was. -/
def elementsAfter (elements : List Element) (new : Element) : List Element :=
  match checkOverlapingElement elements new with
  | .ok longer => longer
  | .error _ => elements

/-- The list after calls for all of `given`, from the empty list. -/
def listAfter (given : List Element) : List Element := given.foldl elementsAfter []

/-- The non-empty ranges for which the call was good. -/
def accepted (given : List Element) : List Element :=
  (given.foldl (fun (state : List Element × List Element) new =>
    (elementsAfter state.1 new, if new.size ≠ 0 ∧ Accepts state.1 new then state.2 ++ [new] else state.2)) ([], [])).2

/-- "an element is added in the ordered list" -/
def Ordered (elements : List Element) : Prop := elements.Pairwise fun first second => first.offset ≤ second.offset

instance (elements : List Element) : Decidable (Ordered elements) := inferInstanceAs (Decidable (List.Pairwise _ _))

/-! ## What is admitted -/

/-- The ranges that an exact check lets in: the non-empty ones that have no byte in common
with the ranges let in before. -/
def letIn (ranges : List Element) (new : Element) : List Element :=
  if new.size ≠ 0 ∧ ∀ old ∈ ranges, new.Apart old then ranges ++ [new] else ranges

def admitted (given : List Element) : List Element := given.foldl letIn []

/-- The new range lies behind all of the ranges, or in front of all of them and there are
two or more. -/
def AtEnd (ranges : List Element) (new : Element) : Prop :=
  (∀ old ∈ ranges, old.Before new) ∨ 2 ≤ ranges.length ∧ ∀ old ∈ ranges, new.Before old

/-! ## One call on an ordered list -/

/-- The ranges are in order, not empty and below 2^32, and no two overlap. -/
structure Lined (elements : List Element) : Prop where
  inOrder : elements.Pairwise Element.Before
  nonempty : ∀ element ∈ elements, element.size ≠ 0
  fits : ∀ element ∈ elements, element.Fits

theorem Lined.nil : Lined [] := ⟨List.Pairwise.nil, nofun, nofun⟩

theorem Lined.tail {element : Element} {elements : List Element} (lined : Lined (element :: elements)) :
    Lined elements where
  inOrder := lined.inOrder.tail
  nonempty old there := lined.nonempty old (List.mem_cons_of_mem _ there)
  fits old there := lined.fits old (List.mem_cons_of_mem _ there)

/-- What lies before the first range lies before all of them. -/
theorem Lined.before_all {new next : Element} {rest : List Element} (lined : Lined (next :: rest))
    (before : new.Before next) : ∀ old ∈ next :: rest, new.Before old := by
  intro old there
  rcases List.mem_cons.1 there with rfl | there
  · exact before
  · exact before.trans (List.rel_of_pairwise_cons lined.inOrder there)

section Scan

variable {new : Element} (newFits : new.Fits) (newNonempty : new.size ≠ 0)

include newFits newNonempty

theorem scanElements_ok_iff (elements : List Element) (lined : Lined elements) :
    (scanElements new elements).toBool = true ↔ ∀ old ∈ elements, new.Apart old := by
  have overlaps_iff : ∀ old ∈ elements, new.overlaps old = false ↔ new.Apart old := fun old there =>
    Element.overlaps_eq_false_iff newFits (lined.fits old there) newNonempty (lined.nonempty old there)
  induction elements using scanElements.induct new with
  | case1 => simp [scanElements, Except.toBool]
  | case2 old overlap =>
    have := overlaps_iff old (List.mem_singleton_self old)
    simpa [scanElements, overlap, Except.toBool] using this
  | case3 old apart =>
    have := overlaps_iff old (List.mem_singleton_self old)
    simpa [scanElements, apart, Except.toBool] using this
  | case4 old next rest overlap =>
    have notApart : ¬ new.Apart old := by
      rw [← overlaps_iff old List.mem_cons_self, overlap]
      decide
    simp only [scanElements, overlap, if_true, Except.toBool]
    exact iff_of_false (by decide) fun apart => notApart (apart old List.mem_cons_self)
  | case5 old next rest apart fitsHere =>
    have before : new.Before next := (Element.stop_le_iff newFits).1 fitsHere
    have apartOld : new.Apart old := (overlaps_iff old List.mem_cons_self).1 (Bool.eq_false_iff.2 apart)
    simp only [scanElements, Bool.eq_false_iff.2 apart, Bool.false_eq_true, if_false, fitsHere, if_true,
      Except.toBool]
    refine iff_of_true trivial fun other there => ?_
    rcases List.mem_cons.1 there with rfl | there
    · exact apartOld
    · exact Or.inl (lined.tail.before_all before other there)
  | case6 old next rest apart further ih =>
    have apartOld : new.Apart old := (overlaps_iff old List.mem_cons_self).1 (Bool.eq_false_iff.2 apart)
    have rest_iff := ih lined.tail fun other there => overlaps_iff other (List.mem_cons_of_mem _ there)
    simp only [scanElements, Bool.eq_false_iff.2 apart, Bool.false_eq_true, if_false, further]
    rw [List.forall_mem_cons, and_iff_right apartOld]
    refine Iff.trans ?_ rest_iff
    cases scanElements new (next :: rest) <;> exact Iff.rfl

end Scan

/-- An accepted element is on the list, and nothing else changes. -/
theorem scanElements_perm (new : Element) (elements longer : List Element)
    (good : scanElements new elements = .ok longer) : longer.Perm (new :: elements) := by
  induction elements using scanElements.induct new generalizing longer with
  | case1 =>
    obtain rfl := Except.ok.inj good
    exact List.Perm.refl _
  | case2 old overlap => simp [scanElements, overlap] at good
  | case3 old apart =>
    simp only [scanElements, Bool.eq_false_iff.2 apart, Bool.false_eq_true, if_false] at good
    obtain rfl := Except.ok.inj good
    exact List.Perm.swap _ _ _
  | case4 old next rest overlap => simp [scanElements, overlap] at good
  | case5 old next rest apart fitsHere =>
    simp only [scanElements, Bool.eq_false_iff.2 apart, Bool.false_eq_true, if_false, fitsHere, if_true] at good
    obtain rfl := Except.ok.inj good
    exact List.Perm.refl _
  | case6 old next rest apart further ih =>
    simp only [scanElements, Bool.eq_false_iff.2 apart, Bool.false_eq_true, if_false, further] at good
    cases behind : scanElements new (next :: rest) with
    | error text => simp [behind, Except.map] at good
    | ok shorter =>
      rw [behind] at good
      obtain rfl := Except.ok.inj good
      exact ((ih shorter behind).cons old).trans (List.Perm.swap _ _ _)

variable {new : Element}

/-- **The list of an accepted element is in order only where the element is at an end.** -/
theorem scanElements_ordered_iff (newFits : new.Fits) (newNonempty : new.size ≠ 0)
    (elements longer : List Element) (lined : Lined elements) (apart : ∀ old ∈ elements, new.Apart old)
    (good : scanElements new elements = .ok longer) : Ordered longer ↔ AtEnd elements new := by
  induction elements using scanElements.induct new generalizing longer with
  | case1 =>
    obtain rfl := Except.ok.inj good
    exact iff_of_true (List.pairwise_singleton _ _) (Or.inl nofun)
  | case2 old overlap => simp [scanElements, overlap] at good
  | case3 old clear =>
    simp only [scanElements, Bool.eq_false_iff.2 clear, Bool.false_eq_true, if_false] at good
    obtain rfl := Except.ok.inj good
    have apartOld := (apart old List.mem_cons_self).symm
    rw [Ordered, List.pairwise_pair, apartOld.offset_le_iff (lined.nonempty old List.mem_cons_self) newNonempty,
      AtEnd]
    simp
  | case4 old next rest overlap => simp [scanElements, overlap] at good
  | case5 old next rest clear fitsHere =>
    simp only [scanElements, Bool.eq_false_iff.2 clear, Bool.false_eq_true, if_false, fitsHere, if_true] at good
    obtain rfl := Except.ok.inj good
    have before : new.Before next := (Element.stop_le_iff newFits).1 fitsHere
    have apartOld := apart old List.mem_cons_self
    have notBehind : ¬ ∀ other ∈ old :: next :: rest, other.Before new := fun behind =>
      before.asymm newNonempty (behind next (List.mem_cons_of_mem _ List.mem_cons_self))
    rw [Ordered, List.pairwise_cons, and_iff_left (lined.inOrder.imp Element.Before.offset_le), AtEnd,
      or_iff_right notBehind,
      and_iff_right (by simp)]
    constructor
    · intro least
      exact lined.before_all ((apartOld.offset_le_iff newNonempty (lined.nonempty old List.mem_cons_self)).1
        (least old List.mem_cons_self))
    · intro inFront other there
      exact (inFront other there).offset_le
  | case6 old next rest clear further ih =>
    simp only [scanElements, Bool.eq_false_iff.2 clear, Bool.false_eq_true, if_false, further] at good
    cases behind : scanElements new (next :: rest) with
    | error text => simp [behind, Except.map] at good
    | ok shorter =>
      rw [behind] at good
      obtain rfl := Except.ok.inj good
      -- the new range lies behind `next`, so behind `old` as well
      have nextBefore : next.Before new :=
        (apart next (List.mem_cons_of_mem _ List.mem_cons_self)).resolve_left
          fun before => further ((Element.stop_le_iff newFits).2 before)
      have oldNext : old.Before next := List.rel_of_pairwise_cons lined.inOrder List.mem_cons_self
      have least : ∀ other ∈ shorter, old.offset ≤ other.offset := by
        intro other there
        rcases List.mem_cons.1 ((scanElements_perm new _ shorter behind).mem_iff.1 there) with rfl | there
        · exact (oldNext.trans nextBefore).offset_le
        · exact (List.rel_of_pairwise_cons lined.inOrder there).offset_le
      have notInFront : ∀ {others : List Element}, next ∈ others → ¬ ∀ other ∈ others, new.Before other :=
        fun there inFront => (inFront next there).asymm newNonempty nextBefore
      have shorterOrdered := ih shorter lined.tail (fun other there => apart other (List.mem_cons_of_mem _ there))
        behind
      rw [AtEnd, or_iff_left fun inFront => notInFront List.mem_cons_self inFront.2] at shorterOrdered
      rw [Ordered, List.pairwise_cons, and_iff_right least, AtEnd,
        or_iff_left fun inFront => notInFront (List.mem_cons_of_mem _ List.mem_cons_self) inFront.2,
        List.forall_mem_cons, and_iff_right (oldNext.trans nextBefore)]
      exact shorterOrdered

/-! ## A run of calls -/

theorem toBool_eq_true_iff {ε α : Type} {result : Except ε α} : result.toBool = true ↔ ∃ value, result = .ok value := by
  cases result <;> simp [Except.toBool]

theorem listAfter_snoc (given : List Element) (new : Element) :
    listAfter (given ++ [new]) = elementsAfter (listAfter given) new := by
  rw [listAfter, List.foldl_append]
  rfl

theorem admitted_snoc (given : List Element) (new : Element) :
    admitted (given ++ [new]) = letIn (admitted given) new := by
  rw [admitted, List.foldl_append]
  rfl

/-- The list is in order and holds what an exact check lets in. -/
structure Tracks (elements ranges : List Element) : Prop where
  lined : Lined elements
  same : elements.Perm ranges

/-- Ranges in order of their offsets that do not overlap. -/
theorem lined_of_ordered {elements : List Element} (ordered : Ordered elements)
    (apart : elements.Pairwise Element.Apart) (nonempty : ∀ element ∈ elements, element.size ≠ 0)
    (fits : ∀ element ∈ elements, element.Fits) : Lined elements where
  inOrder := (ordered.and apart).imp_of_mem fun here there both =>
    (both.2.offset_le_iff (nonempty _ here) (nonempty _ there)).1 both.1
  nonempty := nonempty
  fits := fits

variable {elements ranges : List Element}

/-- The step: what a call does to a list that tracks `ranges`. -/
theorem Tracks.call (tracks : Tracks elements ranges) (newFits : new.Fits) (newNonempty : new.size ≠ 0) :
    (Accepts elements new ↔ ∀ old ∈ ranges, new.Apart old) ∧
      (elementsAfter elements new).Perm (letIn ranges new) ∧
      (Ordered (elementsAfter elements new) ↔ ((∀ old ∈ ranges, new.Apart old) → AtEnd ranges new)) := by
  have members : ∀ old, old ∈ elements ↔ old ∈ ranges := fun old => tracks.same.mem_iff
  have atEnd_iff : AtEnd elements new ↔ AtEnd ranges new := by
    simp only [AtEnd, members, tracks.same.length_eq]
  have exact := scanElements_ok_iff newFits newNonempty elements tracks.lined
  simp only [members] at exact
  simp only [Accepts, elementsAfter, checkOverlapingElement, newNonempty, if_false, letIn, ne_eq, not_false_eq_true,
    true_and]
  refine ⟨exact, ?_⟩
  by_cases apart : ∀ old ∈ ranges, new.Apart old
  · obtain ⟨longer, good⟩ := toBool_eq_true_iff.1 (exact.2 apart)
    have ordered := scanElements_ordered_iff newFits newNonempty elements longer tracks.lined
      (fun old there => apart old ((members old).1 there)) good
    rw [good, if_pos apart]
    refine ⟨?_, ordered.trans (atEnd_iff.trans ⟨fun atEnd _ => atEnd, fun atEnd => atEnd apart⟩)⟩
    exact (scanElements_perm new elements longer good).trans
      ((tracks.same.cons new).trans (List.perm_append_singleton new ranges).symm)
  · rw [if_neg apart]
    cases bad : scanElements new elements with
    | ok longer => exact absurd (exact.1 (by rw [bad]; rfl)) apart
    | error text =>
      exact ⟨tracks.same, iff_of_true (tracks.lined.inOrder.imp Element.Before.offset_le)
        fun clear => absurd clear apart⟩

theorem letIn_apart {ranges : List Element} (apart : ranges.Pairwise Element.Apart) :
    (letIn ranges new).Pairwise Element.Apart := by
  unfold letIn
  split
  · rename_i clear
    refine List.pairwise_append.2 ⟨apart, List.pairwise_singleton _ _, fun old there other single => ?_⟩
    obtain rfl := List.mem_singleton.1 single
    exact (clear.2 old there).symm
  · exact apart

theorem mem_letIn {ranges : List Element} {new element : Element} (there : element ∈ letIn ranges new) :
    element ∈ ranges ∨ element = new ∧ new.size ≠ 0 := by
  unfold letIn at there
  split at there
  · rename_i clear
    rcases List.mem_append.1 there with there | single
    · exact Or.inl there
    · exact Or.inr ⟨List.mem_singleton.1 single, clear.1⟩
  · exact Or.inl there

/-- If the list is still ordered after the call, it tracks what is admitted. -/
theorem Tracks.next (tracks : Tracks elements ranges)
    (newFits : new.Fits) (ordered : Ordered (elementsAfter elements new)) :
    Tracks (elementsAfter elements new) (letIn ranges new) := by
  by_cases newEmpty : new.size = 0
  · simpa [elementsAfter, checkOverlapingElement, letIn, newEmpty] using tracks
  · obtain ⟨-, same, -⟩ := tracks.call newFits newEmpty
    have rangesApart : ranges.Pairwise Element.Apart :=
      (tracks.same.pairwise_iff Element.Apart.symm).1 (tracks.lined.inOrder.imp Or.inl)
    refine ⟨lined_of_ordered ordered ((same.pairwise_iff Element.Apart.symm).2 (letIn_apart rangesApart))
      (fun element there => ?_) (fun element there => ?_), same⟩
    · rcases mem_letIn (same.mem_iff.1 there) with there | ⟨rfl, nonempty⟩
      · exact tracks.lined.nonempty element (tracks.same.mem_iff.2 there)
      · exact nonempty
    · rcases mem_letIn (same.mem_iff.1 there) with there | ⟨rfl, -⟩
      · exact tracks.lined.fits element (tracks.same.mem_iff.2 there)
      · exact newFits

theorem ordered_call_iff (tracks : Tracks elements ranges)
    (newFits : new.Fits) : Ordered (elementsAfter elements new) ↔
      (new.size ≠ 0 → (∀ old ∈ ranges, new.Apart old) → AtEnd ranges new) := by
  by_cases newEmpty : new.size = 0
  · have ordered : Ordered elements := tracks.lined.inOrder.imp Element.Before.offset_le
    simpa [elementsAfter, checkOverlapingElement, newEmpty] using ordered
  · rw [(tracks.call newFits newEmpty).2.2]
    exact ⟨fun atEnd _ => atEnd, fun atEnd => atEnd newEmpty⟩

/-- The run: while the list is ordered it tracks what is admitted. -/
theorem tracks_listAfter (given : List Element) (fits : ∀ element ∈ given, element.Fits)
    (ordered : ∀ before new, before ++ [new] <+: given → Ordered (listAfter (before ++ [new]))) :
    Tracks (listAfter given) (admitted given) := by
  induction given using List.reverseRecOn with
  | nil => exact ⟨Lined.nil, List.Perm.refl _⟩
  | append_singleton given new ih =>
    have tracks := ih (fun element there => fits element (List.mem_append_left _ there))
      fun before other first => ordered before other (first.trans (List.prefix_append _ _))
    have last := ordered given new (List.prefix_refl _)
    rw [listAfter_snoc] at last ⊢
    rw [admitted_snoc]
    exact tracks.next (fits new (List.mem_append_right _ (List.mem_singleton_self _))) last

theorem foldl_list (given : List Element) : (given.foldl (fun (state : List Element × List Element) new =>
    (elementsAfter state.1 new, if new.size ≠ 0 ∧ Accepts state.1 new then state.2 ++ [new] else state.2))
    ([], [])).1 = listAfter given := by
  induction given using List.reverseRecOn with
  | nil => rfl
  | append_singleton given new ih => rw [List.foldl_append, listAfter_snoc, ← ih]; rfl

theorem accepted_snoc (given : List Element) (new : Element) : accepted (given ++ [new]) =
    if new.size ≠ 0 ∧ Accepts (listAfter given) new then accepted given ++ [new] else accepted given := by
  rw [accepted, List.foldl_append, ← foldl_list]
  rfl

/-- The list holds the ranges for which the call was good. -/
theorem listAfter_perm_accepted (given : List Element) : (listAfter given).Perm (accepted given) := by
  induction given using List.reverseRecOn with
  | nil => exact List.Perm.refl _
  | append_singleton given new ih =>
    rw [listAfter_snoc, accepted_snoc]
    by_cases newEmpty : new.size = 0
    · simpa [elementsAfter, checkOverlapingElement, newEmpty] using ih
    · simp only [elementsAfter, Accepts, checkOverlapingElement, newEmpty, if_false, ne_eq, not_false_eq_true,
        true_and]
      cases result : scanElements new (listAfter given) with
      | error text => simpa [Except.toBool] using ih
      | ok longer =>
        simp only [Except.toBool, if_true]
        exact (scanElements_perm new _ longer result).trans
          ((ih.cons new).trans (List.perm_append_singleton new _).symm)

/-- A call is exact: it is good for a range without a byte in common with the ranges
accepted before, and leaves the list in order. -/
def ExactCall (before : List Element) (new : Element) : Prop :=
  (Accepts (listAfter before) new ↔ new.size = 0 ∨ ∀ old ∈ accepted before, new.Apart old) ∧
    Ordered (listAfter (before ++ [new]))

/-- **The check is exact on a run of calls exactly when every range that it has to let in
lies behind all the ranges let in before, or in front of two or more.** -/
theorem checkOverlapingElement_exact_iff (given : List Element) (fits : ∀ element ∈ given, element.Fits) :
    (∀ before new, before ++ [new] <+: given → ExactCall before new) ↔
      ∀ before new, before ++ [new] <+: given → new.size ≠ 0 → (∀ old ∈ admitted before, new.Apart old) →
        AtEnd (admitted before) new := by
  have fits_before : ∀ {before new}, before ++ [new] <+: given → (∀ element ∈ before, element.Fits) ∧ new.Fits :=
    fun first => ⟨fun element there => fits element (first.subset (List.mem_append_left _ there)),
      fits _ (first.subset (List.mem_append_right _ (List.mem_singleton_self _)))⟩
  constructor
  · intro exact before new first
    have tracks := tracks_listAfter before (fits_before first).1 fun earlier other early =>
      (exact earlier other (early.trans ((List.prefix_append _ _).trans first))).2
    have last := (exact before new first).2
    rw [listAfter_snoc] at last
    exact (ordered_call_iff tracks (fits_before first).2).1 last
  · intro atEnd
    -- the list is ordered after every call, by induction on the calls
    have ordered : ∀ before, before <+: given → Tracks (listAfter before) (admitted before) := by
      intro before
      induction before using List.reverseRecOn with
      | nil => exact fun _ => ⟨Lined.nil, List.Perm.refl _⟩
      | append_singleton before new ih =>
        intro first
        have tracks := ih ((List.prefix_append _ _).trans first)
        rw [listAfter_snoc, admitted_snoc]
        exact tracks.next (fits_before first).2
          ((ordered_call_iff tracks (fits_before first).2).2 (atEnd before new first))
    intro before new first
    have tracks := ordered before ((List.prefix_append _ _).trans first)
    have sameAccepted : ∀ old, old ∈ accepted before ↔ old ∈ admitted before := fun old =>
      (listAfter_perm_accepted before).mem_iff.symm.trans tracks.same.mem_iff
    refine ⟨?_, ?_⟩
    · by_cases newEmpty : new.size = 0
      · simp [Accepts, checkOverlapingElement, newEmpty, Except.toBool]
      · rw [(tracks.call (fits_before first).2 newEmpty).1, or_iff_right newEmpty]
        simp only [sameAccepted]
    · exact (ordered _ first).lined.inOrder.imp Element.Before.offset_le

theorem checkOverlapingElement_exact_iff_three :
    (∀ before new, before ++ [new] <+: [⟨0, 32, "a"⟩, ⟨40, 8, "b"⟩, ⟨64, 16, "c"⟩] → ExactCall before new) ↔
      ∀ before new, before ++ [new] <+: [⟨0, 32, "a"⟩, ⟨40, 8, "b"⟩, ⟨64, 16, "c"⟩] → new.size ≠ 0 →
        (∀ old ∈ admitted before, new.Apart old) → AtEnd (admitted before) new :=
  checkOverlapingElement_exact_iff _ (by decide)

/-- The headers, three sections, and a range inside the first section.  The third section is
put in front of the first, and the scan for the last range ends before it gets there. -/
theorem insideSection_accepted :
    let before : List Element := [⟨0, 100, "headers"⟩, ⟨200, 10, "first"⟩, ⟨400, 10, "second"⟩, ⟨300, 10, "third"⟩]
    let new : Element := ⟨205, 3, "inside"⟩
    (∀ element ∈ before ++ [new], element.Fits) ∧ ¬ Ordered (listAfter before) ∧
      Accepts (listAfter before) new ∧ ⟨200, 10, "first"⟩ ∈ accepted before ∧ ¬ new.Apart ⟨200, 10, "first"⟩ ∧
      ¬ ExactCall before new := by
  intro before new
  have accepts : Accepts (listAfter before) new := by decide
  have there : ⟨200, 10, "first"⟩ ∈ accepted before := by decide
  have overlap : ¬ new.Apart ⟨200, 10, "first"⟩ := by decide
  refine ⟨by decide, by decide, accepts, there, overlap, fun exact => ?_⟩
  rcases exact.1.1 accepts with empty | apart
  · exact absurd empty (by decide)
  · exact overlap (apart _ there)

end Cctools.Libstuff
