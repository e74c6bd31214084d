/-
# Cctools.Order.Comparer -- what the atoms of a section are sorted by

`Layout::Comparer` compares two atoms by one thing after the other: the start of the section, the
ordinals of the order file, the end of the section, whether they are tentative or cold, their
file, their address and at last their name.  So it is a strict weak order (`comparer_strictWeakOn`)
as long as only one of them is a start and the difference of two addresses does not wrap.  What it
does not tell apart is `Tied`.
-/
import Cctools.Order.Override
import Cctools.Theory.WeakOrder
import Mathlib.Order.WithBot
import Mathlib.Order.BooleanAlgebra.Defs

namespace Cctools.Order

set_option autoImplicit false

open Cctools.Theory

/-! ## The comparison -/

/-- `NullOrdinal()` if it has no file. -/
def Atom.ordinal {Address : Type} (atom : Atom Address) : Nat := atom.fileOrdinal.getD 0

/-- What atoms without an ordinal of the order file are compared by. -/
def defaultLess {Address : Type} (left right : Atom Address) : Bool :=
  if left.contentType = .sectionEnd then false
  else if right.contentType = .sectionEnd then true
  else if left.tentative ≠ right.tentative then right.tentative
  else if left.cold ≠ right.cold then right.cold
  else if left.ordinal ≠ right.ordinal then decide (left.ordinal < right.ordinal)
  -- tentative definitions have no address
  else if left.tentative && right.tentative then decide (left.userVisibleName < right.userVisibleName)
  else
    let addrDiff := left.objectAddress - right.objectAddress
    if addrDiff = 0 then decide (left.userVisibleName < right.userVisibleName)
    else decide (addrDiff.toInt < 0)

section Comparer

variable {Address : Type} (state : Internal Address) (ordinals : Address → Option (BitVec 32))

/-- `_ordinalOverrideMap`, which is only looked at with an order file. -/
def overrideOf (atom : Address) : Option (BitVec 32) := if state.haveOrderFile then ordinals atom else none

variable [DecidableEq Address]

/-- `Layout::Comparer::operator()`. -/
def comparer (left right : Address) : Bool :=
  if left = right then false
  else if (state.atom left).contentType = .sectionStart then true
  else if (state.atom right).contentType = .sectionStart then false
  else
    match overrideOf state ordinals left, overrideOf state ordinals right with
    | some leftPos, some rightPos => decide (leftPos < rightPos)
    | some _, none => true
    | none, some _ => false
    | none, none => defaultLess (state.atom left) (state.atom right)

@[simp] theorem comparer_self (atom : Address) : comparer state ordinals atom atom = false := by
  rw [comparer, if_pos rfl]

end Comparer

/-! ## One key after the other -/

section Keys

variable {Address : Type}

/-- The keys of `defaultLess`. -/
def defaultKeys : Atom Address → Atom Address → Bool :=
  byKey (fun atom => decide (atom.contentType = .sectionEnd)) fun isEnd =>
    if isEnd then fun _ _ => false
    else byKey Atom.tentative fun isTent =>
      byKey Atom.cold fun _ =>
        byKey Atom.ordinal fun _ =>
          if isTent then fun left right => decide (left.userVisibleName < right.userVisibleName)
          else byKey (fun atom : Atom Address => atom.objectAddress.toNat) fun _ left right =>
            decide (left.userVisibleName < right.userVisibleName)

theorem defaultKeys_strictWeakOn (atoms : Set (Atom Address)) : StrictWeakOn atoms defaultKeys := by
  refine byKey_strictWeakOn fun isEnd => ?_
  cases isEnd with
  | true => exact strictWeakOn_never _
  | false =>
    rw [if_neg Bool.false_ne_true]
    refine byKey_strictWeakOn fun isTent => byKey_strictWeakOn fun _ => byKey_strictWeakOn fun _ => ?_
    cases isTent with
    | true => exact strictWeakOn_key _ _
    | false => exact byKey_strictWeakOn fun _ => strictWeakOn_key _ Atom.userVisibleName

variable {a b : BitVec 64}

private theorem sub_eq_zero : a - b = 0 ↔ a = b := by
  rw [BitVec.sub_eq_iff_eq_add]
  simp

private theorem toInt_sub_neg (ha : a.toNat < 2 ^ 63) (hb : b.toNat < 2 ^ 63) :
    (a - b).toInt < 0 ↔ a.toNat < b.toNat := by
  rw [BitVec.toInt_sub, BitVec.toInt_eq_toNat_of_lt (by omega), BitVec.toInt_eq_toNat_of_lt (by omega),
    Int.bmod_eq_of_le (by omega) (by omega)]
  omega

private theorem bool_lt_of_ne {a b : Bool} (differ : a ≠ b) : decide (a < b) = b := by
  cases a <;> cases b <;> first | rfl | exact absurd rfl differ

theorem defaultLess_eq {left right : Atom Address} (leftSmall : left.objectAddress.toNat < 2 ^ 63)
    (rightSmall : right.objectAddress.toNat < 2 ^ 63) : defaultLess left right = defaultKeys left right := by
  rw [defaultLess, defaultKeys]
  by_cases leftEnd : left.contentType = .sectionEnd
  · rw [if_pos leftEnd]
    by_cases rightEnd : right.contentType = .sectionEnd
    · rw [byKey_of_eq (by rw [leftEnd, rightEnd]), if_pos (decide_eq_true leftEnd)]
    · rw [byKey_of_ne (by simp [leftEnd, rightEnd]), decide_eq_true leftEnd, decide_eq_false rightEnd]
      rfl
  rw [if_neg leftEnd]
  by_cases rightEnd : right.contentType = .sectionEnd
  · rw [if_pos rightEnd, byKey_of_ne (by simp [leftEnd, rightEnd]), decide_eq_false leftEnd, decide_eq_true rightEnd]
    rfl
  rw [if_neg rightEnd, byKey_of_eq (by simp [leftEnd, rightEnd]), decide_eq_false leftEnd,
    if_neg Bool.false_ne_true]
  by_cases tentative : left.tentative = right.tentative
  swap
  · rw [if_pos tentative, byKey_of_ne tentative, bool_lt_of_ne tentative]
  rw [if_neg (not_not.mpr tentative), byKey_of_eq tentative]
  by_cases cold : left.cold = right.cold
  swap
  · rw [if_pos cold, byKey_of_ne cold, bool_lt_of_ne cold]
  rw [if_neg (not_not.mpr cold), byKey_of_eq cold]
  by_cases ordinal : left.ordinal = right.ordinal
  swap
  · rw [if_pos ordinal, byKey_of_ne ordinal]
  rw [if_neg (not_not.mpr ordinal), byKey_of_eq ordinal, ← tentative, Bool.and_self]
  cases left.tentative with
  | true => rfl
  | false =>
    rw [if_neg Bool.false_ne_true, if_neg Bool.false_ne_true, byKey]
    simp only [toInt_sub_neg leftSmall rightSmall, BitVec.toNat_inj, sub_eq_zero]

variable [DecidableEq Address] (state : Internal Address) (ordinals : Address → Option (BitVec 32))

/-- The ordinal of the order file, with those that have none behind all others. -/
def overrideKey (atom : Address) : WithTop Nat := (overrideOf state ordinals atom).map BitVec.toNat

/-- The keys of `comparer`. -/
def comparerKeys : Address → Address → Bool :=
  byKey (fun atom : Address => decide ((state.atom atom).contentType ≠ .sectionStart)) fun _ =>
    byKey (overrideKey state ordinals) fun position =>
      if position = ⊤ then fun left right => defaultKeys (state.atom left) (state.atom right)
      else fun _ _ => false

omit [DecidableEq Address] in
theorem comparerKeys_strictWeakOn (atoms : Set Address) : StrictWeakOn atoms (comparerKeys state ordinals) := by
  refine byKey_strictWeakOn fun _ => byKey_strictWeakOn fun position => ?_
  split
  · exact (defaultKeys_strictWeakOn Set.univ).comap fun _ _ => trivial
  · exact strictWeakOn_never _

/-- No two of the atoms are of the type. -/
def AtMostOne (atoms : Set Address) (type : ContentType) : Prop :=
  ∀ x ∈ atoms, ∀ y ∈ atoms, (state.atom x).contentType = type → (state.atom y).contentType = type → x = y

/-- Object addresses below 2^63. -/
def SmallAddresses (atoms : Set Address) : Prop := ∀ x ∈ atoms, (state.atom x).objectAddress.toNat < 2 ^ 63

variable {atoms : Set Address}

theorem comparer_eq (start : AtMostOne state atoms .sectionStart)
    (small : SmallAddresses state atoms) {left right : Address} (hl : left ∈ atoms) (hr : right ∈ atoms) :
    comparer state ordinals left right = comparerKeys state ordinals left right := by
  by_cases same : left = right
  · rw [same, comparer_self, (comparerKeys_strictWeakOn state ordinals Set.univ).irrefl right trivial]
  rw [comparer, if_neg same, comparerKeys]
  by_cases leftStart : (state.atom left).contentType = .sectionStart
  · have rightOther : (state.atom right).contentType ≠ .sectionStart :=
      fun rightStart => same (start left hl right hr leftStart rightStart)
    rw [if_pos leftStart, byKey_of_ne (by simp [leftStart, rightOther])]
    simp [leftStart, rightOther]
  rw [if_neg leftStart]
  by_cases rightStart : (state.atom right).contentType = .sectionStart
  · rw [if_pos rightStart, byKey_of_ne (by simp [leftStart, rightStart])]
    simp [leftStart, rightStart]
  rw [if_neg rightStart, byKey_of_eq (by simp [leftStart, rightStart])]
  cases ofLeft : overrideOf state ordinals left with
  | none =>
    have leftKey : overrideKey state ordinals left = ⊤ := by rw [overrideKey, ofLeft]; rfl
    cases ofRight : overrideOf state ordinals right with
    | none =>
      have rightKey : overrideKey state ordinals right = ⊤ := by rw [overrideKey, ofRight]; rfl
      rw [byKey_of_eq (leftKey.trans rightKey.symm), if_pos leftKey]
      exact defaultLess_eq (small left hl) (small right hr)
    | some rightPos =>
      have rightKey : overrideKey state ordinals right = WithTop.some rightPos.toNat := by
        rw [overrideKey, ofRight]; rfl
      rw [byKey_of_ne (by rw [leftKey, rightKey]; exact WithTop.top_ne_coe), leftKey]
      exact (decide_eq_false not_top_lt).symm
  | some leftPos =>
    have leftKey : overrideKey state ordinals left = WithTop.some leftPos.toNat := by
      rw [overrideKey, ofLeft]; rfl
    cases ofRight : overrideOf state ordinals right with
    | none =>
      have rightKey : overrideKey state ordinals right = ⊤ := by rw [overrideKey, ofRight]; rfl
      rw [byKey_of_ne (by rw [leftKey, rightKey]; exact WithTop.coe_ne_top), leftKey, rightKey]
      exact (decide_eq_true (WithTop.coe_lt_top _)).symm
    | some rightPos =>
      have rightKey : overrideKey state ordinals right = WithTop.some rightPos.toNat := by
        rw [overrideKey, ofRight]; rfl
      rw [byKey, leftKey, rightKey, if_neg WithTop.coe_ne_top]
      simp only [WithTop.coe_lt_coe, WithTop.coe_inj, BitVec.lt_def]
      split
      next position => rw [position, decide_eq_false (Nat.lt_irrefl _)]
      next => rfl

/-- **The Comparer is a strict weak order** on atoms of which only one is a section start. -/
theorem comparer_strictWeakOn (start : AtMostOne state atoms .sectionStart)
    (small : SmallAddresses state atoms) : StrictWeakOn atoms (comparer state ordinals) :=
  (comparerKeys_strictWeakOn state ordinals atoms).congr fun _ hx _ hy => comparer_eq state ordinals start small hx hy

theorem atMostOne_of_strictWeakOn (weak : StrictWeakOn atoms (comparer state ordinals)) :
    AtMostOne state atoms .sectionStart := by
  intro x hx y hy xStart yStart
  by_contra differ
  have isLess : comparer state ordinals x y = true := by rw [comparer, if_neg differ, if_pos xStart]
  have back := weak.asymm hx hy isLess
  rw [comparer, if_neg (Ne.symm differ), if_pos yStart] at back
  cases back

/-! ## Ties -/

/-- Nothing that `defaultLess` looks at differs. -/
structure DefaultTied (left right : Atom Address) : Prop where
  tentative : left.tentative = right.tentative
  cold : left.cold = right.cold
  ordinal : left.ordinal = right.ordinal
  objectAddress : left.tentative = false → left.objectAddress = right.objectAddress
  userVisibleName : left.userVisibleName = right.userVisibleName

/-- **Nothing that the Comparer looks at differs**. -/
structure Tied (left right : Address) : Prop where
  leftOther : (state.atom left).contentType ≠ .sectionStart
  rightOther : (state.atom right).contentType ≠ .sectionStart
  override : overrideOf state ordinals left = overrideOf state ordinals right
  default : overrideOf state ordinals left = none →
    ((state.atom left).contentType = .sectionEnd ∧ (state.atom right).contentType = .sectionEnd) ∨
      ((state.atom left).contentType ≠ .sectionEnd ∧ (state.atom right).contentType ≠ .sectionEnd ∧
        DefaultTied (state.atom left) (state.atom right))

private theorem toInt_sub_comm (differ : a ≠ b) : (a - b).toInt < 0 ∨ (b - a).toInt < 0 := by
  have : (a - b).toNat ≠ 0 := fun zero => differ (sub_eq_zero.mp (BitVec.eq_of_toNat_eq zero))
  have := BitVec.isLt a
  have := BitVec.isLt b
  rw [BitVec.toInt_eq_toNat_cond, BitVec.toInt_eq_toNat_cond]
  simp only [BitVec.toNat_sub] at *
  split <;> split <;> omega

private theorem name_tied {a b : List UInt8} : (decide (a < b) = false ∧ decide (b < a) = false) ↔ a = b := by
  rw [decide_eq_false_iff_not, decide_eq_false_iff_not]
  constructor
  · rintro ⟨notLess, notGreater⟩
    obtain less | same | greater := Std.lt_trichotomy a b
    · exact absurd less notLess
    · exact same
    · exact absurd greater notGreater
  · rintro rfl
    exact ⟨Std.lt_irrefl, Std.lt_irrefl⟩

omit [DecidableEq Address] in
theorem defaultLess_tied {left right : Atom Address} :
    (defaultLess left right = false ∧ defaultLess right left = false) ↔
      (left.contentType = .sectionEnd ∧ right.contentType = .sectionEnd) ∨
        (left.contentType ≠ .sectionEnd ∧ right.contentType ≠ .sectionEnd ∧ DefaultTied left right) := by
  rw [defaultLess, defaultLess]
  by_cases leftEnd : left.contentType = .sectionEnd
  · by_cases rightEnd : right.contentType = .sectionEnd <;> simp [leftEnd, rightEnd]
  by_cases rightEnd : right.contentType = .sectionEnd
  · simp [leftEnd, rightEnd]
  rw [if_neg leftEnd, if_neg rightEnd, if_neg rightEnd, if_neg leftEnd]
  have noEnd : ((left.contentType = .sectionEnd ∧ right.contentType = .sectionEnd) ∨
      (left.contentType ≠ .sectionEnd ∧ right.contentType ≠ .sectionEnd ∧ DefaultTied left right)) ↔
      DefaultTied left right := by simp [leftEnd, rightEnd]
  rw [noEnd]
  by_cases tentative : left.tentative = right.tentative
  swap
  · rw [if_pos tentative, if_pos (Ne.symm tentative)]
    exact ⟨fun ⟨l, r⟩ => absurd (r.trans l.symm) tentative, fun tied => absurd tied.tentative tentative⟩
  rw [if_neg (not_not.mpr tentative), if_neg (not_not.mpr tentative.symm)]
  by_cases cold : left.cold = right.cold
  swap
  · rw [if_pos cold, if_pos (Ne.symm cold)]
    exact ⟨fun ⟨l, r⟩ => absurd (r.trans l.symm) cold, fun tied => absurd tied.cold cold⟩
  rw [if_neg (not_not.mpr cold), if_neg (not_not.mpr cold.symm)]
  by_cases ordinal : left.ordinal = right.ordinal
  swap
  · rw [if_pos ordinal, if_pos (Ne.symm ordinal), decide_eq_false_iff_not, decide_eq_false_iff_not]
    exact ⟨fun ⟨l, r⟩ => by omega, fun tied => absurd tied.ordinal ordinal⟩
  rw [if_neg (not_not.mpr ordinal), if_neg (not_not.mpr ordinal.symm), ← tentative, Bool.and_self]
  cases isTent : left.tentative with
  | true =>
    rw [if_pos rfl, if_pos rfl, name_tied]
    exact ⟨fun name => ⟨tentative, cold, ordinal, fun real => absurd (isTent.symm.trans real) (by simp), name⟩,
      fun tied => tied.userVisibleName⟩
  | false =>
    rw [if_neg Bool.false_ne_true, if_neg Bool.false_ne_true]
    dsimp only
    by_cases address : left.objectAddress = right.objectAddress
    · rw [if_pos (sub_eq_zero.mpr address), if_pos (sub_eq_zero.mpr address.symm), name_tied]
      exact ⟨fun name => ⟨tentative, cold, ordinal, fun _ => address, name⟩, fun tied => tied.userVisibleName⟩
    · rw [if_neg (mt sub_eq_zero.mp address), if_neg (mt sub_eq_zero.mp (Ne.symm address)),
        decide_eq_false_iff_not, decide_eq_false_iff_not, ← not_or]
      exact ⟨fun neither => absurd (toInt_sub_comm address) neither,
        fun tied => absurd (tied.objectAddress isTent) address⟩

theorem comparer_tied {left right : Address} (differ : left ≠ right) :
    (comparer state ordinals left right = false ∧ comparer state ordinals right left = false) ↔
      Tied state ordinals left right := by
  rw [comparer, comparer, if_neg differ, if_neg (Ne.symm differ)]
  by_cases leftStart : (state.atom left).contentType = .sectionStart
  · rw [if_pos leftStart]
    exact ⟨fun tie => absurd tie.1 (by simp), fun tied => absurd leftStart tied.leftOther⟩
  by_cases rightStart : (state.atom right).contentType = .sectionStart
  · rw [if_neg leftStart, if_pos rightStart, if_pos rightStart]
    exact ⟨fun tie => absurd tie.2 (by simp), fun tied => absurd rightStart tied.rightOther⟩
  rw [if_neg leftStart, if_neg rightStart, if_neg rightStart, if_neg leftStart]
  cases ofLeft : overrideOf state ordinals left with
  | none =>
    cases ofRight : overrideOf state ordinals right with
    | none =>
      dsimp only
      rw [defaultLess_tied]
      exact ⟨fun tie => ⟨leftStart, rightStart, ofLeft.trans ofRight.symm, fun _ => tie⟩,
        fun tied => tied.default ofLeft⟩
    | some rightPos =>
      exact ⟨fun tie => absurd tie.2 (by simp), fun tied => absurd tied.override (by simp [ofLeft, ofRight])⟩
  | some leftPos =>
    cases ofRight : overrideOf state ordinals right with
    | none =>
      exact ⟨fun tie => absurd tie.1 (by simp), fun tied => absurd tied.override (by simp [ofLeft, ofRight])⟩
    | some rightPos =>
      dsimp only
      rw [decide_eq_false_iff_not, decide_eq_false_iff_not, BitVec.lt_def, BitVec.lt_def]
      constructor
      · rintro ⟨notLess, notGreater⟩
        have same : leftPos = rightPos := BitVec.eq_of_toNat_eq (by omega)
        exact ⟨leftStart, rightStart, by rw [ofLeft, ofRight, same], fun unset => absurd unset (by simp [ofLeft])⟩
      · intro tied
        have := tied.override
        rw [ofLeft, ofRight] at this
        cases this
        exact ⟨Nat.lt_irrefl _, Nat.lt_irrefl _⟩

end Keys

end Cctools.Order
