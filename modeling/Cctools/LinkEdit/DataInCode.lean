/-
# Cctools.LinkEdit.DataInCode -- the data that is in between code

`encodeEntry` and `encode` of `DataInCodeAtom` in `ld/LinkEdit.hpp`.  The labels of an atom are
sorted, and every stretch of data in between two of them is written as entries with a 16-bit length.

The entries of a range lie end to end and fill it (`Tiles`) for as long as no range is longer than
one entry may be and no label of a kind is behind another one of the kind (`tiled_iff`): a longer
range is given what is left of its length in 16 bits, and the second label of a kind makes the
first forgotten.
-/
import Mathlib.Data.List.Forall2
import Mathlib.Tactic.Common
import Mathlib.Algebra.GroupWithZero.Nat

namespace Cctools.LinkEdit.DataInCode

set_option autoImplicit false

/-! ## Labels -/

/-- The kinds of data, in the order of `ld::Fixup::Kind`. -/
inductive DataKind where
  | data
  | jt8
  | jt16
  | jt32
  | jta32
  deriving DecidableEq, Repr

/-- `ld::Fixup::Kind`, as far as `encode` tells one from another. -/
inductive Kind where
  | dataInCodeStart (kind : DataKind)
  | dataInCodeEnd
  | other
  deriving DecidableEq, Repr

structure Fixup where
  offsetInAtom : BitVec 32
  kind : Kind
  deriving DecidableEq, Repr

structure Atom where
  size : BitVec 64
  finalAddress : BitVec 64
  fixups : List Fixup
  deriving DecidableEq, Repr

/-- A fixup that is a label; the kind is none for `kindDataInCodeEnd`. -/
structure Label where
  offsetInAtom : BitVec 32
  kind : Option DataKind
  deriving DecidableEq, Repr

def Fixup.label (fixup : Fixup) : Option Label :=
  match fixup.kind with
  | .dataInCodeStart kind => some ⟨fixup.offsetInAtom, some kind⟩
  | .dataInCodeEnd => some ⟨fixup.offsetInAtom, none⟩
  | .other => none

/-- The place of a kind in `ld::Fixup::Kind`. -/
def kindOrder : Option DataKind → Nat
  | some .data => 0
  | some .jt8 => 1
  | some .jt16 => 2
  | some .jt32 => 3
  | some .jta32 => 4
  | none => 5

/-- `FixupByAddressSorter`. -/
def fixupByAddressSorter (left right : Label) : Bool :=
  if left.offsetInAtom ≠ right.offsetInAtom then decide (left.offsetInAtom.toNat < right.offsetInAtom.toNat)
  else decide (kindOrder left.kind > kindOrder right.kind)

/-- `std::sort`: labels that the sorter does not tell apart are equal. -/
def sortLabels (labels : List Label) : List Label :=
  labels.mergeSort fun left right => !fixupByAddressSorter right left

def Atom.dataInCodeLabels (atom : Atom) : List Label := sortLabels (atom.fixups.filterMap Fixup.label)

/-! ## Entries -/

/-- `macho_data_in_code_entry`. -/
structure Entry where
  offset : BitVec 32
  length : BitVec 16
  kind : BitVec 16
  deriving DecidableEq, Repr

/-- `DICE_KIND_DATA` and the others. -/
def DataKind.dice : DataKind → BitVec 16
  | data => 1
  | jt8 => 2
  | jt16 => 3
  | jt32 => 4
  | jta32 => 5

theorem toInt_pos_iff {len : BitVec 32} : 0 < len.toInt ↔ 0 < len.toNat ∧ len.toNat < 2 ^ 31 := by
  rw [BitVec.toInt_eq_toNat_cond]
  split <;> omega

theorem toNat_lowered (len : BitVec 32) : (len - 0xFFF8).toNat = (len.toNat + (2 ^ 32 - 0xFFF8)) % 2 ^ 32 := by
  rw [BitVec.toNat_sub, Nat.add_comm]
  rfl

/-- `len` is an `int`, of which `set_length` takes the lower half; below its range it wraps. -/
def encodeEntry (startImageOffset len : BitVec 32) (kind : DataKind) : List Entry :=
  ⟨startImageOffset, len.setWidth 16, kind.dice⟩ ::
    if 0 < (len - 0xFFF8).toInt then encodeEntry (startImageOffset + 0xFFF8) (len - 0xFFF8) kind else []
  termination_by if 0 < len.toInt then len.toNat else 2 ^ 31
  decreasing_by
    rename_i more
    rw [if_pos more]
    rw [toInt_pos_iff, toNat_lowered] at more
    rw [toNat_lowered]
    split
    · rename_i positive
      rw [toInt_pos_iff] at positive
      omega
    · exact more.2

/-- What `encodeEntry` is called with. -/
structure Stretch where
  prevOffset : BitVec 32
  len : BitVec 32
  prevKind : DataKind
  deriving DecidableEq, Repr

/-- The loop over the labels, and the entry for data up to the end of the atom. -/
def stretches (size : BitVec 64) : Option DataKind → BitVec 32 → List Label → List Stretch
  | none, _, [] => []
  | some prevKind, prevOffset, [] => [⟨prevOffset, (size - prevOffset.setWidth 64).setWidth 32, prevKind⟩]
  | none, _, label :: labels => stretches size label.kind label.offsetInAtom labels
  | some prevKind, prevOffset, label :: labels =>
    let later := stretches size label.kind label.offsetInAtom labels
    if label.kind ≠ some prevKind then ⟨prevOffset, label.offsetInAtom - prevOffset, prevKind⟩ :: later
    else later

section Encode

variable (mhAddress : BitVec 64) (atom : Atom)

def imageOffset (offset : BitVec 32) : BitVec 32 :=
  (atom.finalAddress + offset.setWidth 64 - mhAddress).setWidth 32

def Stretch.encode (stretch : Stretch) : List Entry :=
  encodeEntry (imageOffset mhAddress atom stretch.prevOffset) stretch.len stretch.prevKind

/-- The entries of an atom, those of each stretch by themselves. -/
def entriesOf : List (List Entry) :=
  (stretches atom.size none 0 atom.dataInCodeLabels).map (Stretch.encode mhAddress atom)

end Encode

inductive FinalSection where
  | machHeader (address : BitVec 64)
  | code (atoms : List Atom)
  | other
  deriving DecidableEq, Repr

/-- All sections, from `mhAddress` on. -/
def encodeSections : BitVec 64 → List FinalSection → List Entry
  | _, [] => []
  | _, .machHeader address :: sections => encodeSections address sections
  | mhAddress, .code atoms :: sections =>
    (atoms.flatMap fun atom => (entriesOf mhAddress atom).flatten) ++ encodeSections mhAddress sections
  | mhAddress, .other :: sections => encodeSections mhAddress sections

def encode (sections : List FinalSection) : List Entry := encodeSections 0 sections

/-! ## Ranges -/

/-- The bytes in front of `stop`, from `start` on, are data of a kind. -/
structure Range where
  start : Nat
  stop : Nat
  kind : DataKind
  deriving DecidableEq, Repr

/-- The ranges that labels say: of the kind that is in force from `start` on, up to a label of another
kind or to the end of the atom. -/
def rangesFrom (size : Nat) : Option DataKind → Nat → List Label → List Range
  | none, _, [] => []
  | some kind, start, [] => [⟨start, size, kind⟩]
  | none, _, label :: labels => rangesFrom size label.kind label.offsetInAtom.toNat labels
  | some kind, start, label :: labels =>
    if label.kind = some kind then rangesFrom size (some kind) start labels
    else ⟨start, label.offsetInAtom.toNat, kind⟩ :: rangesFrom size label.kind label.offsetInAtom.toNat labels

def Atom.ranges (atom : Atom) : List Range := rangesFrom atom.size.toNat none 0 atom.dataInCodeLabels

/-- Labels from `low` on, in order. -/
def Ascending : Nat → List Label → Prop
  | _, [] => True
  | low, label :: labels => low ≤ label.offsetInAtom.toNat ∧ Ascending label.offsetInAtom.toNat labels

/-! ## The order of labels -/

theorem not_sorter_iff {left right : Label} :
    (!fixupByAddressSorter right left) = true ↔
      left.offsetInAtom.toNat < right.offsetInAtom.toNat ∨
        left.offsetInAtom.toNat = right.offsetInAtom.toNat ∧ kindOrder right.kind ≤ kindOrder left.kind := by
  rw [Bool.not_eq_true', fixupByAddressSorter]
  by_cases same : right.offsetInAtom = left.offsetInAtom
  · rw [if_neg (not_not.mpr same), same, decide_eq_false_iff_not]
    omega
  · have apart : right.offsetInAtom.toNat ≠ left.offsetInAtom.toNat := mt BitVec.eq_of_toNat_eq same
    rw [if_pos same, decide_eq_false_iff_not]
    omega

theorem ascending_of_pairwise {labels : List Label} {low : Nat}
    (first : ∀ label ∈ labels, low ≤ label.offsetInAtom.toNat)
    (sorted : labels.Pairwise fun left right => left.offsetInAtom.toNat ≤ right.offsetInAtom.toNat) :
    Ascending low labels := by
  induction labels generalizing low with
  | nil => trivial
  | cons label labels ih =>
    obtain ⟨front, later⟩ := List.pairwise_cons.mp sorted
    exact ⟨first label List.mem_cons_self, ih front later⟩

theorem ascending_sortLabels (labels : List Label) : Ascending 0 (sortLabels labels) := by
  have sorted : (sortLabels labels).Pairwise fun left right => (!fixupByAddressSorter right left) = true := by
    apply List.pairwise_mergeSort
    · intro a b c ab bc
      rw [not_sorter_iff] at ab bc ⊢
      omega
    · intro a b
      rw [Bool.or_eq_true, not_sorter_iff, not_sorter_iff]
      omega
  refine ascending_of_pairwise (fun _ _ => Nat.zero_le _) (sorted.imp ?_)
  intro left right ordered
  rw [not_sorter_iff] at ordered
  omega

/-! ## Tiles -/

/-- The entries lie end to end from `start` to `stop`, and are of a kind; `base` is where the atom is
in the image. -/
def TilesFrom (base : BitVec 32) (kind : DataKind) : Nat → Nat → List Entry → Prop
  | start, stop, [] => start = stop
  | start, stop, entry :: entries =>
    entry.offset = base + BitVec.ofNat 32 start ∧ entry.kind = kind.dice ∧
      TilesFrom base kind (start + entry.length.toNat) stop entries

theorem sum_of_tilesFrom {base : BitVec 32} {kind : DataKind} {start stop : Nat} {entries : List Entry}
    (tiles : TilesFrom base kind start stop entries) :
    start + (entries.map fun entry => entry.length.toNat).sum = stop := by
  induction entries generalizing start with
  | nil => exact tiles
  | cons entry entries ih =>
    rw [List.map_cons, List.sum_cons, ← Nat.add_assoc]
    exact ih tiles.2.2

/-- A range that one entry can hold. -/
def Range.Fits (range : Range) : Prop := range.start ≤ range.stop ∧ range.stop - range.start ≤ 0xFFF8

theorem offset_eq_iff {base : BitVec 32} {left right : Nat} :
    base + BitVec.ofNat 32 left = base + BitVec.ofNat 32 right ↔ left % 2 ^ 32 = right % 2 ^ 32 := by
  rw [BitVec.add_right_inj, ← BitVec.toNat_inj, BitVec.toNat_ofNat, BitVec.toNat_ofNat]

theorem offset_toNat (base offset : BitVec 32) : base + offset = base + BitVec.ofNat 32 offset.toNat := by
  rw [BitVec.ofNat_toNat, BitVec.setWidth_eq]

theorem offset_step (base : BitVec 32) (offset : Nat) :
    base + BitVec.ofNat 32 offset + 0xFFF8 = base + BitVec.ofNat 32 (offset + 0xFFF8) := by
  rw [BitVec.ofNat_add, BitVec.add_assoc]
  rfl

/-- **One call of `encodeEntry`** fills a range that fits, and no other. -/
theorem tilesFrom_encodeEntry_iff {base prevOffset len : BitVec 32} {kind : DataKind} {start stop : Nat}
    (startSmall : start < 2 ^ 32)
    (length : prevOffset.toNat ≤ stop → len.toNat = (stop - prevOffset.toNat) % 2 ^ 32) :
    TilesFrom base kind start stop (encodeEntry (base + prevOffset) len kind) ↔
      start = prevOffset.toNat ∧ Range.Fits ⟨start, stop, kind⟩ := by
  have prevSmall := prevOffset.isLt
  have lowered := toNat_lowered len
  have half : (len.setWidth 16).toNat = len.toNat % 2 ^ 16 := BitVec.toNat_setWidth 16 len
  have nextHalf : ((len - 0xFFF8).setWidth 16).toNat = (len - 0xFFF8).toNat % 2 ^ 16 := BitVec.toNat_setWidth 16 _
  rw [offset_toNat base prevOffset]
  constructor
  · intro tiles
    have total := sum_of_tilesFrom tiles
    rw [encodeEntry] at tiles
    obtain ⟨first, -, rest⟩ := tiles
    rw [offset_eq_iff, Nat.mod_eq_of_lt prevSmall, Nat.mod_eq_of_lt startSmall] at first
    have length := length (by omega)
    refine ⟨first.symm, by show start ≤ stop; omega, ?_⟩
    show stop - start ≤ 0xFFF8
    dsimp only at rest
    rw [half] at rest
    split at rest
    · -- The second entry is at a fixed distance, so the first is as long; and nothing is left of the rest.
      rw [encodeEntry] at rest
      obtain ⟨second, -, rest⟩ := rest
      dsimp only at second rest
      rw [offset_step, offset_eq_iff] at second
      have full : len.toNat % 2 ^ 16 = 0xFFF8 := by omega
      have nothing : (len - 0xFFF8).toNat % 2 ^ 16 = 0 := by omega
      rw [nextHalf, nothing, full] at rest
      split at rest
      · rw [encodeEntry] at rest
        have third := rest.1
        dsimp only at third
        rw [offset_step, offset_step, offset_eq_iff] at third
        omega
      · have stopped : start + 0xFFF8 + 0 = stop := rest
        omega
    · rename_i last
      have stopped : start + len.toNat % 2 ^ 16 = stop := rest
      rw [toInt_pos_iff] at last
      omega
  · rintro ⟨rfl, ordered, short⟩
    replace ordered : prevOffset.toNat ≤ stop := ordered
    replace short : stop - prevOffset.toNat ≤ 0xFFF8 := short
    have length := length ordered
    have single : ¬ 0 < (len - 0xFFF8).toInt := by
      rw [toInt_pos_iff]
      omega
    rw [encodeEntry, if_neg single]
    refine ⟨rfl, rfl, ?_⟩
    show prevOffset.toNat + (len.setWidth 16).toNat = stop
    omega

/-! ## All labels of an atom -/

section Whole

variable (mhAddress : BitVec 64) (atom : Atom)

/-- The place of the atom in the image. -/
def inImage : BitVec 32 := (atom.finalAddress - mhAddress).setWidth 32

/-- The entries are those of the range. -/
def Tiles (range : Range) (entries : List Entry) : Prop :=
  TilesFrom (inImage mhAddress atom) range.kind range.start range.stop entries

/-- Data is not followed by more of its kind, but for a label that is there twice. -/
def Changes (label next : Label) : Prop :=
  label.kind ≠ none → next.kind = label.kind → label.offsetInAtom = next.offsetInAtom

variable {mhAddress atom}

theorem imageOffset_eq (offset : BitVec 32) :
    imageOffset mhAddress atom offset = inImage mhAddress atom + offset := by
  apply BitVec.eq_of_toNat_eq
  simp only [imageOffset, inImage, BitVec.toNat_setWidth, BitVec.toNat_add, BitVec.toNat_sub]
  omega

theorem tiles_encode_iff {stretch : Stretch} {range : Range} (same : range.kind = stretch.prevKind)
    (startSmall : range.start < 2 ^ 32)
    (length : stretch.prevOffset.toNat ≤ range.stop →
      stretch.len.toNat = (range.stop - stretch.prevOffset.toNat) % 2 ^ 32) :
    Tiles mhAddress atom range (stretch.encode mhAddress atom) ↔
      range.start = stretch.prevOffset.toNat ∧ range.Fits := by
  obtain ⟨start, stop, kind⟩ := range
  obtain rfl : kind = stretch.prevKind := same
  rw [Tiles, Stretch.encode, imageOffset_eq, tilesFrom_encodeEntry_iff startSmall length]

/-- **The loop over the labels.**  `start` is where the range began that the loop is in, and `prevOffset`
where it says so. -/
theorem forall₂_stretches_iff {kind : Option DataKind} {start : Nat} {prevOffset : BitVec 32} {labels : List Label}
    (behind : start ≤ prevOffset.toNat) (ascending : Ascending prevOffset.toNat labels) :
    List.Forall₂ (Tiles mhAddress atom) (rangesFrom atom.size.toNat kind start labels)
        ((stretches atom.size kind prevOffset labels).map (Stretch.encode mhAddress atom)) ↔
      (kind ≠ none → start = prevOffset.toNat) ∧ (⟨prevOffset, kind⟩ :: labels).IsChain Changes ∧
        ∀ range ∈ rangesFrom atom.size.toNat kind start labels, range.Fits := by
  have startSmall := Nat.lt_of_le_of_lt behind prevOffset.isLt
  induction labels generalizing kind start prevOffset with
  | nil =>
    cases kind with
    | none => simp [rangesFrom, stretches]
    | some kind =>
      have length : prevOffset.toNat ≤ atom.size.toNat →
          ((atom.size - prevOffset.setWidth 64).setWidth 32).toNat =
            (atom.size.toNat - prevOffset.toNat) % 2 ^ 32 := by
        intro ordered
        have := atom.size.isLt
        have := prevOffset.isLt
        rw [BitVec.toNat_setWidth, BitVec.toNat_sub, BitVec.toNat_setWidth]
        omega
      have here := @tiles_encode_iff mhAddress atom
        ⟨prevOffset, (atom.size - prevOffset.setWidth 64).setWidth 32, kind⟩ ⟨start, atom.size.toNat, kind⟩
        rfl startSmall length
      simpa [rangesFrom, stretches] using here
  | cons label labels ih =>
    obtain ⟨first, later⟩ := ascending
    have next := @ih label.kind label.offsetInAtom.toNat label.offsetInAtom (Nat.le_refl _) later
      label.offsetInAtom.isLt
    rw [List.isChain_cons_cons]
    cases kind with
    | none =>
      rw [rangesFrom, stretches]
      refine next.trans ?_
      simp [Changes]
    | some kind =>
      rw [rangesFrom, stretches]
      by_cases same : label.kind = some kind
      · have here : (⟨label.offsetInAtom, some kind⟩ : Label) = label := by rw [← same]
        have again := @ih (some kind) start label.offsetInAtom (Nat.le_trans behind first) later startSmall
        have both : start = label.offsetInAtom.toNat ↔
            start = prevOffset.toNat ∧ prevOffset = label.offsetInAtom := by
          rw [← BitVec.toNat_inj]
          omega
        rw [here] at again
        rw [if_pos same, if_neg (not_not.mpr same), same]
        refine again.trans ?_
        simp [Changes, same, both, and_assoc]
      · have length : prevOffset.toNat ≤ label.offsetInAtom.toNat →
            (label.offsetInAtom - prevOffset).toNat =
              (label.offsetInAtom.toNat - prevOffset.toNat) % 2 ^ 32 := by
          intro ordered
          have := prevOffset.isLt
          rw [BitVec.toNat_sub]
          omega
        have here := @tiles_encode_iff mhAddress atom ⟨prevOffset, label.offsetInAtom - prevOffset, kind⟩
          ⟨start, label.offsetInAtom.toNat, kind⟩ rfl startSmall length
        dsimp only at here ⊢
        rw [if_neg same, if_pos same, List.map_cons, List.forall₂_cons, here, and_congr_right' next,
          List.forall_mem_cons]
        simp [Changes, same]
        tauto

theorem ascending_dataInCodeLabels (atom : Atom) : Ascending 0 atom.dataInCodeLabels := ascending_sortLabels _

/-- **Data-in-code entries** tile the ranges of an atom exactly if every range fits one entry and no
label takes back where the data in front of it began. -/
theorem tiled_iff (mhAddress : BitVec 64) (atom : Atom) :
    List.Forall₂ (Tiles mhAddress atom) atom.ranges (entriesOf mhAddress atom) ↔
      atom.dataInCodeLabels.IsChain Changes ∧ ∀ range ∈ atom.ranges, range.Fits := by
  have loop := @forall₂_stretches_iff mhAddress atom none 0 0 _ (Nat.le_refl 0) (ascending_dataInCodeLabels atom)
  refine loop.trans ?_
  cases labels : atom.dataInCodeLabels with
  | nil => simp [Atom.ranges, labels]
  | cons label labels =>
    rw [List.isChain_cons_cons, Atom.ranges, labels]
    simp [Changes]

end Whole

/-- Data of 64 KB: of the two entries, the first is empty and the second has eight bytes. -/
def longData : Atom where
  size := 0x10010
  finalAddress := 0x4000
  fixups := [⟨0, .dataInCodeStart .data⟩, ⟨0x10000, .dataInCodeEnd⟩]

theorem longData_labels : longData.dataInCodeLabels = [⟨0, some .data⟩, ⟨0x10000, none⟩] :=
  List.mergeSort_of_pairwise (by decide)

theorem longData_untiled :
    ¬ List.Forall₂ (Tiles 0x1000 longData) longData.ranges (entriesOf 0x1000 longData) := by
  intro tiles
  have loop := @forall₂_stretches_iff 0x1000 longData none 0 0 _ (Nat.le_refl 0)
    (ascending_dataInCodeLabels longData)
  obtain ⟨-, -, fits⟩ := loop.mp tiles
  rw [longData_labels] at fits
  obtain ⟨-, short⟩ := fits ⟨0, 0x10000, .data⟩ List.mem_cons_self
  revert short
  decide

end Cctools.LinkEdit.DataInCode
