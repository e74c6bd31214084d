/-
# Cctools.LinkEdit.AimedMoves -- every move of a weak program ends at a bind

In a program that `Aimed` describes no operand is cut when it is written, and where an
entry moves, the next bind is at the place that it moves to, of the symbol and the
type that are set.  The passes of the weak encoder keep this (`bindOptimize_aimed`).
-/
import Cctools.LinkEdit.BindPasses

namespace Cctools.LinkEdit

set_option autoImplicit false

open Cctools.Theory

/-- The operands as the weak encoder makes them. -/
def BindingTmp.Sound (op : BindingTmp) : Prop :=
  match op.opcode with
  | .setSymbolTrailingFlagsImm | .setSegmentAndOffsetUleb | .doBindAddAddrImmScaled => op.operand1.toNat < 16
  | .setTypeImm => 0 < op.operand1.toNat ∧ op.operand1.toNat ≤ 3
  | .setAddendSleb => -2 ^ 62 ≤ op.operand1.toInt
  | .addAddrUleb | .doBindAddAddrUleb => op.operand1 ≠ 0
  | .doBind => True
  | .doBindUlebTimesSkippingUleb => 2 ≤ op.operand1.toNat ∧ op.operand2 ≠ 0
  | _ => False

/-- The entry moves to a place that is to be bound. -/
def BindingTmp.Aims (op : BindingTmp) : Prop :=
  match op.opcode with
  | .setSegmentAndOffsetUleb | .addAddrUleb | .doBindAddAddrUleb | .doBindAddAddrImmScaled
  | .doBindUlebTimesSkippingUleb => True
  | _ => False

/-- One place, symbol and type. -/
structure BindState.Alike (a b : BindState) : Prop where
  segIndex : a.segIndex = b.segIndex
  segOffset : a.segOffset = b.segOffset
  symbolName : a.symbolName = b.symbolName
  type : a.type = b.type

section Aims

variable (ptr : PointerSize)

/-- The next bind is where the machine stands. -/
def BindsNext (program : List BindingTmp) : Prop :=
  ∀ state : BindState, ∃ first later,
    (Transducer.run (bindStep ptr) state program).2 = first :: later ∧ first.Alike state

def Aimed : List BindingTmp → Prop
  | [] => True
  | op :: rest => op.Sound ∧ (op.Aims → BindsNext ptr rest) ∧ Aimed rest

variable {ptr}

theorem BindsNext.congr {a b : List BindingTmp} (next : BindsNext ptr b)
    (same : Transducer.Same (bindStep ptr) a b) : BindsNext ptr a := by
  intro state
  rw [same state]
  exact next state

theorem not_bindsNext_nil : ¬ BindsNext ptr [] := by
  intro next
  obtain ⟨first, later, seen, -⟩ := next {}
  cases seen

/-- Entries that do not move can stand in front. -/
theorem Aimed.append {ops more : List BindingTmp} (sound : ∀ op ∈ ops, op.Sound ∧ ¬ op.Aims)
    (aimed : Aimed ptr more) : Aimed ptr (ops ++ more) := by
  induction ops with
  | nil => exact aimed
  | cons op rest ih =>
    rw [List.forall_mem_cons] at sound
    exact ⟨sound.1.1, fun aims => absurd aims sound.1.2, ih sound.2⟩

theorem Aimed.fits {program : List BindingTmp} (aimed : Aimed ptr program) : ∀ op ∈ program, op.Fits := by
  induction program with
  | nil => simp
  | cons op rest ih =>
    obtain ⟨sound, -, later⟩ := aimed
    refine List.forall_mem_cons.2 ⟨?_, ih later⟩
    obtain ⟨opcode, operand1, operand2, name⟩ := op
    cases opcode with
    | setTypeImm => exact lt_of_le_of_lt sound.2 (by decide)
    | setSegmentAndOffsetUleb =>
      have small : operand1.toNat < 16 := sound
      show operand1.toNat % 256 < 128
      omega
    | setSymbolTrailingFlagsImm | doBindAddAddrImmScaled => exact sound
    | setDylibOrdinalImm => exact sound.elim
    | _ => trivial

/-! ## The passes -/

variable {mid : List BindingTmp}

theorem bindCombine_aimed (aimed : Aimed ptr mid) : Aimed ptr (bindCombine mid) := by
  fun_induction bindCombine mid with
  | case1 src next rest pair ih =>
    obtain ⟨-, -, sound, next, later⟩ := aimed
    simp only [BindingTmp.Sound, BindingTmp.Aims, pair.2] at sound next
    exact ⟨sound, fun _ => (next trivial).congr (bindCombine_same rest), ih later⟩
  | case2 src next rest _ ih =>
    obtain ⟨sound, aims, later⟩ := aimed
    exact ⟨sound, fun moves => (aims moves).congr (bindCombine_same _), ih later⟩
  | case3 mid => exact aimed

theorem bindSkip_aimed (aimed : Aimed ptr mid) :
    (mid.countP BindingTmp.isBind < 2 ^ 64 → Aimed ptr (bindSkip none mid)) ∧
    ∀ dst : BindingTmp, dst.opcode = .doBindUlebTimesSkippingUleb → dst.operand2 ≠ 0 → 0 < dst.operand1.toNat →
      dst.operand1.toNat + mid.countP BindingTmp.isBind < 2 ^ 64 → BindsNext ptr mid →
      (2 ≤ dst.operand1.toNat ∨ ∃ one rest, mid = one :: rest ∧ one.opcode = .doBindAddAddrUleb ∧
        one.operand1 = dst.operand2) → Aimed ptr (bindSkip (some dst) mid) := by
  induction mid with
  | nil =>
    refine ⟨fun _ => trivial, ?_⟩
    intro dst _ _ _ _ next
    exact absurd next not_bindsNext_nil
  | cons src rest ih =>
    obtain ⟨sound, aims, later⟩ := aimed
    obtain ⟨idle, pending⟩ := ih later
    have counted : src.opcode = .doBindAddAddrUleb →
        (src :: rest).countP BindingTmp.isBind = rest.countP BindingTmp.isBind + 1 := by
      intro here
      simp [BindingTmp.isBind, here]
    have fewer : rest.countP BindingTmp.isBind ≤ (src :: rest).countP BindingTmp.isBind := by
      rw [List.countP_cons]
      omega
    have alone : (src :: rest).countP BindingTmp.isBind < 2 ^ 64 → Aimed ptr (bindSkip none (src :: rest)) := by
      intro room
      simp only [bindSkip]
      split
      · rename_i starts
        have here := bindRunStarts_opcode starts
        have count := counted here
        simp only [BindingTmp.Sound, BindingTmp.Aims, here] at sound aims
        refine pending _ rfl sound Nat.one_pos (by simp; omega) (aims trivial) (.inr ?_)
        cases rest with
        | nil => cases starts
        | cons one rest =>
          simp only [bindRunStarts, Bool.and_eq_true, decide_eq_true_eq] at starts
          exact ⟨one, rest, rfl, starts.1.2, starts.2⟩
      · exact ⟨sound, fun moves => (aims moves).congr (bindSkip_same.1 (by omega)), idle (by omega)⟩
    refine ⟨alone, ?_⟩
    intro dst skips moves some_ room next more
    have fresh := alone (by omega)
    have same := @bindSkip_same ptr (src :: rest) |>.1 (by omega)
    simp only [bindSkip] at fresh same ⊢
    split
    · rename_i again
      have count := counted again.1
      have grown : (dst.operand1 + 1).toNat = dst.operand1.toNat + 1 := by
        rw [show (1 : BitVec 64) = 1#64 from rfl, BitVec.toNat_add]
        exact Nat.mod_eq_of_lt (by simp; omega)
      simp only [BindingTmp.Aims, again.1] at aims
      exact pending { dst with operand1 := dst.operand1 + 1 } skips moves (by rw [grown]; omega)
        (by rw [grown]; omega) (aims trivial) (.inl (by rw [grown]; omega))
    · rename_i ends
      refine ⟨?_, fun _ => next.congr same, fresh⟩
      simp only [BindingTmp.Sound, skips]
      refine ⟨more.resolve_right ?_, moves⟩
      rintro ⟨one, tail, shape, opcode, operand⟩
      cases shape
      exact ends ⟨opcode, operand⟩

theorem weakImmediate_aimed (aimed : Aimed ptr mid) :
    Aimed ptr (mid.map (weakImmediate ptr)) := by
  induction mid with
  | nil => trivial
  | cons op rest ih =>
    obtain ⟨sound, aims, later⟩ := aimed
    have same : Transducer.Same (bindStep ptr) (rest.map (weakImmediate ptr)) rest :=
      .map fun it _ state => weakImmediate_step it state
    rw [List.map_cons]
    unfold weakImmediate
    cases scales : bindScale ptr op with
    | none => exact ⟨sound, fun moves => (aims moves).congr same, ih later⟩
    | some scaled =>
      have fits := bindScale_fits scales
      unfold bindScale at scales
      split at scales
      · rename_i small
        cases scales
        simp only [BindingTmp.Aims, small.1] at aims
        exact ⟨fits, fun _ => (aims trivial).congr same, ih later⟩
      · cases scales

/-- **The passes of the weak encoder keep the moves aimed.** -/
theorem bindOptimize_aimed (aimed : Aimed ptr mid)
    (room : mid.countP BindingTmp.isBind < 2 ^ 64) : Aimed ptr (bindOptimize (weakImmediate ptr) mid) :=
  weakImmediate_aimed ((bindSkip_aimed (bindCombine_aimed aimed)).1
    (lt_of_le_of_lt (countP_bindCombine mid) room))

end Aims

end Cctools.LinkEdit
