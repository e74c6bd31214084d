/-
# Cctools.As.I386 -- the jumps of the i386 and x86_64 assemblers

The machine-dependent frags of i386.c are jumps of one byte, or of four (two in
16-bit code) when the target is too far.  `md_relax_table` says how far each form
reaches and which is the next one; a jump never goes back to a shorter form
(`relaxJump_cases`), so `i386` is a `Target` whose measure is the longer forms that
are left.
-/
import Cctools.As.RelaxEnds

namespace Cctools.As

set_option autoImplicit false

/-! ## The table -/

structure RelaxType where
  forward : Int
  backward : Int
  length : Int
  /-- The next longer state, zero for none. -/
  more : Nat
  deriving DecidableEq, Repr

/-- Indexed by `type << 2 | size`: the types are unconditional and conditional jumps and those of
the 8086, the sizes small, small16, big and big16. -/
def mdRelaxTable : List RelaxType :=
  [⟨128, -127, 1, 2⟩, ⟨128, -127, 1, 3⟩, ⟨0, 0, 4, 0⟩, ⟨0, 0, 2, 0⟩,
   ⟨128, -127, 1, 6⟩, ⟨128, -127, 1, 7⟩, ⟨0, 0, 5, 0⟩, ⟨0, 0, 3, 0⟩,
   ⟨128, -127, 1, 10⟩, ⟨128, -127, 1, 11⟩, ⟨0, 0, 5, 0⟩, ⟨0, 0, 4, 0⟩]

def relaxType (state : Nat) : RelaxType := (mdRelaxTable[state]?).getD ⟨0, 0, 0, 0⟩

/-- Whether the state reaches as far as `aim`. -/
def RelaxType.reaches (type : RelaxType) (aim : Int) : Bool :=
  if aim < 0 then type.backward ≤ aim else aim ≤ type.forward

/-- Grow to the next state until one reaches, or there is none. -/
def relaxState (aim : Int) : Nat → Nat → Nat
  | 0, state => state
  | steps + 1, state =>
    let type := relaxType state
    if type.more = 0 ∨ type.reaches aim then state else relaxState aim steps type.more

/-! ## Jumps -/

structure Jump where
  subtype : Nat
  /-- The label, when it is of this section. -/
  symbol : Option Label
  offset : Int
  /-- Not `no_cond_jump_promotion` for this jump. -/
  promote : Bool
  deriving DecidableEq, Repr

/-- The bytes of a jump that is left to a relocation. -/
def Jump.farBytes (jump : Jump) : Int :=
  let size := if jump.subtype % 2 = 1 then 2 else 4
  let conditional := if jump.promote then 1 + size else 1
  match jump.subtype / 4 with
  | 0 => size
  | 2 => if size = 2 ∧ jump.promote then 2 + 2 else conditional
  | _ => conditional

/-- A jump out of the section takes its long form at once and is no longer relaxed. -/
def mdEstimateSizeBeforeRelax (fix : Int) (jump : Jump) : Body Jump × Int :=
  match jump.symbol with
  | none => (⟨fix + jump.farBytes, .fill 0⟩, jump.farBytes)
  | some _ => (⟨fix, .machineDependent jump⟩, (relaxType jump.subtype).length)

/-- The label's address, moved like the jump if this pass is still to come to it. -/
def jumpTarget (site : Site Jump) (label : Label) : Int :=
  label.address site.frags +
    match label.frag with
    | some frag =>
      if site.wasAddress ≤ fragAddress site.frags frag ∧ site.index < frag then site.stretch else 0
    | none => 0

def relaxJump (site : Site Jump) (fix : Int) (jump : Jump) : Body Jump × Int :=
  let target := jump.offset + (jump.symbol.map (jumpTarget site)).getD 0
  let aim := target - site.address - fix
  let state := relaxState aim mdRelaxTable.length jump.subtype
  let growth := (relaxType state).length - (relaxType jump.subtype).length
  if growth ≠ 0 then (⟨fix, .machineDependent { jump with subtype := state }⟩, growth)
  else (⟨fix, .machineDependent jump⟩, 0)

def i386Machine (bits : Nat) : Machine Jump := ⟨bits, mdEstimateSizeBeforeRelax, relaxJump⟩

/-! ## A jump only grows -/

/-- A longer form is longer, and there is nothing behind it. -/
theorem relaxType_more {state : Nat} (more : (relaxType state).more ≠ 0) :
    (relaxType (relaxType state).more).more = 0 ∧
      (relaxType state).length < (relaxType (relaxType state).more).length := by
  have table : ∀ state < 12, (relaxType state).more ≠ 0 →
      (relaxType (relaxType state).more).more = 0 ∧
        (relaxType state).length < (relaxType (relaxType state).more).length := by decide
  by_cases inside : state < 12
  · exact table state inside more
  · have outside : mdRelaxTable[state]? = none := List.getElem?_eq_none (Nat.le_of_not_lt inside)
    rw [relaxType, outside] at more
    exact absurd rfl more

theorem relaxState_cases (aim : Int) (steps state : Nat) :
    relaxState aim steps state = state ∨
      (relaxType state).more ≠ 0 ∧ relaxState aim steps state = (relaxType state).more := by
  cases steps with
  | zero => exact .inl rfl
  | succ steps =>
    rw [relaxState]
    split
    · exact .inl rfl
    · rename_i goesOn
      have more := (not_or.mp goesOn).1
      refine .inr ⟨more, ?_⟩
      cases steps with
      | zero => rfl
      | succ steps =>
        rw [relaxState]
        simp [(relaxType_more more).1]

/-- What a pass makes of a jump: it stays, or takes its one longer form. -/
theorem relaxJump_cases (site : Site Jump) (fix : Int) (jump : Jump) :
    relaxJump site fix jump = (⟨fix, .machineDependent jump⟩, 0) ∨
      ∃ growth, 0 < growth ∧ (relaxType jump.subtype).more ≠ 0 ∧
        relaxJump site fix jump =
          (⟨fix, .machineDependent { jump with subtype := (relaxType jump.subtype).more }⟩, growth) := by
  rw [relaxJump]
  obtain stays | ⟨more, grows⟩ := relaxState_cases (jump.offset +
    (jump.symbol.map (jumpTarget site)).getD 0 - site.address - fix) mdRelaxTable.length jump.subtype
  · simp [stays]
  · have longer := (relaxType_more more).2
    refine .inr ⟨(relaxType (relaxType jump.subtype).more).length - (relaxType jump.subtype).length,
      by omega, more, ?_⟩
    simp only [grows]
    rw [if_pos (by omega)]

/-- What a jump can still grow. -/
def Jump.forms (jump : Jump) : Nat := if (relaxType jump.subtype).more = 0 then 0 else 1

/-- The assembler with 32-bit or 64-bit values. -/
def i386 (bits : Nat) : Target Jump where
  toMachine := i386Machine bits
  budget := Jump.forms
  rank := Jump.forms
  relax_kind site fix jump := by
    obtain stays | ⟨_, _, _, grows⟩ := relaxJump_cases site fix jump
    · exact .inl ⟨jump, by simp [i386Machine, stays]⟩
    · exact .inl ⟨_, congrArg (fun relaxed => relaxed.1.kind) grows⟩
  relax_budget site fix jump _ := by
    obtain stays | ⟨_, _, more, grows⟩ := relaxJump_cases site fix jump
    · simp [i386Machine, stays, Kind.machineMeasure]
    · simp [i386Machine, grows, Kind.machineMeasure, Jump.forms, (relaxType_more more).1]
  relax_grows site fix jump growing := by
    obtain stays | ⟨_, _, more, grows⟩ := relaxJump_cases site fix jump
    · simp [i386Machine, stays] at growing
    · simp [i386Machine, grows, Kind.machineMeasure, Jump.forms, (relaxType_more more).1, more]
  relax_rank site fix jump := by
    obtain stays | ⟨_, _, more, grows⟩ := relaxJump_cases site fix jump
    · simp [i386Machine, stays, Kind.machineMeasure]
    · simp [i386Machine, grows, Kind.machineMeasure, Jump.forms, (relaxType_more more).1, more]
  estimate_kind fix jump := by
    cases symbol : jump.symbol with
    | none => exact .inr ⟨0, by simp [i386Machine, mdEstimateSizeBeforeRelax, symbol]⟩
    | some label => exact .inl ⟨jump, by simp [i386Machine, mdEstimateSizeBeforeRelax, symbol]⟩
  estimate_rank fix jump := by
    cases symbol : jump.symbol with
    | none => simp [i386Machine, mdEstimateSizeBeforeRelax, symbol, Kind.machineMeasure]
    | some label => simp [i386Machine, mdEstimateSizeBeforeRelax, symbol, Kind.machineMeasure]

end Cctools.As
