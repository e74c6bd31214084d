/-
# Cctools.LinkEdit.BindReader -- `get_dyld_bind_info` on the bytes of a program

Where every entry passes the checks of `get_dyld_bind_info` in the state it is met
in, both passes go through the states of the bind machine, nothing is counted as an
error, and the records are those of the binds (`getDyldBindInfo_program`).
-/
import Cctools.LinkEdit.BindStates

namespace Cctools.LinkEdit

set_option autoImplicit false

open Cctools.Theory
open Cctools.Otool

/-! ## States as variables -/

/-- The variables of `get_dyld_bind_info` in a state, an ordinal set and no error met. -/
def BindState.locals (env : Env) (state : BindState) : Locals where
  type := state.type
  segIndex := state.segIndex
  segOffset := state.segOffset
  segStartAddr := ((state.segIndex.bind fun index => env.segs[index]?).map SegmentCommand.vmaddr).getD 0
  symbolName := state.symbolName
  libraryOrdinalSet := true
  libraryOrdinal := state.libraryOrdinal
  addend := state.addend
  flags := state.flags
  weakImport := state.flags &&& 1 ≠ 0

def BindState.record (env : Env) (state : BindState) : DyldBindInfo := (state.locals env).record

/-- `checkSegAndOffset` accepts the place, and not as an end. -/
def BindState.Inside (env : Env) (state : BindState) : Prop :=
  checkSegAndOffset env state.segIndex state.segOffset true = none

/-- A bind in this state passes its checks. -/
def BindState.Binds (env : Env) (state : BindState) : Prop :=
  state.Inside env ∧ state.symbolName.isSome

/-- What `get_dyld_bind_info` asks of an entry of a weak stream. -/
def Accepts (env : Env) (state : BindState) (op : BindingTmp) : Prop :=
  match op.opcode with
  | .setSymbolTrailingFlagsImm => op.operand1.toNat < 16
  | .setTypeImm => 0 < op.operand1.toNat ∧ op.operand1.toNat ≤ 3
  | .setAddendSleb => -2 ^ 62 ≤ op.operand1.toInt
  | .setSegmentAndOffsetUleb => op.operand1.toNat < 16 ∧ (bindStep env.ptr state op).1.Inside env
  | .addAddrUleb => (bindStep env.ptr state op).1.Inside env
  | .doBind => state.Binds env
  | .doBindAddAddrUleb => state.Binds env ∧ (bindStep env.ptr state op).1.Inside env
  | .doBindAddAddrImmScaled =>
    op.operand1.toNat < 16 ∧ state.Binds env ∧ (bindStep env.ptr state op).1.Inside env
  | .doBindUlebTimesSkippingUleb =>
    state.Binds env ∧ op.operand1.toNat < 2 ^ 32 ∧ (op.operand2 + env.ptr.word).toNat < 2 ^ 32 ∧
      checkCountAndSkip env op.operand1.toNat ((op.operand2.setWidth 32).setWidth 64) state.segIndex
        state.segOffset = (op.operand1.toNat, none)
  | _ => False

/-- Every entry is accepted where it is met. -/
def AcceptedFrom (env : Env) : BindState → List BindingTmp → Prop
  | _, [] => True
  | state, op :: rest => Accepts env state op ∧ AcceptedFrom env (bindStep env.ptr state op).1 rest

/-! ## One entry -/

section Step

variable {env : Env} {state : BindState}

theorem count_none (locals : Locals) : locals.count none = locals := rfl

theorem seg_of_inside (inside : state.Inside env) :
    ∃ index seg, state.segIndex = some index ∧ env.segs[index]? = some seg := by
  unfold BindState.Inside checkSegAndOffset at inside
  split at inside
  · cases inside
  · rename_i index known
    split at inside
    · cases inside
    · rename_i seg here
      exact ⟨index, seg, known, here⟩

theorem checkPlace_inside (inside : state.Inside env) (endInvalid : Bool) :
    (state.locals env).checkPlace env endInvalid = state.locals env := by
  have passes : checkSegAndOffset env state.segIndex state.segOffset endInvalid = none := by
    cases endInvalid with
    | true => exact inside
    | false =>
      obtain ⟨index, seg, known, here⟩ := seg_of_inside inside
      simp only [BindState.Inside, checkSegAndOffset, known, here] at inside ⊢
      split at inside
      · cases inside
      · rename_i small
        simp only [small, if_false, Bool.false_eq_true, false_and]
  simp only [Locals.checkPlace, BindState.locals, passes]
  rfl

theorem checkBind_named (named : state.symbolName.isSome) :
    (state.locals env).checkBind = state.locals env := by
  obtain ⟨name, isName⟩ := Option.isSome_iff_exists.1 named
  simp only [Locals.checkBind, BindState.locals, isName]
  rfl

theorem read_append (value : BitVec 64) (rest : List UInt8) :
    Otool.readUleb128 (appendUleb128 value ++ rest) = (.ok value, rest) := by
  simp [Otool.readUleb128]

theorem doBindTimes_locals (set : state.segIndex.isSome) (stride : BitVec 64) (count : Nat) :
    doBindTimes stride count (state.locals env) =
      ((bindTimes stride count state).1.locals env,
        (bindTimes stride count state).2.map (BindState.record env)) := by
  induction count generalizing state with
  | zero => rfl
  | succ count ih =>
    have more := @ih { state with segOffset := state.segOffset + stride } set
    have moves : (state.locals env).segIndex.isSome = true := set
    simp only [doBindTimes, moves, if_true, bindTimes, List.map_cons]
    rw [show { state.locals env with segOffset := (state.locals env).segOffset + stride } =
      BindState.locals env { state with segOffset := state.segOffset + stride } from rfl, more]
    rfl

/-- A bind and a move to a place that is inside. -/
theorem doBindAdd_inside {delta : BitVec 64} (inside : state.Inside env) (named : state.symbolName.isSome)
    (after : BindState.Inside env { state with segOffset := state.segOffset + (delta + env.ptr.word) })
    (rest : List UInt8) :
    doBindAdd env (state.locals env) (.ok delta) rest =
      { locals := BindState.locals env { state with segOffset := state.segOffset + (delta + env.ptr.word) }
        records := [state.record env]
        rest := rest } := by
  have placed := checkPlace_inside after false
  simp only [doBindAdd, checkPlace_inside inside, checkBind_named named]
  exact congrArg (fun locals => ({ locals := locals, records := [state.record env], rest := rest } : Outcome)) placed

/-- **An accepted entry does to the variables what it means.** -/
theorem step_encode {op : BindingTmp} (accepted : Accepts env state op) (rest : List UInt8) :
    ∃ byte tail, op.encode ++ rest = byte :: tail ∧
      Otool.step env (state.locals env) byte tail =
        { locals := (bindStep env.ptr state op).1.locals env
          records := (bindStep env.ptr state op).2.map (BindState.record env)
          rest := rest } := by
  obtain ⟨opcode, operand1, operand2, name⟩ := op
  cases opcode with
  | setSymbolTrailingFlagsImm =>
    obtain ⟨high, low⟩ := bindOpcodeByte_parts .setSymbolTrailingFlagsImm (by simp) operand1 accepted
    refine ⟨_, appendString name ++ rest, rfl, ?_⟩
    simp only [Otool.step, high, low, BindOpcode.code, scanName, readString_append]
    rfl
  | setTypeImm =>
    obtain ⟨high, low⟩ := bindOpcodeByte_parts .setTypeImm (by simp) operand1
      (lt_of_le_of_lt accepted.2 (by decide))
    refine ⟨_, rest, rfl, ?_⟩
    have known : ¬ (operand1.toNat = 0 ∨ 3 < operand1.toNat) := by
      have := accepted.1
      have := accepted.2
      simp only at *
      omega
    simp only [Otool.step, high, low, BindOpcode.code, if_neg known]
    rfl
  | setAddendSleb =>
    refine ⟨_, appendSleb128 operand1 ++ rest, rfl, ?_⟩
    simp only [Otool.step, Otool.readSleb128_append accepted, BindOpcode.code]
    rfl
  | setSegmentAndOffsetUleb =>
    obtain ⟨small, inside⟩ := accepted
    obtain ⟨high, low⟩ := bindOpcodeByte_parts .setSegmentAndOffsetUleb (by simp) operand1 small
    refine ⟨_, appendUleb128 operand2 ++ rest, rfl, ?_⟩
    obtain ⟨index, seg, known, here⟩ := seg_of_inside inside
    have opens (p : List UInt8) : Otool.step env (state.locals env)
        (bindOpcodeByte .setSegmentAndOffsetUleb operand1) p =
          setSegmentAndOffset env (state.locals env) operand1.toNat p := by
      simp only [Otool.step, high, low]
      rfl
    obtain rfl : operand1.toNat = index := Option.some.inj known
    have placed := checkPlace_inside inside true
    simp only [bindStep, BindState.locals, Option.bind_some, here, Option.map_some, Option.getD_some] at placed
    rw [opens, setSegmentAndOffset, here]
    simp only [read_append, bindStep, BindState.locals, Option.bind_some, here, Option.map_some,
      Option.getD_some]
    exact congrArg (fun locals => ({ locals := locals, rest := rest } : Outcome)) placed
  | addAddrUleb =>
    refine ⟨_, appendUleb128 operand1 ++ rest, rfl, ?_⟩
    obtain ⟨index, seg, known, here⟩ := seg_of_inside accepted
    have set : (state.locals env).segIndex.isNone = false := by
      rw [show (state.locals env).segIndex = some index from known]
      rfl
    have placed := checkPlace_inside accepted true
    simp only [Otool.step, BindOpcode.code, addAddr, set, read_append]
    exact congrArg (fun locals => ({ locals := locals, rest := rest } : Outcome)) placed
  | doBind =>
    refine ⟨_, rest, rfl, ?_⟩
    obtain ⟨inside, named⟩ := accepted
    have checked : (state.locals env).checkBind = state.locals env := checkBind_named named
    show doBind env (state.locals env) rest = _
    unfold doBind
    rw [checkPlace_inside inside]
    simp only [show (state.locals env).chained = false from rfl, Bool.false_eq_true, if_false, checked]
    rfl
  | doBindAddAddrUleb =>
    obtain ⟨⟨inside, named⟩, after⟩ := accepted
    refine ⟨_, appendUleb128 operand1 ++ rest, rfl, ?_⟩
    have opens (p : List UInt8) : Otool.step env (state.locals env) 0xA0 p =
        doBindAdd env (state.locals env) (Otool.readUleb128 p).1 (Otool.readUleb128 p).2 := rfl
    rw [show BindOpcode.doBindAddAddrUleb.code = 0xA0 from rfl, opens, read_append]
    exact doBindAdd_inside inside named after rest
  | doBindAddAddrImmScaled =>
    obtain ⟨small, ⟨inside, named⟩, after⟩ := accepted
    obtain ⟨high, low⟩ := bindOpcodeByte_parts .doBindAddAddrImmScaled (by simp) operand1 small
    refine ⟨_, rest, rfl, ?_⟩
    have opens : Otool.step env (state.locals env) (bindOpcodeByte .doBindAddAddrImmScaled operand1) rest =
        doBindAdd env (state.locals env) (.ok (BitVec.ofNat 64 operand1.toNat * env.ptr.word)) rest := by
      simp only [Otool.step, high, low]
      rfl
    rw [opens, BitVec.ofNat_toNat, BitVec.setWidth_eq]
    exact doBindAdd_inside inside named after rest
  | doBindUlebTimesSkippingUleb =>
    obtain ⟨⟨inside, named⟩, few, short, passes⟩ := accepted
    refine ⟨BindOpcode.doBindUlebTimesSkippingUleb.code,
      appendUleb128 operand1 ++ (appendUleb128 operand2 ++ rest), by simp [BindingTmp.encode], ?_⟩
    have opens (p : List UInt8) : Otool.step env (state.locals env) 0xC0 p =
        doBindSkipping env (state.locals env) p := rfl
    have count : (operand1.setWidth 32).toNat = operand1.toNat := by
      rw [BitVec.toNat_setWidth]
      exact Nat.mod_eq_of_lt few
    have stride : (operand2.setWidth 32 + env.ptr.word.setWidth 32).setWidth 64 = operand2 + env.ptr.word := by
      rw [← BitVec.setWidth_add _ _ (by decide)]
      apply BitVec.eq_of_toNat_eq
      rw [BitVec.toNat_setWidth, BitVec.toNat_setWidth, Nat.mod_eq_of_lt short,
        Nat.mod_eq_of_lt (BitVec.isLt _)]
    obtain ⟨index, seg, known, -⟩ := seg_of_inside inside
    have set : state.segIndex.isSome := by simp [known]
    rw [show BindOpcode.doBindUlebTimesSkippingUleb.code = 0xC0 from rfl, opens, doBindSkipping]
    simp only [read_append, errorOf, count_none, Except.toOption, Option.getD_some,
      checkPlace_inside inside, checkBind_named named, count, stride]
    rw [show checkCountAndSkip env operand1.toNat ((operand2.setWidth 32).setWidth 64)
      (state.locals env).segIndex (state.locals env).segOffset = (operand1.toNat, none) from passes]
    simp only [Locals.onSegment, Option.isSome_none, Bool.false_eq_true, if_false, doBindTimes_locals set]
    rfl
  | _ => exact accepted.elim

end Step

/-! ## A program -/

theorem loop_program {env : Env} {program : List BindingTmp} {state : BindState}
    (accepted : AcceptedFrom env state program) {count fuel : Nat}
    (enough : (program.flatMap BindingTmp.encode).length + count ≤ fuel) :
    loop env fuel (state.locals env) (program.flatMap BindingTmp.encode ++ List.replicate count 0) =
      ((Transducer.run (bindStep env.ptr) state program).1.locals env,
        (Transducer.run (bindStep env.ptr) state program).2.map (BindState.record env)) := by
  induction program generalizing state fuel with
  | nil =>
    cases count with
    | zero => cases fuel <;> rfl
    | succ count =>
      obtain ⟨fuel, rfl⟩ : ∃ less, fuel = less + 1 := ⟨fuel - 1, by omega⟩
      rfl
  | cons op rest ih =>
    obtain ⟨here, later⟩ := accepted
    obtain ⟨byte, tail, shape, reads⟩ := step_encode here
      (rest.flatMap BindingTmp.encode ++ List.replicate count 0)
    have nonempty := length_encode_pos op
    simp only [List.flatMap_cons, List.length_append] at enough
    obtain ⟨fuel, rfl⟩ : ∃ less, fuel = less + 1 := ⟨fuel - 1, by omega⟩
    have more := ih later (show (rest.flatMap BindingTmp.encode).length + count ≤ fuel by omega)
    rw [List.flatMap_cons, List.append_assoc, shape, loop, reads]
    have calm : ¬ maxErrorCount ≤ (state.locals env).errorCount := show ¬ 20 ≤ 0 by decide
    rw [if_neg calm]
    simp only [Bool.false_eq_true, if_false, more, Transducer.run_cons, List.map_append]

/-- **The decoder reads a program that it accepts as the machine runs it.**  A weak stream
names no dylib, and the decoder counts an error for each bind without one, so that
`SET_DYLIB_ORDINAL_IMM` of 0 is put in front. -/
theorem getDyldBindInfo_program {env : Env} {program : List BindingTmp}
    (accepted : AcceptedFrom env {} program) (count : Nat) :
    getDyldBindInfo env (0x10 :: (program.flatMap BindingTmp.encode ++ List.replicate count 0)) =
      ((Transducer.run (bindStep env.ptr) {} program).2.map (BindState.record env), 0) := by
  have loops : loop env (0x10 :: (program.flatMap BindingTmp.encode ++ List.replicate count 0)).length {}
      (0x10 :: (program.flatMap BindingTmp.encode ++ List.replicate count 0)) =
        ((Transducer.run (bindStep env.ptr) {} program).1.locals env,
          (Transducer.run (bindStep env.ptr) {} program).2.map (BindState.record env)) := by
    rw [List.length_cons, loop]
    have first : Otool.step env {} 0x10 (program.flatMap BindingTmp.encode ++ List.replicate count 0) =
        { locals := BindState.locals env {}
          rest := program.flatMap BindingTmp.encode ++ List.replicate count 0 } := rfl
    rw [first]
    have rest := @loop_program env program {} accepted count
      (program.flatMap BindingTmp.encode ++ List.replicate count 0).length (by simp)
    have calm : ¬ maxErrorCount ≤ ({} : Locals).errorCount := by decide
    rw [if_neg calm]
    simp only [Bool.false_eq_true, if_false, rest, List.nil_append]
  have again : (BindState.locals env (Transducer.run (bindStep env.ptr) {} program).1).again = {} := rfl
  rw [getDyldBindInfo, loops]
  simp only [again, loops, Nat.sub_self, List.replicate_zero, List.append_nil]
  rfl

end Cctools.LinkEdit
