/-
# Cctools.LinkEdit.BindPasses -- the passes and the bytes of a bind stream

`bindOptimize_same`: the passes of both bind encoders give a list that the bind
machine runs like the plain one.  `bindInstructions_bytes`: the written bytes
read back as the entries, when every immediate fits its four bits.
-/
import Cctools.LinkEdit.BindMachine

namespace Cctools.LinkEdit

set_option autoImplicit false

open Cctools.Theory

section Passes

variable {ptr : PointerSize}

theorem bindTimes_succ (stride : BitVec 64) (count : Nat) (state : BindState) :
    bindTimes stride (count + 1) state =
      let before := bindTimes stride count state
      ({ before.1 with segOffset := before.1.segOffset + stride }, before.2 ++ [before.1]) := by
  induction count generalizing state with
  | zero => simp [bindTimes]
  | succ count ih =>
    rw [bindTimes, ih]
    simp [bindTimes]

/-! ## Phase 1 -/

theorem bindCombine_merge {src next : BindingTmp} (here : src.opcode = .doBind)
    (add : next.opcode = .addAddrUleb) :
    Transducer.Same (bindStep ptr)
      [{ src with opcode := .doBindAddAddrUleb, operand1 := next.operand1 }] [src, next] := by
  intro state
  simp only [Transducer.run_cons, Transducer.run_nil, bindStep, here, add]
  simp [BitVec.add_assoc, BitVec.add_comm next.operand1 ptr.word]

theorem bindCombine_same (mid : List BindingTmp) :
    Transducer.Same (bindStep ptr) (bindCombine mid) mid := by
  fun_induction bindCombine mid with
  | case1 src next rest pair ih => exact (bindCombine_merge pair.1 pair.2).append ih
  | case2 src next rest _ ih => exact .cons ih
  | case3 mid => exact .refl _

/-- The binds that phase 1 can leave in the form that phase 2 counts. -/
def BindingTmp.isBind (it : BindingTmp) : Bool :=
  it.opcode = .doBind ∨ it.opcode = .doBindAddAddrUleb

theorem countP_bindCombine (mid : List BindingTmp) :
    (bindCombine mid).countP BindingTmp.isBind ≤ mid.countP BindingTmp.isBind := by
  fun_induction bindCombine mid with
  | case1 src next rest pair ih =>
    simp only [List.countP_cons, BindingTmp.isBind, pair.1, pair.2] at ih ⊢
    simp only [reduceCtorEq, or_false, or_true, decide_true, decide_false, if_true]
    omega
  | case2 src next rest _ ih =>
    simp only [List.countP_cons] at ih ⊢
    omega
  | case3 mid => exact le_rfl

/-! ## Phase 2 -/

theorem bindRunStarts_opcode {src : BindingTmp} {rest : List BindingTmp}
    (starts : bindRunStarts src rest = true) : src.opcode = .doBindAddAddrUleb := by
  unfold bindRunStarts at starts
  split at starts
  · simp only [Bool.and_eq_true, decide_eq_true_eq] at starts
    exact starts.1.1
  · simp at starts

theorem bindSkip_start {src : BindingTmp} (here : src.opcode = .doBindAddAddrUleb) :
    Transducer.Same (bindStep ptr)
      [{ src with opcode := .doBindUlebTimesSkippingUleb, operand1 := 1, operand2 := src.operand1 }]
      [src] := by
  intro state
  simp [Transducer.run_cons, bindStep, here, bindTimes]

theorem bindSkip_merge {dst src : BindingTmp} (skips : dst.opcode = .doBindUlebTimesSkippingUleb)
    (here : src.opcode = .doBindAddAddrUleb) (delta : src.operand1 = dst.operand2)
    (room : dst.operand1.toNat + 1 < 2 ^ 64) :
    Transducer.Same (bindStep ptr) [{ dst with operand1 := dst.operand1 + 1 }] [dst, src] := by
  intro state
  have sum : (dst.operand1 + 1).toNat = dst.operand1.toNat + 1 := by
    rw [show (1 : BitVec 64) = 1#64 from rfl, BitVec.toNat_add]
    exact Nat.mod_eq_of_lt (by simpa using room)
  simp only [Transducer.run_cons, Transducer.run_nil, bindStep, here, skips, sum, bindTimes_succ,
    delta, List.append_nil]

variable {mid : List BindingTmp}

theorem bindSkip_same :
    (mid.countP BindingTmp.isBind < 2 ^ 64 →
      Transducer.Same (bindStep ptr) (bindSkip none mid) mid) ∧
    ∀ dst, dst.opcode = .doBindUlebTimesSkippingUleb →
      dst.operand1.toNat + mid.countP BindingTmp.isBind < 2 ^ 64 →
      Transducer.Same (bindStep ptr) (bindSkip (some dst) mid) (dst :: mid) := by
  induction mid with
  | nil => exact ⟨fun _ => .refl _, fun dst _ _ => .refl _⟩
  | cons src rest ih =>
    obtain ⟨idle, pending⟩ := ih
    have counted : src.opcode = .doBindAddAddrUleb →
        (src :: rest).countP BindingTmp.isBind = rest.countP BindingTmp.isBind + 1 := by
      intro here
      simp [BindingTmp.isBind, here]
    have fewer : rest.countP BindingTmp.isBind ≤ (src :: rest).countP BindingTmp.isBind := by
      rw [List.countP_cons]
      omega
    have alone : (src :: rest).countP BindingTmp.isBind < 2 ^ 64 →
        Transducer.Same (bindStep ptr)
          (if bindRunStarts src rest then
            bindSkip (some { src with
              opcode := .doBindUlebTimesSkippingUleb
              operand1 := 1
              operand2 := src.operand1 }) rest
            else src :: bindSkip none rest) (src :: rest) := by
      intro room
      split
      · rename_i starts
        have here := bindRunStarts_opcode starts
        have count := counted here
        refine (pending _ rfl (by simp; omega)).trans ?_
        exact (bindSkip_start here).append (.refl rest)
      · exact .cons (idle (by omega))
    refine ⟨fun room => ?_, fun dst skips room => ?_⟩
    · simpa only [bindSkip] using alone room
    · simp only [bindSkip]
      split
      · rename_i again
        have count := counted again.1
        have grown : (dst.operand1 + 1).toNat = dst.operand1.toNat + 1 := by
          rw [show (1 : BitVec 64) = 1#64 from rfl, BitVec.toNat_add]
          exact Nat.mod_eq_of_lt (by simp; omega)
        refine (pending { dst with operand1 := dst.operand1 + 1 } skips ?_).trans ?_
        · rw [grown]; omega
        · exact (bindSkip_merge skips again.1 again.2 (by omega)).append (.refl rest)
      · exact .cons (alone (by omega))

/-! ## Phase 3 -/

variable {p scaled : BindingTmp}

theorem bindScale_step (scales : bindScale ptr p = some scaled)
    (state : BindState) : bindStep ptr state scaled = bindStep ptr state p := by
  unfold bindScale at scales
  split at scales
  · rename_i small
    obtain ⟨here, -, exactly⟩ := small
    cases scales
    have whole : BitVec.ofNat 64 (p.operand1.toNat / ptr.bytes) * ptr.word = p.operand1 := by
      rw [PointerSize.word, ← BitVec.ofNat_mul, Nat.div_mul_cancel (Nat.dvd_of_mod_eq_zero exactly)]
      simp
    simp [bindStep, here, whole]
  · cases scales

theorem bindImmediate_step (p : BindingTmp) (state : BindState) :
    bindStep ptr state (bindImmediate ptr p) = bindStep ptr state p := by
  unfold bindImmediate
  split
  · rename_i scaled scales
    exact bindScale_step scales state
  · split
    · rename_i short
      simp [bindStep, short.1]
    · rfl

theorem weakImmediate_step (p : BindingTmp) (state : BindState) :
    bindStep ptr state (weakImmediate ptr p) = bindStep ptr state p := by
  unfold weakImmediate
  cases scales : bindScale ptr p with
  | none => rfl
  | some scaled => exact bindScale_step scales state

variable {immediate : BindingTmp → BindingTmp}

/-- **The optimised entries bind what the plain ones bind.** -/
theorem bindOptimize_same (step : ∀ p state, bindStep ptr state (immediate p) = bindStep ptr state p)
    (room : mid.countP BindingTmp.isBind < 2 ^ 64) :
    Transducer.Same (bindStep ptr) (bindOptimize immediate mid) mid := by
  have shorter : (bindCombine mid).countP BindingTmp.isBind < 2 ^ 64 :=
    lt_of_le_of_lt (countP_bindCombine mid) room
  have last : Transducer.Same (bindStep ptr) (bindOptimize immediate mid)
      (bindSkip none (bindCombine mid)) := .map fun it _ state => step it state
  exact last.trans ((bindSkip_same.1 shorter).trans (bindCombine_same mid))

/-! ## What the passes leave alone -/

/-- The entries that bind or advance, which are those the passes rewrite. -/
def BindingTmp.Moves (it : BindingTmp) : Prop :=
  match it.opcode with
  | .addAddrUleb | .doBind | .doBindAddAddrUleb | .doBindAddAddrImmScaled
  | .doBindUlebTimesSkippingUleb => True
  | _ => False

section Others

variable {β : Type} {f : BindingTmp → Option β} (blind : ∀ it : BindingTmp, it.Moves → f it = none)

include blind

theorem bindCombine_filterMap (mid : List BindingTmp) :
    (bindCombine mid).filterMap f = mid.filterMap f := by
  fun_induction bindCombine mid with
  | case1 src next rest pair ih =>
    have first := blind src (by simp [BindingTmp.Moves, pair.1])
    have second := blind next (by simp [BindingTmp.Moves, pair.2])
    have merged := blind { src with opcode := .doBindAddAddrUleb, operand1 := next.operand1 }
      (by simp [BindingTmp.Moves])
    simp only [List.filterMap_cons, first, second, merged, ih]
  | case2 src next rest _ ih =>
    rw [List.filterMap_cons, ih, ← List.filterMap_cons]
  | case3 mid => rfl

theorem bindSkip_filterMap {pending : Option BindingTmp} {mid : List BindingTmp}
    (held : ∀ dst ∈ pending, dst.opcode = .doBindUlebTimesSkippingUleb) :
    (bindSkip pending mid).filterMap f = mid.filterMap f := by
  have counted : ∀ dst : BindingTmp, dst.opcode = .doBindUlebTimesSkippingUleb → f dst = none := by
    intro dst here
    exact blind dst (by simp [BindingTmp.Moves, here])
  induction mid generalizing pending with
  | nil =>
    cases pending with
    | none => rfl
    | some dst => simp [bindSkip, counted dst (held dst rfl)]
  | cons src rest ih =>
    have fresh : (if bindRunStarts src rest then
        bindSkip (some { src with
          opcode := .doBindUlebTimesSkippingUleb
          operand1 := 1
          operand2 := src.operand1 }) rest
        else src :: bindSkip none rest).filterMap f = (src :: rest).filterMap f := by
      split
      · rename_i starts
        have here := bindRunStarts_opcode starts
        have quiet := blind src (by simp [BindingTmp.Moves, here])
        rw [ih (by simp), List.filterMap_cons, quiet]
      · rw [List.filterMap_cons, ih (by simp), ← List.filterMap_cons]
    cases pending with
    | none => simpa only [bindSkip] using fresh
    | some dst =>
      have skips := held dst rfl
      simp only [bindSkip]
      split
      · rename_i again
        have quiet := blind src (by simp [BindingTmp.Moves, again.1])
        rw [ih (by simpa using skips), List.filterMap_cons, quiet]
      · rw [List.filterMap_cons, counted dst skips, fresh]

/-- The passes keep every entry that neither binds nor advances, in order. -/
theorem bindOptimize_filterMap {immediate : BindingTmp → BindingTmp}
    (same : ∀ p, f (immediate p) = f p) (mid : List BindingTmp) :
    (bindOptimize immediate mid).filterMap f = mid.filterMap f := by
  rw [bindOptimize, List.filterMap_map, show f ∘ immediate = f from funext same,
    bindSkip_filterMap blind (by simp), bindCombine_filterMap blind]

end Others

theorem bindScale_filterMap {β : Type} {f : BindingTmp → Option β}
    (blind : ∀ it : BindingTmp, it.Moves → f it = none)
    (scales : bindScale ptr p = some scaled) : f scaled = f p := by
  unfold bindScale at scales
  split at scales
  · rename_i small
    cases scales
    rw [blind p (by simp [BindingTmp.Moves, small.1]), blind _ (by simp [BindingTmp.Moves])]
  · cases scales

theorem weakImmediate_filterMap (ptr : PointerSize) {β : Type} {f : BindingTmp → Option β}
    (blind : ∀ it : BindingTmp, it.Moves → f it = none) (p : BindingTmp) :
    f (weakImmediate ptr p) = f p := by
  unfold weakImmediate
  cases scales : bindScale ptr p with
  | none => rfl
  | some scaled => exact bindScale_filterMap blind scales

/-! ## Entries that fit -/

/-- An immediate operand takes four bits.  A segment index that does not is cut, and
leaves the opcode readable as long as bit 7 is clear. -/
def BindingTmp.Fits (it : BindingTmp) : Prop :=
  match it.opcode with
  | .setDylibOrdinalImm | .setSymbolTrailingFlagsImm | .setTypeImm | .doBindAddAddrImmScaled =>
    it.operand1.toNat < 16
  | .setSegmentAndOffsetUleb => it.operand1.toNat % 256 < 128
  | _ => True

section Every

variable {P : BindingTmp → Prop}
  (made : ∀ it : BindingTmp,
    it.opcode = .doBindAddAddrUleb ∨ it.opcode = .doBindUlebTimesSkippingUleb → P it)

include made

variable {mid : List BindingTmp}

theorem bindCombine_forall (all : ∀ it ∈ mid, P it) :
    ∀ it ∈ bindCombine mid, P it := by
  fun_induction bindCombine mid with
  | case1 src next rest pair ih =>
    simp only [List.forall_mem_cons] at all ⊢
    exact ⟨made _ (.inl rfl), ih all.2.2⟩
  | case2 src next rest _ ih =>
    rw [List.forall_mem_cons] at all ⊢
    exact ⟨all.1, ih all.2⟩
  | case3 mid => exact all

theorem bindSkip_forall {pending : Option BindingTmp}
    (held : ∀ dst ∈ pending, dst.opcode = .doBindUlebTimesSkippingUleb)
    (all : ∀ it ∈ mid, P it) : ∀ it ∈ bindSkip pending mid, P it := by
  induction mid generalizing pending with
  | nil =>
    intro it member
    have one : it ∈ pending := by simpa [bindSkip] using member
    exact made it (.inr (held it one))
  | cons src rest ih =>
    rw [List.forall_mem_cons] at all
    have fresh : ∀ it ∈ (if bindRunStarts src rest then
        bindSkip (some { src with
          opcode := .doBindUlebTimesSkippingUleb
          operand1 := 1
          operand2 := src.operand1 }) rest
        else src :: bindSkip none rest), P it := by
      split
      · exact ih (by simp) all.2
      · exact List.forall_mem_cons.2 ⟨all.1, ih (by simp) all.2⟩
    cases pending with
    | none => simpa only [bindSkip] using fresh
    | some dst =>
      have skips := held dst rfl
      simp only [bindSkip]
      split
      · exact ih (by simpa using skips) all.2
      · exact List.forall_mem_cons.2 ⟨made dst (.inr skips), fresh⟩

/-- What holds of every entry, and of those that the passes make, holds of the result. -/
theorem bindOptimize_forall {immediate : BindingTmp → BindingTmp}
    (keeps : ∀ p : BindingTmp, P p → P (immediate p)) (all : ∀ it ∈ mid, P it) :
    ∀ it ∈ bindOptimize immediate mid, P it := by
  intro it member
  obtain ⟨plain, before, rfl⟩ := List.mem_map.1 member
  exact keeps plain (bindSkip_forall made (by simp) (bindCombine_forall made all) plain before)

end Every

theorem bindScale_fits (scales : bindScale ptr p = some scaled) :
    scaled.Fits := by
  unfold bindScale at scales
  split at scales
  · rename_i small
    cases scales
    have bound : p.operand1.toNat / ptr.bytes < 15 := by
      rw [Nat.div_lt_iff_lt_mul (by cases ptr <;> decide)]
      exact small.2.1
    simp only [BindingTmp.Fits, BitVec.toNat_ofNat]
    exact lt_of_le_of_lt (Nat.mod_le _ _) (by omega)
  · cases scales

theorem bindImmediate_fits {p : BindingTmp} (fits : p.Fits) : (bindImmediate ptr p).Fits := by
  unfold bindImmediate
  split
  · rename_i scaled scales
    exact bindScale_fits scales
  · split
    · rename_i short
      simp only [BindingTmp.Fits]
      omega
    · exact fits

theorem fits_of_made (it : BindingTmp)
    (made : it.opcode = .doBindAddAddrUleb ∨ it.opcode = .doBindUlebTimesSkippingUleb) :
    it.Fits := by
  rcases made with here | here <;> simp [BindingTmp.Fits, here]

theorem bindOptimize_fits (keeps : ∀ p : BindingTmp, p.Fits → (immediate p).Fits) (fits : ∀ it ∈ mid, it.Fits) :
    ∀ it ∈ bindOptimize immediate mid, it.Fits :=
  bindOptimize_forall fits_of_made keeps fits

/-! ## The bytes -/

/-- The entry as the reader returns it: what is not written is gone. -/
def BindingTmp.written (it : BindingTmp) : BindingTmp :=
  match it.opcode with
  | .setDylibSpecialImm => { opcode := it.opcode, operand1 := it.operand1 &&& 0x0F }
  | .setSymbolTrailingFlagsImm => { it with operand2 := 0 }
  | .setSegmentAndOffsetUleb => { it with operand1 := it.operand1 &&& 0x0F, name := .empty }
  | .doBindUlebTimesSkippingUleb => { it with name := .empty }
  | .doBind | .threadedApply => { opcode := it.opcode, operand1 := 0 }
  | _ => { opcode := it.opcode, operand1 := it.operand1 }

theorem specialOrdinal_mask (immediate : BitVec 64) :
    specialOrdinal (immediate &&& 0x0F) = specialOrdinal immediate := by
  have mask : immediate &&& 0x0F &&& 0x0F = immediate &&& (0x0F : BitVec 64) := by
    rw [BitVec.and_assoc]
    rfl
  have narrow : (immediate &&& 0x0F).setWidth 8 &&& 0x0F =
      immediate.setWidth 8 &&& (0x0F : BitVec 8) := by
    rw [BitVec.setWidth_and, BitVec.and_assoc]
    rfl
  unfold specialOrdinal
  rw [mask, narrow]

/-- A segment index as four bits can hold it. -/
def BindState.nibble (state : BindState) : BindState :=
  { state with segIndex := state.segIndex.map (· % 16) }

theorem toNat_and_nibble (value : BitVec 64) : (value &&& 0x0F).toNat = value.toNat % 16 := by
  rw [BitVec.toNat_and]
  exact Nat.and_two_pow_sub_one_eq_mod value.toNat 4

theorem bindTimes_nibble (stride : BitVec 64) (count : Nat) (state : BindState) :
    bindTimes stride count state.nibble =
      ((bindTimes stride count state).1.nibble,
        (bindTimes stride count state).2.map BindState.nibble) := by
  induction count generalizing state with
  | zero => rfl
  | succ count ih =>
    have next := ih { state with segOffset := state.segOffset + stride }
    simp only [BindState.nibble] at next
    simp only [bindTimes, List.map_cons, BindState.nibble, next]

theorem bindStep_written (it : BindingTmp) (state : BindState) :
    bindStep ptr state.nibble it.written =
      ((bindStep ptr state it).1.nibble, (bindStep ptr state it).2.map BindState.nibble) := by
  obtain ⟨opcode, operand1, operand2, name⟩ := it
  cases opcode with
  | setDylibSpecialImm =>
    simp only [bindStep, BindingTmp.written, specialOrdinal_mask]
    rfl
  | setSegmentAndOffsetUleb =>
    simp only [bindStep, BindingTmp.written, toNat_and_nibble]
    rfl
  | doBindUlebTimesSkippingUleb => exact bindTimes_nibble _ _ _
  | _ => rfl

theorem bindOpcodeByte_parts (opcode : BindOpcode) (plain : opcode ≠ .threadedApply)
    (operand : BitVec 64) (small : operand.toNat < 16) :
    (bindOpcodeByte opcode operand &&& 0xF0).toNat = opcode.code.toNat ∧
      (bindOpcodeByte opcode operand &&& 0x0F).toNat = operand.toNat := by
  have table : ∀ nibble : Fin 16,
      ((opcode.code ||| UInt8.ofNat nibble.val) &&& 0xF0).toNat = opcode.code.toNat ∧
        ((opcode.code ||| UInt8.ofNat nibble.val) &&& 0x0F).toNat = nibble.val := by
    cases opcode <;> first | decide | exact absurd rfl plain
  exact table ⟨operand.toNat, small⟩

/-- The byte of `SET_SEGMENT_AND_OFFSET_ULEB` for any index with bit 7 clear. -/
theorem segmentByte_parts (operand : BitVec 64) (clear : operand.toNat % 256 < 128) :
    (bindOpcodeByte .setSegmentAndOffsetUleb operand &&& 0xF0).toNat = 0x70 ∧
      (bindOpcodeByte .setSegmentAndOffsetUleb operand &&& 0x0F).toNat = operand.toNat % 16 := by
  have table : ∀ index : Fin 128,
      ((0x70 ||| UInt8.ofNat index.val) &&& 0xF0).toNat = 0x70 ∧
        ((0x70 ||| UInt8.ofNat index.val) &&& 0x0F).toNat = index.val % 16 := by decide
  have byte : UInt8.ofNat operand.toNat = UInt8.ofNat (operand.toNat % 256) := by
    apply UInt8.toNat_inj.1
    simp
  have cut : operand.toNat % 256 % 16 = operand.toNat % 16 := by omega
  rw [bindOpcodeByte, byte]
  simpa only [BindOpcode.code, cut] using table ⟨operand.toNat % 256, clear⟩

@[simp] theorem readWord_append (value : BitVec 64) (rest : List UInt8) :
    readWord (appendUleb128 value ++ rest) = some (value, rest) := by
  simp [readWord, Except.toOption]

theorem readBind_encode {it : BindingTmp} (fits : it.Fits) (rest : List UInt8) :
    ∃ byte tail, it.encode ++ rest = byte :: tail ∧
      readBind byte tail = some (some it.written, rest) := by
  obtain ⟨opcode, operand1, operand2, name⟩ := it
  have back : BitVec.ofNat 64 operand1.toNat = operand1 := by simp
  cases opcode with
  | setDylibOrdinalImm | setTypeImm | doBindAddAddrImmScaled =>
    refine ⟨_, rest, rfl, ?_⟩
    have high := fun code plain =>
      (bindOpcodeByte_parts code plain operand1 fits).1
    have low := fun code plain =>
      (bindOpcodeByte_parts code plain operand1 fits).2
    simp (disch := simp) only [readBind, high, low, back, BindOpcode.code]
    rfl
  | setDylibSpecialImm =>
    refine ⟨_, rest, rfl, ?_⟩
    have small : (operand1 &&& 0x0F).toNat < 16 := by
      rw [BitVec.toNat_and]
      exact lt_of_le_of_lt Nat.and_le_right (by decide)
    obtain ⟨high, low⟩ := bindOpcodeByte_parts .setDylibSpecialImm (by simp) _ small
    have masked : BitVec.ofNat 64 (operand1 &&& 0x0F).toNat = operand1 &&& 0x0F := by simp
    simp only [readBind, high, low, masked, BindOpcode.code]
    rfl
  | setSymbolTrailingFlagsImm =>
    refine ⟨_, appendString name ++ rest, rfl, ?_⟩
    obtain ⟨high, low⟩ := bindOpcodeByte_parts .setSymbolTrailingFlagsImm (by simp) operand1
      fits
    simp only [readBind, high, low, back, BindOpcode.code]
    simp [BindingTmp.written]
  | setSegmentAndOffsetUleb =>
    refine ⟨_, appendUleb128 operand2 ++ rest, rfl, ?_⟩
    obtain ⟨high, low⟩ := segmentByte_parts operand1 fits
    have cut : BitVec.ofNat 64 (operand1.toNat % 16) = operand1 &&& 0x0F := by
      rw [← toNat_and_nibble]
      simp
    simp only [readBind, high, low, cut]
    simp [BindingTmp.written]
  | setAddendSleb =>
    refine ⟨_, appendSleb128 operand1 ++ rest, rfl, ?_⟩
    simp [readBind, BindOpcode.code, BindingTmp.written]
  | doBind | threadedApply =>
    refine ⟨_, rest, rfl, ?_⟩
    rfl
  | doBindUlebTimesSkippingUleb =>
    refine ⟨BindOpcode.doBindUlebTimesSkippingUleb.code,
      appendUleb128 operand1 ++ (appendUleb128 operand2 ++ rest), ?_, ?_⟩
    · simp [BindingTmp.encode]
    · simp [readBind, BindOpcode.code, BindingTmp.written]
  | setDylibOrdinalUleb | addAddrUleb | doBindAddAddrUleb
  | threadedSetBindOrdinalTableSizeUleb =>
    refine ⟨_, appendUleb128 operand1 ++ rest, rfl, ?_⟩
    simp [readBind, BindOpcode.code, BindingTmp.written]

theorem length_encode_pos (it : BindingTmp) : 0 < it.encode.length := by
  obtain ⟨opcode, operand1, operand2, name⟩ := it
  cases opcode <;> simp [BindingTmp.encode]

/-- A zero byte, from the padding or written, ends the stream. -/
theorem readBinds_zeros (fuel count : Nat) (enough : count ≤ fuel) :
    readBinds fuel (List.replicate count 0) = some [] := by
  cases count with
  | zero => cases fuel <;> rfl
  | succ count =>
    obtain ⟨fuel, rfl⟩ : ∃ less, fuel = less + 1 := ⟨fuel - 1, by omega⟩
    rfl

theorem readBinds_bytes (fits : ∀ it ∈ mid, it.Fits) {fuel count : Nat}
    (enough : (mid.flatMap BindingTmp.encode).length + count ≤ fuel) :
    readBinds fuel (mid.flatMap BindingTmp.encode ++ List.replicate count 0) =
      some (mid.map BindingTmp.written) := by
  induction mid generalizing fuel with
  | nil => simpa using readBinds_zeros fuel count (by simpa using enough)
  | cons it rest ih =>
    rw [List.forall_mem_cons] at fits
    obtain ⟨byte, tail, shape, reads⟩ := readBind_encode fits.1
      (rest.flatMap BindingTmp.encode ++ List.replicate count 0)
    have nonempty := length_encode_pos it
    simp only [List.flatMap_cons, List.length_append] at enough
    obtain ⟨fuel, rfl⟩ : ∃ less, fuel = less + 1 := ⟨fuel - 1, by omega⟩
    have more := ih fits.2 (show (rest.flatMap BindingTmp.encode).length + count ≤ fuel by omega)
    rw [List.flatMap_cons, List.append_assoc, shape]
    simp [readBinds, reads, more]

/-- **The bytes read back as the entries they were written from.** -/
theorem bindInstructions_bytes (fits : ∀ it ∈ mid, it.Fits) (count : Nat) :
    bindInstructions (mid.flatMap BindingTmp.encode ++ List.replicate count 0) =
      some (mid.map BindingTmp.written) :=
  readBinds_bytes fits (by simp)

/-- A segment index with bit 7 set turns its opcode into one that nothing reads. -/
theorem readBind_unreadable {operand : BitVec 64} (marked : 128 ≤ operand.toNat % 256)
    (p : List UInt8) : readBind (bindOpcodeByte .setSegmentAndOffsetUleb operand) p = none := by
  have table : ∀ index : Fin 128,
      ((0x70 ||| UInt8.ofNat (128 + index.val)) &&& 0xF0).toNat = 0xF0 := by decide
  have byte : UInt8.ofNat operand.toNat = UInt8.ofNat (128 + (operand.toNat % 256 - 128)) := by
    apply UInt8.toNat_inj.1
    simp only [UInt8.toNat_ofNat']
    omega
  have high : (bindOpcodeByte .setSegmentAndOffsetUleb operand &&& 0xF0).toNat = 0xF0 := by
    rw [bindOpcodeByte, byte]
    exact table ⟨operand.toNat % 256 - 128, by omega⟩
  simp only [readBind, high]

theorem readBinds_fits {fuel : Nat} {rest : List UInt8} {program : List BindingTmp}
    (others : ∀ it ∈ mid, it.opcode ≠ .setSegmentAndOffsetUleb → it.Fits)
    (reads : readBinds fuel (mid.flatMap BindingTmp.encode ++ rest) = some program) :
    ∀ it ∈ mid, it.Fits := by
  induction mid generalizing fuel program with
  | nil => simp
  | cons it more ih =>
    rw [List.forall_mem_cons] at others
    rw [List.flatMap_cons, List.append_assoc] at reads
    have fits : it.Fits := by
      by_cases segment : it.opcode = .setSegmentAndOffsetUleb
      · by_contra unfit
        have marked : 128 ≤ it.operand1.toNat % 256 := by
          simpa [BindingTmp.Fits, segment] using unfit
        have bytes : it.encode = bindOpcodeByte .setSegmentAndOffsetUleb it.operand1 ::
            appendUleb128 it.operand2 := by simp [BindingTmp.encode, segment]
        rw [bytes, List.cons_append] at reads
        cases fuel with
        | zero => cases reads
        | succ fuel => simp [readBinds, readBind_unreadable marked] at reads
      · exact others.1 segment
    obtain ⟨byte, tail, shape, read⟩ := readBind_encode fits
      (more.flatMap BindingTmp.encode ++ rest)
    rw [shape] at reads
    cases fuel with
    | zero => cases reads
    | succ fuel =>
      simp only [readBinds, read, Option.bind_eq_bind, Option.bind_some] at reads
      obtain ⟨later, readsLater, -⟩ := Option.bind_eq_some_iff.1 reads
      exact List.forall_mem_cons.2 ⟨fits, ih others.2 readsLater⟩

/-- The states a stream binds in are those of its entries, with the segment cut to
its four bits. -/
theorem bindStates_bytes (ptr : PointerSize) (fits : ∀ it ∈ mid, it.Fits) (count : Nat) :
    bindStates ptr (mid.flatMap BindingTmp.encode ++ List.replicate count 0) =
      some ((Transducer.run (bindStep ptr) {} mid).2.map BindState.nibble) := by
  have runs := Transducer.run_map (bindStep ptr)
    (fun it (_ : it ∈ mid) state => @bindStep_written ptr it state) {}
  rw [bindStates, bindInstructions_bytes fits, Option.map_some,
    show ({} : BindState) = BindState.nibble {} from rfl, runs]
  rfl

end Passes

end Cctools.LinkEdit
