/-
# Cctools.LinkEdit.RebasePasses -- the passes and the bytes keep the meaning

Every pass of `RebaseInfoAtom::encodeV1` turns a list of entries into one that
the interpreter runs alike (`rebaseOptimize_same`), and the interpreter reads
the written bytes back as the entries (`rebaseLoop_bytes`).  Together: what
`rebaseEncodeV1` writes rebases what the unoptimised entries rebase
(`rebaseSites_encode`).

`Fits` collects what the encoding needs of an entry: four bits for an immediate,
a known segment, and a delta that the interpreter's `skip` can hold.
-/
import Cctools.Machochecker.Rebase

namespace Cctools.LinkEdit

set_option autoImplicit false

open Cctools.Theory
open Cctools.Machochecker

section Passes

variable {counter : Nat} {ptr : PointerSize}

/-! ## Counted rebases -/

theorem rebaseTimes_add (stride : BitVec 64) (first second : Nat) (state : RebaseState) :
    rebaseTimes stride (first + second) state =
      ((rebaseTimes stride second (rebaseTimes stride first state).1).1,
        (rebaseTimes stride first state).2 ++
          (rebaseTimes stride second (rebaseTimes stride first state).1).2) := by
  induction first generalizing state with
  | zero => simp [rebaseTimes]
  | succ first ih =>
    rw [Nat.add_right_comm, rebaseTimes, ih]
    simp [rebaseTimes]

theorem narrow_of_lt {value : BitVec 64} (small : value.toNat < 2 ^ counter) :
    narrow counter value = value.toNat :=
  Nat.mod_eq_of_lt small

/-! ## What an entry needs -/

def RebaseTmp.Fits (counter segmentCount : Nat) (it : RebaseTmp) : Prop :=
  match it.opcode with
  | .setTypeImm => it.operand1.toNat < 16
  | .setSegmentAndOffsetUleb => it.operand1.toNat < 16 ∧ it.operand1.toNat ≤ segmentCount
  | .addAddrUleb => it.operand1.toNat < 2 ^ counter
  | .addAddrImmScaled => it.operand1.toNat < 16
  | .doRebaseImmTimes => it.operand1.toNat < 16
  | .doRebaseUlebTimes => True
  | .doRebaseAddAddrUleb => it.operand1.toNat < 2 ^ counter
  | .doRebaseUlebTimesSkippingUleb => it.operand2.toNat < 2 ^ counter

/-! ## Phase 1 -/

theorem rebaseCompress_merge {dst src : RebaseTmp}
    (here : dst.opcode = .doRebaseUlebTimes) (next : src.opcode = .doRebaseUlebTimes)
    (one : src.operand1 = 1) (room : dst.operand1.toNat + 1 < 2 ^ counter)
    (wide : counter ≤ 64) :
    Transducer.Same (rebaseStep counter ptr) [{ dst with operand1 := dst.operand1 + src.operand1 }]
      [dst, src] := by
  intro state
  have limit : 2 ^ counter ≤ 2 ^ 64 := Nat.pow_le_pow_right (by norm_num) wide
  have sum : (dst.operand1 + 1#64).toNat = dst.operand1.toNat + 1 := by
    rw [BitVec.toNat_add]
    exact Nat.mod_eq_of_lt (by simpa using lt_of_lt_of_le room limit)
  have single : narrow counter 1#64 = 1 := narrow_of_lt (by rw [show (1#64).toNat = 1 from rfl]; omega)
  have merged : narrow counter (dst.operand1 + 1#64) = dst.operand1.toNat + 1 := by
    rw [narrow_of_lt (by omega), sum]
  simp only [Transducer.run_cons, Transducer.run_nil, rebaseStep, here, next, one]
  rw [show (1 : BitVec 64) = 1#64 from rfl, merged, single, narrow_of_lt (by omega),
    rebaseTimes_add]
  simp

variable {mid : List RebaseTmp}

theorem rebaseCompress_same (ptr : PointerSize) (wide : counter ≤ 64)
    (units : ∀ it ∈ mid, it.opcode = .doRebaseUlebTimes → it.operand1 = 1) :
    (mid.length < 2 ^ counter →
      Transducer.Same (rebaseStep counter ptr) (rebaseCompress none mid) mid) ∧
    ∀ dst, dst.opcode = .doRebaseUlebTimes → dst.operand1.toNat + mid.length < 2 ^ counter →
      Transducer.Same (rebaseStep counter ptr) (rebaseCompress (some dst) mid) (dst :: mid) := by
  induction mid with
  | nil => exact ⟨fun _ => .refl _, fun dst _ _ => .refl _⟩
  | cons src rest ih =>
    obtain ⟨idle, pending⟩ := ih fun it member => units it (List.mem_cons_of_mem _ member)
    have unit := units src List.mem_cons_self
    have limit : 2 ^ counter ≤ 2 ^ 64 := Nat.pow_le_pow_right (by norm_num) wide
    have alone : (src :: rest).length < 2 ^ counter →
        Transducer.Same (rebaseStep counter ptr)
          (if src.opcode = .doRebaseUlebTimes ∧ src.operand1 = 1 then rebaseCompress (some src) rest
            else src :: rebaseCompress none rest) (src :: rest) := by
      intro room
      rw [List.length_cons] at room
      split
      · rename_i start
        exact pending src start.1 (by rw [start.2]; simp; omega)
      · exact .cons (idle (by omega))
    refine ⟨fun room => ?_, fun dst here room => ?_⟩
    · simpa only [rebaseCompress] using alone room
    · rw [List.length_cons] at room
      simp only [rebaseCompress]
      split
      · rename_i next
        have grown : (dst.operand1 + src.operand1).toNat = dst.operand1.toNat + 1 := by
          rw [unit next, show (1 : BitVec 64) = 1#64 from rfl, BitVec.toNat_add]
          exact Nat.mod_eq_of_lt (by simp; omega)
        refine (pending { dst with operand1 := dst.operand1 + src.operand1 } here ?_).trans ?_
        · rw [grown]; omega
        · exact (rebaseCompress_merge here next (unit next) (by omega) wide).append (.refl rest)
      · exact .cons (alone (by simp; omega))

theorem length_rebaseCompress (pending : Option RebaseTmp) (mid : List RebaseTmp) :
    (rebaseCompress pending mid).length ≤ pending.toList.length + mid.length := by
  induction mid generalizing pending with
  | nil => simp [rebaseCompress]
  | cons src rest ih =>
    have idle := ih none
    have next := ih (some src)
    simp only [Option.toList_none, Option.toList_some, List.length_nil, List.length_cons] at idle next
    cases pending with
    | none =>
      simp only [rebaseCompress]
      split <;> simp <;> omega
    | some dst =>
      have grown := ih (some { dst with operand1 := dst.operand1 + src.operand1 })
      simp only [Option.toList_some, List.length_cons, List.length_nil] at grown
      simp only [rebaseCompress]
      split
      · simp; omega
      · split <;> simp <;> omega

variable {segmentCount : Nat}

theorem rebaseCompress_fits {pending : Option RebaseTmp}
    (run : ∀ dst ∈ pending, dst.opcode = .doRebaseUlebTimes)
    (fits : ∀ it ∈ mid, it.Fits counter segmentCount) :
    ∀ it ∈ rebaseCompress pending mid, it.Fits counter segmentCount := by
  have counted : ∀ dst : RebaseTmp, dst.opcode = .doRebaseUlebTimes → dst.Fits counter segmentCount := by
    intro dst here
    simp [RebaseTmp.Fits, here]
  induction mid generalizing pending with
  | nil =>
    intro it member
    have held : it ∈ pending := by simpa [rebaseCompress] using member
    exact counted it (run it held)
  | cons src rest ih =>
    simp only [List.forall_mem_cons] at fits
    have fresh : ∀ it ∈ (if src.opcode = .doRebaseUlebTimes ∧ src.operand1 = 1 then
        rebaseCompress (some src) rest else src :: rebaseCompress none rest),
        it.Fits counter segmentCount := by
      split
      · rename_i start
        exact ih (by simpa using start.1) fits.2
      · exact List.forall_mem_cons.2 ⟨fits.1, ih (by simp) fits.2⟩
    cases pending with
    | none => simpa only [rebaseCompress] using fresh
    | some dst =>
      have here : dst.opcode = .doRebaseUlebTimes := run dst rfl
      simp only [rebaseCompress]
      split
      · exact ih (by simpa using here) fits.2
      · exact List.forall_mem_cons.2 ⟨counted dst here, fresh⟩

/-! ## Phase 2 -/

theorem rebaseCombine_merge {src next : RebaseTmp} (here : src.opcode = .doRebaseUlebTimes)
    (one : src.operand1 = 1) (add : next.opcode = .addAddrUleb) (positive : 0 < counter) :
    Transducer.Same (rebaseStep counter ptr)
      [⟨.doRebaseAddAddrUleb, next.operand1, src.operand2⟩] [src, next] := by
  intro state
  have single : narrow counter 1#64 = 1 :=
    narrow_of_lt (Nat.one_lt_two_pow_iff.2 (by omega))
  simp only [Transducer.run_cons, Transducer.run_nil, rebaseStep, here, one, add]
  rw [show (1 : BitVec 64) = 1#64 from rfl, single]
  simp [rebaseTimes, BitVec.add_assoc, BitVec.add_comm next.operand1 ptr.word]

theorem rebaseCombine_same (ptr : PointerSize) (mid : List RebaseTmp) (positive : 0 < counter) :
    Transducer.Same (rebaseStep counter ptr) (rebaseCombine mid) mid := by
  fun_induction rebaseCombine mid with
  | case1 src next rest pair ih =>
    exact (rebaseCombine_merge pair.1 pair.2.1 pair.2.2 positive).append ih
  | case2 src next rest _ ih => exact .cons ih
  | case3 mid => exact .refl _

theorem length_rebaseCombine (mid : List RebaseTmp) : (rebaseCombine mid).length ≤ mid.length := by
  fun_induction rebaseCombine mid with
  | case1 src next rest pair ih => simp; omega
  | case2 src next rest _ ih => simpa using ih
  | case3 mid => exact le_rfl

theorem rebaseCombine_fits (fits : ∀ it ∈ mid, it.Fits counter segmentCount) :
    ∀ it ∈ rebaseCombine mid, it.Fits counter segmentCount := by
  fun_induction rebaseCombine mid with
  | case1 src next rest pair ih =>
    simp only [List.forall_mem_cons] at fits ⊢
    refine ⟨?_, ih fits.2.2⟩
    have delta := fits.2.1
    simp only [RebaseTmp.Fits, pair.2.2] at delta
    simpa [RebaseTmp.Fits] using delta
  | case2 src next rest _ ih =>
    rw [List.forall_mem_cons] at fits ⊢
    exact ⟨fits.1, ih fits.2⟩
  | case3 mid => exact fits

/-! ## Phase 3 -/

/-- A skipping entry for `count` rebases that skip `delta`. -/
def RebaseTmp.Skips (dst : RebaseTmp) (delta : BitVec 64) : Prop :=
  dst.opcode = .doRebaseUlebTimesSkippingUleb ∧ dst.operand2 = delta

theorem rebaseSkip_start {src : RebaseTmp} (here : src.opcode = .doRebaseAddAddrUleb)
    (small : src.operand1.toNat < 2 ^ counter) (positive : 0 < counter) :
    Transducer.Same (rebaseStep counter ptr)
      [⟨.doRebaseUlebTimesSkippingUleb, 1, src.operand1⟩] [src] := by
  intro state
  have single : narrow counter 1#64 = 1 :=
    narrow_of_lt (Nat.one_lt_two_pow_iff.2 (by omega))
  simp only [Transducer.run_cons, Transducer.run_nil, rebaseStep, here, narrow_of_lt small]
  rw [show (1 : BitVec 64) = 1#64 from rfl, single]
  simp [rebaseTimes]

theorem rebaseSkip_merge {dst src : RebaseTmp} (skips : dst.Skips src.operand1)
    (here : src.opcode = .doRebaseAddAddrUleb) (small : src.operand1.toNat < 2 ^ counter)
    (room : dst.operand1.toNat + 1 < 2 ^ counter) (wide : counter ≤ 64) :
    Transducer.Same (rebaseStep counter ptr) [{ dst with operand1 := dst.operand1 + 1 }]
      [dst, src] := by
  intro state
  obtain ⟨skipping, delta⟩ := skips
  have limit : 2 ^ counter ≤ 2 ^ 64 := Nat.pow_le_pow_right (by norm_num) wide
  have sum : (dst.operand1 + 1).toNat = dst.operand1.toNat + 1 := by
    rw [show (1 : BitVec 64) = 1#64 from rfl, BitVec.toNat_add]
    exact Nat.mod_eq_of_lt (by simp; omega)
  have merged : narrow counter (dst.operand1 + 1) = dst.operand1.toNat + 1 := by
    rw [narrow_of_lt (by omega), sum]
  simp only [Transducer.run_cons, Transducer.run_nil, rebaseStep, here, skipping, delta, merged]
  rw [narrow_of_lt small, narrow_of_lt (by omega), rebaseTimes_add]
  simp [rebaseTimes]

theorem rebaseSkip_same (ptr : PointerSize)
    (wide : counter ≤ 64) (positive : 0 < counter) (fits : ∀ it ∈ mid, it.Fits counter segmentCount) :
    (mid.length < 2 ^ counter →
      Transducer.Same (rebaseStep counter ptr) (rebaseSkip none mid) mid) ∧
    ∀ dst, dst.Skips dst.operand2 → dst.operand1.toNat + mid.length < 2 ^ counter →
      Transducer.Same (rebaseStep counter ptr) (rebaseSkip (some dst) mid) (dst :: mid) := by
  induction mid with
  | nil => exact ⟨fun _ => .refl _, fun dst _ _ => .refl _⟩
  | cons src rest ih =>
    rw [List.forall_mem_cons] at fits
    obtain ⟨idle, pending⟩ := ih fits.2
    have limit : 2 ^ counter ≤ 2 ^ 64 := Nat.pow_le_pow_right (by norm_num) wide
    have small : src.opcode = .doRebaseAddAddrUleb → src.operand1.toNat < 2 ^ counter := by
      intro here
      simpa [RebaseTmp.Fits, here] using fits.1
    have alone : (src :: rest).length < 2 ^ counter →
        Transducer.Same (rebaseStep counter ptr)
          (if rebaseRunStarts src rest then
            rebaseSkip (some ⟨.doRebaseUlebTimesSkippingUleb, 1, src.operand1⟩) rest
            else src :: rebaseSkip none rest) (src :: rest) := by
      intro room
      rw [List.length_cons] at room
      split
      · rename_i starts
        have here : src.opcode = .doRebaseAddAddrUleb := by
          unfold rebaseRunStarts at starts
          split at starts
          · simp only [Bool.and_eq_true, decide_eq_true_eq] at starts
            exact starts.1.1.1.1
          · simp at starts
        refine (pending _ ⟨rfl, rfl⟩ (by simp; omega)).trans ?_
        exact (rebaseSkip_start here (small here) positive).append (.refl rest)
      · exact .cons (idle (by omega))
    refine ⟨fun room => ?_, fun dst skips room => ?_⟩
    · simpa only [rebaseSkip] using alone room
    · rw [List.length_cons] at room
      simp only [rebaseSkip]
      split
      · rename_i again
        have grown : (dst.operand1 + 1).toNat = dst.operand1.toNat + 1 := by
          rw [show (1 : BitVec 64) = 1#64 from rfl, BitVec.toNat_add]
          exact Nat.mod_eq_of_lt (by simp; omega)
        refine (pending { dst with operand1 := dst.operand1 + 1 } ⟨skips.1, rfl⟩ ?_).trans ?_
        · rw [grown]; omega
        · exact (rebaseSkip_merge ⟨skips.1, again.2.symm⟩ again.1 (small again.1) (by omega)
            wide).append (.refl rest)
      · exact .cons (alone (by simp; omega))

theorem rebaseSkip_fits {pending : Option RebaseTmp}
    (held : ∀ dst ∈ pending, dst.Fits counter segmentCount ∧ dst.Skips dst.operand2)
    (fits : ∀ it ∈ mid, it.Fits counter segmentCount) :
    ∀ it ∈ rebaseSkip pending mid, it.Fits counter segmentCount := by
  induction mid generalizing pending with
  | nil =>
    intro it member
    have one : it ∈ pending := by simpa [rebaseSkip] using member
    exact (held it one).1
  | cons src rest ih =>
    rw [List.forall_mem_cons] at fits
    have fresh : ∀ it ∈ (if rebaseRunStarts src rest then
        rebaseSkip (some ⟨.doRebaseUlebTimesSkippingUleb, 1, src.operand1⟩) rest
        else src :: rebaseSkip none rest), it.Fits counter segmentCount := by
      split
      · rename_i starts
        refine ih ?_ fits.2
        intro dst one
        cases one
        have small := fits.1
        unfold rebaseRunStarts at starts
        split at starts
        · simp only [Bool.and_eq_true, decide_eq_true_eq] at starts
          simp only [RebaseTmp.Fits, starts.1.1.1.1] at small
          exact ⟨small, rfl, rfl⟩
        · simp at starts
      · exact List.forall_mem_cons.2 ⟨fits.1, ih (by simp) fits.2⟩
    cases pending with
    | none => simpa only [rebaseSkip] using fresh
    | some dst =>
      obtain ⟨small, skipping, -⟩ := held dst rfl
      simp only [rebaseSkip]
      split
      · refine ih ?_ fits.2
        intro grown one
        cases one
        refine ⟨?_, skipping, rfl⟩
        simpa [RebaseTmp.Fits, skipping] using small
      · exact List.forall_mem_cons.2 ⟨small, fresh⟩

/-! ## Phase 4 -/

theorem rebaseImmediate_step (it : RebaseTmp) (state : RebaseState) (enough : 4 ≤ counter) :
    rebaseStep counter ptr state (rebaseImmediate ptr it) = rebaseStep counter ptr state it := by
  have sixteen : 2 ^ 4 ≤ 2 ^ counter := Nat.pow_le_pow_right (by norm_num) enough
  unfold rebaseImmediate
  split
  · rename_i scaled
    obtain ⟨here, -, exactly⟩ := scaled
    have whole : BitVec.ofNat 64 (it.operand1.toNat / ptr.bytes) * ptr.word = it.operand1 := by
      rw [PointerSize.word, ← BitVec.ofNat_mul, Nat.div_mul_cancel (Nat.dvd_of_mod_eq_zero exactly)]
      simp
    simp [rebaseStep, here, whole]
  · split
    · rename_i few
      obtain ⟨here, small⟩ := few
      simp [rebaseStep, here, narrow_of_lt (show it.operand1.toNat < 2 ^ counter by omega)]
    · rfl

theorem rebaseImmediate_fits {it : RebaseTmp} (fits : it.Fits counter segmentCount) :
    (rebaseImmediate ptr it).Fits counter segmentCount := by
  unfold rebaseImmediate
  split
  · rename_i scaled
    have small : it.operand1.toNat / ptr.bytes < 15 := by
      rw [Nat.div_lt_iff_lt_mul (by cases ptr <;> decide)]
      exact scaled.2.1
    simp only [RebaseTmp.Fits, BitVec.toNat_ofNat]
    exact lt_of_le_of_lt (Nat.mod_le _ _) (by omega)
  · split
    · rename_i few
      simp only [RebaseTmp.Fits]
      omega
    · exact fits

/-- **The optimised entries rebase what the plain ones rebase.** -/
theorem rebaseOptimize_same (enough : 4 ≤ counter) (wide : counter ≤ 64) (room : mid.length < 2 ^ counter)
    (units : ∀ it ∈ mid, it.opcode = .doRebaseUlebTimes → it.operand1 = 1)
    (fits : ∀ it ∈ mid, it.Fits counter segmentCount) :
    Transducer.Same (rebaseStep counter ptr) (rebaseOptimize ptr mid) mid := by
  have compressed : ∀ it ∈ rebaseCompress none mid, it.Fits counter segmentCount :=
    rebaseCompress_fits (by simp) fits
  have combined := rebaseCombine_fits compressed
  have shorter : (rebaseCombine (rebaseCompress none mid)).length < 2 ^ counter := by
    have first := length_rebaseCompress none mid
    have second := length_rebaseCombine (rebaseCompress none mid)
    simp only [Option.toList_none, List.length_nil] at first
    omega
  have last : Transducer.Same (rebaseStep counter ptr) (rebaseOptimize ptr mid)
      (rebaseSkip none (rebaseCombine (rebaseCompress none mid))) :=
    .map fun it _ state => rebaseImmediate_step it state enough
  have third := (rebaseSkip_same ptr wide (by omega) combined).1 shorter
  have second := rebaseCombine_same ptr (rebaseCompress none mid) (show 0 < counter by omega)
  have first := (rebaseCompress_same ptr wide units).1 room
  exact last.trans (third.trans (second.trans first))

theorem rebaseOptimize_fits (fits : ∀ it ∈ mid, it.Fits counter segmentCount) :
    ∀ it ∈ rebaseOptimize ptr mid, it.Fits counter segmentCount := by
  intro it member
  obtain ⟨plain, before, rfl⟩ := List.mem_map.1 member
  have compressed : ∀ it ∈ rebaseCompress none mid, it.Fits counter segmentCount :=
    rebaseCompress_fits (by simp) fits
  exact rebaseImmediate_fits
    (rebaseSkip_fits (by simp) (rebaseCombine_fits compressed) plain before)

/-! ## The bytes -/

/-- The entry as the reader returns it: an operand that is not written is 0. -/
def RebaseTmp.written (it : RebaseTmp) : RebaseTmp :=
  match it.opcode with
  | .setSegmentAndOffsetUleb | .doRebaseUlebTimesSkippingUleb => it
  | _ => { it with operand2 := 0 }

theorem rebaseStep_written (it : RebaseTmp) (state : RebaseState) :
    rebaseStep counter ptr state it.written = rebaseStep counter ptr state it := by
  obtain ⟨opcode, operand1, operand2⟩ := it
  cases opcode <;> rfl

theorem rebaseOpcodeByte_parts (opcode : RebaseOpcode) (operand : BitVec 64) (small : operand.toNat < 16) :
    (rebaseOpcodeByte opcode operand &&& 0xF0).toNat = opcode.code.toNat ∧
      (rebaseOpcodeByte opcode operand &&& 0x0F).toNat = operand.toNat := by
  have table : ∀ nibble : Fin 16,
      ((opcode.code ||| UInt8.ofNat nibble.val) &&& 0xF0).toNat = opcode.code.toNat ∧
        ((opcode.code ||| UInt8.ofNat nibble.val) &&& 0x0F).toNat = nibble.val := by
    cases opcode <;> decide
  exact table ⟨operand.toNat, small⟩

@[simp] theorem readOperand_append (value : BitVec 64) (rest : List UInt8) :
    readOperand (appendUleb128 value ++ rest) = .ok (value, rest) := by
  simp [readOperand]

theorem readRebase_encode {it : RebaseTmp} (fits : it.Fits counter segmentCount) (rest : List UInt8) :
    ∃ byte tail, it.encode ++ rest = byte :: tail ∧
      readRebase segmentCount byte tail = .ok (some it.written, rest) := by
  obtain ⟨opcode, operand1, operand2⟩ := it
  have back : BitVec.ofNat 64 operand1.toNat = operand1 := by simp
  cases opcode with
  | setTypeImm | addAddrImmScaled | doRebaseImmTimes =>
    refine ⟨_, rest, rfl, ?_⟩
    have high := fun code => (rebaseOpcodeByte_parts code operand1 fits).1
    have low := fun code => (rebaseOpcodeByte_parts code operand1 fits).2
    simp only [readRebase, high, low, back, RebaseOpcode.code]
    rfl
  | setSegmentAndOffsetUleb =>
    refine ⟨_, appendUleb128 operand2 ++ rest, rfl, ?_⟩
    obtain ⟨high, low⟩ := rebaseOpcodeByte_parts .setSegmentAndOffsetUleb _ fits.1
    have known : checkSegIndex segmentCount operand1.toNat = .ok () := by
      rw [checkSegIndex, if_neg (by have := fits.2; simp at this; omega)]
    simp only [readRebase, high, low, back, RebaseOpcode.code]
    simp [known, bind, Except.bind, pure, Except.pure, RebaseTmp.written]
  | addAddrUleb | doRebaseUlebTimes | doRebaseAddAddrUleb =>
    refine ⟨_, appendUleb128 operand1 ++ rest, rfl, ?_⟩
    simp [readRebase, RebaseOpcode.code, bind, Except.bind, pure, Except.pure, RebaseTmp.written]
  | doRebaseUlebTimesSkippingUleb =>
    refine ⟨RebaseOpcode.doRebaseUlebTimesSkippingUleb.code,
      appendUleb128 operand1 ++ (appendUleb128 operand2 ++ rest), ?_, ?_⟩
    · simp [RebaseTmp.encode]
    · simp [readRebase, RebaseOpcode.code, bind, Except.bind, pure, Except.pure,
        RebaseTmp.written]

/-- The padding ends the stream like the entry that is not written. -/
theorem rebaseLoop_padding (segmentCount fuel count : Nat) (state : RebaseState) (enough : count ≤ fuel) :
    rebaseLoop counter ptr segmentCount fuel state (List.replicate count 0) = .ok [] := by
  cases count with
  | zero => cases fuel <;> rfl
  | succ count =>
    obtain ⟨fuel, rfl⟩ : ∃ less, fuel = less + 1 := ⟨fuel - 1, by omega⟩
    rfl

theorem rebaseLoop_bytes
    (fits : ∀ it ∈ mid, it.Fits counter segmentCount) {fuel count : Nat} (state : RebaseState)
    (enough : (mid.flatMap RebaseTmp.encode).length + count ≤ fuel) :
    rebaseLoop counter ptr segmentCount fuel state
        (mid.flatMap RebaseTmp.encode ++ List.replicate count 0) =
      .ok (Transducer.run (rebaseStep counter ptr) state mid).2 := by
  induction mid generalizing fuel state with
  | nil => simpa using rebaseLoop_padding segmentCount fuel count state (by simpa using enough)
  | cons it rest ih =>
    rw [List.forall_mem_cons] at fits
    obtain ⟨byte, tail, shape, reads⟩ := readRebase_encode fits.1
      (rest.flatMap RebaseTmp.encode ++ List.replicate count 0)
    simp only [List.flatMap_cons, List.length_append] at enough
    have nonempty : 0 < it.encode.length := by
      obtain ⟨first, more, written, -⟩ := readRebase_encode fits.1 []
      have := congrArg List.length written
      simp only [List.append_nil, List.length_cons] at this
      omega
    obtain ⟨fuel, rfl⟩ : ∃ less, fuel = less + 1 := ⟨fuel - 1, by omega⟩
    have shorter : (rest.flatMap RebaseTmp.encode).length + count ≤ fuel := by omega
    rw [List.flatMap_cons, List.append_assoc, shape]
    simp only [rebaseLoop, reads, bind, Except.bind, pure, Except.pure, rebaseStep_written,
      ih fits.2 _ shorter, Transducer.run_cons]

/-- **The written stream rebases what the plain entries rebase.** -/
theorem rebaseSites_bytes (ptr : PointerSize)
    (enough : 4 ≤ counter) (wide : counter ≤ 64) (room : mid.length < 2 ^ counter)
    (units : ∀ it ∈ mid, it.opcode = .doRebaseUlebTimes → it.operand1 = 1)
    (fits : ∀ it ∈ mid, it.Fits counter segmentCount) :
    rebaseSites counter ptr segmentCount (rebaseBytes ptr (rebaseOptimize ptr mid)) =
      .ok (Transducer.run (rebaseStep counter ptr) ⟨0, 0, 0⟩ mid).2 := by
  obtain ⟨count, padded⟩ := padToSize_eq ptr.bytes ((rebaseOptimize ptr mid).flatMap RebaseTmp.encode)
  rw [rebaseSites, rebaseBytes, padded,
    rebaseLoop_bytes (rebaseOptimize_fits fits) _ (by simp),
    rebaseOptimize_same enough wide room units fits]

end Passes

end Cctools.LinkEdit
