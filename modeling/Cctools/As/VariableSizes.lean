/-
# Cctools.As.VariableSizes -- the bytes reserved for a frag and those written for it

A leb128 and a line of `.debug_line` are sized in `relax_section`, which leaves the
size in the frag, and written by the last loop of `layout_addresses`, with other
functions and other values: a symbol has had an address in its section, and now has
one in the file.

`Within` is what it is to fit in so many groups of seven bits.  Sizes and bytes are
both described by it (`sizeofLeb128_within`, `outputLeb128Bytes_within`), and
`variableSizes_agree_iff` compares them: the symbols of an expression are to move
together, for another move is too much for some value, and the one written without
a sign must not be negative, since `output_uleb128` shifts a `valueT`, which has one.
-/
import Cctools.As.Consistent
import Cctools.Theory.Leb128

namespace Cctools.As

set_option autoImplicit false

open Cctools.Theory.Leb128

/-! ## The writers -/

/-- `output_uleb128`, when no more than `groups` bytes are written.  A `valueT` is signed, and `>>=`
keeps its sign. -/
def outputUleb128Bytes : Nat → Int → Option (List Int)
  | 0, _ => none
  | groups + 1, value =>
    if value / 128 = 0 then some [value % 128]
    else (outputUleb128Bytes groups (value / 128)).map fun bytes => (value % 128 + 128) :: bytes

def outputSleb128Bytes : Nat → Int → Option (List Int)
  | 0, _ => none
  | groups + 1, value =>
    if value / 128 = 0 ∧ value % 128 < 64 ∨ value / 128 = -1 ∧ 64 ≤ value % 128 then
      some [value % 128]
    else (outputSleb128Bytes groups (value / 128)).map fun bytes => (value % 128 + 128) :: bytes

def outputLeb128Bytes (bits groups : Nat) (value : Int) (sign : Bool) : Option (List Int) :=
  if sign then outputSleb128Bytes groups (value.bmod (2 ^ bits))
  else outputUleb128Bytes groups (value.bmod (2 ^ bits))

section Lines

variable (bits groups : Nat)

/-- `DW_LNS_advance_pc` with its operand. -/
def advancePc (addr : Int) : Option (List Int) :=
  (outputLeb128Bytes bits groups addr false).map (2 :: ·)

/-- `DW_LNS_advance_line`, for a line a special opcode has no room for. -/
def advanceLine (special : Bool) (lineDelta : Int) : Option (List Int) :=
  if special then some [] else (outputLeb128Bytes bits groups lineDelta true).map (3 :: ·)

/-- The row after that. -/
def emitRow (special : Bool) (line addr : Int) : Option (List Int) :=
  let opcode := line + 5 + 13
  if line = 0 ∧ addr = 0 then some [1]
  else if addr < 256 + 17 ∧ opcode + addr * 14 ≤ 255 then some [opcode + addr * 14]
  else if addr < 256 + 17 ∧ opcode + (addr - 17) * 14 ≤ 255 then
    some [8, opcode + (addr - 17) * 14]
  else (advancePc bits groups addr).map (· ++ [if special then opcode else 1])

/-- What `emit_inc_line_addr` writes.  `addr` is an `addressT`, of 64 bits in each assembler. -/
def incLineAddrBytes (lineDelta addr : Int) : Option (List Int) :=
  if lineDelta = 0x7fffffff then
    (if addr = 17 then some [8] else advancePc bits groups addr).map (· ++ [0, 1, 1])
  else
    let special := decide (0 ≤ lineDelta + 5 ∧ lineDelta + 5 < 14)
    (advanceLine bits groups special lineDelta).bind fun advance =>
      (emitRow bits groups special (if special then lineDelta else 0) addr).map (advance ++ ·)

/-- `none` for the assertion that fails, and for `as_fatal`. -/
def emitIncLineAddr (lineDelta addrDelta len : Int) : Option (List Int) :=
  let addr := addrDelta % 2 ^ bits
  if addr.bmod (2 ^ 64) < 0 then none
  else
    (incLineAddrBytes bits groups lineDelta addr).bind fun bytes =>
      if bytes.length = len then some bytes else none

/-- `var` is `fr_var`, the space there is. -/
def dwarf2dbgConvertFrag (var lineDelta addrDelta size : Int) : Option (List Int) :=
  if var < size then none else emitIncLineAddr bits groups lineDelta addrDelta size

end Lines

/-! ## The space -/

/-- As much as `emit_leb128_expr` asks `frag_var` for.  A signed `~0` stays as it is when it is
shifted. -/
def leb128Room (bits : Nat) : Int := sizeofLeb128 bits (-1 / 2) false

/-- As much as `relax_inc_line_addr` asks it for. -/
def lineRoom (bits : Nat) (lineDelta : Int) : Int := sizeIncLineAddr bits lineDelta (-1)

/-! ## Groups of seven bits -/

/-- How `sizeof_leb128` takes a value. -/
def taken (bits : Nat) (sign : Bool) (value : Int) : Int :=
  if sign then value.bmod (2 ^ bits) else value % 2 ^ bits

section Groups

theorem sizeofUleb128_within (groups : Nat) {value fuel : Nat} (enough : value < 128 ^ (fuel + 1)) :
    sizeofUleb128 (fuel + 1) value ≤ groups + 1 ↔ Within false groups value := by
  induction groups generalizing value fuel with
  | zero =>
    rw [sizeofUleb128]
    simp only [Within, Bool.false_eq_true, if_false, Nat.zero_add, pow_one]
    cases fuel with
    | zero =>
      rw [if_pos (by omega)]
      omega
    | succ fuel =>
      rw [sizeofUleb128]
      split
      · omega
      · split <;> omega
  | succ groups ih =>
    rw [sizeofUleb128]
    split
    · rename_i first
      exact iff_of_true (by omega) (within_first _ (by omega))
    · rename_i more
      cases fuel with
      | zero =>
        rw [Nat.zero_add, pow_one] at enough
        omega
      | succ fuel =>
        have smaller : value / 128 < 128 ^ (fuel + 1) := by
          rw [pow_succ] at enough
          omega
        have same : ((value / 128 : Nat) : Int) = (value : Int) / 128 := by omega
        rw [within_div, ← same, ← ih smaller]
        omega

variable {value : Int} {fuel : Nat}

theorem sizeofSleb128_within (groups : Nat) (enough : Within true fuel value) :
    sizeofSleb128 (fuel + 1) value ≤ groups + 1 ↔ Within true groups value := by
  induction groups generalizing value fuel with
  | zero =>
    rw [sizeofSleb128, within_signed_zero]
    split
    · rename_i last
      exact iff_of_true (Nat.le_refl _) last
    · rename_i more
      refine iff_of_false ?_ more
      cases fuel with
      | zero => exact absurd ((within_signed_zero value).mp enough) more
      | succ fuel =>
        rw [sizeofSleb128]
        split <;> omega
  | succ groups ih =>
    rw [sizeofSleb128]
    split
    · rename_i last
      exact iff_of_true (by omega)
        (within_longer (Nat.zero_le _) ((within_signed_zero value).mpr last))
    · rename_i more
      cases fuel with
      | zero => exact absurd ((within_signed_zero value).mp enough) more
      | succ fuel =>
        rw [within_div, ← ih ((within_div true fuel value).mp enough)]
        omega

variable {bytes : List Int}

/-- A value that is written is not negative: the sign would be shifted in for ever. -/
theorem outputUleb128Bytes_nonneg (written : outputUleb128Bytes fuel value = some bytes) : 0 ≤ value := by
  induction fuel generalizing value bytes with
  | zero => cases written
  | succ fuel ih =>
    rw [outputUleb128Bytes] at written
    split at written
    · omega
    · obtain ⟨rest, later, _⟩ := Option.map_eq_some_iff.mp written
      have := ih later
      omega

theorem outputUleb128Bytes_within (groups : Nat) (written : outputUleb128Bytes fuel value = some bytes) :
    0 < bytes.length ∧ (bytes.length ≤ groups + 1 ↔ Within false groups value) := by
  have nonneg := outputUleb128Bytes_nonneg written
  induction fuel generalizing value bytes groups with
  | zero => cases written
  | succ fuel ih =>
    rw [outputUleb128Bytes] at written
    split at written
    · rename_i first
      cases written
      exact ⟨Nat.zero_lt_one, iff_of_true (by simp) (within_first _ first)⟩
    · rename_i more
      obtain ⟨rest, later, rfl⟩ := Option.map_eq_some_iff.mp written
      refine ⟨Nat.zero_lt_succ _, ?_⟩
      rw [List.length_cons]
      cases groups with
      | zero =>
        have some_ := (ih 0 later (by omega)).1
        refine iff_of_false (by omega) ?_
        simp only [Within, Bool.false_eq_true, if_false, Nat.zero_add, pow_one]
        omega
      | succ groups =>
        rw [within_div, ← (ih groups later (by omega)).2]
        omega

theorem outputSleb128Bytes_within (groups : Nat) (written : outputSleb128Bytes fuel value = some bytes) :
    0 < bytes.length ∧ (bytes.length ≤ groups + 1 ↔ Within true groups value) := by
  induction fuel generalizing value bytes groups with
  | zero => cases written
  | succ fuel ih =>
    rw [outputSleb128Bytes] at written
    split at written
    · rename_i last
      cases written
      exact ⟨Nat.zero_lt_one, iff_of_true (by simp)
        (within_longer (Nat.zero_le _) ((within_signed_zero value).mpr last))⟩
    · rename_i more
      obtain ⟨rest, later, rfl⟩ := Option.map_eq_some_iff.mp written
      refine ⟨Nat.zero_lt_succ _, ?_⟩
      rw [List.length_cons]
      cases groups with
      | zero =>
        have some_ := (ih 0 later).1
        exact iff_of_false (by omega) fun last => more ((within_signed_zero value).mp last)
      | succ groups =>
        rw [within_div, ← (ih groups later).2]
        omega

theorem outputUleb128Bytes_done (nonneg : 0 ≤ value)
    (within : Within false fuel value) : ∃ bytes, outputUleb128Bytes (fuel + 1) value = some bytes := by
  induction fuel generalizing value with
  | zero =>
    simp only [Within, Bool.false_eq_true, if_false, Nat.zero_add, pow_one] at within
    exact ⟨_, by rw [outputUleb128Bytes, if_pos (by omega)]⟩
  | succ fuel ih =>
    rw [outputUleb128Bytes]
    split
    · exact ⟨_, rfl⟩
    · obtain ⟨rest, later⟩ := ih (by omega) ((within_div _ _ _).mp within)
      exact ⟨_, Option.map_eq_some_iff.mpr ⟨rest, later, rfl⟩⟩

theorem outputSleb128Bytes_done (within : Within true fuel value) :
    ∃ bytes, outputSleb128Bytes (fuel + 1) value = some bytes := by
  induction fuel generalizing value with
  | zero => exact ⟨_, by rw [outputSleb128Bytes, if_pos ((within_signed_zero value).mp within)]⟩
  | succ fuel ih =>
    rw [outputSleb128Bytes]
    split
    · exact ⟨_, rfl⟩
    · obtain ⟨rest, later⟩ := ih ((within_div _ _ _).mp within)
      exact ⟨_, Option.map_eq_some_iff.mpr ⟨rest, later, rfl⟩⟩

end Groups

/-! ## Values -/

section Values

variable {bits : Nat}

theorem taken_within (width : bits = 32 ∨ bits = 64) (sign : Bool) (value : Int) :
    Within sign (if bits = 32 then 4 else 9) (taken bits sign value) := by
  have low := Int.le_bmod (x := value) (m := 2 ^ bits) (Nat.two_pow_pos bits)
  have high := Int.bmod_lt (x := value) (m := 2 ^ bits) (Nat.two_pow_pos bits)
  unfold Within taken
  obtain rfl | rfl := width
  · cases sign
    · simp only [Bool.false_eq_true, if_false, if_true]
      omega
    · simp only [if_true]
      omega
  · cases sign
    · simp only [Bool.false_eq_true, if_false, Nat.reduceEqDiff]
      omega
    · simp only [if_true, if_false, Nat.reduceEqDiff]
      omega

theorem leb128Room_eq (width : bits = 32 ∨ bits = 64) :
    leb128Room bits = (if bits = 32 then 4 else 9 : Nat) + 1 := by
  obtain rfl | rfl := width <;> decide

theorem taken_within_ten (width : bits = 32 ∨ bits = 64) (sign : Bool) (value : Int) :
    Within sign 9 (taken bits sign value) :=
  within_longer (by split <;> omega) (taken_within width sign value)

/-- **The length that is counted**, by the groups a value fits in. -/
theorem sizeofLeb128_within (width : bits = 32 ∨ bits = 64) (groups : Nat) (sign : Bool) (value : Int) :
    sizeofLeb128 bits value sign ≤ groups + 1 ↔ Within sign groups (taken bits sign value) := by
  have ten := taken_within_ten width sign value
  unfold sizeofLeb128
  cases sign with
  | false =>
    have positive : (0 : Int) < 2 ^ bits := Int.pow_pos (by omega)
    have nonneg := Int.emod_nonneg value (Int.ne_of_gt positive)
    have same : (((value % 2 ^ bits).toNat : Nat) : Int) = taken bits false value :=
      Int.toNat_of_nonneg nonneg
    have enough : (value % 2 ^ bits).toNat < 128 ^ (9 + 1) := by
      rw [← same] at ten
      simp only [Within, Bool.false_eq_true, if_false] at ten
      omega
    rw [← same, ← sizeofUleb128_within groups enough]
    simp only [Bool.false_eq_true, if_false, Nat.reduceAdd]
    omega
  | true =>
    rw [← sizeofSleb128_within groups ten]
    simp only [if_true, taken, Nat.reduceAdd]
    omega

theorem sizeofLeb128_pos (value : Int) (sign : Bool) : 0 < sizeofLeb128 bits value sign := by
  unfold sizeofLeb128 sizeofUleb128 sizeofSleb128
  split <;> split <;> omega

/-- A value that is not negative is the same with a sign and without. -/
theorem bmod_eq_taken {value : Int} (nonneg : 0 ≤ value.bmod (2 ^ bits)) :
    value.bmod (2 ^ bits) = taken bits false value := by
  have is := Int.bmod_emod (x := value) (m := 2 ^ bits)
  have small := Int.bmod_lt (x := value) (m := 2 ^ bits) (Nat.two_pow_pos bits)
  rw [Int.emod_eq_of_lt nonneg (by omega)] at is
  rw [is]
  simp [taken]

variable {fuel : Nat} {bytes : List Int}

/-- **The length that is written**, by the same. -/
theorem outputLeb128Bytes_within {value : Int} {sign : Bool}
    (written : outputLeb128Bytes bits fuel value sign = some bytes) (groups : Nat) :
    0 < bytes.length ∧ (bytes.length ≤ groups + 1 ↔ Within sign groups (taken bits sign value)) := by
  unfold outputLeb128Bytes at written
  cases sign with
  | false =>
    rw [← bmod_eq_taken (outputUleb128Bytes_nonneg written)]
    exact outputUleb128Bytes_within groups written
  | true => exact outputSleb128Bytes_within groups written

theorem outputLeb128Bytes_done (width : bits = 32 ∨ bits = 64) {value : Int} {sign : Bool}
    (fine : sign = true ∨ 0 ≤ value.bmod (2 ^ bits)) :
    ∃ bytes, outputLeb128Bytes bits 10 value sign = some bytes := by
  have ten := taken_within_ten width sign value
  unfold outputLeb128Bytes
  cases sign with
  | false =>
    have nonneg : 0 ≤ value.bmod (2 ^ bits) := fine.resolve_left Bool.false_ne_true
    rw [← bmod_eq_taken nonneg] at ten
    exact outputUleb128Bytes_done nonneg ten
  | true => exact outputSleb128Bytes_done ten

theorem outputLeb128Bytes_negative {value : Int}
    (negative : value.bmod (2 ^ bits) < 0) : outputLeb128Bytes bits fuel value false = none := by
  refine Option.eq_none_iff_forall_ne_some.mpr fun bytes written => ?_
  have := outputUleb128Bytes_nonneg (written : outputUleb128Bytes fuel _ = some bytes)
  omega

theorem sizeofLeb128_le_room (width : bits = 32 ∨ bits = 64) (value : Int) (sign : Bool) :
    sizeofLeb128 bits value sign ≤ leb128Room bits := by
  rw [leb128Room_eq width]
  exact (sizeofLeb128_within width _ sign value).mpr (taken_within width sign value)

theorem length_eq_iff {left : Nat} {right : Int} (some_ : 0 < left) (positive : 0 < right) :
    left = right ↔ ∀ groups : Nat, left ≤ groups + 1 ↔ right ≤ groups + 1 := by
  constructor
  · intro same groups
    omega
  · intro both
    have up := both (left - 1)
    have down := both (right.toNat - 1)
    omega

theorem outputLeb128Bytes_length_iff (width : bits = 32 ∨ bits = 64) {value : Int} {sign : Bool}
    (written : outputLeb128Bytes bits fuel value sign = some bytes) (other : Int) :
    bytes.length = sizeofLeb128 bits other sign ↔
      ∀ groups, Within sign groups (taken bits sign value) ↔
        Within sign groups (taken bits sign other) := by
  rw [length_eq_iff (outputLeb128Bytes_within written 0).1 (sizeofLeb128_pos other sign)]
  refine forall_congr' fun groups => ?_
  rw [(outputLeb128Bytes_within written groups).2, sizeofLeb128_within width]

/-- `sizeof_leb128` and `output_leb128` agree on one value. -/
theorem outputLeb128Bytes_length (width : bits = 32 ∨ bits = 64) {value : Int} {sign : Bool}
    (written : outputLeb128Bytes bits fuel value sign = some bytes) :
    bytes.length = sizeofLeb128 bits value sign :=
  (outputLeb128Bytes_length_iff width written value).mpr fun _ => Iff.rfl

end Values

/-! ## Lines -/

section Lines

variable {bits groups : Nat} {bytes : List Int} {addr : Int}

theorem advancePc_length (width : bits = 32 ∨ bits = 64) (written : advancePc bits groups addr = some bytes) :
    bytes.length = 1 + sizeofLeb128 bits addr false := by
  obtain ⟨operand, output, rfl⟩ := Option.map_eq_some_iff.mp written
  rw [← outputLeb128Bytes_length width output, List.length_cons]
  omega

theorem advanceLine_length (width : bits = 32 ∨ bits = 64) {special : Bool} {lineDelta : Int}
    (written : advanceLine bits groups special lineDelta = some bytes) :
    bytes.length = if special then 0 else 1 + sizeofLeb128 bits lineDelta true := by
  unfold advanceLine at written
  cases special with
  | true =>
    cases written
    rfl
  | false =>
    obtain ⟨operand, output, rfl⟩ := Option.map_eq_some_iff.mp written
    rw [List.length_cons, if_neg Bool.false_ne_true, ← outputLeb128Bytes_length width output]
    omega

theorem emitRow_length (width : bits = 32 ∨ bits = 64) {special : Bool} {line addr : Int}
    (written : emitRow bits groups special line addr = some bytes) :
    bytes.length =
      if addr < 256 + 17 ∧ line + 5 + 13 + addr * 14 ≤ 255 then 1
      else if addr < 256 + 17 ∧ line + 5 + 13 + (addr - 17) * 14 ≤ 255 then 2
      else 1 + sizeofLeb128 bits addr false + 1 := by
  simp only [emitRow] at written
  by_cases copy : line = 0 ∧ addr = 0
  · rw [if_pos copy] at written
    cases written
    rw [if_pos (by omega)]
    rfl
  · rw [if_neg copy] at written
    by_cases near : addr < 256 + 17 ∧ line + 5 + 13 + addr * 14 ≤ 255
    · rw [if_pos near] at written ⊢
      cases written
      rfl
    · rw [if_neg near] at written ⊢
      by_cases further : addr < 256 + 17 ∧ line + 5 + 13 + (addr - 17) * 14 ≤ 255
      · rw [if_pos further] at written ⊢
        cases written
        rfl
      · rw [if_neg further] at written ⊢
        obtain ⟨advance, output, rfl⟩ := Option.map_eq_some_iff.mp written
        rw [List.length_append, Int.natCast_add, advancePc_length width output]
        rfl

/-- **`emit_inc_line_addr` writes as much as `size_inc_line_addr` counts**, as its comment asks. -/
theorem incLineAddrBytes_length (width : bits = 32 ∨ bits = 64) {lineDelta addrDelta : Int}

    (written : incLineAddrBytes bits groups lineDelta (addrDelta % 2 ^ bits) = some bytes) :
    bytes.length = sizeIncLineAddr bits lineDelta addrDelta := by
  unfold incLineAddrBytes at written
  rw [sizeIncLineAddr]
  split at written
  · rename_i ends
    rw [if_pos ends]
    obtain ⟨advance, output, rfl⟩ := Option.map_eq_some_iff.mp written
    rw [List.length_append]
    split at output
    · cases output
      rw [if_pos (by assumption)]
      rfl
    · rw [if_neg (by assumption), ← advancePc_length width output]
      rfl
  · rename_i goes
    rw [if_neg goes]
    obtain ⟨advance, first, written⟩ := Option.bind_eq_some_iff.mp written
    obtain ⟨row, second, rfl⟩ := Option.map_eq_some_iff.mp written
    have before := advanceLine_length width first
    have behind := emitRow_length width second
    rw [List.length_append, Int.natCast_add, before, behind]
    by_cases special : 0 ≤ lineDelta + 5 ∧ lineDelta + 5 < 14
    · simp only [special, and_self, decide_true, if_true]
      split
      · rfl
      · split <;> omega
    · simp only [special, decide_false, if_false, Bool.false_eq_true, Int.zero_add]
      split
      · rfl
      · split <;> omega

theorem advancePc_done (width : bits = 32 ∨ bits = 64)
    (nonneg : 0 ≤ addr.bmod (2 ^ bits)) : ∃ bytes, advancePc bits 10 addr = some bytes := by
  obtain ⟨operand, output⟩ := @outputLeb128Bytes_done bits width addr false (.inr nonneg)
  exact ⟨_, Option.map_eq_some_iff.mpr ⟨operand, output, rfl⟩⟩

theorem advanceLine_done (width : bits = 32 ∨ bits = 64) (special : Bool) (lineDelta : Int) :
    ∃ bytes, advanceLine bits 10 special lineDelta = some bytes := by
  obtain ⟨operand, output⟩ := @outputLeb128Bytes_done bits width lineDelta true (.inl rfl)
  rw [advanceLine, output]
  split
  · exact ⟨_, rfl⟩
  · exact ⟨_, rfl⟩

theorem emitRow_done (width : bits = 32 ∨ bits = 64) (special : Bool) (line : Int)
    (nonneg : 0 ≤ addr.bmod (2 ^ bits)) :
    ∃ bytes, emitRow bits 10 special line addr = some bytes := by
  obtain ⟨advance, output⟩ := advancePc_done width nonneg
  simp only [emitRow, output, Option.map_some]
  split
  · exact ⟨_, rfl⟩
  · split
    · exact ⟨_, rfl⟩
    · split <;> exact ⟨_, rfl⟩

theorem incLineAddrBytes_done (width : bits = 32 ∨ bits = 64) (lineDelta : Int)
    (nonneg : 0 ≤ addr.bmod (2 ^ bits)) :
    ∃ bytes, incLineAddrBytes bits 10 lineDelta addr = some bytes := by
  obtain ⟨pc, output⟩ := advancePc_done width nonneg
  rw [incLineAddrBytes]
  split
  · rw [output]
    split <;> exact ⟨_, rfl⟩
  · obtain ⟨advance, first⟩ := advanceLine_done width
      (decide (0 ≤ lineDelta + 5 ∧ lineDelta + 5 < 14)) lineDelta
    obtain ⟨row, second⟩ := emitRow_done width (decide (0 ≤ lineDelta + 5 ∧ lineDelta + 5 < 14))
      (if decide (0 ≤ lineDelta + 5 ∧ lineDelta + 5 < 14) then lineDelta else 0) nonneg
    exact ⟨advance ++ row, by simp only [first, second, Option.bind_some, Option.map_some]⟩

/-- An address too far for a special opcode has to be written. -/
theorem incLineAddrBytes_far {lineDelta addr : Int} (far : 256 + 17 ≤ addr)
    (never : advancePc bits groups addr = none) :
    incLineAddrBytes bits groups lineDelta addr = none := by
  have row : ∀ special line, emitRow bits groups special line addr = none := by
    intro special line
    simp only [emitRow, never, Option.map_none]
    rw [if_neg (by omega), if_neg (by omega), if_neg (by omega)]
  rw [incLineAddrBytes, never]
  split
  · rw [if_neg (by omega)]
    rfl
  · simp only [row, Option.map_none, Option.bind_fun_none]

theorem emod_bmod_two_pow (addrDelta : Int) :
    (addrDelta % 2 ^ bits).bmod (2 ^ bits) = addrDelta.bmod (2 ^ bits) := by
  have := Int.emod_bmod addrDelta (2 ^ bits)
  simpa using this

theorem emitIncLineAddr_nonneg (width : bits = 32 ∨ bits = 64) {lineDelta addrDelta len : Int}
    (emitted : emitIncLineAddr bits groups lineDelta addrDelta len = some bytes) :
    0 ≤ addrDelta.bmod (2 ^ bits) := by
  refine Int.not_lt.mp fun negative => ?_
  have far : 256 + 17 ≤ addrDelta % 2 ^ bits := by
    rw [Int.bmod_def] at negative
    obtain rfl | rfl := width <;> omega
  have never : advancePc bits groups (addrDelta % 2 ^ bits) = none := by
    rw [advancePc, outputLeb128Bytes_negative (by rw [emod_bmod_two_pow]; exact negative)]
    rfl
  rw [emitIncLineAddr, incLineAddrBytes_far far never] at emitted
  split at emitted <;> cases emitted

theorem emitIncLineAddr_done (width : bits = 32 ∨ bits = 64) (lineDelta : Int) {addrDelta : Int}
    (nonneg : 0 ≤ addrDelta.bmod (2 ^ bits)) :
    ∃ bytes, emitIncLineAddr bits 10 lineDelta addrDelta (sizeIncLineAddr bits lineDelta addrDelta) =
      some bytes := by
  obtain ⟨bytes, written⟩ := incLineAddrBytes_done width lineDelta
    (by rw [emod_bmod_two_pow]; exact nonneg : 0 ≤ (addrDelta % 2 ^ bits).bmod (2 ^ bits))
  have asserted : ¬ (addrDelta % 2 ^ bits).bmod (2 ^ 64) < 0 := by
    rw [Int.bmod_def] at nonneg ⊢
    obtain rfl | rfl := width <;> omega
  refine ⟨bytes, ?_⟩
  rw [emitIncLineAddr, if_neg asserted, written, Option.bind_some,
    if_pos (incLineAddrBytes_length width written)]

/-- **A line is written when its address has not gone back**, or half of all addresses on. -/
theorem emitIncLineAddr_iff (width : bits = 32 ∨ bits = 64) (lineDelta addrDelta : Int) :
    (∃ groups bytes, emitIncLineAddr bits groups lineDelta addrDelta
        (sizeIncLineAddr bits lineDelta addrDelta) = some bytes) ↔
      0 ≤ addrDelta.bmod (2 ^ bits) := by
  constructor
  · rintro ⟨groups, bytes, emitted⟩
    exact emitIncLineAddr_nonneg width emitted
  · intro nonneg
    exact ⟨10, emitIncLineAddr_done width lineDelta nonneg⟩

/-- `max_chars` is for a delta of all ones, which no special opcode is for. -/
theorem sizeIncLineAddr_le_room (width : bits = 32 ∨ bits = 64) (lineDelta addrDelta : Int) :
    sizeIncLineAddr bits lineDelta addrDelta ≤ lineRoom bits lineDelta := by
  have far : ¬ (-1 : Int) % 2 ^ bits < 256 + 17 := by
    obtain rfl | rfl := width <;> decide
  have last : sizeofLeb128 bits (-1 % 2 ^ bits) false = leb128Room bits := by
    obtain rfl | rfl := width <;> decide
  have operand := sizeofLeb128_le_room width (addrDelta % 2 ^ bits) false
  have some_ := @sizeofLeb128_pos bits (addrDelta % 2 ^ bits) false
  simp only [lineRoom, sizeIncLineAddr, last, far, false_and, if_false]
  split
  · split <;> split <;> omega
  · split
    · omega
    · split <;> omega

end Lines

/-! ## Frags -/

section Frags

variable {M : Type}

/-- What the symbols of an expression gain between the relaxation and the conversion.  It is the
slides of their sections, and the whole address of a symbol that had none yet. -/
structure Moved where
  add : Int
  subtract : Int
  deriving DecidableEq, Repr

/-- What is written, for a value that was relaxed. -/
def Moved.settled (moved : Moved) (relaxed : Int) : Int := relaxed + moved.add - moved.subtract

/-- The slides of the symbols' sections. -/
def slides (starts : List Int) (filling : Filling) : Moved :=
  ⟨(filling.addSection.bind (starts[·]?)).getD 0, (filling.subtractSection.bind (starts[·]?)).getD 0⟩

/-- As many bytes are written for a frag as it has, and there is space for them.  The two labels of
a line are in one section, which slides as a whole. -/
def SizeAgrees (bits : Nat) (frags : List (Frag M)) (moved : Moved) (frag : Frag M) : Prop :=
  match frag.body.kind with
  | .leb128 sign value size =>
    (∃ groups bytes,
      outputLeb128Bytes bits groups (moved.settled (value.eval frags)) sign = some bytes ∧
        bytes.length = size) ∧ size ≤ leb128Room bits
  | .dwarf2dbg lineDelta addrDelta size =>
    (∃ groups bytes,
      dwarf2dbgConvertFrag bits groups (lineRoom bits lineDelta) lineDelta addrDelta size =
          some bytes ∧
        bytes.length = size) ∧ size ≤ lineRoom bits lineDelta
  | _ => True

/-- When they are: the symbols have moved as one, as those of one section do, and nothing negative
is written without a sign. -/
def SizeMeets (bits : Nat) (frags : List (Frag M)) (moved : Moved) (frag : Frag M) : Prop :=
  match frag.body.kind with
  | .leb128 sign value _ =>
    moved.add = moved.subtract ∧ (sign = true ∨ 0 ≤ (value.eval frags).bmod (2 ^ bits))
  | .dwarf2dbg _ addrDelta _ => 0 ≤ addrDelta.bmod (2 ^ bits)
  | _ => True

variable {converter : Converter M} {frags : List (Frag M)}

theorem Settled.dwarf2dbg (settled : Settled converter frags) {i : Nat} {frag : Frag M}
    {lineDelta addrDelta size : Int} (here : frags[i]? = some frag)
    (line : frag.body.kind = .dwarf2dbg lineDelta addrDelta size) :
    size = sizeIncLineAddr converter.bits lineDelta addrDelta := by
  obtain ⟨view, addresses, still⟩ := settled.still here
  rw [relaxFrag, line] at still
  simp only at still
  omega

theorem leb128_agrees_iff {bits : Nat} (width : bits = 32 ∨ bits = 64) (sign : Bool) (written relaxed : Int) :
    (∃ groups bytes, outputLeb128Bytes bits groups written sign = some bytes ∧
        bytes.length = sizeofLeb128 bits relaxed sign) ↔
      (sign = true ∨ 0 ≤ written.bmod (2 ^ bits)) ∧
        ∀ groups, Within sign groups (taken bits sign written) ↔
          Within sign groups (taken bits sign relaxed) := by
  constructor
  · rintro ⟨groups, bytes, output, long⟩
    refine ⟨?_, (outputLeb128Bytes_length_iff width output relaxed).mp long⟩
    cases sign with
    | false =>
      refine .inr (Int.not_lt.mp fun negative => ?_)
      rw [outputLeb128Bytes_negative negative] at output
      cases output
    | true => exact .inl rfl
  · rintro ⟨fine, both⟩
    obtain ⟨bytes, output⟩ := outputLeb128Bytes_done width fine
    exact ⟨10, bytes, output, (outputLeb128Bytes_length_iff width output relaxed).mpr both⟩

theorem dwarf2dbg_agrees_iff {bits : Nat} (width : bits = 32 ∨ bits = 64) (lineDelta addrDelta : Int) :
    (∃ groups bytes, dwarf2dbgConvertFrag bits groups (lineRoom bits lineDelta) lineDelta addrDelta
          (sizeIncLineAddr bits lineDelta addrDelta) = some bytes ∧
        bytes.length = sizeIncLineAddr bits lineDelta addrDelta) ↔
      0 ≤ addrDelta.bmod (2 ^ bits) := by
  have room := sizeIncLineAddr_le_room width lineDelta addrDelta
  simp only [dwarf2dbgConvertFrag, if_neg (Int.not_lt.mpr room)]
  rw [← emitIncLineAddr_iff width lineDelta addrDelta]
  constructor
  · rintro ⟨groups, bytes, output, _⟩
    exact ⟨groups, bytes, output⟩
  · rintro ⟨groups, bytes, output⟩
    refine ⟨groups, bytes, output, ?_⟩
    rw [emitIncLineAddr] at output
    split at output
    · cases output
    · obtain ⟨_, _, checked⟩ := Option.bind_eq_some_iff.mp output
      split at checked
      · cases checked
        assumption
      · cases checked

theorem within_byte (sign : Bool) (value : Int) :
    Within sign 0 value ↔ if sign then -64 ≤ value ∧ value < 64 else value < 128 := by
  cases sign <;> simp [Within]

/-- No other move is one for every value: there is a value whose bytes it changes. -/
theorem leb128_moved_disagrees {bits : Nat} (width : bits = 32 ∨ bits = 64) (sign : Bool) {move : Int}
    (moves : move.bmod (2 ^ bits) ≠ 0) :
    ∃ relaxed, 0 ≤ (relaxed + move).bmod (2 ^ bits) ∧
      ¬ ∃ groups bytes, outputLeb128Bytes bits groups (relaxed + move) sign = some bytes ∧
        bytes.length = sizeofLeb128 bits relaxed sign := by
  suffices apart : ∃ relaxed, 0 ≤ (relaxed + move).bmod (2 ^ bits) ∧
      ¬ (Within sign 0 (taken bits sign (relaxed + move)) ↔ Within sign 0 (taken bits sign relaxed)) by
    obtain ⟨relaxed, nonneg, differ⟩ := apart
    refine ⟨relaxed, nonneg, fun agree => differ ?_⟩
    exact ((leb128_agrees_iff width sign _ _).mp agree).2 0
  -- from 0 or to 0, and for a short move past the last value of one byte
  simp only [within_byte, taken]
  by_cases ahead : 128 ≤ move.bmod (2 ^ bits)
  · refine ⟨0, ?_⟩
    simp only [Int.bmod_def] at *
    obtain rfl | rfl := width <;> cases sign <;> simp <;> omega
  · by_cases back : move.bmod (2 ^ bits) ≤ -128
    · refine ⟨-move, ?_⟩
      simp only [Int.bmod_def] at *
      obtain rfl | rfl := width <;> cases sign <;> simp <;> omega
    · refine ⟨(if sign then 63 else 127) - min (move.bmod (2 ^ bits)) 0, ?_⟩
      simp only [Int.bmod_def] at *
      obtain rfl | rfl := width <;> cases sign <;> simp <;> omega

theorem Moved.settled_of_same {moved : Moved} (same : moved.add = moved.subtract) (relaxed : Int) :
    moved.settled relaxed = relaxed := by
  rw [Moved.settled]
  omega

theorem size_agrees_of_meets (settled : Settled converter frags)
    (width : converter.bits = 32 ∨ converter.bits = 64) {moved : Moved} {i : Nat} {frag : Frag M}
    (here : frags[i]? = some frag) (meets : SizeMeets converter.bits frags moved frag) :
    SizeAgrees converter.bits frags moved frag := by
  unfold SizeMeets at meets
  unfold SizeAgrees
  split
  · rename_i sign value size kind
    simp only [kind] at meets
    rw [settled.leb128 here kind, moved.settled_of_same meets.1, leb128_agrees_iff width]
    exact ⟨⟨meets.2, fun _ => Iff.rfl⟩, sizeofLeb128_le_room width _ sign⟩
  · rename_i lineDelta addrDelta size kind
    simp only [kind] at meets
    rw [settled.dwarf2dbg here kind, dwarf2dbg_agrees_iff width]
    exact ⟨meets, sizeIncLineAddr_le_room width lineDelta addrDelta⟩
  · trivial

theorem size_meets_of_agrees (settled : Settled converter frags)
    (width : converter.bits = 32 ∨ converter.bits = 64) {moved : Moved} {i : Nat} {frag : Frag M}
    (here : frags[i]? = some frag) (same : moved.add = moved.subtract)
    (agrees : SizeAgrees converter.bits frags moved frag) :
    SizeMeets converter.bits frags moved frag := by
  unfold SizeAgrees at agrees
  unfold SizeMeets
  split
  · rename_i sign value size kind
    simp only [kind] at agrees
    rw [settled.leb128 here kind, moved.settled_of_same same, leb128_agrees_iff width] at agrees
    exact ⟨same, agrees.1.1⟩
  · rename_i lineDelta addrDelta size kind
    simp only [kind] at agrees
    rw [settled.dwarf2dbg here kind, dwarf2dbg_agrees_iff width] at agrees
    exact agrees.1
  · trivial

end Frags

/-! ## Sections -/

section Sections

variable {M : Type}

/-- `moved` has what the symbols gain for the frags of each section. -/
def VariableSizesAgree (bits : Nat) (moved : Nat → Nat → Moved) (laid : List (Frchain M)) : Prop :=
  ∀ (k : Nat) (chain : Frchain M), laid[k]? = some chain → chain.zerofill = false →
    ∀ (i : Nat) (frag : Frag M), chain.frags[i]? = some frag →
      SizeAgrees bits chain.frags (moved k i) frag

def VariableSizesMeet (bits : Nat) (moved : Nat → Nat → Moved) (laid : List (Frchain M)) : Prop :=
  ∀ (k : Nat) (chain : Frchain M), laid[k]? = some chain → chain.zerofill = false →
    ∀ (i : Nat) (frag : Frag M), chain.frags[i]? = some frag →
      SizeMeets bits chain.frags (moved k i) frag

/-- **When the bytes written for a frag are those reserved**: where the symbols of an expression have
moved as one, exactly for what is not negative, or signed; and no other move does for every value. -/
theorem variableSizes_agree_iff (converter : Converter M)
    (width : converter.bits = 32 ∨ converter.bits = 64) (fuel : Nat) (chains laid : List (Frchain M))
    (finished : relaxFrchains converter.toMachine fuel chains = some laid)
    (moved : Nat → Nat → Moved) :
    (VariableSizesMeet converter.bits moved laid → VariableSizesAgree converter.bits moved laid) ∧
      (VariableSizesAgree converter.bits moved laid →
        ∀ (k : Nat) (chain : Frchain M), laid[k]? = some chain → chain.zerofill = false →
          ∀ (i : Nat) (frag : Frag M), chain.frags[i]? = some frag →
            (moved k i).add = (moved k i).subtract →
              SizeMeets converter.bits chain.frags (moved k i) frag) ∧
      ∀ (sign : Bool) (move : Int), move.bmod (2 ^ converter.bits) ≠ 0 →
        ∃ relaxed, 0 ≤ (relaxed + move).bmod (2 ^ converter.bits) ∧
          ¬ ∃ groups bytes, outputLeb128Bytes converter.bits groups (relaxed + move) sign = some bytes ∧
            bytes.length = sizeofLeb128 converter.bits relaxed sign := by
  refine ⟨?_, ?_, fun sign move moves => leb128_moved_disagrees width sign moves⟩
  · intro meets k chain member contents i frag here
    have settled := relaxFrchains_settled converter finished (List.mem_of_getElem? member) contents
    exact size_agrees_of_meets settled width here (meets k chain member contents i frag here)
  · intro agrees k chain member contents i frag here same
    have settled := relaxFrchains_settled converter finished (List.mem_of_getElem? member) contents
    exact size_meets_of_agrees settled width here same (agrees k chain member contents i frag here)

/-- `.uleb128 L1 - L0` over itself and three bytes, and a line four bytes on. -/
theorem variableSizes_agree_iff_lines :
    @VariableSizesAgree Jump 64 (fun _ _ => ⟨96, 96⟩)
      [⟨[⟨0, .leb128 false ⟨some ⟨some 1, 3⟩, some ⟨some 0, 0⟩, 0⟩ 1⟩, ⟨3, .dwarf2dbg 1 4 1⟩,
        ⟨0, .fill 0⟩], [], [0, 1, 5], 0, true, true, false, 0⟩] := by
  refine (variableSizes_agree_iff (i386Converter 64) (.inr rfl) 3
    [⟨[⟨0, .leb128 false ⟨some ⟨some 1, 3⟩, some ⟨some 0, 0⟩, 0⟩ 0⟩, ⟨3, .dwarf2dbg 1 4 0⟩,
      ⟨0, .fill 0⟩], [], [], 0, true, true, false, 0⟩] _
    (by decide +kernel) _).1 ?_
  intro k chain member contents i frag here
  match k, member with
  | 0, member =>
    cases member
    match i, here with
    | 0, here =>
      cases here
      exact ⟨rfl, .inr (by decide)⟩
    | 1, here =>
      cases here
      show (0 : Int) ≤ Int.bmod 4 (2 ^ 64)
      decide
    | 2, here =>
      cases here
      trivial

/-- `.space 200` in the text, and `label: .uleb128 label` in the data: it is sized as 0 and written
as 200. -/
theorem slidLabel_longer :
    ∃ laid, relaxFrchains (i386Converter 64).toMachine 3
      [⟨[⟨200, .fill 0⟩, ⟨0, .fill 0⟩], [], [], 0, false, false, false, 0⟩,
        ⟨[⟨0, .leb128 false ⟨some ⟨some 0, 0⟩, none, 0⟩ 0⟩, ⟨0, .fill 0⟩],
          [⟨0, false, some 1, none⟩], [], 0, false, true, false, 0⟩] = some laid ∧
      ¬ VariableSizesAgree 64
        (fun k i => slides (sectionStarts laid) ((laid[k]?.map (·.filling i)).getD ⟨0, false, none, none⟩))
        laid := by
  refine ⟨[⟨[⟨200, .fill 0⟩, ⟨0, .fill 0⟩], [], [0, 200], 0, false, false, false, 0⟩,
    ⟨[⟨0, .leb128 false ⟨some ⟨some 0, 0⟩, none, 0⟩ 1⟩, ⟨0, .fill 0⟩],
      [⟨0, false, some 1, none⟩], [0, 1], 0, false, true, false, 0⟩], by decide, fun agree => ?_⟩
  obtain ⟨⟨groups, bytes, output, long⟩, _⟩ := agree 1 _ rfl rfl 0 _ rfl
  have two : (bytes.length : Int) = sizeofLeb128 64 200 false :=
    outputLeb128Bytes_length (.inr rfl) output
  rw [two] at long
  revert long
  decide

end Sections

end Cctools.As
