/-
# Cctools.OutputFile.ImportsLossless -- what the import table can say

`imports_lossless_iff`: every pointer of an image is read back with its library,
name, weak bit and whole addend if and only if the targets fit the format that
was chosen for them.  The choice is made for the addends that a 64-bit pointer
cannot hold; a 32-bit pointer holds less, and an addend between 64 and 255 then
has no place at all (`imports_lose_addend`).
-/
import Cctools.OutputFile.ChainedImports

namespace Cctools.OutputFile

set_option autoImplicit false

open Cctools.Theory
open Cctools.Theory.BitField
open Cctools.LinkEdit (AuthData PtrauthKey)

/-! ## Pointers -/

section Word

variable {o start width at_ : Nat}

theorem plainBind_fields (ordinal : BitVec o) (v : BitVec width) (after : o ≤ start)
    (before : start + width ≤ at_) (inside : at_ + 1 ≤ 64) :
    (put 64 0 ordinal ||| put 64 at_ (1 : BitVec 1) ||| put 64 start v).extractLsb' at_ 1 = 1 ∧
    (put 64 0 ordinal ||| put 64 at_ (1 : BitVec 1) ||| put 64 start v).extractLsb' 0 o = ordinal ∧
    (put 64 0 ordinal ||| put 64 at_ (1 : BitVec 1) ||| put 64 start v).extractLsb' start width = v ∧
    (at_ + 1 ≤ 63 →
      (put 64 0 ordinal ||| put 64 at_ (1 : BitVec 1) ||| put 64 start v).extractLsb' 63 1 = 0) := by
  refine ⟨?_, ?_, ?_, fun below => ?_⟩
  · simp (disch := omega) only [BitVec.extractLsb'_or, extract_put, extract_put_above, BitVec.zero_or,
      BitVec.or_zero]
  · simp (disch := omega) only [BitVec.extractLsb'_or, extract_put, extract_put_below, BitVec.or_zero]
  · simp (disch := omega) only [BitVec.extractLsb'_or, extract_put, extract_put_above, extract_put_below,
      BitVec.zero_or]
  · simp (disch := omega) only [BitVec.extractLsb'_or, extract_put_above, BitVec.zero_or]
    rfl

theorem authBind_fields (ordinal : BitVec o) (data : AuthData) (narrow : o ≤ 32) :
    (put 64 0 ordinal ||| put 64 62 (1 : BitVec 1) ||| (put 64 32 data.discriminator |||
      put 64 48 (BitVec.ofBool data.hasAddressDiversity) ||| put 64 49 data.key.code |||
      put 64 63 (1 : BitVec 1))).extractLsb' 62 1 = 1 ∧
    (put 64 0 ordinal ||| put 64 62 (1 : BitVec 1) ||| (put 64 32 data.discriminator |||
      put 64 48 (BitVec.ofBool data.hasAddressDiversity) ||| put 64 49 data.key.code |||
      put 64 63 (1 : BitVec 1))).extractLsb' 0 o = ordinal ∧
    (put 64 0 ordinal ||| put 64 62 (1 : BitVec 1) ||| (put 64 32 data.discriminator |||
      put 64 48 (BitVec.ofBool data.hasAddressDiversity) ||| put 64 49 data.key.code |||
      put 64 63 (1 : BitVec 1))).extractLsb' 63 1 = 1 := by
  refine ⟨?_, ?_, ?_⟩
  · simp (disch := omega) only [BitVec.extractLsb'_or, extract_put, extract_put_above, extract_put_below,
      BitVec.zero_or, BitVec.or_zero]
  · simp (disch := omega) only [BitVec.extractLsb'_or, extract_put, extract_put_below, BitVec.or_zero]
  · simp (disch := omega) only [BitVec.extractLsb'_or, extract_put, extract_put_above, BitVec.zero_or]

end Word

/-! ## Addends in a pointer -/

theorem signExtendedAddend64_byte : ∀ v : BitVec 8, signExtendedAddend64 (v.setWidth 64) = v.setWidth 64 := by
  decide

theorem signExtendedAddend64e_eq (v : BitVec 19) :
    signExtendedAddend64e (v.setWidth 64) = v.signExtend 64 := by
  have bit : (0x40000 : BitVec 64) = put 64 18 (BitVec.allOnes 1) := by decide
  have high : (0xFFFFFFFFFFFC0000 : BitVec 64) = put 64 18 (BitVec.allOnes 46) := by decide
  have sign : (v.setWidth 64 &&& 0x40000 ≠ 0) ↔ v.msb = true := by
    rw [bit, ne_eq, and_mask, put_eq_zero_iff _ (by omega), BitVec.msb_eq_getLsbD_last]
    constructor
    · intro some_
      by_contra clear
      apply some_
      apply BitVec.eq_of_getLsbD_eq
      intro i inside
      obtain rfl : i = 0 := by omega
      simpa using clear
    · intro set_ zero
      have read := congrArg (fun x => x.getLsbD 0) zero
      simp only [BitVec.getLsbD_extractLsb', BitVec.getLsbD_setWidth] at read
      simp_all
  rw [signExtendedAddend64e]
  apply BitVec.eq_of_getLsbD_eq
  intro i inside
  rw [BitVec.getLsbD_signExtend]
  split
  · rename_i negative
    rw [sign] at negative
    rw [high, BitVec.getLsbD_or, getLsbD_put, BitVec.getLsbD_setWidth, BitVec.getLsbD_allOnes]
    by_cases low : i < 18
    · simp [inside, show i < 19 by omega, show ¬ 18 ≤ i by omega]
    · by_cases last : i < 19
      · obtain rfl : i = 18 := by omega
        rw [BitVec.msb_eq_getLsbD_last] at negative
        simp [negative]
      · simp [inside, last, negative, show 18 ≤ i by omega, show i - 18 < 46 by omega]
  · rename_i positive
    rw [sign, Bool.not_eq_true] at positive
    rw [BitVec.getLsbD_setWidth]
    by_cases low : i < 19
    · simp [inside, low]
    · simp [inside, low, positive, v.getLsbD_of_ge i (by omega)]

theorem setWidth_setWidth_of_small {x : BitVec 64} {w : Nat} (small : x.toNat < 2 ^ w) :
    (x.setWidth w).setWidth 64 = x := by
  apply BitVec.eq_of_toNat_eq
  have below := x.isLt
  rw [BitVec.toNat_setWidth, BitVec.toNat_setWidth, Nat.mod_eq_of_lt small, Nat.mod_eq_of_lt below]

theorem signExtend_setWidth_19 {x : BitVec 64}
    (near : x.toNat < 0x40000 ∨ 0xFFFFFFFFFFFC0000 ≤ x.toNat) : (x.setWidth 19).signExtend 64 = x := by
  have range : -2 ^ 18 ≤ x.toInt ∧ x.toInt < 2 ^ 18 := by
    rw [BitVec.toInt_eq_toNat_cond]
    have := x.isLt
    split <;> omega
  apply BitVec.eq_of_toInt_eq
  rw [BitVec.toInt_signExtend_of_le (by omega), toInt_setWidth_of_range x (by omega) range.1 range.2]

/-! ## A bind -/

section Bind

variable {format : PointerFormat} {authData : Option AuthData} {bindOrdinal : Nat}
variable {inlineAddend word : BitVec 64}

theorem PointerFormat.bind_layout (format : PointerFormat) :
    format.ordinalWidth ≤ format.addendField.1 ∧
      format.addendField.1 + format.addendField.2 ≤ format.bindBit ∧ format.bindBit + 1 ≤ 64 := by
  cases format <;> decide

theorem PointerFormat.bindBit_arm64e (signed : format.isArm64e = true) :
    format.bindBit = 62 ∧ format.ordinalWidth ≤ 32 := by
  cases format <;> first | decide | cases signed

theorem setBind_ok_iff :
    (∃ word, setBind format authData bindOrdinal inlineAddend = .ok word) ↔
      bindOrdinal < 2 ^ format.ordinalWidth := by
  unfold setBind
  dsimp only
  rw [BitVec.toNat_ofNat]
  constructor
  · rintro ⟨word, isOk⟩
    split at isOk
    · rename_i same
      rw [← same]
      exact Nat.mod_lt _ (Nat.two_pow_pos _)
    · cases isOk
  · intro fits
    exact ⟨_, if_pos (Nat.mod_eq_of_lt fits)⟩

theorem readBind_plain (binds : format ≠ .ptr32Firmware) (fits : format.addendFitsInline inlineAddend = true)
    (isOk : setBind format none bindOrdinal inlineAddend = .ok word) :
    readBind format word = some (bindOrdinal, inlineAddend) := by
  obtain ⟨after, before, inside⟩ := format.bind_layout
  unfold setBind at isOk
  dsimp only at isOk
  split at isOk
  · rename_i exact_
    have fields := plainBind_fields (BitVec.ofNat format.ordinalWidth bindOrdinal)
      (inlineAddend.setWidth format.addendField.2) after before inside
    rw [Except.ok.inj isOk] at fields
    obtain ⟨isBind, ordinal, addend, plain⟩ := fields
    rw [readBind, isBind, if_neg (by decide), ordinal, addend, exact_]
    cases format with
    | ptr32Firmware => exact absurd rfl binds
    | ptr32 =>
      have small : inlineAddend.toNat ≤ 63 := of_decide_eq_true fits
      simp only [PointerFormat.addendField]
      rw [setWidth_setWidth_of_small (by omega)]
    | ptr64 | ptr64Offset =>
      have small : inlineAddend.toNat ≤ 255 := of_decide_eq_true fits
      simp only [PointerFormat.addendField]
      rw [signExtendedAddend64_byte, setWidth_setWidth_of_small (by omega)]
    | arm64e | arm64eKernel | arm64eUserland | arm64eUserland24 | arm64eFirmware =>
      simp only [PointerFormat.addendFitsInline, Bool.or_eq_true, decide_eq_true_eq] at fits
      have unsigned := plain (by decide)
      simp only [PointerFormat.addendField] at unsigned ⊢
      rw [unsigned, if_pos rfl, signExtendedAddend64e_eq, signExtend_setWidth_19 fits]
  · cases isOk

theorem readBind_auth {data : AuthData} (signed : format.isArm64e = true)
    (isOk : setBind format (some data) bindOrdinal inlineAddend = .ok word) :
    readBind format word = some (bindOrdinal, 0) := by
  obtain ⟨bit, narrow⟩ := PointerFormat.bindBit_arm64e signed
  unfold setBind at isOk
  dsimp only at isOk
  split at isOk
  · rename_i exact_
    have fields := authBind_fields (BitVec.ofNat format.ordinalWidth bindOrdinal) data narrow
    rw [bit] at isOk
    rw [Except.ok.inj isOk] at fields
    obtain ⟨isBind, ordinal, auth⟩ := fields
    rw [readBind, bit, isBind, if_neg (by decide), ordinal, exact_]
    cases format with
    | arm64e | arm64eKernel | arm64eUserland | arm64eUserland24 | arm64eFirmware =>
      simp only
      rw [auth, if_neg (by decide)]
    | _ => cases signed
  · cases isOk

theorem BindRequest.split_cases {α : Type} (request : BindRequest format α) :
    (request.authData = none ∧ format.addendFitsInline request.accumulator = true ∧
        request.inlineAddend = request.accumulator ∧ request.importAddend = 0) ∨
      (request.inlineAddend = 0 ∧ request.importAddend = request.accumulator) := by
  rw [BindRequest.inlineAddend, BindRequest.importAddend, BindRequest.split]
  split
  · rename_i both
    exact .inl ⟨Option.isNone_iff_eq_none.mp both.1, both.2, rfl, rfl⟩
  · exact .inr ⟨rfl, rfl⟩

theorem addendFitsInline_zero (format : PointerFormat) : format.addendFitsInline 0 = true := by
  cases format <;> decide

/-- **A pointer keeps its ordinal and the addend that was left to it.** -/
theorem readBind_request {α : Type} (binds : format ≠ .ptr32Firmware) (request : BindRequest format α)
    (isOk : setBind format request.authData bindOrdinal request.inlineAddend = .ok word) :
    readBind format word = some (bindOrdinal, request.inlineAddend) := by
  cases data : request.authData with
  | none =>
    rw [data] at isOk
    refine readBind_plain binds ?_ isOk
    obtain ⟨-, fits, inline, -⟩ | ⟨inline, -⟩ := request.split_cases
    · rw [inline, fits]
    · rw [inline]
      exact addendFitsInline_zero format
  | some data' =>
    rw [data] at isOk
    have none_ : request.inlineAddend = 0 := by
      obtain ⟨plain, -⟩ | ⟨inline, -⟩ := request.split_cases
      · rw [data] at plain
        cases plain
      · exact inline
    rw [none_]
    exact readBind_auth (request.signed (by rw [data]; rfl)) isOk

end Bind

/-! ## Ordinals -/

theorem libOrdinalFromUInt8_ofInt {ordinal : Int} (least : -3 ≤ ordinal) (most : ordinal ≤ 240) :
    libOrdinalFromUInt8 (BitVec.ofInt 8 ordinal) = ordinal := by
  have value : ((BitVec.ofInt 8 ordinal).toNat : Int) = ordinal % 256 := by
    rw [BitVec.toNat_ofInt]
    omega
  unfold libOrdinalFromUInt8
  simp only [← BitVec.toNat_inj, show (0xFF : BitVec 8).toNat = 255 from rfl,
    show (0xFE : BitVec 8).toNat = 254 from rfl, show (0xFD : BitVec 8).toNat = 253 from rfl]
  split
  · omega
  · split
    · omega
    · split <;> omega

theorem libOrdinalFromUInt16_ofInt {ordinal : Int} (least : -3 ≤ ordinal) :
    libOrdinalFromUInt16 (BitVec.ofInt 16 ordinal) = ordinal ↔ ordinal < 65533 := by
  have value : ((BitVec.ofInt 16 ordinal).toNat : Int) = ordinal % 65536 := by
    rw [BitVec.toNat_ofInt]
    omega
  unfold libOrdinalFromUInt16
  simp only [← BitVec.toNat_inj, show (0xFFFF : BitVec 16).toNat = 65535 from rfl,
    show (0xFFFE : BitVec 16).toNat = 65534 from rfl, show (0xFFFD : BitVec 16).toNat = 65533 from rfl]
  split
  · omega
  · split
    · omega
    · split <;> omega

/-! ## Entries -/

section Entry

variable {atom : ImportAtom} {addend : BitVec 64} {nameOffset : Nat} {entry : ImportEntry}
variable {pool : List UInt8}

theorem weakBit_ne (weak : Bool) : decide (BitVec.ofBool weak ≠ 0) = weak := by
  cases weak <;> rfl

theorem packImport_ok_iff :
    (∃ fields, packImport atom nameOffset = .ok fields) ↔ nameOffset % 2 ^ 32 < 2 ^ 23 := by
  rw [packImport]
  constructor
  · rintro ⟨fields, isOk⟩
    split at isOk
    · rename_i same
      rw [← same]
      exact Nat.mod_lt _ (Nat.two_pow_pos _)
    · cases isOk
  · intro fits
    exact ⟨_, if_pos (Nat.mod_eq_of_lt fits)⟩

theorem packImport_fields {fields : BitVec 32} (isOk : packImport atom nameOffset = .ok fields) :
    fields.extractLsb' 0 8 = BitVec.ofInt 8 atom.libOrdinal ∧
      fields.extractLsb' 8 1 = BitVec.ofBool atom.weakImport ∧
      (fields.extractLsb' 9 23).toNat = nameOffset % 2 ^ 32 := by
  have fits := packImport_ok_iff.mp ⟨fields, isOk⟩
  rw [packImport, if_pos (Nat.mod_eq_of_lt fits)] at isOk
  rw [← Except.ok.inj isOk]
  refine ⟨?_, ?_, ?_⟩
  · simp (disch := omega) only [BitVec.extractLsb'_or, extract_put, extract_put_below, BitVec.or_zero]
  · simp (disch := omega) only [BitVec.extractLsb'_or, extract_put, extract_put_below, extract_put_above,
      BitVec.or_zero, BitVec.zero_or]
  · simp (disch := omega) only [BitVec.extractLsb'_or, extract_put, extract_put_above, BitVec.zero_or]
    rw [BitVec.toNat_ofNat]
    omega

theorem packImport64_fields :
    (packImport64 atom nameOffset).extractLsb' 0 16 = BitVec.ofInt 16 atom.libOrdinal ∧
      (packImport64 atom nameOffset).extractLsb' 16 1 = BitVec.ofBool atom.weakImport ∧
      ((packImport64 atom nameOffset).extractLsb' 32 32).toNat = nameOffset % 2 ^ 32 := by
  unfold packImport64
  refine ⟨?_, ?_, ?_⟩
  · simp (disch := omega) only [BitVec.extractLsb'_or, extract_put, extract_put_below, BitVec.or_zero]
  · simp (disch := omega) only [BitVec.extractLsb'_or, extract_put, extract_put_below, extract_put_above,
      BitVec.or_zero, BitVec.zero_or]
  · simp (disch := omega) only [BitVec.extractLsb'_or, extract_put, extract_put_above, BitVec.zero_or]
    rw [BitVec.toNat_ofNat]

/-- What a format can say of a target; the offset is in a variable of 32 bits. -/
def ImportsFormat.Fits (format : ImportsFormat) (addend : BitVec 64) (nameOffset : Nat) : Prop :=
  match format with
  | .import_ => nameOffset % 2 ^ 32 < 2 ^ 23
  | .addend => (addend.setWidth 32).signExtend 64 = addend ∧ nameOffset % 2 ^ 32 < 2 ^ 23
  | .addend64 => True

theorem encodeImport_ok_iff {format : ImportsFormat} :
    (∃ entry, encodeImport format atom addend nameOffset = .ok entry) ↔ format.Fits addend nameOffset := by
  cases format with
  | import_ =>
    rw [ImportsFormat.Fits, ← @packImport_ok_iff atom nameOffset]
    constructor
    · rintro ⟨entry, isOk⟩
      obtain ⟨fields, packed, -⟩ := ok_of_map isOk
      exact ⟨fields, packed⟩
    · rintro ⟨fields, packed⟩
      exact ⟨.import_ fields, by rw [encodeImport, packed]; rfl⟩
  | addend =>
    rw [ImportsFormat.Fits, ← @packImport_ok_iff atom nameOffset]
    constructor
    · rintro ⟨entry, isOk⟩
      rw [encodeImport] at isOk
      split at isOk
      · rename_i narrow
        obtain ⟨fields, packed, -⟩ := ok_of_map isOk
        exact ⟨narrow, fields, packed⟩
      · cases isOk
    · rintro ⟨narrow, fields, packed⟩
      exact ⟨.addend fields (addend.setWidth 32), by rw [encodeImport, if_pos narrow, packed]; rfl⟩
  | addend64 => exact ⟨fun _ => trivial, fun _ => ⟨_, rfl⟩⟩

/-- The addend and the ordinal that are read from an entry. -/
def ImportsFormat.addendKept (format : ImportsFormat) (addend : BitVec 64) : BitVec 64 :=
  match format with
  | .import_ => 0
  | _ => addend

def ImportsFormat.ordinalKept (format : ImportsFormat) (ordinal : Int) : Int :=
  match format with
  | .addend64 => libOrdinalFromUInt16 (BitVec.ofInt 16 ordinal)
  | _ => libOrdinalFromUInt8 (BitVec.ofInt 8 ordinal)

theorem fixupTarget_encodeImport {format : ImportsFormat}
    (isOk : encodeImport format atom addend nameOffset = .ok entry) :
    fixupTarget pool entry = ⟨symbolAt pool (nameOffset % 2 ^ 32), format.addendKept addend, atom.weakImport,
      format.ordinalKept atom.libOrdinal⟩ := by
  cases format with
  | import_ =>
    obtain ⟨fields, packed, rfl⟩ := ok_of_map isOk
    obtain ⟨ordinal, weak, name⟩ := packImport_fields packed
    simp only [fixupTarget, ordinal, weak, name, weakBit_ne, ImportsFormat.addendKept,
      ImportsFormat.ordinalKept]
  | addend =>
    rw [encodeImport] at isOk
    split at isOk
    · rename_i narrow
      obtain ⟨fields, packed, rfl⟩ := ok_of_map isOk
      obtain ⟨ordinal, weak, name⟩ := packImport_fields packed
      simp only [fixupTarget, ordinal, weak, name, weakBit_ne, ImportsFormat.addendKept,
        ImportsFormat.ordinalKept, narrow]
    · cases isOk
  | addend64 =>
    obtain rfl := Except.ok.inj isOk
    obtain ⟨ordinal, weak, name⟩ := @packImport64_fields atom nameOffset
    simp only [fixupTarget, ordinal, weak, name, weakBit_ne, ImportsFormat.addendKept,
      ImportsFormat.ordinalKept]

theorem addendKept_add_iff (chosen : ImportsFormat) {pointers : PointerFormat} {α : Type}
    (request : BindRequest pointers α) :
    chosen.addendKept request.importAddend + request.inlineAddend = request.accumulator ↔
      (chosen = .import_ → request.importAddend = 0) := by
  obtain ⟨-, -, inline, zero⟩ | ⟨inline, whole⟩ := request.split_cases
  · rw [inline, zero]
    refine ⟨fun _ _ => rfl, fun _ => ?_⟩
    cases chosen <;> simp [ImportsFormat.addendKept]
  · rw [inline, whole]
    cases chosen with
    | import_ =>
      rw [ImportsFormat.addendKept]
      simp only [forall_const]
      exact eq_comm
    | addend | addend64 => simp [ImportsFormat.addendKept]

end Entry

/-! ## The table and its names -/

section Table

variable {α : Type} {atoms : ImportAtoms α} {format : ImportsFormat}

def namesSize (atoms : ImportAtoms α) (targets : List (α × BitVec 64)) : Nat :=
  (targets.map fun entry => (atoms.atom entry.1).name.length + 1).sum

/-- Where the name of a target is in the pool, whose first byte is an empty name. -/
def nameOffset (atoms : ImportAtoms α) (targets : List (α × BitVec 64)) (i : Nat) : Nat :=
  1 + namesSize atoms (targets.take i)

def names (atoms : ImportAtoms α) (targets : List (α × BitVec 64)) : List UInt8 :=
  targets.flatMap fun entry => (atoms.atom entry.1).name ++ [0]

theorem length_names (targets : List (α × BitVec 64)) :
    (names atoms targets).length = namesSize atoms targets := by
  rw [names, List.length_flatMap, namesSize]
  simp

variable {targets : List (α × BitVec 64)}

theorem encodeImports_spec {pool final : List UInt8}
    {entries : List ImportEntry} (isOk : encodeImports atoms format pool targets = .ok (entries, final)) :
    final = pool ++ names atoms targets ∧
      ∀ i entry, targets[i]? = some entry → ∃ written, entries[i]? = some written ∧
        encodeImport format (atoms.atom entry.1) entry.2
          (pool.length + namesSize atoms (targets.take i)) = .ok written := by
  induction targets generalizing pool entries with
  | nil =>
    obtain ⟨rfl, rfl⟩ := Prod.mk.inj (Except.ok.inj isOk)
    exact ⟨(List.append_nil _).symm, by simp⟩
  | cons first rest ih =>
    obtain ⟨a, addend⟩ := first
    obtain ⟨written, encoded, more⟩ := ok_of_bind isOk
    obtain ⟨⟨others, last⟩, encodes, same⟩ := ok_of_map more
    obtain ⟨rfl, rfl⟩ := Prod.mk.inj same
    obtain ⟨pools, all⟩ := ih encodes
    refine ⟨?_, fun i entry found => ?_⟩
    · rw [pools, names, names, List.flatMap_cons, List.append_assoc]
    · cases i with
      | zero =>
        obtain rfl : (a, addend) = entry := by simpa using found
        exact ⟨written, rfl, encoded⟩
      | succ i =>
        obtain ⟨later, at_, entryOk⟩ := all i entry (by simpa using found)
        refine ⟨later, by simpa using at_, ?_⟩
        rw [← entryOk]
        congr 1
        simp only [List.length_append, List.length_singleton, List.take_succ_cons, namesSize,
          List.map_cons, List.sum_cons]
        omega

theorem encodeImports_succeeds {pool : List UInt8} (each : ∀ i entry, targets[i]? = some entry → ∃ written,
      encodeImport format (atoms.atom entry.1) entry.2
        (pool.length + namesSize atoms (targets.take i)) = .ok written) :
    ∃ table, encodeImports atoms format pool targets = .ok table := by
  induction targets generalizing pool with
  | nil => exact ⟨_, rfl⟩
  | cons first rest ih =>
    obtain ⟨written, encoded⟩ := each 0 first rfl
    obtain ⟨table, others⟩ := @ih (pool ++ ((atoms.atom first.1).name ++ [0])) (fun i entry found => by
      obtain ⟨later, entryOk⟩ := each (i + 1) entry (by simpa using found)
      refine ⟨later, ?_⟩
      rw [← entryOk]
      congr 1
      simp only [List.length_append, List.length_singleton, List.take_succ_cons, namesSize,
        List.map_cons, List.sum_cons]
      omega)
    refine ⟨(written :: table.1, table.2), ?_⟩
    have here : encodeImport format (atoms.atom first.1) first.2 pool.length = .ok written := encoded
    rw [encodeImports, here]
    simp only [Except.bind, others, Except.map]

theorem takeWhile_name {name rest : List UInt8} (terminated : (0 : UInt8) ∉ name) :
    (name ++ 0 :: rest).takeWhile (· ≠ 0) = name := by
  rw [List.takeWhile_append_of_pos]
  · simp
  · intro c member
    refine decide_eq_true ?_
    rintro rfl
    exact terminated member

theorem symbolAt_nameOffset {i : Nat} {entry : α × BitVec 64} (found : targets[i]? = some entry) :
    symbolAt ([0] ++ names atoms targets) (nameOffset atoms targets i) = (atoms.atom entry.1).name := by
  obtain ⟨below, at_⟩ := List.getElem?_eq_some_iff.mp found
  have cut : targets = targets.take i ++ entry :: targets.drop (i + 1) := by
    rw [← at_, List.cons_getElem_drop_succ, List.take_append_drop]
  have pool : [0] ++ names atoms targets = ([0] ++ names atoms (targets.take i)) ++
      ((atoms.atom entry.1).name ++ 0 :: names atoms (targets.drop (i + 1))) := by
    conv_lhs => rw [cut]
    simp [names, List.flatMap_append, List.flatMap_cons]
  have offset : nameOffset atoms targets i = ([0] ++ names atoms (targets.take i)).length := by
    rw [List.length_append, length_names]
    rfl
  rw [symbolAt, offset, pool, if_neg, List.drop_left, takeWhile_name (atoms.terminated entry.1)]
  rw [List.length_append]
  omega

end Table

theorem setWidth_signExtend_32_iff {x : BitVec 64} (small : x.toNat ≤ 0xFFFFFFFF) :
    (x.setWidth 32).signExtend 64 = x ↔ x.toNat < 2 ^ 31 := by
  have value : (x.setWidth 32).toNat = x.toNat := by
    rw [BitVec.toNat_setWidth, Nat.mod_eq_of_lt (by omega)]
  rw [← BitVec.toInt_inj, BitVec.toInt_signExtend_of_le (by omega), BitVec.toInt_eq_toNat_cond,
    BitVec.toInt_eq_toNat_cond, value]
  split <;> split <;> omega

theorem importAddend_ptr32 {α : Type} (request : BindRequest .ptr32 α) :
    request.importAddend = if request.accumulator.toNat ≤ 63 then 0 else request.accumulator := by
  have plain : request.authData.isNone = true := by
    cases data : request.authData with
    | none => rfl
    | some _ => exact absurd (request.signed (by rw [data]; rfl)) (by decide)
  rw [BindRequest.importAddend, BindRequest.split, PointerFormat.addendFitsInline]
  simp only [plain, true_and, decide_eq_true_eq]
  split <;> rfl

/-! ## Collecting the targets -/

/-- An addend for the table is zero, or too much for the pointer. -/
theorem importAddend_large {format : PointerFormat} {α : Type} (binds : format ≠ .ptr32Firmware)
    (request : BindRequest format α) (some_ : request.importAddend ≠ 0) :
    isLargeAddend request.authData.isSome request.importAddend = true ↔
      request.importAddend.toNat ≤ 0xFFFFFFFF ∧ (format = .ptr32 → 255 < request.importAddend.toNat) := by
  rw [isLargeAddend, Bool.and_eq_true, decide_eq_true_eq]
  refine and_congr_right fun small => ?_
  cases data : request.authData with
  | some _ =>
    have signed := request.signed (by rw [data]; rfl)
    have other : format ≠ .ptr32 := by
      rintro rfl
      cases signed
    simp only [Option.isSome_some, if_true, decide_eq_true_eq]
    exact ⟨fun _ narrow => absurd narrow other, fun _ => some_⟩
  | none =>
    simp only [Option.isSome_none, Bool.false_eq_true, if_false, decide_eq_true_eq]
    refine ⟨fun above _ => above, fun only32 => ?_⟩
    have outside : format.addendFitsInline request.importAddend = false := by
      rw [BindRequest.importAddend, BindRequest.split] at some_ ⊢
      split at some_
      · exact absurd rfl some_
      · rename_i notBoth
        rw [if_neg notBoth]
        rw [data] at notBoth
        simpa using notBoth
    cases format with
    | ptr32Firmware => exact absurd rfl binds
    | ptr32 => exact only32 rfl
    | ptr64 | ptr64Offset =>
      have := of_decide_eq_false outside
      omega
    | arm64e | arm64eKernel | arm64eUserland | arm64eUserland24 | arm64eFirmware =>
      simp only [PointerFormat.addendFitsInline, Bool.or_eq_false_iff, decide_eq_false_iff_not] at outside
      omega

section Ensure

variable {α : Type} [DecidableEq α] {binds : ChainedFixupBinds α} {atom : α} {addend : BitVec 64}

theorem ordinal_zero : binds.ordinal atom 0 = binds.bindOrdinalsWithNoAddend.lookup atom := if_pos rfl

theorem ordinal_of_ne (some_ : addend ≠ 0) :
    binds.ordinal atom addend
      = binds.bindsTargets.findIdx? fun entry => entry.1 = atom ∧ entry.2 = addend := if_neg some_

theorem ensureTarget_known {authPtr : Bool} (known : binds.ordinal atom addend ≠ none) :
    binds.ensureTarget atom authPtr addend = binds := by
  by_cases zero : addend = 0
  · subst zero
    rw [ordinal_zero] at known
    rw [ChainedFixupBinds.ensureTarget, if_pos rfl, if_pos (Option.isSome_iff_ne_none.mpr known)]
  · rw [ordinal_of_ne zero] at known
    have member : (atom, addend) ∈ binds.bindsTargets := by
      rw [ne_eq, List.findIdx?_eq_none_iff] at known
      push Not at known
      obtain ⟨entry, member, matches_⟩ := known
      have same : entry.1 = atom ∧ entry.2 = addend := by simpa using matches_
      rw [← same.1, ← same.2]
      exact member
    rw [ChainedFixupBinds.ensureTarget, if_neg zero, if_pos member]

theorem not_mem_of_ordinal_none (some_ : addend ≠ 0) (new : binds.ordinal atom addend = none) :
    (atom, addend) ∉ binds.bindsTargets := by
  intro member
  rw [ordinal_of_ne some_, List.findIdx?_eq_none_iff] at new
  simpa using new _ member

theorem ensureTarget_new {authPtr : Bool} (new : binds.ordinal atom addend = none) :
    (binds.ensureTarget atom authPtr addend).bindsTargets = binds.bindsTargets ++ [(atom, addend)] ∧
    (∀ atom' addend', (binds.ensureTarget atom authPtr addend).ordinal atom' addend'
      = if atom' = atom ∧ addend' = addend then some binds.bindsTargets.length
        else binds.ordinal atom' addend') ∧
    ((binds.ensureTarget atom authPtr addend).hasHugeAddends
      = (binds.hasHugeAddends || 0xFFFFFFFF < addend.toNat)) ∧
    ((binds.ensureTarget atom authPtr addend).hasLargeAddends
      = (binds.hasLargeAddends || (addend ≠ 0 && isLargeAddend authPtr addend))) := by
  by_cases zero : addend = 0
  · subst zero
    rw [ordinal_zero] at new
    rw [ChainedFixupBinds.ensureTarget, if_pos rfl, if_neg (by simp [new])]
    refine ⟨rfl, fun atom' addend' => ?_, by simp, by simp⟩
    by_cases none_ : addend' = 0
    · subst none_
      rw [ordinal_zero, ordinal_zero, List.lookup_cons]
      by_cases same : atom' = atom
      · simp [same]
      · rw [if_neg fun both => same both.1, beq_eq_false_iff_ne.mpr same]
    · rw [if_neg fun both => none_ both.2, ordinal_of_ne none_, ordinal_of_ne none_]
      simp only [List.findIdx?_append]
      cases binds.bindsTargets.findIdx? _ with
      | some i => rfl
      | none =>
        have other : ¬ (atom = atom' ∧ 0 = addend') := fun both => none_ both.2.symm
        simpa using other
  · have fresh := not_mem_of_ordinal_none zero new
    rw [ChainedFixupBinds.ensureTarget, if_neg zero, if_neg fresh]
    refine ⟨rfl, fun atom' addend' => ?_, rfl, by rw [decide_eq_true (p := addend ≠ 0) zero, Bool.true_and]⟩
    by_cases none_ : addend' = 0
    · subst none_
      rw [if_neg fun both => zero both.2.symm, ordinal_zero, ordinal_zero]
    · rw [ordinal_of_ne none_, ordinal_of_ne none_]
      simp only [List.findIdx?_append]
      by_cases same : atom' = atom ∧ addend' = addend
      · rw [if_pos same, same.1, same.2, ← ordinal_of_ne zero, new]
        simp
      · rw [if_neg same]
        cases binds.bindsTargets.findIdx? _ with
        | some i => rfl
        | none =>
          have other : ¬ (atom = atom' ∧ addend = addend') := fun both => same ⟨both.1.symm, both.2.symm⟩
          simp [other]

end Ensure

section Collect

variable {format : PointerFormat} {α : Type} [DecidableEq α]

/-- What is known of the targets after these requests. -/
structure Collected (requests : List (BindRequest format α)) (binds : ChainedFixupBinds α) : Prop where
  registered : ∀ request ∈ requests, ∃ i, binds.ordinal request.atom request.importAddend = some i
  numbered : ∀ atom addend i, binds.ordinal atom addend = some i →
    binds.bindsTargets[i]? = some (atom, addend)
  asked : ∀ entry ∈ binds.bindsTargets, ∃ request ∈ requests,
    request.atom = entry.1 ∧ request.importAddend = entry.2
  listed : ∀ atom addend, (atom, addend) ∈ binds.bindsTargets → ∃ i, binds.ordinal atom addend = some i
  distinct : binds.bindsTargets.Nodup
  huge : binds.hasHugeAddends = true ↔ ∃ entry ∈ binds.bindsTargets, 0xFFFFFFFF < entry.2.toNat
  large : binds.hasLargeAddends = true ↔ ∃ entry ∈ binds.bindsTargets, entry.2 ≠ 0 ∧
    entry.2.toNat ≤ 0xFFFFFFFF ∧ (format = .ptr32 → 255 < entry.2.toNat)

theorem Collected.empty : Collected ([] : List (BindRequest format α)) .empty := by
  constructor <;> simp [ChainedFixupBinds.empty, ChainedFixupBinds.ordinal]

variable {requests : List (BindRequest format α)}

theorem Collected.known {binds : ChainedFixupBinds α}
    (collected : Collected requests binds) {request : BindRequest format α} {i : Nat}
    (known : binds.ordinal request.atom request.importAddend = some i) :
    Collected (requests ++ [request]) binds where
  registered other member := by
    rcases List.mem_append.mp member with old | isNew
    · exact collected.registered other old
    · obtain rfl := List.mem_singleton.mp isNew
      exact ⟨i, known⟩
  numbered := collected.numbered
  asked entry member := by
    obtain ⟨other, listed, same⟩ := collected.asked entry member
    exact ⟨other, List.mem_append_left _ listed, same⟩
  listed := collected.listed
  distinct := collected.distinct
  huge := collected.huge
  large := collected.large

theorem Collected.add {binds : ChainedFixupBinds α}
    (collected : Collected requests binds) (canBind : format ≠ .ptr32Firmware)
    {request : BindRequest format α}
    (new : binds.ordinal request.atom request.importAddend = none) :
    Collected (requests ++ [request])
      (binds.ensureTarget request.atom request.authData.isSome request.importAddend) := by
  obtain ⟨targets, ordinals, huge, large⟩ := @ensureTarget_new α _ binds request.atom
    request.importAddend request.authData.isSome new
  constructor
  · intro other member
    rw [ordinals]
    split
    · exact ⟨_, rfl⟩
    · rename_i notNew
      rcases List.mem_append.mp member with old | isNew
      · exact collected.registered other old
      · obtain rfl := List.mem_singleton.mp isNew
        exact absurd ⟨rfl, rfl⟩ notNew
  · intro atom addend i known
    rw [ordinals] at known
    rw [targets]
    split at known
    · rename_i isNew
      obtain rfl := Option.some.inj known
      simp [isNew]
    · have old := collected.numbered atom addend i known
      rw [List.getElem?_append_left (List.getElem?_eq_some_iff.mp old).1, old]
  · intro entry member
    rw [targets] at member
    rcases List.mem_append.mp member with old | isNew
    · obtain ⟨other, listed, same⟩ := collected.asked entry old
      exact ⟨other, List.mem_append_left _ listed, same⟩
    · obtain rfl := List.mem_singleton.mp isNew
      exact ⟨request, List.mem_append_right _ List.mem_cons_self, rfl, rfl⟩
  · intro atom addend member
    rw [targets] at member
    rw [ordinals]
    split
    · exact ⟨_, rfl⟩
    · rename_i notNew
      rcases List.mem_append.mp member with old | isNew
      · exact collected.listed atom addend old
      · obtain ⟨rfl, rfl⟩ := Prod.mk.inj (List.mem_singleton.mp isNew)
        exact absurd ⟨rfl, rfl⟩ notNew
  · rw [targets, List.nodup_append]
    refine ⟨collected.distinct, List.nodup_singleton _, fun entry old other isNew => ?_⟩
    obtain rfl := List.mem_singleton.mp isNew
    rintro rfl
    obtain ⟨i, known⟩ := collected.listed _ _ old
    rw [new] at known
    cases known
  · rw [huge, targets, Bool.or_eq_true, collected.huge, decide_eq_true_eq]
    simp only [List.mem_append, List.mem_singleton, or_and_right, exists_or, exists_eq_left]
  · rw [large, targets, Bool.or_eq_true, collected.large, Bool.and_eq_true, decide_eq_true_eq]
    simp only [List.mem_append, List.mem_singleton, or_and_right, exists_or, exists_eq_left]
    refine or_congr_right (and_congr_right fun some_ => importAddend_large canBind request some_)

/-- **The targets are those of the requests, each once, under its number.** -/
theorem collectBinds_collected (canBind : format ≠ .ptr32Firmware)
    (requests : List (BindRequest format α)) : Collected requests (collectBinds requests) := by
  induction requests using List.reverseRecOn with
  | nil => exact .empty
  | append_singleton requests request ih =>
    rw [collectBinds, List.foldl_append, List.foldl_cons, List.foldl_nil, ← collectBinds]
    cases before : (collectBinds requests).ordinal request.atom request.importAddend with
    | none => exact ih.add canBind before
    | some i =>
      rw [ensureTarget_known (by rw [before]; simp)]
      exact ih.known before

end Collect

/-! ## Lossless tables -/

section Lossless

variable {format : PointerFormat} {α : Type} [DecidableEq α]
variable (atoms : ImportAtoms α) (requests : List (BindRequest format α))

def BindRequest.target (request : BindRequest format α) : FixupTarget :=
  ⟨(atoms.atom request.atom).name, request.accumulator, (atoms.atom request.atom).weakImport,
    (atoms.atom request.atom).libOrdinal⟩

def targets : List (α × BitVec 64) := (collectBinds requests).bindsTargets

/-- The table is written, and every pointer is written and read back as what was asked for. -/
def Lossless : Prop :=
  ∃ table, encodeTable atoms (collectBinds requests) = .ok table ∧
    ∀ request ∈ requests, ∃ word, bindPointer (collectBinds requests) request = .ok word ∧
      readTarget format table word = some (request.target atoms)

/-- Names, libraries or addends that only `DYLD_CHAINED_IMPORT_ADDEND64` is chosen for. -/
def NeedsWide : Prop :=
  hasHugeSymbolStrings atoms (targets requests) = true ∨ 240 < atoms.maxLibOrdinal ∨
    ∃ request ∈ requests, 0xFFFFFFFF < request.importAddend.toNat

/-- The name that is found for a target, at its offset modulo 2^32. -/
def nameFound (i : Nat) : List UInt8 :=
  symbolAt ([0] ++ names atoms (targets requests)) (nameOffset atoms (targets requests) i % 2 ^ 32)

/-- What the targets must be like for the table that is chosen. -/
structure Representable : Prop where
  binds : format = .ptr32Firmware → requests = []
  inline : format = .ptr32 → ¬ NeedsWide atoms requests →
    (∀ request ∈ requests, request.accumulator.toNat ≤ 255) →
      ∀ request ∈ requests, request.accumulator.toNat ≤ 63
  addends : ¬ NeedsWide atoms requests → ∀ request ∈ requests, request.importAddend.toNat < 2 ^ 31
  names : ¬ NeedsWide atoms requests → ∀ i < (targets requests).length,
    nameOffset atoms (targets requests) i % 2 ^ 32 < 2 ^ 23
  pool : ∀ i entry, (targets requests)[i]? = some entry → 2 ^ 32 ≤ nameOffset atoms (targets requests) i →
    nameFound atoms requests i = (atoms.atom entry.1).name
  ordinals : ∀ request ∈ requests, (atoms.atom request.atom).libOrdinal < 65533
  count : (targets requests).length ≤ 2 ^ format.ordinalWidth

variable {atoms requests} {request : BindRequest format α}

theorem mem_targets (canBind : format ≠ .ptr32Firmware) (member : request ∈ requests) :
    ∃ i, (collectBinds requests).ordinal request.atom request.importAddend = some i ∧
      (targets requests)[i]? = some (request.atom, request.importAddend) := by
  have collected := collectBinds_collected canBind requests
  obtain ⟨i, known⟩ := collected.registered request member
  exact ⟨i, known, collected.numbered _ _ i known⟩

theorem exists_target_iff (canBind : format ≠ .ptr32Firmware) {p : BitVec 64 → Prop} :
    (∃ entry ∈ targets requests, p entry.2) ↔ ∃ request ∈ requests, p request.importAddend := by
  have collected := collectBinds_collected canBind requests
  constructor
  · rintro ⟨entry, member, holds⟩
    obtain ⟨request, asked, -, same⟩ := collected.asked entry member
    exact ⟨request, asked, by rwa [same]⟩
  · rintro ⟨request, asked, holds⟩
    obtain ⟨i, -, found⟩ := mem_targets canBind asked
    exact ⟨_, List.mem_of_getElem? found, holds⟩

theorem importsFormat_addend64_iff (canBind : format ≠ .ptr32Firmware) :
    importsFormat atoms (collectBinds requests) = .addend64 ↔ NeedsWide atoms requests := by
  have collected := collectBinds_collected canBind requests
  have huge : (collectBinds requests).hasHugeAddends = true ↔
      ∃ request ∈ requests, 0xFFFFFFFF < request.importAddend.toNat := by
    rw [collected.huge]
    exact exists_target_iff (p := fun addend => 0xFFFFFFFF < addend.toNat) canBind
  rw [NeedsWide, ← huge, importsFormat, targets]
  cases hasHugeSymbolStrings atoms (collectBinds requests).bindsTargets <;>
    cases (collectBinds requests).hasHugeAddends <;>
    cases (collectBinds requests).hasLargeAddends <;>
    by_cases many : 240 < atoms.maxLibOrdinal <;> simp [many]

theorem importsFormat_import_iff (canBind : format ≠ .ptr32Firmware) (narrow : ¬ NeedsWide atoms requests) :
    importsFormat atoms (collectBinds requests) = .import_ ↔ ∀ request ∈ requests,
      request.importAddend ≠ 0 → format = .ptr32 ∧ request.importAddend.toNat ≤ 255 := by
  have collected := collectBinds_collected canBind requests
  have large : (collectBinds requests).hasLargeAddends = true ↔
      ∃ request ∈ requests, request.importAddend ≠ 0 ∧ request.importAddend.toNat ≤ 0xFFFFFFFF ∧
        (format = .ptr32 → 255 < request.importAddend.toNat) := by
    rw [collected.large]
    exact exists_target_iff (p := fun addend => addend ≠ 0 ∧ addend.toNat ≤ 0xFFFFFFFF ∧
      (format = .ptr32 → 255 < addend.toNat)) canBind
  have plain : importsFormat atoms (collectBinds requests) = .import_ ↔
      ¬ (collectBinds requests).hasLargeAddends = true := by
    rw [← importsFormat_addend64_iff canBind] at narrow
    rw [importsFormat] at narrow ⊢
    split at narrow
    · exact absurd rfl narrow
    · rename_i few
      rw [if_neg few]
      split at narrow
      · exact absurd rfl narrow
      · rename_i notHuge
        rw [if_neg notHuge]
        cases (collectBinds requests).hasLargeAddends <;> simp
  rw [plain, large]
  constructor
  · intro noLarge request member some_
    have small : request.importAddend.toNat ≤ 0xFFFFFFFF := by
      by_contra above
      exact narrow (.inr (.inr ⟨request, member, by omega⟩))
    by_contra other
    refine noLarge ⟨request, member, some_, small, fun is32 => ?_⟩
    by_contra above
    exact other ⟨is32, by omega⟩
  · rintro all ⟨request, member, some_, -, above⟩
    obtain ⟨is32, below⟩ := all request member some_
    have := above is32
    omega

theorem ordinalKept_iff (canBind : format ≠ .ptr32Firmware) (a : α) :
    (importsFormat atoms (collectBinds requests)).ordinalKept (atoms.atom a).libOrdinal
      = (atoms.atom a).libOrdinal ↔ (atoms.atom a).libOrdinal < 65533 := by
  obtain ⟨least, most⟩ := atoms.ordinals a
  by_cases wide : NeedsWide atoms requests
  · rw [(importsFormat_addend64_iff canBind).mpr wide]
    exact libOrdinalFromUInt16_ofInt least
  · have few : atoms.maxLibOrdinal ≤ 240 := by
      by_contra many
      exact wide (.inr (.inl (by omega)))
    have kept := libOrdinalFromUInt8_ofInt least (by omega : (atoms.atom a).libOrdinal ≤ 240)
    rw [← importsFormat_addend64_iff canBind] at wide
    refine ⟨fun _ => by omega, fun _ => ?_⟩
    cases chosen : importsFormat atoms (collectBinds requests) with
    | addend64 => exact absurd chosen wide
    | import_ | addend => exact kept

/-! ### The whole table -/

theorem encodeTable_ok_iff :
    (∃ table, encodeTable atoms (collectBinds requests) = .ok table) ↔
      ∀ i entry, (targets requests)[i]? = some entry →
        (importsFormat atoms (collectBinds requests)).Fits entry.2
          (nameOffset atoms (targets requests) i) := by
  constructor
  · rintro ⟨⟨entries, final⟩, isOk⟩ i entry found
    obtain ⟨-, each⟩ := encodeImports_spec isOk
    obtain ⟨written, -, encoded⟩ := each i entry found
    exact encodeImport_ok_iff.mp ⟨written, encoded⟩
  · intro each
    refine encodeImports_succeeds fun i entry found => ?_
    exact encodeImport_ok_iff.mpr (each i entry found)

theorem nameFound_eq {i : Nat} {entry : α × BitVec 64} (found : (targets requests)[i]? = some entry)
    (small : nameOffset atoms (targets requests) i < 2 ^ 32) :
    nameFound atoms requests i = (atoms.atom entry.1).name := by
  rw [nameFound, Nat.mod_eq_of_lt small, symbolAt_nameOffset found]

theorem readTarget_request (canBind : format ≠ .ptr32Firmware)
    {table : List ImportEntry × List UInt8} (isOk : encodeTable atoms (collectBinds requests) = .ok table)
    {i : Nat} {word : BitVec 64}
    (known : (collectBinds requests).ordinal request.atom request.importAddend = some i)
    (set_ : setBind format request.authData i request.inlineAddend = .ok word) :
    readTarget format table word = some ⟨nameFound atoms requests i,
      (importsFormat atoms (collectBinds requests)).addendKept request.importAddend + request.inlineAddend,
      (atoms.atom request.atom).weakImport,
      (importsFormat atoms (collectBinds requests)).ordinalKept (atoms.atom request.atom).libOrdinal⟩ := by
  obtain ⟨entries, final⟩ := table
  have found := (collectBinds_collected canBind requests).numbered _ _ i known
  obtain ⟨finals, each⟩ := encodeImports_spec isOk
  obtain ⟨written, at_, encoded⟩ := each i _ found
  have read : fixupTarget final written = _ := fixupTarget_encodeImport encoded
  rw [finals] at read ⊢
  rw [readTarget, readBind_request canBind request set_]
  simp only [Option.bind_eq_bind, Option.bind_some, at_]
  rw [read]
  rfl

theorem bindPointer_ok_iff (canBind : format ≠ .ptr32Firmware)
    (member : request ∈ requests) {word : BitVec 64} :
    bindPointer (collectBinds requests) request = .ok word ↔
      ∃ i, (collectBinds requests).ordinal request.atom request.importAddend = some i ∧
        setBind format request.authData i request.inlineAddend = .ok word := by
  obtain ⟨i, known, -⟩ := mem_targets canBind member
  rw [bindPointer, known]
  simp [canBind]

/-- The numbers that are asked for are those of the targets. -/
theorem forall_ordinal_iff (canBind : format ≠ .ptr32Firmware) {p : Nat → α × BitVec 64 → Prop} :
    (∀ request ∈ requests, ∀ i,
      (collectBinds requests).ordinal request.atom request.importAddend = some i →
        p i (request.atom, request.importAddend)) ↔
      ∀ i entry, (targets requests)[i]? = some entry → p i entry := by
  have collected := collectBinds_collected canBind requests
  constructor
  · intro all i entry found
    obtain ⟨request, member, sameAtom, sameAddend⟩ := collected.asked _ (List.mem_of_getElem? found)
    obtain ⟨j, known, foundToo⟩ := mem_targets canBind member
    have here := all request member j known
    rw [sameAtom, sameAddend] at here foundToo
    obtain ⟨inside, at_⟩ := List.getElem?_eq_some_iff.mp found
    obtain ⟨insideToo, atToo⟩ := List.getElem?_eq_some_iff.mp foundToo
    obtain rfl := (List.Nodup.getElem_inj_iff collected.distinct).mp (at_.trans atToo.symm)
    exact here
  · intro all request member i known
    exact all i _ (collected.numbered _ _ i known)

theorem lossless_iff_parts (canBind : format ≠ .ptr32Firmware) :
    Lossless atoms requests ↔
      (∀ i entry, (targets requests)[i]? = some entry →
        (importsFormat atoms (collectBinds requests)).Fits entry.2
          (nameOffset atoms (targets requests) i)) ∧
      (∀ i entry, (targets requests)[i]? = some entry → i < 2 ^ format.ordinalWidth ∧
        nameFound atoms requests i = (atoms.atom entry.1).name) ∧
      ∀ request ∈ requests,
        (importsFormat atoms (collectBinds requests) = .import_ → request.importAddend = 0) ∧
          (atoms.atom request.atom).libOrdinal < 65533 := by
  rw [← encodeTable_ok_iff, ← @forall_ordinal_iff format α _ requests canBind
    (fun i entry => i < 2 ^ format.ordinalWidth ∧ nameFound atoms requests i = (atoms.atom entry.1).name)]
  constructor
  · rintro ⟨table, isOk, all⟩
    refine ⟨⟨table, isOk⟩, fun request member i known => ?_, fun request member => ?_⟩
    · obtain ⟨word, bound, read⟩ := all request member
      obtain ⟨j, sameKnown, set_⟩ := (bindPointer_ok_iff canBind member).mp bound
      obtain rfl := Option.some.inj (known.symm.trans sameKnown)
      rw [readTarget_request canBind isOk known set_] at read
      exact ⟨setBind_ok_iff.mp ⟨word, set_⟩, (FixupTarget.mk.inj (Option.some.inj read)).1⟩
    · obtain ⟨word, bound, read⟩ := all request member
      obtain ⟨i, known, set_⟩ := (bindPointer_ok_iff canBind member).mp bound
      rw [readTarget_request canBind isOk known set_] at read
      obtain ⟨-, addend, -, ordinal⟩ := FixupTarget.mk.inj (Option.some.inj read)
      exact ⟨(addendKept_add_iff _ request).mp addend, (ordinalKept_iff canBind _).mp ordinal⟩
  · rintro ⟨⟨table, isOk⟩, numbers, kept⟩
    refine ⟨table, isOk, fun request member => ?_⟩
    obtain ⟨i, known, -⟩ := mem_targets canBind member
    obtain ⟨below, name⟩ := numbers request member i known
    have settable : ∃ word, setBind format request.authData i request.inlineAddend = .ok word :=
      setBind_ok_iff.mpr below
    obtain ⟨word, set_⟩ := settable
    refine ⟨word, (bindPointer_ok_iff canBind member).mpr ⟨i, known, set_⟩, ?_⟩
    obtain ⟨addend, ordinal⟩ := kept request member
    rw [readTarget_request canBind isOk known set_, (addendKept_add_iff _ request).mpr addend,
      (ordinalKept_iff canBind _).mpr ordinal, name]
    rfl

theorem fits_iff (canBind : format ≠ .ptr32Firmware) (narrow : ¬ NeedsWide atoms requests) :
    (∀ i entry, (targets requests)[i]? = some entry →
      (importsFormat atoms (collectBinds requests)).Fits entry.2 (nameOffset atoms (targets requests) i)) ↔
      (∀ request ∈ requests, request.importAddend.toNat < 2 ^ 31) ∧
        ∀ i < (targets requests).length, nameOffset atoms (targets requests) i % 2 ^ 32 < 2 ^ 23 := by
  have small : ∀ request ∈ requests, request.importAddend.toNat ≤ 0xFFFFFFFF := by
    intro request member
    by_contra above
    exact narrow (.inr (.inr ⟨request, member, by omega⟩))
  cases chosen : importsFormat atoms (collectBinds requests) with
  | addend64 => exact absurd ((importsFormat_addend64_iff canBind).mp chosen) narrow
  | import_ =>
    rw [importsFormat_import_iff canBind narrow] at chosen
    constructor
    · intro all
      refine ⟨fun request member => ?_, fun i inside => all i _ (List.getElem?_eq_getElem inside)⟩
      by_cases zero : request.importAddend = 0
      · rw [zero]
        decide
      · have := (chosen request member zero).2
        omega
    · rintro ⟨-, names⟩ i entry found
      exact names i (List.getElem?_eq_some_iff.mp found).1
  | addend =>
    constructor
    · intro all
      refine ⟨fun request member => ?_, fun i inside => (all i _ (List.getElem?_eq_getElem inside)).2⟩
      obtain ⟨i, -, found⟩ := mem_targets canBind member
      exact (setWidth_signExtend_32_iff (small request member)).mp (all i _ found).1
    · rintro ⟨addends, names⟩ i entry found
      obtain ⟨request, member, -, same⟩ :=
        (collectBinds_collected canBind requests).asked entry (List.mem_of_getElem? found)
      refine ⟨?_, names i (List.getElem?_eq_some_iff.mp found).1⟩
      rw [← same]
      exact (setWidth_signExtend_32_iff (small request member)).mpr (addends request member)

/-- A table without addends is only wrong for 32-bit pointers. -/
theorem import_loses_iff (canBind : format ≠ .ptr32Firmware) (narrow : ¬ NeedsWide atoms requests) :
    (importsFormat atoms (collectBinds requests) = .import_ →
      ∀ request ∈ requests, request.importAddend = 0) ↔
    (format = .ptr32 → (∀ request ∈ requests, request.accumulator.toNat ≤ 255) →
      ∀ request ∈ requests, request.accumulator.toNat ≤ 63) := by
  rw [importsFormat_import_iff canBind narrow]
  constructor
  · intro zero is32 below request member
    subst is32
    have none_ := zero (fun other listed some_ => ⟨rfl, by
      rw [importAddend_ptr32]
      have := below other listed
      split <;> simp_all⟩) request member
    rw [importAddend_ptr32] at none_
    by_contra above
    rw [if_neg above] at none_
    rw [none_] at above
    exact above (Nat.zero_le _)
  · intro all chosen request member
    by_contra some_
    obtain ⟨rfl, -⟩ := chosen request member some_
    have below : ∀ other ∈ requests, other.accumulator.toNat ≤ 255 := by
      intro other listed
      by_contra above
      have whole : other.importAddend = other.accumulator := by
        rw [importAddend_ptr32, if_neg (by omega)]
      rw [← whole] at above
      refine above (chosen other listed fun zero => ?_).2
      rw [zero] at above
      exact above (Nat.zero_le _)
    rw [importAddend_ptr32, if_pos (all rfl below request member)] at some_
    exact some_ rfl

theorem lossless_iff_of_binds (canBind : format ≠ .ptr32Firmware) :
    Lossless atoms requests ↔ Representable atoms requests := by
  rw [lossless_iff_parts canBind]
  constructor
  · rintro ⟨fits, numbers, each⟩
    refine ⟨fun firmware => absurd firmware canBind, fun is32 narrow => ?_,
      fun narrow => ((fits_iff canBind narrow).mp fits).1,
      fun narrow => ((fits_iff canBind narrow).mp fits).2, fun i entry found _ => (numbers i entry found).2,
      fun request member => (each request member).2, ?_⟩
    · exact (import_loses_iff canBind narrow).mp (fun chosen request member => (each request member).1 chosen)
        is32
    · by_contra above
      have inside : 2 ^ format.ordinalWidth < (targets requests).length := by omega
      exact absurd (numbers _ _ (List.getElem?_eq_getElem inside)).1 (lt_irrefl _)
  · rintro ⟨-, inline, addends, names, pool, ordinals, count⟩
    have numbers : ∀ i entry, (targets requests)[i]? = some entry →
        i < 2 ^ format.ordinalWidth ∧ nameFound atoms requests i = (atoms.atom entry.1).name := by
      intro i entry found
      refine ⟨lt_of_lt_of_le (List.getElem?_eq_some_iff.mp found).1 count, ?_⟩
      by_cases small : nameOffset atoms (targets requests) i < 2 ^ 32
      · exact nameFound_eq found small
      · exact pool i entry found (by omega)
    by_cases wide : NeedsWide atoms requests
    · have chosen := (importsFormat_addend64_iff canBind).mpr wide
      rw [chosen]
      exact ⟨fun _ _ _ => trivial, numbers, fun request member => ⟨nofun, ordinals request member⟩⟩
    · refine ⟨(fits_iff canBind wide).mpr ⟨addends wide, names wide⟩, numbers, fun request member => ⟨?_,
        ordinals request member⟩⟩
      intro chosen
      exact (import_loses_iff canBind wide).mpr (fun is32 => inline is32 wide) chosen request member

theorem lossless_nil : Lossless atoms ([] : List (BindRequest format α)) :=
  ⟨([], [0]), rfl, nofun⟩

theorem representable_nil : Representable atoms ([] : List (BindRequest format α)) where
  binds _ := rfl
  inline := nofun
  addends := nofun
  names _ _ inside := absurd inside (Nat.not_lt_zero _)
  pool _ _ found := nomatch found
  ordinals := nofun
  count := Nat.zero_le _

/-- **Every pointer of an image is read back as what was asked for exactly when the addends, the
names, the libraries and the number of the targets fit the format chosen for them.** -/
theorem imports_lossless_iff (atoms : ImportAtoms α) (requests : List (BindRequest format α)) :
    Lossless atoms requests ↔ Representable atoms requests := by
  by_cases canBind : format = .ptr32Firmware
  · subst canBind
    cases requests with
    | nil => exact ⟨fun _ => representable_nil, fun _ => lossless_nil⟩
    | cons request rest =>
      constructor
      · rintro ⟨table, -, all⟩
        obtain ⟨word, -, read⟩ := all request List.mem_cons_self
        rw [readTarget, readBind] at read
        split at read <;> cases read
      · intro representable
        cases representable.binds rfl
  · exact lossless_iff_of_binds canBind

end Lossless

/-- One symbol of the first library. -/
def oneImport : ImportAtoms Unit where
  atom _ := ⟨[0x5F, 0x61], 1, false⟩
  maxLibOrdinal := 1
  terminated _ := by decide
  ordinals _ := by decide

/-- A pointer of 32 bits to that symbol, plus 100: too much for the pointer, and the table has no
addends. -/
theorem imports_lose_addend :
    ¬ Lossless oneImport [(⟨(), none, 100, nofun⟩ : BindRequest .ptr32 Unit)] := by
  rw [lossless_iff_of_binds (by decide)]
  intro representable
  have narrow : ¬ NeedsWide oneImport [(⟨(), none, 100, nofun⟩ : BindRequest .ptr32 Unit)] := by
    rw [NeedsWide]
    decide
  exact absurd (representable.inline rfl narrow (by decide) _ List.mem_cons_self) (by decide)

end Cctools.OutputFile
