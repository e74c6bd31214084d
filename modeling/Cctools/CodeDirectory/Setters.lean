/-
# Cctools.CodeDirectory.Setters -- which calls keep the object consistent

`libcd_superblob_size` and `_libcd_serialize_cd` trust the object: as many types and hashes
as are counted, a digest for each type, special slots from 1 up (`Consistent`).

`libcd_set_hash_types` frees the types before it refuses the new ones, and takes the type 0,
which has no digest, and types below 0, which are looked up before the table.
`libcd_add_sslot_data_no_copy` takes the slot 0.  No other call does harm:
`run_keeps_iff`.
-/
import Cctools.CodeDirectory.Object
import Mathlib.Data.List.Induction
import Mathlib.Tactic.Common

namespace Cctools.CodeDirectory

set_option autoImplicit false

open Cctools.Theory

/-! ## Results without a fault -/

/-- No read or write outside an array; a result is as `post` says. -/
def Inside {α : Type} (post : α → Prop) : Except Fault α → Prop
  | .ok value => post value
  | .error fault => fault ≠ .outside

theorem Inside.bind {α β : Type} {post : α → Prop} {post' : β → Prop} {first : Except Fault α}
    {next : α → Except Fault β} (inside : Inside post first) (rest : ∀ value, post value → Inside post' (next value)) :
    Inside post' (first >>= next) := by
  cases first with
  | error fault => exact inside
  | ok value => exact rest value inside

theorem Inside.ne_outside {α : Type} {post : α → Prop} {result : Except Fault α} (inside : Inside post result) :
    result ≠ .error .outside := by
  rintro rfl
  exact inside rfl

/-! ## Consistent objects -/

section Consistent

variable (digests : Digests)

/-- The type is in the table, with a digest and a length that is not 0. -/
def HasDigest (hashType : Int) : Prop :=
  0 ≤ hashType ∧ ∃ info, (knownHashTypes digests)[hashType.toNat]? = some info ∧ 0 < info.hashLen ∧ info.di.isSome

/-- The types, the hashes and the special slots are as they are counted. -/
structure Consistent (s : Libcd) : Prop where
  types : s.hashTypes.map List.length = some s.hashTypesCount
  cdhashes : s.cdhashes.length = s.hashTypesCount
  digest : ∀ types ∈ s.hashTypes, ∀ hashType ∈ types, HasDigest digests hashType
  slots : ∀ sslot ∈ s.sslotData, 1 ≤ sslot.slot.toNat ∧ sslot.slot.toNat ≤ s.specialSlotCount.toNat

/-- The size and the code directories are made without a fault. -/
def Safe (s : Libcd) : Prop :=
  superblobSize digests s ≠ .error .outside ∧
    ∀ callbacks, serializeCds digests callbacks s.hashTypesCount 0 s ≠ .error .outside

end Consistent

/-- SHA-1 or SHA-256. -/
def Known (hashType : Int) : Prop := hashType = 1 ∨ hashType = 2

instance (hashType : Int) : Decidable (Known hashType) := inferInstanceAs (Decidable (_ ∨ _))

variable {digests : Digests} {hashType : Int}

theorem hasDigest_iff : HasDigest digests hashType ↔ Known hashType := by
  constructor
  · rintro ⟨nonneg, info, entry, longer, -⟩
    obtain ⟨index, rfl⟩ := Int.eq_ofNat_of_zero_le nonneg
    match index with
    | 0 =>
      obtain rfl := Option.some.inj entry
      exact absurd longer (by decide)
    | 1 => exact Or.inl rfl
    | 2 => exact Or.inr rfl
    | _ + 3 => cases entry
  · rintro (rfl | rfl)
    · exact ⟨by decide, _, rfl, Nat.succ_pos 19, rfl⟩
    · exact ⟨by decide, _, rfl, Nat.succ_pos 31, rfl⟩

/-- What is used of a known type: a digest that makes `hash_len` bytes, and no less than
are kept of it. -/
structure Usable (info : HashInfo) : Prop where
  digest : ∃ digest, info.di = some digest ∧ ∀ bytes, (digest bytes).length = info.hashLen
  enough : cdhashLen ≤ info.hashLen

variable (digests) in
theorem useHashInfo_usable (known : Known hashType) :
    ∃ info, useHashInfo digests hashType = .ok info ∧ Usable info := by
  rcases known with rfl | rfl
  · exact ⟨_, rfl, ⟨_, rfl, digests.sha1_length⟩, Nat.le_refl 20⟩
  · exact ⟨_, rfl, ⟨_, rfl, digests.sha256_length⟩, Nat.le_add_right 20 12⟩

theorem getHashInfo_known (known : Known hashType) : (getHashInfo digests hashType).isNone = false := by
  rcases known with rfl | rfl <;> rfl

theorem create_consistent (imageSize : Nat) : Consistent digests (create imageSize) where
  types := rfl
  cdhashes := rfl
  digest := by
    rintro types ⟨⟩ hashType there
    obtain rfl := List.mem_singleton.1 there
    exact hasDigest_iff.2 (Or.inr rfl)
  slots := nofun

/-! ## A consistent object is safe -/

theorem hashTypeAt_inside {s : Libcd} (consistent : Consistent digests s) {i : Nat} (counted : i < s.hashTypesCount) :
    ∃ hashType, s.hashTypeAt i = .ok hashType ∧ Known hashType := by
  cases recorded : s.hashTypes with
  | none =>
    have := consistent.types
    rw [recorded] at this
    cases this
  | some types =>
    have long : types.length = s.hashTypesCount := by
      have := consistent.types
      rw [recorded] at this
      exact Option.some.inj this
    have there : i < types.length := long ▸ counted
    refine ⟨types[i], ?_, hasDigest_iff.1 (consistent.digest types recorded _ (List.getElem_mem there))⟩
    rw [Libcd.hashTypeAt, recorded, Option.bind_some, List.getElem?_eq_getElem there]

variable {info : HashInfo}

theorem cdSize_ok {s : Libcd} (use : useHashInfo digests hashType = .ok info) :
    cdSize digests s hashType = .ok (s.fixedSize + (stringBytes s.signingId).length + (stringBytes s.teamId).length +
      s.linkageBytes.length + s.specialSlotCount.toNat * info.hashLen + s.pageCount * info.hashLen) := by
  rw [cdSize, use]
  rfl

theorem mapM_ok {α β : Type} {f : α → Except Fault β} (items : List α) (each : ∀ item ∈ items, ∃ value, f item = .ok value) :
    ∃ values, items.mapM f = .ok values := by
  induction items with
  | nil => exact ⟨[], rfl⟩
  | cons item items ih =>
    obtain ⟨value, first⟩ := each item List.mem_cons_self
    obtain ⟨values, rest⟩ := ih fun other there => each other (List.mem_cons_of_mem _ there)
    refine ⟨value :: values, ?_⟩
    rw [List.mapM_cons, first, rest]
    rfl

theorem superblobSize_ok {s : Libcd} (consistent : Consistent digests s) : ∃ size, superblobSize digests s = .ok size := by
  obtain ⟨sizes, all⟩ : ∃ sizes, cdSizes digests s = .ok sizes := by
    refine mapM_ok _ fun i counted => ?_
    obtain ⟨hashType, recorded, known⟩ := hashTypeAt_inside consistent (List.mem_range.1 counted)
    obtain ⟨info, use, -⟩ := useHashInfo_usable digests known
    have size := cdSize_ok (s := s) use
    exact ⟨_, by rw [recorded]; exact size⟩
  exact ⟨_, by rw [superblobSize, all]; rfl⟩

theorem writeAt_inside {buffer bytes : List UInt8} {start : Nat} (fits : start + bytes.length ≤ buffer.length) :
    Inside (fun written => written.length = buffer.length) (writeAt buffer start bytes) := by
  rw [writeAt, if_neg (Nat.not_lt_of_le fits)]
  simp only [Inside, List.length_append, List.length_take, List.length_drop]
  omega

theorem specialSlotBuf_inside {count : BitVec 32} {hashLen : Nat} {digest : List UInt8 → List UInt8}
    (length : ∀ bytes, (digest bytes).length = hashLen) (slots : List SlotData)
    (counted : ∀ sslot ∈ slots, 1 ≤ sslot.slot.toNat ∧ sslot.slot.toNat ≤ count.toNat) :
    ∀ buffer : List UInt8, buffer.length = count.toNat * hashLen →
      Inside (fun written => written.length = count.toNat * hashLen) (specialSlotBuf count hashLen digest slots buffer) := by
  induction slots with
  | nil => exact fun buffer whole => whole
  | cons sslot rest ih =>
    intro buffer whole
    obtain ⟨positive, least⟩ := counted sslot List.mem_cons_self
    have place : (count - sslot.slot).toNat * hashLen + hashLen ≤ count.toNat * hashLen := by
      rw [BitVec.toNat_sub_of_le (BitVec.le_def.2 least), ← Nat.succ_mul]
      exact Nat.mul_le_mul_right _ (by omega)
    refine (writeAt_inside (by rw [length, whole]; exact place)).bind fun written same => ?_
    exact ih (fun other there => counted other (List.mem_cons_of_mem _ there)) written (same.trans whole)

theorem specialSlots_inside {s : Libcd} (consistent : Consistent digests s) (usable : Usable info) :
    Inside (fun written => written.length = s.specialSlotCount.toNat * info.hashLen) (s.specialSlots info) := by
  obtain ⟨digest, there, length⟩ := usable.digest
  unfold Libcd.specialSlots
  split
  · rw [useDigest, there]
    exact specialSlotBuf_inside length s.sslotData consistent.slots _ List.length_replicate
  · rename_i empty
    rw [Nat.eq_zero_of_not_pos empty, Nat.zero_mul]
    rfl

theorem hashPages_inside (callbacks : Callbacks) (usable : Usable info) (count : Nat) :
    ∀ page, Inside (fun written => written.length = count * info.hashLen) (hashPages callbacks info count page) := by
  obtain ⟨digest, there, length⟩ := usable.digest
  induction count with
  | zero =>
    intro page
    simp [hashPages, Inside]
  | succ count ih =>
    intro page
    have first : Inside (fun written => written.length = info.hashLen) (hashPage callbacks info page) := by
      rw [hashPage, useDigest, there]
      show Inside _ (if _ then _ else _)
      split
      · exact fun same => nomatch same
      · exact length _
    refine first.bind fun one oneLength => (ih (page + 1)).bind fun others othersLength => ?_
    show (one ++ others).length = _
    rw [List.length_append, oneLength, othersLength, Nat.succ_mul, Nat.add_comm]

theorem cdFields_length (s : Libcd) (hashType : Int) (hashLen size : Nat) :
    ((s.cdFields hashType hashLen size).flatMap fun field => beBytes field.1 field.2).length = s.fixedSize := by
  rw [List.length_flatMap, Libcd.fixedSize, Libcd.cdFields]
  simp only [length_beBytes]
  cases s.linkage with
  | none => simp
  | some linkage => simp

theorem cdHeader_length (s : Libcd) (hashType : Int) (hashLen size : Nat) :
    (s.cdHeader hashType hashLen size).length =
      s.fixedSize + (stringBytes s.signingId).length + (stringBytes s.teamId).length + s.linkageBytes.length := by
  rw [Libcd.cdHeader, List.length_append, List.length_append, List.length_append, cdFields_length]

theorem recordCdhash_inside (hashType : Int) (cdhash : Cdhash) (count : Nat) :
    ∀ entries : List CdhashForHashType, count ≤ entries.length →
      Inside (fun recorded => recorded.length = entries.length) (recordCdhash hashType cdhash count entries) := by
  induction count with
  | zero => exact fun entries _ => rfl
  | succ count ih =>
    intro entries counted
    cases entries with
    | nil => exact absurd counted (Nat.not_succ_le_zero _)
    | cons entry rest =>
      have behind := ih rest (Nat.le_of_succ_le_succ counted)
      unfold recordCdhash
      split
      · split
        · rfl
        · cases recorded : recordCdhash hashType cdhash count rest with
          | error fault =>
            rw [recorded] at behind
            exact behind
          | ok longer =>
            rw [recorded] at behind
            show (entry :: longer).length = _
            rw [List.length_cons, List.length_cons, behind]
      · rfl

/-- `_libcd_serialize_cd` of a known type: no fault, and what is left is the same but for
the hashes. -/
theorem serializeCd_inside (callbacks : Callbacks) {s : Libcd} (consistent : Consistent digests s)
    (known : Known hashType) :
    Inside (fun result => Consistent digests result.1 ∧ result.1.hashTypesCount = s.hashTypesCount)
      (serializeCd digests callbacks s hashType) := by
  obtain ⟨info, use, usable⟩ := useHashInfo_usable digests known
  obtain ⟨digest, there, length⟩ := usable.digest
  rw [serializeCd, use, cdSize_ok use]
  refine (specialSlots_inside consistent usable).bind fun special specialLength => ?_
  refine (hashPages_inside callbacks usable s.pageCount 0).bind fun pages pagesLength => ?_
  refine (writeAt_inside ?_).bind fun cd cdLength => ?_
  · rw [List.length_replicate, List.length_append, List.length_append, cdHeader_length, specialLength, pagesLength]
    omega
  refine Inside.bind (show Inside (fun _ => True) (writeOut callbacks cd) from ?_) fun _ _ => ?_
  · unfold writeOut
    split
    · trivial
    · exact fun same => nomatch same
  have use : useDigest info = .ok digest := by rw [useDigest, there]
  have enough : cdhashLen ≤ (digest cd).length := by
    rw [length]
    exact usable.enough
  have taken : Inside (fun _ => True) (takeCdhash (digest cd)) := by
    rw [takeCdhash, dif_pos enough]
    trivial
  rw [use]
  refine taken.bind fun cdhash _ => ?_
  refine (recordCdhash_inside hashType cdhash s.hashTypesCount s.cdhashes (Nat.le_of_eq consistent.cdhashes.symm)).bind
    fun recorded recordedLength => ?_
  exact ⟨⟨consistent.types, recordedLength.trans consistent.cdhashes, consistent.digest, consistent.slots⟩, rfl⟩

theorem serializeCds_inside (callbacks : Callbacks) (count : Nat) : ∀ {i : Nat} {s : Libcd},
    Consistent digests s → i + count ≤ s.hashTypesCount →
      Inside (fun _ => True) (serializeCds digests callbacks count i s) := by
  induction count with
  | zero => exact fun _ _ => trivial
  | succ count ih =>
    intro i s consistent counted
    obtain ⟨hashType, recorded, known⟩ := hashTypeAt_inside consistent (i := i) (by omega)
    rw [serializeCds, recorded]
    refine (serializeCd_inside callbacks consistent known).bind fun result after => ?_
    refine (ih (i := i + 1) after.1 (by rw [after.2]; omega)).bind fun _ _ => trivial

/-- **A consistent object is never read or written outside an array.** -/
theorem Consistent.safe {s : Libcd} (consistent : Consistent digests s) : Safe digests s := by
  obtain ⟨size, ok⟩ := superblobSize_ok consistent
  refine ⟨by rw [ok]; exact nofun, fun callbacks => ?_⟩
  exact (serializeCds_inside callbacks s.hashTypesCount consistent (by omega)).ne_outside

/-! ## Calls -/

/-- Only types with a digest, and no special slot 0. -/
def Call.Sound : Call → Prop
  | .setHashTypes hashTypes => ∀ hashType ∈ hashTypes, Known hashType
  | .addSslotData slot _ => slot ≠ 0
  | _ => True

/-- The object is consistent and safe after the call, and as it was if the call failed. -/
structure Keeps (digests : Digests) (s : Libcd) (c : Call) : Prop where
  consistent : Consistent digests (call digests s c).2
  unchanged : (call digests s c).1 = false → (call digests s c).2 = s
  safe : Safe digests (call digests s c).2

variable (digests) in
theorem setHashTypes_sound {s : Libcd} {hashTypes : List Int} (sound : ∀ hashType ∈ hashTypes, Known hashType)
    (slots : ∀ sslot ∈ s.sslotData, 1 ≤ sslot.slot.toNat ∧ sslot.slot.toNat ≤ s.specialSlotCount.toNat) :
    (setHashTypes digests s hashTypes).1 = true ∧ Consistent digests (setHashTypes digests s hashTypes).2 := by
  have allKnown : (hashTypes.any fun hashType => (getHashInfo digests hashType).isNone) = false :=
    List.any_eq_false.2 fun hashType there => by rw [getHashInfo_known (sound hashType there)]; decide
  rw [setHashTypes, allKnown]
  refine ⟨rfl, rfl, List.length_replicate, ?_, slots⟩
  rintro types ⟨⟩ hashType there
  exact hasDigest_iff.2 (sound hashType there)

theorem addSslotData_slots {s : Libcd} {slot : BitVec 32} {bytes : List UInt8} (positive : slot ≠ 0)
    (slots : ∀ sslot ∈ s.sslotData, 1 ≤ sslot.slot.toNat ∧ sslot.slot.toNat ≤ s.specialSlotCount.toNat) :
    ∀ sslot ∈ (addSslotData s slot bytes).sslotData, 1 ≤ sslot.slot.toNat ∧
      sslot.slot.toNat ≤ (addSslotData s slot bytes).specialSlotCount.toNat := by
  have bound : s.specialSlotCount.toNat ≤ (addSslotData s slot bytes).specialSlotCount.toNat ∧
      slot.toNat ≤ (addSslotData s slot bytes).specialSlotCount.toNat := by
    simp only [addSslotData, gt_iff_lt, BitVec.lt_def]
    split <;> omega
  intro sslot there
  rcases List.mem_cons.1 there with rfl | there
  · exact ⟨Nat.pos_of_ne_zero fun zero => positive (BitVec.eq_of_toNat_eq zero), bound.2⟩
  · exact ⟨(slots sslot there).1, (slots sslot there).2.trans bound.1⟩

theorem call_keeps {s : Libcd} (consistent : Consistent digests s) {c : Call} (sound : c.Sound) : Keeps digests s c := by
  suffices kept : Consistent digests (call digests s c).2 ∧ ((call digests s c).1 = false → (call digests s c).2 = s) from
    ⟨kept.1, kept.2, kept.1.safe⟩
  cases c with
  | setHashTypes hashTypes =>
    obtain ⟨success, after⟩ := setHashTypes_sound digests sound consistent.slots
    exact ⟨after, fun failed => absurd (success.symm.trans failed) (by decide)⟩
  | setLinkage linkageHashType linkageHash =>
    simp only [call, setLinkage]
    split
    · exact ⟨consistent, fun _ => rfl⟩
    · exact ⟨⟨consistent.types, consistent.cdhashes, consistent.digest, consistent.slots⟩, nofun⟩
  | addSslotData slot bytes =>
    exact ⟨⟨consistent.types, consistent.cdhashes, consistent.digest, addSslotData_slots sound consistent.slots⟩, nofun⟩
  | addRawBlob slot bytes =>
    exact ⟨⟨consistent.types, consistent.cdhashes, consistent.digest, consistent.slots⟩, nofun⟩
  | addSignatureSpace space =>
    exact ⟨⟨consistent.types, consistent.cdhashes, consistent.digest, consistent.slots⟩, nofun⟩

/-- A call that is not sound leaves an object that is not consistent. -/
theorem sound_of_consistent {s : Libcd} {c : Call} (after : Consistent digests (call digests s c).2) : c.Sound := by
  cases c with
  | setHashTypes hashTypes =>
    have types := after.types
    have digest := after.digest
    simp only [call, setHashTypes] at types digest
    split at types
    · cases types
    · rename_i accepted
      rw [if_neg accepted] at digest
      exact fun hashType there => hasDigest_iff.1 (digest hashTypes rfl hashType there)
  | addSslotData slot bytes =>
    rintro rfl
    exact absurd (after.slots ⟨0, bytes⟩ List.mem_cons_self).1 (Nat.not_succ_le_zero 0)
  | setLinkage | addRawBlob | addSignatureSpace => trivial

theorem run_snoc (s : Libcd) (calls : List Call) (c : Call) :
    run digests s (calls ++ [c]) = (call digests (run digests s calls) c).2 := by
  rw [run, List.foldl_append]
  rfl

theorem run_consistent {s : Libcd} (consistent : Consistent digests s) (calls : List Call)
    (sound : ∀ c ∈ calls, c.Sound) : Consistent digests (run digests s calls) := by
  induction calls using List.reverseRecOn with
  | nil => exact consistent
  | append_singleton calls c ih =>
    rw [run_snoc]
    have before := ih fun other there => sound other (List.mem_append_left _ there)
    exact (call_keeps before (sound c (List.mem_append_right _ (List.mem_singleton_self c)))).consistent

/-- **In a run of calls each leaves a consistent object, and the one it found if it fails,
exactly when the types that are set have digests and no special slot is 0.** -/
theorem run_keeps_iff (digests : Digests) (s : Libcd) (consistent : Consistent digests s) (calls : List Call) :
    (∀ before c, before ++ [c] <+: calls → Keeps digests (run digests s before) c) ↔ ∀ c ∈ calls, c.Sound := by
  constructor
  · intro keeps c there
    obtain ⟨before, after, rfl⟩ := List.append_of_mem there
    have here := keeps before c ⟨after, by rw [List.append_assoc]; rfl⟩
    exact sound_of_consistent here.consistent
  · intro sound before c first
    have soundBefore : ∀ other ∈ before, other.Sound := fun other there =>
      sound other (first.subset (List.mem_append_left _ there))
    exact call_keeps (run_consistent consistent before soundBefore)
      (sound c (first.subset (List.mem_append_right _ (List.mem_singleton_self c))))

/-- Digests of the right lengths, for objects whose hashes do not matter. -/
def zeroDigests : Digests where
  sha1 _ := List.replicate 20 0
  sha256 _ := List.replicate 32 0
  sha1_length _ := List.length_replicate
  sha256_length _ := List.length_replicate
  before _ := ⟨0, none⟩

theorem run_keeps_iff_agile :
    (∀ before c, before ++ [c] <+: [.setHashTypes [1, 2], .addSslotData 5 [7], .addSignatureSpace 16] →
      Keeps zeroDigests (run zeroDigests (create 4096) before) c) ↔
    ∀ c ∈ [Call.setHashTypes [1, 2], .addSslotData 5 [7], .addSignatureSpace 16], c.Sound :=
  run_keeps_iff zeroDigests (create 4096) (create_consistent 4096) _

/-- The type 5 is refused, but the types are gone and one is still counted. -/
theorem unknownType_freed :
    let after := call zeroDigests (create 4096) (.setHashTypes [5])
    after.1 = false ∧ after.2.hashTypes = none ∧ after.2.hashTypesCount = 1 ∧
      superblobSize zeroDigests after.2 = .error .outside ∧ ¬ Keeps zeroDigests (create 4096) (.setHashTypes [5]) := by
  refine ⟨rfl, rfl, rfl, rfl, fun keeps => ?_⟩
  exact absurd keeps.consistent.types nofun

end Cctools.CodeDirectory
