/-
# Cctools.Lipo.FatRoundTrip -- which fat files are read back

`createFat_recovers_iff`: a fat file is read back as the files it was made of if and
only if their sizes fit the fields, no empty file is behind the last byte, and the
search for a hidden architecture ends as it was meant to.

The reader compares where the entries end with the byte-swapped offset of the first
file, so that the check nearly always passes and a file whose data begins like an
arm64 entry is taken for one (`createFat_finds_ghost`).
-/
import Cctools.Lipo.Fat
import Cctools.Theory.Transducer
import Mathlib.Data.List.Perm.Basic
import Mathlib.Data.List.Sort
import Mathlib.Algebra.Order.BigOperators.Group.List

namespace Cctools.Lipo

set_option autoImplicit false

open Cctools.Theory

/-! ## The layout -/

def laidOut : Nat → List ThinFile → List (Nat × ThinFile)
  | _, [] => []
  | offset, file :: rest =>
    (rnd offset (2 ^ file.align), file) :: laidOut (rnd offset (2 ^ file.align) + file.size) rest

/-- Offsets that go up from a place, each behind the end of the file before it. -/
def Ascends : Nat → List (Nat × ThinFile) → Prop
  | _, [] => True
  | place, slice :: rest => place ≤ slice.1 ∧ Ascends (slice.1 + slice.2.size) rest

theorem le_rnd (v align : Nat) : v ≤ rnd v (2 ^ align) := by
  have positive : 0 < 2 ^ align := Nat.two_pow_pos _
  have parts := Nat.div_add_mod' (v + (2 ^ align - 1)) (2 ^ align)
  have rest := Nat.mod_lt (v + (2 ^ align - 1)) positive
  rw [rnd]
  omega

theorem rnd_le (v align : Nat) : rnd v (2 ^ align) ≤ v + (2 ^ align - 1) := Nat.div_mul_le_self _ _

theorem dvd_rnd (v align : Nat) : 2 ^ align ∣ rnd v (2 ^ align) := Nat.dvd_mul_left _ _

theorem laidOut_files (offset : Nat) (files : List ThinFile) : (laidOut offset files).map Prod.snd = files := by
  induction files generalizing offset with
  | nil => rfl
  | cons file rest ih => rw [laidOut, List.map_cons, ih]

theorem length_laidOut (offset : Nat) (files : List ThinFile) : (laidOut offset files).length = files.length := by
  rw [← List.length_map (f := Prod.snd), laidOut_files]

theorem laidOut_ascends (offset : Nat) (files : List ThinFile) : Ascends offset (laidOut offset files) := by
  induction files generalizing offset with
  | nil => trivial
  | cons file rest ih => exact ⟨le_rnd _ _, ih _⟩

variable {files : List ThinFile} {offset : Nat}

theorem laidOut_aligned :
    ∀ slice ∈ laidOut offset files, 2 ^ slice.2.align ∣ slice.1 := by
  induction files generalizing offset with
  | nil => nofun
  | cons file rest ih =>
    intro slice member
    rcases List.mem_cons.mp member with rfl | later
    · exact dvd_rnd _ _
    · exact ih slice later

theorem laidOut_below :
    ∀ slice ∈ laidOut offset files,
      slice.1 + slice.2.size ≤ offset + (files.map fun file => file.size + 2 ^ 15).sum := by
  induction files generalizing offset with
  | nil => nofun
  | cons file rest ih =>
    intro slice member
    rw [List.map_cons, List.sum_cons]
    have here := rnd_le offset file.align
    have align : 2 ^ file.align ≤ 2 ^ 15 := Nat.pow_le_pow_right (by decide) file.aligned
    rcases List.mem_cons.mp member with rfl | later
    · dsimp only
      omega
    · have := ih slice later
      omega

variable {slices : List (Nat × ThinFile)}

theorem layoutFrom_ok {fat64 : Bool} (isOk : layoutFrom fat64 offset files = .ok slices) :
    slices = laidOut offset files ∧ (fat64 = false → ∀ slice ∈ slices, slice.1 ≤ 0xFFFFFFFF) := by
  induction files generalizing offset slices with
  | nil =>
    obtain rfl := Except.ok.inj isOk
    exact ⟨rfl, fun _ => nofun⟩
  | cons file rest ih =>
    rw [layoutFrom] at isOk
    split at isOk
    · cases isOk
    · rename_i inside
      obtain ⟨others, laid, rfl⟩ := ok_of_map isOk
      obtain ⟨rfl, small⟩ := ih laid
      refine ⟨rfl, fun narrow slice member => ?_⟩
      rcases List.mem_cons.mp member with rfl | later
      · simpa [narrow] using inside
      · exact small narrow slice later

variable {place : Nat}

theorem Ascends.behind (ascends : Ascends place slices) :
    ∀ slice ∈ slices, place ≤ slice.1 := by
  induction slices generalizing place with
  | nil => nofun
  | cons first rest ih =>
    intro slice member
    rcases List.mem_cons.mp member with rfl | later
    · exact ascends.1
    · have := ih ascends.2 slice later
      have := ascends.1
      omega

theorem Ascends.apart (ascends : Ascends place slices) :
    slices.Pairwise fun a b => a.1 + a.2.size ≤ b.1 := by
  induction slices generalizing place with
  | nil => exact .nil
  | cons first rest ih => exact .cons ascends.2.behind (ih ascends.2)

/-! ## The bytes behind the header -/

def bodyFrom : Nat → List (Nat × ThinFile) → List UInt8
  | _, [] => []
  | place, slice :: rest =>
    if slice.2.content = [] then bodyFrom place rest
    else List.replicate (slice.1 - place) 0 ++ (slice.2.content ++ bodyFrom (slice.1 + slice.2.size) rest)

def writeAll (file : List UInt8) (slices : List (Nat × ThinFile)) : List UInt8 :=
  slices.foldl (fun file slice => writeAt file slice.1 slice.2.content) file

theorem writeAt_end {file data : List UInt8} (some_ : data ≠ []) (behind : file.length ≤ offset) :
    writeAt file offset data = file ++ (List.replicate (offset - file.length) 0 ++ data) := by
  have whole : (file ++ List.replicate (offset - file.length) 0).length = offset := by
    rw [List.length_append, List.length_replicate]
    omega
  rw [writeAt, if_neg some_, List.take_of_length_le (by omega), List.drop_eq_nil_of_le (by omega),
    List.append_nil, List.append_assoc]

theorem writeAll_eq {file : List UInt8} (ascends : Ascends place slices) (behind : file.length ≤ place) :
    writeAll file slices = file ++ bodyFrom file.length slices := by
  induction slices generalizing file place with
  | nil => exact (List.append_nil _).symm
  | cons slice rest ih =>
    have reach := ascends.1
    rw [writeAll, List.foldl_cons, ← writeAll, bodyFrom]
    by_cases none_ : slice.2.content = []
    · rw [if_pos none_, writeAt, if_pos none_]
      exact ih ascends.2 (by omega)
    · have ends : (file ++ (List.replicate (slice.1 - file.length) 0 ++ slice.2.content)).length
          = slice.1 + slice.2.size := by
        rw [List.length_append, List.length_append, List.length_replicate, ThinFile.size]
        omega
      rw [if_neg none_, writeAt_end none_ (by omega), ih ascends.2 (by omega), ends]
      simp only [List.append_assoc]

theorem writeAll_content {file : List UInt8} (ascends : Ascends place slices) (behind : file.length ≤ place) :
    ∀ slice ∈ slices, ((writeAll file slices).drop slice.1).take slice.2.size = slice.2.content ∧
      (slice.2.content ≠ [] → slice.1 + slice.2.size ≤ (writeAll file slices).length) := by
  induction slices generalizing file place with
  | nil => nofun
  | cons slice rest ih =>
    intro other member
    have reach := ascends.1
    rw [writeAll, List.foldl_cons, ← writeAll]
    by_cases none_ : slice.2.content = []
    · rw [writeAt, if_pos none_]
      rcases List.mem_cons.mp member with rfl | later
      · rw [ThinFile.size, none_]
        exact ⟨rfl, fun some_ => absurd rfl some_⟩
      · exact ih ascends.2 (by omega) other later
    · have ends : (writeAt file slice.1 slice.2.content).length = slice.1 + slice.2.size := by
        rw [writeAt_end none_ (by omega), List.length_append, List.length_append, List.length_replicate,
          ThinFile.size]
        omega
      rcases List.mem_cons.mp member with rfl | later
      · rw [writeAll_eq ascends.2 (by omega)]
        refine ⟨?_, fun _ => by rw [List.length_append]; omega⟩
        have holes : (file ++ List.replicate (other.1 - file.length) 0).length = other.1 := by
          rw [List.length_append, List.length_replicate]
          omega
        rw [writeAt_end none_ (by omega), ← List.append_assoc, List.append_assoc, List.drop_left' holes,
          ThinFile.size, List.take_left]
      · exact ih ascends.2 (by omega) other later

/-! ## The entries -/

def width (fat64 : Bool) : Nat := if fat64 then 64 else 32

theorem drop_beBytes {n k : Nat} (past : n ≤ k) (value : Nat) (rest : List UInt8) :
    (beBytes n value ++ rest).drop k = rest.drop (k - n) := by
  rw [List.drop_append, length_beBytes, List.drop_eq_nil_of_le (by rw [length_beBytes]; exact past),
    List.nil_append]

theorem length_encodeArch (fat64 : Bool) (reserved : Nat) (slice : Nat × ThinFile) :
    (encodeArch fat64 reserved slice).length = archSize fat64 := by
  cases fat64 <;> simp [encodeArch, archSize]

/-- An entry is read back, with its numbers cut to their fields. -/
theorem readArch_encodeArch (fat64 : Bool) (reserved : Nat) (slice : Nat × ThinFile) (rest : List UInt8) :
    readArch fat64 (encodeArch fat64 reserved slice ++ rest) = ⟨slice.2.arch, slice.1 % 2 ^ width fat64,
      slice.2.size % 2 ^ width fat64, slice.2.align⟩ := by
  have word (v : BitVec 32) : BitVec.ofNat 32 (v.toNat % 4294967296) = v := by
    apply BitVec.eq_of_toNat_eq
    have := v.isLt
    rw [BitVec.toNat_ofNat]
    omega
  have align : slice.2.align % 4294967296 = slice.2.align := by
    have : slice.2.align ≤ 15 := slice.2.aligned
    omega
  cases fat64 <;>
    simp (disch := omega) only [readArch, encodeArch, if_true, Bool.false_eq_true, if_false,
      List.append_assoc, drop_beBytes, List.drop_zero, Nat.reduceSub, readBe_beBytes, word, align, width,
      Nat.reducePow]

/-- The entry of a slice as the reader has it. -/
def entry (fat64 : Bool) (slice : Nat × ThinFile) : FatArch :=
  ⟨slice.2.arch, slice.1 % 2 ^ width fat64, slice.2.size % 2 ^ width fat64, slice.2.align⟩

theorem length_readArches (fat64 : Bool) (n : Nat) (bytes : List UInt8) :
    (readArches fat64 n bytes).length = n := by
  induction n generalizing bytes with
  | zero => rfl
  | succ n ih => rw [readArches, List.length_cons, ih]

theorem drop_encodeArch (fat64 : Bool) (reserved : Nat) (slice : Nat × ThinFile) (rest : List UInt8) :
    (encodeArch fat64 reserved slice ++ rest).drop (archSize fat64) = rest :=
  List.drop_left' (length_encodeArch fat64 reserved slice)

theorem readArches_encode (fat64 : Bool) (reserved : Nat) (slices : List (Nat × ThinFile)) (rest : List UInt8) :
    readArches fat64 slices.length (slices.flatMap (encodeArch fat64 reserved) ++ rest)
      = slices.map (entry fat64) := by
  induction slices with
  | nil => rfl
  | cons slice others ih =>
    rw [List.length_cons, readArches, List.flatMap_cons, List.append_assoc, drop_encodeArch, ih,
      readArch_encodeArch, List.map_cons]
    rfl

theorem length_encodeArches (fat64 : Bool) (reserved : Nat) (slices : List (Nat × ThinFile)) :
    (slices.flatMap (encodeArch fat64 reserved)).length = archSize fat64 * slices.length := by
  induction slices with
  | nil => rfl
  | cons slice others ih =>
    rw [List.flatMap_cons, List.length_append, length_encodeArch, ih, List.length_cons]
    ring

/-- An offset as it is before it is swapped. -/
def swapped (offset : Nat) : Nat := readLe 4 (beBytes 4 offset)

def leastSwapped (first : Nat) (slices : List (Nat × ThinFile)) : Nat :=
  slices.foldl (fun first slice => if swapped slice.1 < first then swapped slice.1 else first) first

theorem firstOffset_encode (reserved first : Nat) (visible others : List (Nat × ThinFile)) (rest : List UInt8) :
    firstOffset first visible.length ((visible ++ others).flatMap (encodeArch false reserved) ++ rest)
      = leastSwapped first visible := by
  induction visible generalizing first with
  | nil => rfl
  | cons slice more ih =>
    have offset : readLe 4 ((encodeArch false reserved slice ++
        ((more ++ others).flatMap (encodeArch false reserved) ++ rest)).drop 8) = swapped slice.1 := by
      simp (disch := omega) only [encodeArch, Bool.false_eq_true, if_false, List.append_assoc, drop_beBytes,
        List.drop_zero, Nat.reduceSub]
      rw [readLe_append (by rw [length_beBytes]), swapped]
    rw [List.length_cons, firstOffset, List.cons_append, List.flatMap_cons, List.append_assoc, offset,
      drop_encodeArch, ih, leastSwapped, leastSwapped, List.foldl_cons]

/-! ## Hidden architectures -/

def isArm64 (file : ThinFile) : Bool := file.arch.cputype = cpuTypeArm64

/-- How many architectures the header leaves out. -/
def hiddenArches (flags : Flags) (files : List ThinFile) : Nat :=
  if flags.hideARM64 && files.any (fun file => file.arch.cputype = cpuTypeArm) then files.countP isArm64 else 0

theorem hideLoop_ok {hasArm32 hasArm32' : Bool} {numArm64 numArm64' : Nat}
    (isOk : hideLoop hasArm32 numArm64 files = .ok (hasArm32', numArm64')) :
    hasArm32' = (hasArm32 || files.any fun file => file.arch.cputype = cpuTypeArm) ∧
      numArm64' = numArm64 + files.countP isArm64 ∧ (0 < numArm64 → ∀ file ∈ files, isArm64 file) ∧
      ∃ others arms, files = others ++ arms ∧ (∀ file ∈ others, ¬ isArm64 file) ∧ ∀ file ∈ arms, isArm64 file := by
  induction files generalizing hasArm32 numArm64 with
  | nil =>
    obtain ⟨rfl, rfl⟩ := Prod.mk.inj (Except.ok.inj isOk)
    exact ⟨by simp, rfl, fun _ => nofun, [], [], rfl, nofun, nofun⟩
  | cons file rest ih =>
    rw [hideLoop] at isOk
    split at isOk
    · cases isOk
    · split at isOk
      · cases isOk
      · rename_i inOrder
        obtain ⟨arm32, arm64, later, others, arms, parts, notArm, areArm⟩ := ih isOk
        by_cases arm : file.arch.cputype = cpuTypeArm64
        · have isArm : isArm64 file = true := decide_eq_true arm
          rw [if_pos arm] at arm64 later
          have allArm := later (Nat.succ_pos _)
          refine ⟨by rw [arm32, List.any_cons, Bool.or_assoc], ?_, fun _ => ?_, [], file :: rest, rfl, nofun, ?_⟩
          · rw [arm64, List.countP_cons_of_pos isArm]
            omega
          · exact List.forall_mem_cons.mpr ⟨isArm, allArm⟩
          · exact List.forall_mem_cons.mpr ⟨isArm, allArm⟩
        · have notArm64 : ¬ isArm64 file = true := by simpa [isArm64] using arm
          rw [if_neg arm] at arm64 later
          refine ⟨by rw [arm32, List.any_cons, Bool.or_assoc], ?_, fun before => ?_, file :: others, arms,
            by rw [parts, List.cons_append], List.forall_mem_cons.mpr ⟨notArm64, notArm⟩, areArm⟩
          · rw [arm64, List.countP_cons_of_neg notArm64]
          · simp [before, arm] at inOrder

theorem nfatArch_ok {flags : Flags} {nfat : Nat} (isOk : nfatArch flags files = .ok nfat) :
    ∃ visible arms, files = visible ++ arms ∧ visible.length = nfat ∧ arms.length = hiddenArches flags files ∧
      ∀ file ∈ arms, isArm64 file := by
  rw [nfatArch] at isOk
  split at isOk
  · rename_i hide
    obtain ⟨⟨hasArm32, numArm64⟩, loop, counted⟩ := ok_of_map isOk
    obtain ⟨arm32, arm64, -, others, arms, parts, notArm, areArm⟩ := hideLoop_ok loop
    have count : files.countP isArm64 = arms.length := by
      rw [parts, List.countP_append, List.countP_eq_zero.mpr notArm, List.countP_eq_length.mpr areArm, Nat.zero_add]
    rw [Bool.false_or] at arm32
    rw [Nat.zero_add] at arm64
    dsimp only at counted
    split at counted
    · rename_i both
      rw [Bool.and_eq_true] at both
      refine ⟨others, arms, parts, ?_, ?_, areArm⟩
      · rw [← counted, arm64, count, parts, List.length_append]
        omega
      · rw [hiddenArches, hide, ← arm32, both.1, count]
        rfl
    · rename_i notBoth
      refine ⟨files, [], (List.append_nil _).symm, counted, ?_, nofun⟩
      rw [hiddenArches, hide, ← arm32]
      cases hasArm32 with
      | false => rfl
      | true =>
        rw [Bool.true_and, decide_eq_true_eq] at notBoth
        simp only [Bool.and_true, if_true, List.length_nil]
        omega
  · rename_i show_
    obtain rfl := Except.ok.inj isOk
    refine ⟨files, [], (List.append_nil _).symm, rfl, ?_, nofun⟩
    rw [hiddenArches, Bool.eq_false_of_not_eq_true show_]
    rfl

/-! ## The whole file -/

section File

variable (fat64 : Bool) (files : List ThinFile)

def dataStart : Nat := headerSize + archSize fat64 * files.length

def slicesOf : List (Nat × ThinFile) := laidOut (dataStart fat64 files) files

def body : List UInt8 := bodyFrom (dataStart fat64 files) (slicesOf fat64 files)

/-- The bytes behind the two numbers of the header. -/
def image (reserved : Nat) : List UInt8 :=
  (slicesOf fat64 files).flatMap (encodeArch fat64 reserved) ++ body fat64 files

def fatHeader (reserved nfat : Nat) : List UInt8 :=
  beBytes 4 (fatMagic fat64) ++ (beBytes 4 nfat ++ (slicesOf fat64 files).flatMap (encodeArch fat64 reserved))

def fatFile (reserved nfat : Nat) : List UInt8 :=
  beBytes 4 (fatMagic fat64) ++ (beBytes 4 nfat ++ image fat64 files reserved)

end File

section Facts

variable {fat64 : Bool} {files : List ThinFile} {reserved nfat : Nat}

theorem length_slicesOf : (slicesOf fat64 files).length = files.length := length_laidOut _ _

theorem slicesOf_ascends : Ascends (dataStart fat64 files) (slicesOf fat64 files) := laidOut_ascends _ _

theorem length_fatHeader : (fatHeader fat64 files reserved nfat).length = dataStart fat64 files := by
  rw [fatHeader, List.length_append, List.length_append, length_beBytes, length_beBytes, length_encodeArches,
    length_slicesOf, dataStart, headerSize]
  omega

theorem writeAll_fatHeader :
    writeAll (fatHeader fat64 files reserved nfat) (slicesOf fat64 files) = fatFile fat64 files reserved nfat := by
  rw [writeAll_eq slicesOf_ascends (le_of_eq length_fatHeader), length_fatHeader, fatHeader, fatFile, image, body]
  simp only [List.append_assoc]

theorem fatFile_content : ∀ slice ∈ slicesOf fat64 files,
    ((fatFile fat64 files reserved nfat).drop slice.1).take slice.2.size = slice.2.content ∧
      (slice.2.content ≠ [] → slice.1 + slice.2.size ≤ (fatFile fat64 files reserved nfat).length) := by
  rw [← writeAll_fatHeader]
  exact writeAll_content slicesOf_ascends (le_of_eq length_fatHeader)

theorem length_fatFile :
    (fatFile fat64 files reserved nfat).length = dataStart fat64 files + (body fat64 files).length := by
  rw [← writeAll_fatHeader, writeAll_eq slicesOf_ascends (le_of_eq length_fatHeader), List.length_append,
    length_fatHeader, body]

theorem fatFile_header :
    (fatFile fat64 files reserved nfat).drop headerSize = image fat64 files reserved := by
  simp (disch := omega) only [fatFile, headerSize, drop_beBytes, Nat.reduceSub, List.drop_zero]

theorem image_drop (k : Nat) (inside : k ≤ files.length) :
    (image fat64 files reserved).drop (k * archSize fat64)
      = ((slicesOf fat64 files).drop k).flatMap (encodeArch fat64 reserved) ++ body fat64 files := by
  have before : (((slicesOf fat64 files).take k).flatMap (encodeArch fat64 reserved)).length
      = k * archSize fat64 := by
    rw [length_encodeArches, List.length_take, length_slicesOf, Nat.min_eq_left inside, Nat.mul_comm]
  rw [image]
  conv_lhs => rw [← List.take_append_drop k (slicesOf fat64 files)]
  rw [List.flatMap_append, List.append_assoc, List.drop_left' before]

/-- Only the entry of the first hidden architecture or the data is behind the visible entries. -/
theorem hasHidden_fatFile {visible arms : List ThinFile} (parts : files = visible ++ arms)
    (areArm : ∀ file ∈ arms, isArm64 file) :
    hasHidden visible.length (fatFile false files reserved nfat) = true ↔
      visible.length * archSize false + headerSize + archSize false
          ≤ dataStart false files + (body false files).length ∧
        visible.length * archSize false + headerSize + archSize false
          ≤ leastSwapped 0xFFFFFFFF ((slicesOf false files).take visible.length) ∧
        (arms = [] → readBe 4 (body false files) = 0x0100000C) := by
  have inside : visible.length ≤ files.length := by
    rw [parts, List.length_append]
    omega
  have count : ((slicesOf false files).take visible.length).length = visible.length := by
    rw [List.length_take, length_slicesOf, Nat.min_eq_left inside]
  have first : firstOffset 0xFFFFFFFF visible.length (image false files reserved)
      = leastSwapped 0xFFFFFFFF ((slicesOf false files).take visible.length) := by
    have encoded := firstOffset_encode reserved 0xFFFFFFFF ((slicesOf false files).take visible.length)
      ((slicesOf false files).drop visible.length) (body false files)
    rwa [count, List.take_append_drop] at encoded
  have behind : (fatFile false files reserved nfat).drop (visible.length * archSize false + headerSize)
      = ((slicesOf false files).drop visible.length).flatMap (encodeArch false reserved) ++ body false files := by
    rw [Nat.add_comm, ← List.drop_drop, fatFile_header, image_drop _ inside]
  have cputype : (readArch false ((fatFile false files reserved nfat).drop
      (visible.length * archSize false + headerSize))).arch.cputype = cpuTypeArm64 ↔
      (arms = [] → readBe 4 (body false files) = 0x0100000C) := by
    rw [behind]
    have hidden : ((slicesOf false files).drop visible.length).map Prod.snd = arms := by
      rw [List.map_drop, slicesOf, laidOut_files, parts, List.drop_left]
    cases rest : (slicesOf false files).drop visible.length with
    | nil =>
      rw [rest] at hidden
      obtain rfl := hidden
      have small : readBe 4 (body false files) < 2 ^ 32 := readBe_lt 4 _
      simp only [List.flatMap_nil, List.nil_append, readArch, Bool.false_eq_true, if_false, List.drop_zero,
        List.map_nil, forall_const]
      rw [← BitVec.toNat_inj, BitVec.toNat_ofNat, Nat.mod_eq_of_lt small]
      rfl
    | cons slice more =>
      rw [rest] at hidden
      have arm := areArm slice.2 (by rw [← hidden]; exact List.mem_cons_self)
      rw [List.flatMap_cons, List.append_assoc, readArch_encodeArch, ← hidden]
      exact ⟨fun _ => nofun, fun _ => of_decide_eq_true arm⟩
  rw [hasHidden]
  simp only [Bool.and_eq_true, decide_eq_true_eq]
  rw [fatFile_header, first, cputype, length_fatFile, and_assoc]

theorem forM_ok_iff {β : Type} {f : β → Except String Unit} {list : List β} :
    list.forM f = .ok () ↔ ∀ x ∈ list, f x = .ok () := by
  induction list with
  | nil => exact ⟨fun _ => nofun, fun _ => rfl⟩
  | cons first rest ih =>
    rw [List.forall_mem_cons, ← ih]
    show ((f first).bind fun _ => rest.forM f) = .ok () ↔ _
    cases f first with
    | ok value => exact ⟨fun others => ⟨rfl, others⟩, fun both => both.2⟩
    | error message => exact ⟨nofun, fun both => nomatch both.1⟩

/-- How many entries the reader takes. -/
def entriesRead (fat64 : Bool) (nfat : Nat) (bytes : List UInt8) : Nat :=
  if fat64 = false && hasHidden nfat bytes then nfat + 1 else nfat

theorem processInputFile_fatFile {slices : List Slice} (small : nfat ≤ files.length) (narrow : nfat < 2 ^ 32) :
    processInputFile (fatFile fat64 files reserved nfat) = .ok slices ↔
      (∀ arch ∈ readArches fat64 (entriesRead fat64 nfat (fatFile fat64 files reserved nfat))
          (image fat64 files reserved),
        checkArch fat64 (fatFile fat64 files reserved nfat).length arch = .ok ()) ∧
      (readArches fat64 (entriesRead fat64 nfat (fatFile fat64 files reserved nfat))
        (image fat64 files reserved)).Pairwise (fun a b => ¬ a.arch.same b.arch) ∧
      slices = (readArches fat64 (entriesRead fat64 nfat (fatFile fat64 files reserved nfat))
        (image fat64 files reserved)).map (FatArch.slice (fatFile fat64 files reserved nfat)) := by
  have magic : readBe 4 (fatFile fat64 files reserved nfat) = fatMagic fat64 := by
    rw [fatFile, readBe_beBytes]
    cases fat64 <;> rfl
  have count : readBe 4 ((fatFile fat64 files reserved nfat).drop 4) = nfat := by
    rw [fatFile, drop_beBytes (le_refl 4), Nat.sub_self, List.drop_zero, readBe_beBytes]
    exact Nat.mod_eq_of_lt narrow
  have room : ¬ (fatFile fat64 files reserved nfat).length < nfat * archSize fat64 + headerSize := by
    have := Nat.mul_le_mul_right (archSize fat64) small
    rw [length_fatFile, dataStart, Nat.mul_comm (archSize fat64)]
    omega
  have long : headerSize ≤ (fatFile fat64 files reserved nfat).length := by
    rw [length_fatFile, dataStart]
    omega
  have isFat : processInputFile (fatFile fat64 files reserved nfat)
      = processFat fat64 (fatFile fat64 files reserved nfat) := by
    rw [processInputFile, magic]
    cases fat64 <;> simp [long, fatMagic]
  rw [isFat, processFat, count]
  dsimp only
  rw [if_neg room, fatFile_header, ← entriesRead]
  generalize readArches fat64 (entriesRead fat64 nfat (fatFile fat64 files reserved nfat))
    (image fat64 files reserved) = arches
  rw [← forM_ok_iff]
  cases checked : arches.forM (checkArch fat64 (fatFile fat64 files reserved nfat).length) with
  | error message => exact ⟨nofun, fun all => nomatch all.1⟩
  | ok value =>
    show (if arches.Pairwise (fun a b => ¬ a.arch.same b.arch) then
      (.ok (arches.map (FatArch.slice (fatFile fat64 files reserved nfat))) : Except String (List Slice))
      else .error _) = .ok slices ↔ _
    split
    · rename_i distinct
      exact ⟨fun same => ⟨rfl, distinct, (Except.ok.inj same).symm⟩, fun all => congrArg _ all.2.2.symm⟩
    · rename_i twice
      exact ⟨nofun, fun all => absurd all.2.1 twice⟩

end Facts

/-! ## The round trip -/

/-- The slices are the files, aligned, behind the header and apart from each other. -/
structure Recovers (fat64 : Bool) (files : List ThinFile) (slices : List Slice) : Prop where
  same : (slices.map fun slice => (slice.arch, slice.align, slice.size, slice.content)).Perm
    (files.map fun file => (file.arch, file.align, file.size, file.content))
  aligned : ∀ slice ∈ slices, 2 ^ slice.align ∣ slice.offset
  behind : ∀ slice ∈ slices, dataStart fat64 files ≤ slice.offset
  apart : slices.Pairwise fun a b => a.offset + a.size ≤ b.offset ∨ b.offset + b.size ≤ a.offset

/-- What the sorted files must be like for the fat file to be read back, when so many architectures
are hidden. -/
structure Legible (fat64 : Bool) (hidden : Nat) (files : List ThinFile) : Prop where
  sizes : fat64 = false → ∀ file ∈ files, file.size < 2 ^ 32
  reached : ∀ slice ∈ slicesOf fat64 files, slice.1 ≤ dataStart fat64 files + (body fat64 files).length
  ghost : fat64 = false → hidden = 0 → ¬ (archSize false ≤ (body false files).length ∧
    dataStart false files + archSize false ≤ leastSwapped 0xFFFFFFFF (slicesOf false files) ∧
    readBe 4 (body false files) = 0x0100000C)
  found : hidden ≠ 0 → fat64 = false ∧ hidden = 1 ∧
    dataStart false files ≤ leastSwapped 0xFFFFFFFF (slicesOf false files).dropLast

section RoundTrip

variable {fat64 : Bool} {files visible arms : List ThinFile} {reserved : Nat}

theorem entriesRead_eq_iff (parts : files = visible ++ arms) (areArm : ∀ file ∈ arms, isArm64 file) :
    entriesRead fat64 visible.length (fatFile fat64 files reserved visible.length) = files.length ↔
      (fat64 = false → arms.length = 0 → ¬ (archSize false ≤ (body false files).length ∧
        dataStart false files + archSize false ≤ leastSwapped 0xFFFFFFFF (slicesOf false files) ∧
        readBe 4 (body false files) = 0x0100000C)) ∧
      (arms.length ≠ 0 → fat64 = false ∧ arms.length = 1 ∧
        dataStart false files ≤ leastSwapped 0xFFFFFFFF (slicesOf false files).dropLast) := by
  have total : files.length = visible.length + arms.length := by rw [parts, List.length_append]
  have size : archSize false = 20 := rfl
  have start : dataStart false files = 8 + 20 * files.length := rfl
  have head : headerSize = 8 := rfl
  rw [entriesRead]
  cases fat64 with
  | true =>
    simp only [Bool.true_eq_false, decide_false, Bool.false_and, Bool.false_eq_true, if_false, false_and,
      false_implies, true_and]
    refine ⟨fun same some_ => absurd (by omega) some_, fun none_ => ?_⟩
    by_contra other
    exact none_ (by omega)
  | false =>
    have looks := @hasHidden_fatFile files reserved visible.length visible arms parts areArm
    simp only [decide_true, Bool.true_and, true_and, true_implies]
    cases count : arms.length with
    | zero =>
      obtain rfl := List.length_eq_zero_iff.mp count
      have all : (slicesOf false files).take visible.length = slicesOf false files :=
        List.take_of_length_le (by rw [length_slicesOf]; omega)
      rw [all] at looks
      rw [size, start]
      rw [size, start, head] at looks
      simp only [true_implies] at looks
      split
      · rename_i hidden
        have := looks.mp hidden
        refine ⟨fun same => by omega, fun both => absurd ⟨?_, ?_, this.2.2⟩ (both.1 rfl)⟩ <;> omega
      · rename_i none_
        rw [looks] at none_
        refine ⟨fun _ => ⟨fun _ ghost => none_ ⟨by omega, ?_, ghost.2.2⟩, fun some_ => absurd rfl some_⟩,
          fun _ => by omega⟩
        have := ghost.2.1
        omega
    | succ k =>
      have areSome : arms ≠ [] := by
        rintro rfl
        cases count
      have one : k = 0 → (slicesOf false files).take visible.length = (slicesOf false files).dropLast := by
        rintro rfl
        rw [List.dropLast_eq_take, length_slicesOf]
        congr 1
        omega
      rw [start]
      rw [size, start, head] at looks
      split
      · rename_i hidden
        have reach := (looks.mp hidden).2.1
        refine ⟨fun same => ⟨nofun, fun _ => ⟨by omega, ?_⟩⟩, fun both => ?_⟩
        · rw [one (by omega)] at reach
          omega
        · have := (both.2 (by omega)).1
          omega
      · rename_i none_
        refine ⟨fun same => by omega, fun both => ?_⟩
        obtain ⟨single, reach⟩ := both.2 (by omega)
        rw [looks, one (by omega)] at none_
        exact absurd ⟨by omega, by omega, fun none' => absurd none' areSome⟩ none_

/-- When all entries are read, they are the ones that were written. -/
theorem readArches_all (all : entriesRead fat64 visible.length (fatFile fat64 files reserved visible.length)
      = files.length) :
    readArches fat64 (entriesRead fat64 visible.length (fatFile fat64 files reserved visible.length))
      (image fat64 files reserved) = (slicesOf fat64 files).map (entry fat64) := by
  rw [all, image, ← @length_slicesOf fat64 files, readArches_encode]

theorem checkArch_ok_iff {size : Nat} {slice : Nat × ThinFile} (aligned : 2 ^ slice.2.align ∣ slice.1)
    (offset : slice.1 < 2 ^ width fat64) (small : slice.2.size < 2 ^ width fat64) :
    checkArch fat64 size (entry fat64 slice) = .ok () ↔
      (slice.1 + slice.2.size) % 2 ^ width fat64 ≤ size := by
  have align : ¬ maxSectAlign < slice.2.align := Nat.not_lt.mpr slice.2.aligned
  have modulus : slice.1 % 2 ^ slice.2.align = 0 := Nat.mod_eq_zero_of_dvd aligned
  rw [checkArch, entry]
  simp only [Nat.mod_eq_of_lt offset, Nat.mod_eq_of_lt small]
  rw [if_neg align, if_neg (not_not.mpr modulus)]
  rw [← width]
  split
  · rename_i past
    exact ⟨nofun, fun inside => absurd inside (by omega)⟩
  · rename_i inside
    exact ⟨fun _ => by omega, fun _ => rfl⟩

/-- A file reaches no farther than the fat file, if an empty one does not begin behind it. -/
theorem slice_inside (reached : ∀ slice ∈ slicesOf fat64 files,
      slice.1 ≤ dataStart fat64 files + (body fat64 files).length) :
    ∀ slice ∈ slicesOf fat64 files, slice.1 + slice.2.size ≤ dataStart fat64 files + (body fat64 files).length := by
  intro slice member
  by_cases none_ : slice.2.content = []
  · have := reached slice member
    rw [ThinFile.size, none_]
    exact this
  · have := (@fatFile_content fat64 files 0 0 slice member).2 none_
    rwa [length_fatFile] at this

/-- The slices that are read are the files, when their numbers fit. -/
theorem slices_recover (offsets : ∀ slice ∈ slicesOf fat64 files, slice.1 < 2 ^ width fat64)
    (sizes : ∀ file ∈ files, file.size < 2 ^ width fat64) {nfat : Nat} :
    Recovers fat64 files (((slicesOf fat64 files).map (entry fat64)).map
      (FatArch.slice (fatFile fat64 files reserved nfat))) := by
  have isFile : ∀ slice ∈ slicesOf fat64 files, slice.2 ∈ files := by
    intro slice member
    rw [← laidOut_files (dataStart fat64 files) files]
    exact List.mem_map_of_mem member
  have numbers : ∀ slice ∈ slicesOf fat64 files, entry fat64 slice
      = ⟨slice.2.arch, slice.1, slice.2.size, slice.2.align⟩ := by
    intro slice member
    rw [entry, Nat.mod_eq_of_lt (offsets slice member), Nat.mod_eq_of_lt (sizes slice.2 (isFile slice member))]
  have slices : ((slicesOf fat64 files).map (entry fat64)).map (FatArch.slice (fatFile fat64 files reserved nfat))
      = (slicesOf fat64 files).map fun slice =>
        ⟨slice.2.arch, slice.1, slice.2.size, slice.2.align, slice.2.content⟩ := by
    rw [List.map_map]
    refine List.map_congr_left fun slice member => ?_
    rw [Function.comp_apply, numbers slice member, FatArch.slice, (fatFile_content slice member).1]
  rw [slices]
  constructor
  · have keys : files.map (fun file => (file.arch, file.align, file.size, file.content))
        = (slicesOf fat64 files).map fun slice =>
          (slice.2.arch, slice.2.align, slice.2.size, slice.2.content) := by
      conv_lhs => rw [← laidOut_files (dataStart fat64 files) files, List.map_map]
      rfl
    rw [keys, List.map_map]
    exact List.Perm.refl _
  · simp only [List.forall_mem_map]
    exact laidOut_aligned
  · simp only [List.forall_mem_map]
    exact slicesOf_ascends.behind
  · rw [List.pairwise_map]
    exact slicesOf_ascends.apart.imp Or.inl

theorem fatFile_recovers_iff (parts : files = visible ++ arms) (areArm : ∀ file ∈ arms, isArm64 file)
    (distinct : files.Pairwise fun a b => ¬ a.arch.same b.arch) (count : files.length < 2 ^ 32)
    (offsets : ∀ slice ∈ slicesOf fat64 files, slice.1 < 2 ^ width fat64)
    (room : fat64 = true → ∀ file ∈ files, file.size < 2 ^ 64) :
    (∃ slices, processInputFile (fatFile fat64 files reserved visible.length) = .ok slices ∧
      Recovers fat64 files slices) ↔ Legible fat64 arms.length files := by
  have fewer : visible.length ≤ files.length := by
    rw [parts, List.length_append]
    omega
  have accepts : ∀ slices, _ := fun slices =>
    @processInputFile_fatFile fat64 files reserved visible.length slices fewer (lt_of_le_of_lt fewer count)
  have widths (narrow : fat64 = false → ∀ file ∈ files, file.size < 2 ^ 32) :
      ∀ file ∈ files, file.size < 2 ^ width fat64 := by
    cases fat64 with
    | true => exact room rfl
    | false => exact narrow rfl
  have isFile : ∀ slice ∈ slicesOf fat64 files, slice.2 ∈ files := by
    intro slice member
    rw [← laidOut_files (dataStart fat64 files) files]
    exact List.mem_map_of_mem member
  constructor
  · rintro ⟨slices, isOk, recovers⟩
    obtain ⟨checks, -, rfl⟩ := (accepts slices).mp isOk
    have all : entriesRead fat64 visible.length (fatFile fat64 files reserved visible.length) = files.length := by
      have lengths := recovers.same.length_eq
      rwa [List.length_map, List.length_map, List.length_map, length_readArches] at lengths
    rw [readArches_all all] at checks recovers
    have sizes : fat64 = false → ∀ file ∈ files, file.size < 2 ^ 32 := by
      rintro rfl file member
      have key := recovers.same.mem_iff.mpr (List.mem_map_of_mem member)
      simp only [List.map_map, List.mem_map, Function.comp_apply, Prod.mk.injEq] at key
      obtain ⟨slice, -, -, -, same, -⟩ := key
      rw [← same]
      exact Nat.mod_lt _ (Nat.two_pow_pos 32)
    have searches := (entriesRead_eq_iff parts areArm).mp all
    refine ⟨sizes, fun slice member => ?_, searches.1, searches.2⟩
    have check := (checkArch_ok_iff (laidOut_aligned slice member) (offsets slice member)
      (widths sizes slice.2 (isFile slice member))).mp (checks _ (List.mem_map_of_mem member))
    rw [length_fatFile] at check
    by_cases none_ : slice.2.content = []
    · rw [ThinFile.size, none_, List.length_nil, Nat.add_zero, Nat.mod_eq_of_lt (offsets slice member)] at check
      exact check
    · have := (@fatFile_content fat64 files 0 0 slice member).2 none_
      rw [length_fatFile] at this
      omega
  · rintro ⟨sizes, reached, ghost, found⟩
    have all := (@entriesRead_eq_iff fat64 files visible arms reserved parts areArm).mpr ⟨ghost, found⟩
    refine ⟨_, (accepts _).mpr ⟨?_, ?_, rfl⟩, ?_⟩
    · rw [readArches_all all]
      intro arch member
      obtain ⟨slice, listed, rfl⟩ := List.mem_map.mp member
      rw [checkArch_ok_iff (laidOut_aligned slice listed) (offsets slice listed)
        (widths sizes slice.2 (isFile slice listed)), length_fatFile]
      exact le_trans (Nat.mod_le _ _) (slice_inside reached slice listed)
    · rw [readArches_all all, List.pairwise_map]
      have kept : ((slicesOf fat64 files).map Prod.snd).Pairwise fun a b => ¬ a.arch.same b.arch := by
        rw [slicesOf, laidOut_files]
        exact distinct
      exact List.pairwise_map.mp kept
    · rw [readArches_all all]
      exact slices_recover offsets (widths sizes)

end RoundTrip

/-! ## From the command line -/

theorem Arch.same_iff {a b : Arch} : a.same b = true ↔
    a.cputype = b.cputype ∧ a.cpusubtype &&& ~~~cpuSubtypeMask = b.cpusubtype &&& ~~~cpuSubtypeMask := by
  rw [Arch.same, Bool.and_eq_true, decide_eq_true_eq, decide_eq_true_eq]

theorem Arch.same_comm {a b : Arch} : a.same b = b.same a := by
  rw [Bool.eq_iff_iff, Arch.same_iff, Arch.same_iff, eq_comm, @eq_comm _ (a.cpusubtype &&& _)]

/-- A segment alignment changes nothing but the alignment of a file. -/
theorem foldSegalign_kept {segalign : SegAlign} {files folded : List ThinFile}
    (isOk : foldSegalign files segalign = .ok folded) :
    folded.map (fun file => (file.arch, file.content)) = files.map fun file => (file.arch, file.content) := by
  rw [foldSegalign] at isOk
  split at isOk
  · cases isOk
  · obtain rfl := Except.ok.inj isOk
    refine List.ext_getElem? fun i => ?_
    rw [List.getElem?_map, List.getElem?_map, List.getElem?_modify]
    cases files[i]? with
    | none => rfl
    | some file =>
      simp only [Option.map_eq_map, Option.map_some]
      split <;> rfl

theorem foldSegaligns_kept {segaligns : List SegAlign} {files folded : List ThinFile}
    (isOk : foldSegaligns segaligns files = .ok folded) :
    folded.map (fun file => (file.arch, file.content)) = files.map fun file => (file.arch, file.content) := by
  rw [foldSegaligns] at isOk
  split at isOk
  · rename_i once
    clear once
    induction segaligns generalizing files with
    | nil =>
      obtain rfl := Except.ok.inj isOk
      rfl
    | cons segalign rest ih =>
      rw [List.foldlM_cons] at isOk
      obtain ⟨next, here, more⟩ := ok_of_bind isOk
      rw [ih more, foldSegalign_kept here]
  · cases isOk

/-- What the size of memory and the counter of files allow. -/
structure InMemory (files : List ThinFile) : Prop where
  counted : files.length < 2 ^ 32
  mapped : (files.map ThinFile.size).sum < 2 ^ 63

theorem sum_padded (files : List ThinFile) :
    (files.map fun file => file.size + 2 ^ 15).sum = (files.map ThinFile.size).sum + 2 ^ 15 * files.length := by
  induction files with
  | nil => rfl
  | cons file rest ih =>
    rw [List.map_cons, List.sum_cons, ih, List.map_cons, List.sum_cons, List.length_cons]
    omega

theorem InMemory.offsets (memory : InMemory files) (fat64 : Bool) :
    ∀ slice ∈ slicesOf fat64 files, slice.1 < 2 ^ 64 := by
  intro slice member
  have below := laidOut_below slice member
  have count := memory.counted
  have sizes := memory.mapped
  have entries : archSize fat64 ≤ 32 := by cases fat64 <;> decide
  have header := Nat.mul_le_mul_right files.length entries
  rw [sum_padded, dataStart, headerSize] at below
  omega

theorem InMemory.sizes (memory : InMemory files) :
    ∀ file ∈ files, file.size < 2 ^ 64 := by
  intro file member
  have one : file.size ≤ (files.map ThinFile.size).sum := List.le_sum_of_mem (List.mem_map_of_mem member)
  have sizes := memory.mapped
  omega

section Create

variable {qsort : (ThinFile → ThinFile → Int) → List ThinFile → List ThinFile}
  {flags : Flags} {segaligns : List SegAlign} {reserved : Nat} {thinFiles : List ThinFile} {bytes : List UInt8}

theorem createFat_ok (isOk : createFat qsort flags segaligns reserved thinFiles = .ok bytes) :
    ∃ folded visible arms, foldSegaligns segaligns thinFiles = .ok folded ∧
      qsort cmpQsort folded = visible ++ arms ∧
      arms.length = hiddenArches flags (visible ++ arms) ∧ (∀ file ∈ arms, isArm64 file) ∧
      (flags.fat64 = false → ∀ slice ∈ slicesOf flags.fat64 (visible ++ arms), slice.1 ≤ 0xFFFFFFFF) ∧
      bytes = fatFile flags.fat64 (visible ++ arms) reserved visible.length := by
  obtain ⟨folded, fold, more⟩ := ok_of_bind isOk
  obtain ⟨nfat, counted, last⟩ := ok_of_bind more
  obtain ⟨slices, laid, written⟩ := ok_of_bind last
  obtain ⟨visible, arms, parts, rfl, hidden, areArm⟩ := nfatArch_ok counted
  rw [parts] at laid hidden
  obtain ⟨rfl, small⟩ := layoutFrom_ok laid
  refine ⟨folded, visible, arms, fold, parts, hidden, areArm, small, ?_⟩
  rw [← writeAll_fatHeader]
  exact (Except.ok.inj written).symm

theorem Recovers.perm {fat64 : Bool} {files others : List ThinFile} (same : files.Perm others)
    {slices : List Slice} : Recovers fat64 files slices ↔ Recovers fat64 others slices := by
  have starts : dataStart fat64 files = dataStart fat64 others := by rw [dataStart, same.length_eq, dataStart]
  have keys := same.map fun file => (file.arch, file.align, file.size, file.content)
  constructor
  · rintro ⟨recovered, aligned, behind, apart⟩
    exact ⟨recovered.trans keys, aligned, starts ▸ behind, apart⟩
  · rintro ⟨recovered, aligned, behind, apart⟩
    exact ⟨recovered.trans keys.symm, aligned, starts ▸ behind, apart⟩

theorem distinct_of_keys {files folded : List ThinFile}
    (kept : folded.map (fun file => (file.arch, file.content)) = files.map fun file => (file.arch, file.content))
    (distinct : files.Pairwise fun a b => ¬ a.arch.same b.arch) :
    folded.Pairwise fun a b => ¬ a.arch.same b.arch := by
  have arches : folded.map ThinFile.arch = files.map ThinFile.arch := by
    have := congrArg (List.map Prod.fst) kept
    rwa [List.map_map, List.map_map] at this
  have apart : (files.map ThinFile.arch).Pairwise fun a b => ¬ a.same b := List.pairwise_map.mpr distinct
  rw [← arches] at apart
  exact List.pairwise_map.mp apart

theorem InMemory.of_keys {files folded : List ThinFile}
    (kept : folded.map (fun file => (file.arch, file.content)) = files.map fun file => (file.arch, file.content))
    (memory : InMemory files) : InMemory folded := by
  have sizes : folded.map ThinFile.size = files.map ThinFile.size := by
    have := congrArg (List.map fun key => key.2.length) kept
    rwa [List.map_map, List.map_map] at this
  have lengths : folded.length = files.length := by
    rw [← List.length_map (f := ThinFile.size), sizes, List.length_map]
  exact ⟨lengths ▸ memory.counted, sizes ▸ memory.mapped⟩

theorem InMemory.perm {files others : List ThinFile} (same : files.Perm others) (memory : InMemory files) :
    InMemory others :=
  ⟨same.length_eq ▸ memory.counted, (same.map ThinFile.size).sum_eq ▸ memory.mapped⟩

/-- **A fat file that is written is read back as the same files if and only if it is legible.** -/
theorem createFat_recovers_iff (perm : ∀ cmp files, (qsort cmp files).Perm files)
    (distinct : thinFiles.Pairwise fun a b => ¬ a.arch.same b.arch) (memory : InMemory thinFiles)
    (isOk : createFat qsort flags segaligns reserved thinFiles = .ok bytes) :
    ∃ folded, foldSegaligns segaligns thinFiles = .ok folded ∧
      ((∃ slices, processInputFile bytes = .ok slices ∧ Recovers flags.fat64 folded slices) ↔
        Legible flags.fat64 (hiddenArches flags (qsort cmpQsort folded)) (qsort cmpQsort folded)) := by
  obtain ⟨folded, visible, arms, fold, parts, hidden, areArm, small, rfl⟩ := createFat_ok isOk
  refine ⟨folded, fold, ?_⟩
  have kept := foldSegaligns_kept fold
  have sorted := perm cmpQsort folded
  rw [parts] at sorted ⊢
  have inMemory : InMemory (visible ++ arms) := (memory.of_keys kept).perm sorted.symm
  have apart : (visible ++ arms).Pairwise fun a b => ¬ a.arch.same b.arch :=
    (sorted.pairwise_iff fun {a b} apart => by rwa [Arch.same_comm]).mpr (distinct_of_keys kept distinct)
  have offsets : ∀ slice ∈ slicesOf flags.fat64 (visible ++ arms), slice.1 < 2 ^ width flags.fat64 := by
    intro slice member
    cases format : flags.fat64 with
    | true => exact inMemory.offsets _ slice member
    | false => exact Nat.lt_succ_of_le (small format slice member)
  have legible := @fatFile_recovers_iff flags.fat64 _ visible arms reserved rfl areArm apart inMemory.counted
    offsets fun _ => inMemory.sizes
  rw [← hidden, ← legible]
  simp only [Recovers.perm sorted]

end Create

/-! ## A file that is found twice -/

def intelFile (content : List UInt8) : ThinFile := ⟨⟨7, 3⟩, 0, content, by decide⟩

def armFile (content : List UInt8) : ThinFile := ⟨⟨12, 9⟩, 2, content, by decide⟩

/-- Twenty bytes that read as an arm64 entry of an empty file at the front. -/
def entryLike : List UInt8 := [1, 0, 0, 12] ++ List.replicate 16 0

def insertionSort (cmp : ThinFile → ThinFile → Int) (files : List ThinFile) : List ThinFile :=
  files.insertionSort fun a b => cmp a b ≤ 0

theorem createFat_recovers_iff_two :
    ∃ folded, foldSegaligns [] [intelFile [1, 2], armFile [3]] = .ok folded ∧
      ((∃ slices, processInputFile (fatFile false [intelFile [1, 2], armFile [3]] 0 2) = .ok slices ∧
        Recovers false folded slices) ↔
        Legible false (hiddenArches ⟨false, false⟩ (insertionSort cmpQsort folded))
          (insertionSort cmpQsort folded)) :=
  @createFat_recovers_iff insertionSort ⟨false, false⟩ [] 0 [intelFile [1, 2], armFile [3]]
    (fatFile false [intelFile [1, 2], armFile [3]] 0 2) (fun _ _ => List.perm_insertionSort _ _) (by decide)
    ⟨by decide, by decide⟩ (by decide)

/-- **A file whose data begins like an arm64 entry is read as two.** -/
theorem createFat_finds_ghost : ∃ bytes,
    createFat (fun _ files => files) ⟨false, false⟩ [] 0 [intelFile entryLike] = .ok bytes ∧
      ¬ ∃ slices, processInputFile bytes = .ok slices ∧ Recovers false [intelFile entryLike] slices := by
  refine ⟨fatFile false [intelFile entryLike] 0 1, by decide, ?_⟩
  rintro ⟨slices, isOk, recovers⟩
  have found : processInputFile (fatFile false [intelFile entryLike] 0 1)
      = .ok [⟨⟨7, 3⟩, 28, 20, 0, entryLike⟩, ⟨⟨cpuTypeArm64, 0⟩, 0, 0, 0, []⟩] := by decide
  obtain rfl := Except.ok.inj (found.symm.trans isOk)
  exact absurd recovers.same.length_eq (by decide)

end Cctools.Lipo
