/-
# Cctools.LinkEdit.FunctionStarts -- the start addresses of functions

`FunctionStartsAtom::encode` of `ld/LinkEdit.hpp`.  The differences between the addresses of the
functions are written from the mach header on, with the low bit set in the address of a thumb
function.  A difference of zero is not written, and an atom without content is not looked at.

What is read back is every address that is not the one in front of it (`decode_functionStarts`): of sorted
addresses, each of them once (`recorded_of_sorted`).
-/
import Mathlib.Data.List.Destutter
import Cctools.LinkEdit.Deltas

namespace Cctools.LinkEdit.FunctionStarts

set_option autoImplicit false

open Cctools.Theory Cctools.LinkEdit.Deltas

/-! ## Encoding -/

structure Atom where
  size : BitVec 64
  finalAddress : BitVec 64
  isThumb : Bool
  deriving DecidableEq, Repr

/-- `ld::Internal::FinalSection`, as far as `encode` tells one from another. -/
inductive FinalSection where
  | machHeader (address : BitVec 64)
  | code (atoms : List Atom)
  | other
  deriving DecidableEq, Repr

def badAddress : BitVec 64 := 0xFFFFFFFFFFFFFFFF

def Atom.nextAddr (atom : Atom) : BitVec 64 :=
  if atom.isThumb then atom.finalAddress ||| 1 else atom.finalAddress

/-- The atoms of a section, from `addr` on: the bytes appended and the last address. -/
def encodeAtoms : BitVec 64 → List Atom → List UInt8 × BitVec 64
  | addr, [] => ([], addr)
  | addr, atom :: atoms =>
    if atom.size = 0 then encodeAtoms addr atoms
    else
      let delta := atom.nextAddr - addr
      let later := encodeAtoms atom.nextAddr atoms
      ((if delta ≠ 0 then appendUleb128 delta else []) ++ later.1, later.2)

/-- `none` where `assert(addr != badAddress)` fails. -/
def encodeSections : BitVec 64 → List FinalSection → Option (List UInt8)
  | _, [] => some []
  | _, .machHeader address :: sections => encodeSections address sections
  | addr, .code atoms :: sections =>
    if addr = badAddress then none
    else
      let here := encodeAtoms addr atoms
      (encodeSections here.2 sections).map (here.1 ++ ·)
  | addr, .other :: sections => encodeSections addr sections

def encode (pointerSize : Nat) (sections : List FinalSection) : Option (List UInt8) :=
  (encodeSections badAddress sections).map fun bytes => padToSize pointerSize (bytes ++ [0])

/-- The addresses that the differences lead to, up to a zero. -/
def decode (machHeader : BitVec 64) (bytes : List UInt8) : Option (List (BitVec 64) × List UInt8) :=
  readUntil readDelta (bytes.length + 1) machHeader bytes

/-! ## Addresses -/

def FinalSection.atoms : FinalSection → List Atom
  | .code atoms => atoms
  | _ => []

/-- The addresses of the atoms with content. -/
def starts (atoms : List Atom) : List (BitVec 64) :=
  (atoms.filter fun atom => atom.size ≠ 0).map Atom.nextAddr

def sectionStarts (sections : List FinalSection) : List (BitVec 64) :=
  starts (sections.flatMap FinalSection.atoms)

/-- The addresses that are not the one in front of them. -/
def recorded (addr : BitVec 64) (addresses : List (BitVec 64)) : List (BitVec 64) :=
  (addresses.destutter' (· ≠ ·) addr).tail

theorem destutter_eq (addr : BitVec 64) (addresses : List (BitVec 64)) :
    addresses.destutter' (· ≠ ·) addr = addr :: recorded addr addresses := by
  induction addresses generalizing addr with
  | nil => rfl
  | cons address addresses ih =>
    by_cases moves : addr ≠ address
    · rw [recorded, List.destutter'_cons_pos _ moves]
      rfl
    · rw [recorded, List.destutter'_cons_neg _ moves, ih]
      rfl

@[simp] theorem recorded_self (addr : BitVec 64) (addresses : List (BitVec 64)) :
    recorded addr (addr :: addresses) = recorded addr addresses := by
  rw [recorded, List.destutter'_cons_neg _ (not_not.mpr rfl), recorded]

theorem recorded_of_ne {addr address : BitVec 64} (moves : addr ≠ address) (addresses : List (BitVec 64)) :
    recorded addr (address :: addresses) = address :: recorded address addresses := by
  rw [recorded, List.destutter'_cons_pos _ moves, destutter_eq]
  rfl

theorem moves_recorded (addr : BitVec 64) (addresses : List (BitVec 64)) : Moves addr (recorded addr addresses) := by
  rw [moves_iff, ← destutter_eq]
  exact List.isChain_destutter' _ _ _

/-! ## The bytes of a run -/

/-- The bytes of the addresses that are recorded. -/
def recordedBytes (addr : BitVec 64) (addresses : List (BitVec 64)) : List UInt8 :=
  writeAll writeDelta (fun _ nextAddr => nextAddr) addr (recorded addr addresses)

theorem recordedBytes_cons (addr address : BitVec 64) (addresses : List (BitVec 64)) :
    recordedBytes addr (address :: addresses) =
      (if address - addr ≠ 0 then appendUleb128 (address - addr) else []) ++ recordedBytes address addresses := by
  have turn : delta addr address = address - addr := BitVec.setWidth_eq _
  have zero : address - addr = 0 ↔ address = addr := by
    rw [← turn]
    exact delta_eq_zero_iff (le_refl 64)
  by_cases same : address = addr
  · subst same
    rw [if_neg (not_not.mpr (zero.mpr rfl)), recordedBytes, recorded_self]
    rfl
  · rw [if_pos (mt zero.mp same), recordedBytes, recorded_of_ne (Ne.symm same), writeAll, writeDelta, turn]
    rfl

theorem starts_cons (atom : Atom) (atoms : List Atom) :
    starts (atom :: atoms) = if atom.size = 0 then starts atoms else atom.nextAddr :: starts atoms := by
  rw [starts, List.filter_cons]
  by_cases empty : atom.size = 0
  · rw [if_neg (by simpa using empty), if_pos empty, starts]
  · rw [if_pos (by simpa using empty), if_neg empty, List.map_cons, starts]

theorem starts_append (front behind : List Atom) : starts (front ++ behind) = starts front ++ starts behind := by
  simp [starts]

/-- The atoms of a section leave the address that the next section goes on from. -/
theorem encodeAtoms_append (addr : BitVec 64) (atoms : List Atom) (behind : List (BitVec 64)) :
    (encodeAtoms addr atoms).1 ++ recordedBytes (encodeAtoms addr atoms).2 behind =
      recordedBytes addr (starts atoms ++ behind) := by
  induction atoms generalizing addr with
  | nil => rfl
  | cons atom atoms ih =>
    rw [encodeAtoms, starts_cons]
    by_cases empty : atom.size = 0
    · rw [if_pos empty, if_pos empty, ih]
    · rw [if_neg empty, if_neg empty, List.cons_append, recordedBytes_cons, ← ih, ← List.append_assoc]

theorem encodeAtoms_last (addr : BitVec 64) (atoms : List Atom) :
    (encodeAtoms addr atoms).2 ∈ addr :: starts atoms := by
  induction atoms generalizing addr with
  | nil => exact List.mem_cons_self
  | cons atom atoms ih =>
    rw [encodeAtoms, starts_cons]
    by_cases empty : atom.size = 0
    · rw [if_pos empty, if_pos empty]
      exact ih addr
    · rw [if_neg empty, if_neg empty]
      exact List.mem_cons_of_mem _ (ih atom.nextAddr)

/-! ## Images -/

/-- The sections of an image: `sortSections` has the mach header in front of all code. -/
structure Image where
  front : List FinalSection
  machHeader : BitVec 64
  behind : List FinalSection
  headerFirst : ∀ sect ∈ front, sect = .other
  oneHeader : ∀ sect ∈ behind, ∀ address, sect ≠ .machHeader address

namespace Image

variable (image : Image)

def sections : List FinalSection := image.front ++ .machHeader image.machHeader :: image.behind

/-- The function addresses. -/
def functions : List (BitVec 64) := sectionStarts image.behind

end Image

theorem encodeSections_front {front : List FinalSection} (others : ∀ sect ∈ front, sect = .other)
    (addr : BitVec 64) (sections : List FinalSection) : encodeSections addr (front ++ sections) = encodeSections addr sections := by
  induction front with
  | nil => rfl
  | cons sect front ih =>
    rw [List.forall_mem_cons] at others
    obtain ⟨rfl, others⟩ := others
    exact ih others

/-- **All sections** write what is recorded, or the address in front of one of them is the bad one. -/
theorem encodeSections_spec {sections : List FinalSection}
    (headerless : ∀ sect ∈ sections, ∀ address, sect ≠ .machHeader address) (addr : BitVec 64) :
    match encodeSections addr sections with
    | none => badAddress ∈ addr :: sectionStarts sections
    | some bytes => bytes = recordedBytes addr (sectionStarts sections) := by
  induction sections generalizing addr with
  | nil => rfl
  | cons sect sections ih =>
    rw [List.forall_mem_cons] at headerless
    cases sect with
    | machHeader address => exact absurd rfl (headerless.1 address)
    | other => exact ih headerless.2 addr
    | code atoms =>
      have here : sectionStarts (.code atoms :: sections) = starts atoms ++ sectionStarts sections :=
        starts_append _ _
      rw [encodeSections, here]
      by_cases bad : addr = badAddress
      · rw [if_pos bad, bad]
        exact List.mem_cons_self
      · rw [if_neg bad]
        have later := ih headerless.2 (encodeAtoms addr atoms).2
        dsimp only
        cases done : encodeSections (encodeAtoms addr atoms).2 sections with
        | none =>
          rw [done] at later
          dsimp only [Option.map_none] at later ⊢
          rw [← List.cons_append, List.mem_append]
          rcases List.mem_cons.mp later with last | inside
          · exact .inl (last ▸ encodeAtoms_last addr atoms)
          · exact .inr inside
        | some bytes =>
          rw [done] at later
          dsimp only [Option.map_some] at later ⊢
          rw [later, encodeAtoms_append]

/-- **Function starts are read back**: the addresses of the atoms with content, each left out where
it is the one in front of it, and only padding is left behind the terminating zero. -/
theorem decode_functionStarts (pointerSize : Nat) (image : Image) :
    match encode pointerSize image.sections with
    | none => badAddress ∈ image.machHeader :: image.functions
    | some bytes => ∃ count,
        decode image.machHeader bytes = some (recorded image.machHeader image.functions, List.replicate count 0) := by
  have spec := encodeSections_spec image.oneHeader image.machHeader
  have whole : encodeSections badAddress image.sections = encodeSections image.machHeader image.behind := by
    rw [Image.sections, encodeSections_front image.headerFirst]
    rfl
  rw [encode, whole]
  cases done : encodeSections image.machHeader image.behind with
  | none =>
    rw [done] at spec
    exact spec
  | some bytes =>
    rw [done] at spec
    obtain ⟨count, padded⟩ := padToSize_eq pointerSize (bytes ++ [0])
    refine ⟨count, ?_⟩
    dsimp only
    rw [padded, List.append_assoc, spec]
    exact readUntil_deltas (le_refl 64) (moves_recorded image.machHeader _) _

/-- A function and a label at its end, where the next section begins. -/
def trailingLabel : Image where
  front := []
  machHeader := 0x1000
  behind := [.code [⟨16, 0x2000, false⟩, ⟨0, 0x2010, false⟩]]
  headerFirst := by simp
  oneHeader := by simp

theorem trailingLabel_missing :
    (trailingLabel.sections.flatMap FinalSection.atoms).map Atom.nextAddr = [0x2000, 0x2010] ∧
      ∃ bytes rest, encode 8 trailingLabel.sections = some bytes ∧
        decode trailingLabel.machHeader bytes = some ([0x2000], rest) :=
  ⟨by decide, _, _, rfl, rfl⟩

end Cctools.LinkEdit.FunctionStarts
