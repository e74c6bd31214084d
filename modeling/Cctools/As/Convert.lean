/-
# Cctools.As.Convert -- from relaxed sections to the bytes of the file

What `layout_addresses` does with its sections once their sizes are known: it slides
each behind the one before (`slideOver`), converts every frag to a `.fill`
(`convertFrag`), and `write_object` copies `fr_fix + fr_offset * fr_var` bytes for
each (`Converted.bytes`).

A section takes its alignment from the `.align`s without a maximum when they are
read, and from those with one in the first loop of `relax_section`, when that loop
does not skip them (`guessAlign`).

`Frchain` is a section with all this; `Frchain.part` is what the relaxation sees of
it, so `relaxFrchains` is `layoutAddresses` with the alignments
(`relaxFrchains_parts`).

The bytes a conversion writes into a frag, and the fixups, are left out.
-/
import Cctools.As.I386
import Mathlib.Data.List.Chain

namespace Cctools.As

set_option autoImplicit false

open Cctools.Theory.Loop

/-! ## Sections -/

/-- What else the conversion reads of a frag. -/
structure Filling where
  /-- `fr_var`: the bytes of a `.fill`'s value. -/
  fillSize : Nat
  /-- One-byte nops, of a section of instructions, and `-dynamic`. -/
  nops : Bool
  /-- The sections of the two symbols of a leb128, none for an absolute one. -/
  addSection : Option Nat
  subtractSection : Option Nat
  deriving DecidableEq, Repr

structure Frchain (M : Type) where
  bodies : List (Body M)
  fillings : List Filling
  /-- `last_fr_address` of each frag, which is also where it is. -/
  last : List Int
  align : Nat
  debug : Bool
  hasLeb128s : Bool
  zerofill : Bool
  /-- The size of a zerofill section, which has no frags to relax. -/
  zerofillSize : Int
  deriving DecidableEq, Repr

section Frchain

variable {M : Type}

def Frchain.layoutPass (chain : Frchain M) : Nat :=
  if chain.debug then 2 else if chain.hasLeb128s then 1 else 0

def Frchain.part (chain : Frchain M) : Section M :=
  ⟨chain.bodies, chain.last, chain.layoutPass, chain.zerofill⟩

def Frchain.frags (chain : Frchain M) : List (Frag M) :=
  List.zipWith Frag.mk chain.last chain.bodies

variable (machine : Machine M)

/-- The section's alignment after the first loop. -/
def guessAlign (align : Nat) : Int → List (Body M) → Nat
  | _, [] => align
  | address, body :: rest =>
    let raised :=
      match body.kind with
      | .align power maxBytes =>
        if maxBytes ≠ 0 ∧ relaxAlign (address + body.fix) power ≤ maxBytes then max align power
        else align
      | _ => align
    guessAlign raised (address + guessBytes machine address body) rest

def Frchain.relax (fuel : Nat) (chain : Frchain M) : Option (Frchain M × Bool) :=
  (relaxSection machine fuel chain.bodies).map fun frags =>
    ({ chain with
        bodies := frags.map Frag.body
        last := frags.map Frag.address
        align := guessAlign machine chain.align 0 chain.bodies },
      frags.map Frag.address ≠ chain.last)

def relaxRound (fuel layoutPass : Nat) : List (Frchain M) → Option (List (Frchain M) × Bool)
  | [] => some ([], false)
  | chain :: rest =>
    if chain.layoutPass ≠ layoutPass ∨ chain.zerofill then
      (relaxRound fuel layoutPass rest).map fun others => (chain :: others.1, others.2)
    else
      (chain.relax machine fuel).bind fun relaxed =>
        (relaxRound fuel layoutPass rest).map fun others =>
          (relaxed.1 :: others.1, relaxed.2 || others.2)

def relaxFrchains (fuel : Nat) (chains : List (Frchain M)) : Option (List (Frchain M)) :=
  (doWhile (relaxRound machine fuel 0) fuel chains).bind fun chains =>
    (doWhile (relaxRound machine fuel 1) fuel chains).bind fun chains =>
      doWhile (relaxRound machine fuel 2) fuel chains

/-! ### What the relaxation sees -/

theorem relaxRound_parts (fuel layoutPass : Nat) (chains : List (Frchain M)) :
    (relaxRound machine fuel layoutPass chains).map
        (fun round => (round.1.map Frchain.part, round.2)) =
      layoutRound machine fuel layoutPass (chains.map Frchain.part) := by
  induction chains with
  | nil => rfl
  | cons chain rest ih =>
    rw [relaxRound, List.map_cons, layoutRound, ← ih]
    have same : chain.part.layoutPass = chain.layoutPass ∧ chain.part.zerofill = chain.zerofill :=
      ⟨rfl, rfl⟩
    rw [same.1, same.2]
    by_cases skipped : chain.layoutPass ≠ layoutPass ∨ chain.zerofill
    · rw [if_pos skipped, if_pos skipped]
      cases relaxRound machine fuel layoutPass rest <;> rfl
    · rw [if_neg skipped, if_neg skipped, Frchain.relax, Section.relax, Frchain.part]
      cases relaxSection machine fuel chain.bodies with
      | none => rfl
      | some frags => cases relaxRound machine fuel layoutPass rest <;> rfl

/-- **The loops are those of `layoutAddresses`**, which has no use for the alignments. -/
theorem relaxFrchains_parts (fuel : Nat) (chains : List (Frchain M)) :
    (relaxFrchains machine fuel chains).map (List.map Frchain.part) =
      layoutAddresses machine fuel (chains.map Frchain.part) := by
  have loops := fun layoutPass => @doWhile_map _ (relaxRound machine fuel layoutPass) _
    (layoutRound machine fuel layoutPass) (List.map Frchain.part)
    (relaxRound_parts machine fuel layoutPass) fuel
  rw [relaxFrchains, layoutAddresses, ← loops 0]
  cases doWhile (relaxRound machine fuel 0) fuel chains with
  | none => rfl
  | some first =>
    simp only [Option.bind_some, Option.map_some]
    rw [← loops 1]
    cases doWhile (relaxRound machine fuel 1) fuel first with
    | none => rfl
    | some second => exact loops 2 second

end Frchain

/-! ## The slide -/

/-- To the next multiple of a power of two. -/
def rnd (value : Int) (power : Nat) : Int := (value + (2 ^ power - 1)) / 2 ^ power * 2 ^ power

section Slide

variable {M : Type}

/-- `fr_address` of the last frag. -/
def Frchain.size (chain : Frchain M) : Int :=
  if chain.zerofill then chain.zerofillSize else chain.last.getLastD 0

/-- The addresses of the sections with contents, or of the zerofill ones, and where they end. -/
def slideOver (zerofill : Bool) : Int → List (Frchain M) → List (Option Int) × Int
  | slide, [] => ([], slide)
  | slide, chain :: rest =>
    if chain.zerofill = zerofill then
      let start := rnd slide chain.align
      let others := slideOver zerofill (start + chain.size) rest
      (some start :: others.1, others.2)
    else
      let others := slideOver zerofill slide rest
      (none :: others.1, others.2)

/-- The address of each section; those with contents come first. -/
def sectionStarts (chains : List (Frchain M)) : List Int :=
  let contents := slideOver false 0 chains
  let zerofills := slideOver true contents.2 chains
  List.zipWith (fun here behind => (here.or behind).getD 0) contents.1 zerofills.1

/-- Each frag's address in the object file. -/
def slid (start : Int) (frags : List (Frag M)) : List (Frag M) :=
  frags.map fun frag => { frag with address := frag.address + start }

end Slide

/-! ## The conversion -/

/-- A frag made a `.fill`. -/
structure Converted where
  fix : Int
  offset : Int
  var : Int
  deriving DecidableEq, Repr

/-- What `write_object` copies of it. -/
def Converted.bytes (converted : Converted) : Int := converted.fix + converted.offset * converted.var

/-- A target with what its `md_convert_frag` adds to the fixed part of a frag, which is what it was
counted for. -/
structure Converter (M : Type) extends Machine M where
  extension : M → Int
  estimate_extension : ∀ fix code,
    (∃ next, (estimate fix code).1.kind = .machineDependent next ∧
      (estimate fix code).1.fix + extension next = fix + (estimate fix code).2) ∨
    (∃ bytes, (estimate fix code).1.kind = .fill bytes ∧
      (estimate fix code).1.fix + bytes = fix + (estimate fix code).2)
  relax_extension : ∀ site fix code,
    (∃ next, (relax site fix code).1 = ⟨fix, .machineDependent next⟩ ∧
      extension next = extension code + (relax site fix code).2)
  relax_still : ∀ site fix code, (relax site fix code).2 = 0 →
    (relax site fix code).1 = ⟨fix, .machineDependent code⟩

section Convert

variable {M : Type} (converter : Converter M)

def outputUleb128 : Nat → Nat → List Nat
  | 0, _ => []
  | groups + 1, value =>
    if value / 128 = 0 then [value % 128]
    else (value % 128 + 128) :: outputUleb128 groups (value / 128)

def outputSleb128 : Nat → Int → List Int
  | 0, _ => []
  | groups + 1, value =>
    if value / 128 = 0 ∧ value % 128 < 64 ∨ value / 128 = -1 ∧ 64 ≤ value % 128 then [value % 128]
    else (value % 128 + 128) :: outputSleb128 groups (value / 128)

/-- How many bytes `output_leb128` writes, when it comes to an end: a `valueT` that is negative is never
done without a sign. -/
def outputLeb128 (bits : Nat) (value : Int) (sign : Bool) : Int :=
  if sign then (outputSleb128 10 (value.bmod (2 ^ bits))).length
  else (outputUleb128 10 (value % 2 ^ bits).toNat).length

/-- The `.fill` for `nbytes` of filling; fewer than none are none, with a warning. -/
def convertFill (align : Bool) (fix nbytes : Int) (filling : Filling) : Converted :=
  let nbytes := if nbytes < 0 then 0 else nbytes
  -- i386_align_code makes the whole filling one value
  if align ∧ filling.nops ∧ filling.fillSize = 1 ∧ 0 < nbytes ∧ nbytes < 16 then ⟨fix, 1, nbytes⟩
  else ⟨fix + nbytes % filling.fillSize, nbytes / filling.fillSize, filling.fillSize⟩

/-- The value of a leb128 when the symbols have their addresses in the file. -/
def settledValue (starts : List Int) (frags : List (Frag M)) (value : Expression)
    (filling : Filling) : Int :=
  value.eval frags + (filling.addSection.bind (starts[·]?)).getD 0 -
    (filling.subtractSection.bind (starts[·]?)).getD 0

/-- `next` is the address of the frag after it. -/
def convertFrag (starts : List Int) (frags : List (Frag M)) (filling : Filling)
    (next : Option Int) (frag : Frag M) : Converted :=
  let nbytes := next.getD (frag.address + frag.body.fix) - frag.address - frag.body.fix
  match frag.body.kind with
  | .fill bytes => ⟨frag.body.fix, bytes, 1⟩
  | .align _ _ => convertFill true frag.body.fix nbytes filling
  | .org _ _ => convertFill false frag.body.fix nbytes filling
  | .machineDependent code => ⟨frag.body.fix + converter.extension code, 0, 0⟩
  | .dwarf2dbg _ _ size => ⟨frag.body.fix + size, 0, 0⟩
  | .leb128 sign value _ =>
    ⟨frag.body.fix + outputLeb128 converter.bits (settledValue starts frags value filling) sign, 0, 0⟩

/-- A new frag is all zeros. -/
def Frchain.filling (chain : Frchain M) (i : Nat) : Filling :=
  chain.fillings[i]?.getD ⟨0, false, none, none⟩

/-- The frags of a section after the loop, in their places. -/
def Frchain.converted (starts : List Int) (start : Int) (chain : Frchain M) (i : Nat) :
    Option Converted :=
  (slid start chain.frags)[i]?.map fun frag =>
    convertFrag converter starts chain.frags (chain.filling i)
      ((slid start chain.frags)[i + 1]?.map Frag.address) frag

/-- Where `write_object` puts the bytes of the `i`th frag of a section whose contents begin at
`offset` in the file. -/
def Frchain.position (starts : List Int) (start offset : Int) (chain : Frchain M) : Nat → Int
  | 0 => offset
  | i + 1 => chain.position starts start offset i +
      ((chain.converted converter starts start i).map Converted.bytes).getD 0

end Convert

/-! ## Jumps -/

/-- By the states of `md_relax_table`; any other is a `BAD_CASE`. -/
def mdConvertExtension : Nat → Int
  | 0 | 1 | 4 | 5 | 8 | 9 => 1
  | 2 => 4
  | 3 => 2
  | 6 | 10 => 5
  | 7 => 3
  | 11 => 4
  | _ => 0

theorem mdConvertExtension_eq (state : Nat) : mdConvertExtension state = (relaxType state).length := by
  have table : ∀ state < 12, mdConvertExtension state = (relaxType state).length := by decide
  by_cases inside : state < 12
  · exact table state inside
  · obtain ⟨more, rfl⟩ : ∃ more, state = more + 12 := ⟨state - 12, by omega⟩
    rfl

/-- From the opcode to the jump's target, which is in the jump's section, so that both have slid
alike. -/
def displacement (frags : List (Frag Jump)) (frag : Frag Jump) (jump : Jump) : Int :=
  jump.offset + (jump.symbol.map (Label.address frags)).getD 0 - (frag.address + frag.body.fix)

theorem i386_estimate_extension (bits : Nat) (fix : Int) (jump : Jump) :
    (∃ next, ((i386Machine bits).estimate fix jump).1.kind = .machineDependent next ∧
      ((i386Machine bits).estimate fix jump).1.fix + mdConvertExtension next.subtype =
        fix + ((i386Machine bits).estimate fix jump).2) ∨
    (∃ bytes, ((i386Machine bits).estimate fix jump).1.kind = .fill bytes ∧
      ((i386Machine bits).estimate fix jump).1.fix + bytes = fix + ((i386Machine bits).estimate fix jump).2) := by
  cases symbol : jump.symbol with
  | none => exact .inr ⟨0, by simp [i386Machine, mdEstimateSizeBeforeRelax, symbol]⟩
  | some label =>
    exact .inl ⟨jump, by
      simp [i386Machine, mdEstimateSizeBeforeRelax, symbol, mdConvertExtension_eq]⟩

theorem i386_relax_extension (bits : Nat) (site : Site Jump) (fix : Int) (jump : Jump) :
    ∃ next, ((i386Machine bits).relax site fix jump).1 = ⟨fix, .machineDependent next⟩ ∧
      mdConvertExtension next.subtype =
        mdConvertExtension jump.subtype + ((i386Machine bits).relax site fix jump).2 := by
  simp only [i386Machine, relaxJump, mdConvertExtension_eq]
  split
  · exact ⟨_, rfl, by dsimp only; omega⟩
  · exact ⟨jump, rfl, by dsimp only; omega⟩

theorem i386_relax_still (bits : Nat) (site : Site Jump) (fix : Int) (jump : Jump)
    (still : ((i386Machine bits).relax site fix jump).2 = 0) :
    ((i386Machine bits).relax site fix jump).1 = ⟨fix, .machineDependent jump⟩ := by
  simp only [i386Machine, relaxJump] at still ⊢
  split
  · rename_i grows
    rw [if_pos grows] at still
    exact absurd still grows
  · rfl

def i386Converter (bits : Nat) : Converter Jump where
  toMachine := i386Machine bits
  extension jump := mdConvertExtension jump.subtype
  estimate_extension := i386_estimate_extension bits
  relax_extension := i386_relax_extension bits
  relax_still := i386_relax_still bits

/-! ## The sections in the file -/

section Offsets

variable {M : Type}

/-- The next address of a section with contents. -/
def nextStart : List (Frchain M × Int) → Option Int
  | [] => none
  | (chain, start) :: rest => if chain.zerofill then nextStart rest else some start

/-- The offsets of the sections; a section with contents goes on to the next one's address. -/
def sectionOffsets : Int → List (Frchain M × Int) → List Int
  | _, [] => []
  | offset, (chain, start) :: rest =>
    if chain.zerofill then 0 :: sectionOffsets offset rest
    else offset :: sectionOffsets (offset + ((nextStart rest).getD (start + chain.size) - start)) rest

end Offsets

end Cctools.As
