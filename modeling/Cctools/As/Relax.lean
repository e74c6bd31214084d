/-
# Cctools.As.Relax -- frags and the relaxation of a section

`relax_section` of the assembler's layout.c.  A section is a chain of frags; each
has a fixed part and a variable one, whose size follows from addresses: of the
frag itself for an alignment, of labels for the rest.  A first loop guesses the
sizes (`firstGuess`), then passes over the chain move every frag by what the frags
before it grew (`pass`) until a pass in which nothing grows.

`layoutAddresses` relaxes the sections of each layout pass again and again until
no frag of them has a new address.

What a `rs_machine_dependent` frag does is the target's: a `Target` is its
`md_estimate_size_before_relax` and its step of a pass, from `md_relax_table` or,
in the ARM assembler, from `arm_relax_frag`.

`stretch` and `target` are `int32_t` in the source; here they are integers, which
is the same for sections below two gigabytes.  The alignment a section takes from
its `rs_align` frags and the fixups made on the way are left out.
-/
import Cctools.Theory.Loop
import Mathlib.Algebra.GroupWithZero.Nat
import Mathlib.Algebra.Ring.Int.Defs

namespace Cctools.As

set_option autoImplicit false

open Cctools.Theory.Loop

/-! ## Frags -/

/-- A symbol of the section, by the frag it is in, or with no frag an absolute address. -/
structure Label where
  frag : Option Nat
  value : Int
  deriving DecidableEq, Repr

structure Expression where
  addSymbol : Option Label
  subtractSymbol : Option Label
  addNumber : Int
  deriving DecidableEq, Repr

/-- `fr_type` with the fields of a frag that belong to it.  `M` is what the target keeps for its
own frags. -/
inductive Kind (M : Type) where
  /-- `fr_offset * fr_var` bytes. -/
  | fill (bytes : Int)
  /-- To a power of two, with at most `maxBytes` of filling unless that is zero. -/
  | align (power : Nat) (maxBytes : Int)
  | org (symbol : Option Label) (offset : Int)
  | machineDependent (code : M)
  /-- The symbols are of a section laid out before, so their difference is a number. -/
  | dwarf2dbg (lineDelta addrDelta size : Int)
  | leb128 (sign : Bool) (value : Expression) (size : Int)
  deriving DecidableEq, Repr

/-- A frag without its address. -/
structure Body (M : Type) where
  fix : Int
  kind : Kind M
  deriving DecidableEq, Repr

structure Frag (M : Type) where
  address : Int
  body : Body M
  deriving DecidableEq, Repr

section Labels

variable {M : Type}

def fragAddress (frags : List (Frag M)) (index : Nat) : Int :=
  (frags[index]?.map Frag.address).getD 0

def Label.address (frags : List (Frag M)) (label : Label) : Int :=
  label.value + (label.frag.map (fragAddress frags)).getD 0

def Expression.eval (frags : List (Frag M)) (expression : Expression) : Int :=
  (expression.addSymbol.map (Label.address frags)).getD 0 -
    (expression.subtractSymbol.map (Label.address frags)).getD 0 + expression.addNumber

end Labels

/-! ## Sizes -/

/-- How many bytes to the next address with `alignment` low bits clear. -/
def relaxAlign (address : Int) (alignment : Nat) : Int :=
  let mask := 2 ^ alignment - 1
  (address + mask) / 2 ^ alignment * 2 ^ alignment - address

/-- An alignment that would take more than its maximum is ignored. -/
def alignFill (address : Int) (alignment : Nat) (maxBytes : Int) : Int :=
  let offset := relaxAlign address alignment
  if maxBytes ≠ 0 ∧ maxBytes < offset then 0 else offset

/-- Seven bits at a time; ten groups are more than 64 bits. -/
def sizeofUleb128 : Nat → Nat → Nat
  | 0, _ => 0
  | groups + 1, value =>
    if value / 128 = 0 then 1 else 1 + sizeofUleb128 groups (value / 128)

def sizeofSleb128 : Nat → Int → Nat
  | 0, _ => 0
  | groups + 1, value =>
    if value / 128 = 0 ∧ value % 128 < 64 ∨ value / 128 = -1 ∧ 64 ≤ value % 128 then 1
    else 1 + sizeofSleb128 groups (value / 128)

/-- `valueT` has `bits` bits. -/
def sizeofLeb128 (bits : Nat) (value : Int) (sign : Bool) : Int :=
  if sign then sizeofSleb128 10 (value.bmod (2 ^ bits))
  else sizeofUleb128 10 (value % 2 ^ bits).toNat

/-- `DWARF2_LINE_BASE` is -5, `DWARF2_LINE_RANGE` 14, `DWARF2_LINE_OPCODE_BASE` 13 and
`MAX_SPECIAL_ADDR_DELTA` 17. -/
def sizeIncLineAddr (bits : Nat) (lineDelta addrDelta : Int) : Int :=
  let addr := addrDelta % 2 ^ bits
  if lineDelta = 0x7fffffff then
    (if addr = 17 then 1 else 1 + sizeofLeb128 bits addr false) + 3
  else
    let special := 0 ≤ lineDelta + 5 ∧ lineDelta + 5 < 14
    let len := if special then 0 else 1 + sizeofLeb128 bits lineDelta true
    let opcode := (if special then lineDelta + 5 else 5) + 13
    if addr < 256 + 17 ∧ opcode + addr * 14 ≤ 255 then len + 1
    else if addr < 256 + 17 ∧ opcode + (addr - 17) * 14 ≤ 255 then len + 2
    else len + 1 + sizeofLeb128 bits addr false + 1

/-! ## Targets -/

/-- Where a frag is when its target relaxes it: the chain with the frags before it moved, its
place, its address before and after it was moved, and by how much. -/
structure Site (M : Type) where
  frags : List (Frag M)
  index : Nat
  wasAddress : Int
  address : Int
  stretch : Int

/-- The machine-dependent part of the assembler. -/
structure Machine (M : Type) where
  bits : Nat
  /-- The frag to go on with, and the guess. -/
  estimate : Int → M → Body M × Int
  /-- The frag to go on with, and its growth. -/
  relax : Site M → Int → M → Body M × Int

/-! ## The first guess -/

section Relax

variable {M : Type} (machine : Machine M)

/-- What the first loop makes of a frag. -/
def guess (body : Body M) : Body M :=
  match body.kind with
  | .machineDependent code => (machine.estimate body.fix code).1
  | .dwarf2dbg lineDelta addrDelta _ =>
    let size := sizeIncLineAddr machine.bits lineDelta addrDelta
    { body with kind := .dwarf2dbg lineDelta addrDelta size }
  | .leb128 sign value _ => { body with kind := .leb128 sign value 1 }
  | _ => body

/-- The bytes it counts for the frag at an address. -/
def guessBytes (address : Int) (body : Body M) : Int :=
  body.fix +
    match body.kind with
    | .fill bytes => bytes
    | .align power maxBytes => alignFill (address + body.fix) power maxBytes
    -- a .org grows with the first pass
    | .org _ _ => 0
    | .machineDependent code => (machine.estimate body.fix code).2
    | .dwarf2dbg lineDelta addrDelta _ => sizeIncLineAddr machine.bits lineDelta addrDelta
    | .leb128 _ _ _ => 1

def firstGuess : Int → List (Body M) → List (Frag M)
  | _, [] => []
  | address, body :: rest =>
    ⟨address, guess machine body⟩ :: firstGuess (address + guessBytes machine address body) rest

/-! ## A pass -/

/-- One frag of a pass: what becomes of it, and its growth.  `next` is the address of the frag
after it, which this pass has not moved yet; a section ends in a `.fill`, so a `.org` has one. -/
def relaxFrag (site : Site M) (next : Option Int) (body : Body M) : Body M × Int :=
  match body.kind with
  | .fill _ => (body, 0)
  | .align power maxBytes =>
    (body, alignFill (site.address + body.fix) power maxBytes -
      alignFill (site.wasAddress + body.fix) power maxBytes)
  | .org symbol offset =>
    let target := offset + (symbol.map (Label.address site.frags)).getD 0
    match next with
    | some after => (body, (if target - after > 0 then target - after else 0) - site.stretch)
    | none => (body, 0)
  | .machineDependent code => machine.relax site body.fix code
  | .dwarf2dbg lineDelta addrDelta size =>
    let newSize := sizeIncLineAddr machine.bits lineDelta addrDelta
    ({ body with kind := .dwarf2dbg lineDelta addrDelta newSize }, newSize - size)
  | .leb128 sign value size =>
    let newSize := sizeofLeb128 machine.bits (value.eval site.frags) sign
    ({ body with kind := .leb128 sign value newSize }, newSize - size)

/-- The rest of a pass, with each frag's growth. -/
def passFrom (before : List (Frag M)) : List (Frag M) → Int → List (Frag M × Int)
  | [], _ => []
  | frag :: rest, stretch =>
    let moved : Frag M := { frag with address := frag.address + stretch }
    let site : Site M :=
      ⟨before ++ moved :: rest, before.length, frag.address, moved.address, stretch⟩
    let relaxed := relaxFrag machine site (rest.head?.map Frag.address) frag.body
    let grown : Frag M := { moved with body := relaxed.1 }
    (grown, relaxed.2) :: passFrom (before ++ [grown]) rest (stretch + relaxed.2)

def growths (frags : List (Frag M)) : List Int := (passFrom machine [] frags 0).map Prod.snd

/-- A pass, and whether something grew or shrank in it. -/
def pass (frags : List (Frag M)) : List (Frag M) × Bool :=
  ((passFrom machine [] frags 0).map Prod.fst, (growths machine frags).any (· ≠ 0))

def relaxSection (fuel : Nat) (bodies : List (Body M)) : Option (List (Frag M)) :=
  doWhile (fun frags => some (pass machine frags)) fuel (firstGuess machine 0 bodies)

/-! ## The sections -/

structure Section (M : Type) where
  bodies : List (Body M)
  /-- `last_fr_address` of each frag. -/
  last : List Int
  layoutPass : Nat
  zerofill : Bool
  deriving DecidableEq, Repr

/-- `relax_section` returns whether a frag has another address than after the last call. -/
def Section.relax (fuel : Nat) (part : Section M) : Option (Section M × Bool) :=
  (relaxSection machine fuel part.bodies).map fun frags =>
    ({ part with bodies := frags.map Frag.body, last := frags.map Frag.address },
      frags.map Frag.address ≠ part.last)

/-- One round over the sections of a layout pass. -/
def layoutRound (fuel layoutPass : Nat) : List (Section M) → Option (List (Section M) × Bool)
  | [] => some ([], false)
  | part :: rest =>
    if part.layoutPass ≠ layoutPass ∨ part.zerofill then
      (layoutRound fuel layoutPass rest).map fun others => (part :: others.1, others.2)
    else
      (part.relax machine fuel).bind fun relaxed =>
        (layoutRound fuel layoutPass rest).map fun others =>
          (relaxed.1 :: others.1, relaxed.2 || others.2)

def layoutAddresses (fuel : Nat) (sections : List (Section M)) : Option (List (Section M)) :=
  (doWhile (layoutRound machine fuel 0) fuel sections).bind fun sections =>
    (doWhile (layoutRound machine fuel 1) fuel sections).bind fun sections =>
      doWhile (layoutRound machine fuel 2) fuel sections

end Relax

end Cctools.As
