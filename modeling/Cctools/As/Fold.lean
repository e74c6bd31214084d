/-
# Cctools.As.Fold -- folding the difference of two labels

`try_to_make_absolute` of the assembler's expr.c against the addresses of
`relax_section`.  A difference within a frag is the difference of the values; behind it
the frags from the one label to the other are walked over as if the first began at zero.

`fold_sound` says when the constant is right in the section as it is completed and laid
out: the walk takes an alignment's padding from its own count and has no maximum
(`misjudged`), it counts in 32 bits, and it drops the constant of the expression.
-/
import Cctools.As.Consistent
import Mathlib.Algebra.Order.Ring.Int
import Mathlib.Tactic.Positivity

namespace Cctools.As

set_option autoImplicit false

open Cctools.Theory Cctools.Theory.Loop

/-! ## Expressions -/

inductive Seg
  | absolute
  | diffSect
  | other
  deriving DecidableEq, Repr

structure Symbol where
  type : BitVec 8
  label : Label
  deriving DecidableEq, Repr

/-- `(sy_type & N_TYPE) == N_SECT` -/
def Symbol.isSect (symbol : Symbol) : Bool := symbol.type &&& 0x0e = 0x0e

structure ExpressionS where
  seg : Seg
  addSymbol : Option Symbol
  subtractSymbol : Option Symbol
  addNumber : BitVec 64
  deriving DecidableEq, Repr

def difference (add subtract : Symbol) (number : BitVec 64) : ExpressionS :=
  ⟨.diffSect, some add, some subtract, number⟩

def constant (number : BitVec 64) : ExpressionS := ⟨.absolute, none, none, number⟩

/-- The bits of `sy_value`. -/
def valueBits (arch64 : Bool) : Nat := if arch64 then 64 else 32

/-! ## Folding -/

section Folding

variable {M : Type}

/-- `size` is below 2^32. -/
def rnd32 (size : Int) (power : Nat) : Int := (size + (2 ^ power - 1)) % 2 ^ 32 / 2 ^ power * 2 ^ power

/-- The walk from the frag at `index` to the one at `target`; `none` is that it fails or ends. -/
def chainSize (target : Nat) : Nat → Int → List (Body M) → Option Int
  | _, _, [] => none
  | index, size, body :: rest =>
    if index = target then some size
    else
      match body.kind with
      | .align power _ => chainSize target (index + 1) (rnd32 ((size + body.fix) % 2 ^ 32) power) rest
      | .fill bytes => chainSize target (index + 1) ((size + (body.fix + bytes)) % 2 ^ 32) rest
      | _ => none

/-- **`try_to_make_absolute`** in a section with `frags` so far. -/
def tryToMakeAbsolute (flagK arch64 : Bool) (frags : List (Body M)) (exp : ExpressionS) : ExpressionS :=
  match exp.seg, exp.addSymbol, exp.subtractSymbol with
  | .diffSect, some add, some subtract =>
    if flagK || !add.isSect || !subtract.isSect then exp
    else
      let values := add.label.value - subtract.label.value
      match add.label.frag, subtract.label.frag with
      | some target, some start =>
        if target = start then
          -- the values are cast to `int` here
          if exp.addNumber.toInt + add.label.value.bmod (2 ^ 32) - subtract.label.value.bmod (2 ^ 32) ≥ 0 then
            constant (exp.addNumber + BitVec.ofInt 64 (values % 2 ^ valueBits arch64))
          else exp
        else
          match chainSize target start 0 (frags.drop start) with
          | some size => constant (BitVec.ofInt 64 ((size + values) % 2 ^ valueBits arch64))
          | none => exp
      | _, _ => exp
  | _, _, _ => exp

/-- A section later on: the last frag, which is incomplete, has been finished, and others follow it. -/
def Completes (before after : List (Body M)) : Prop := ∃ last more, after = before.dropLast ++ last :: more

/-- **A constant that the difference is folded to is the one of the final addresses.** -/
def FoldSound (flagK arch64 : Bool) (before : List (Body M)) (frags : List (Frag M)) (add subtract : Symbol)
    (number : BitVec 64) : Prop :=
  let folded := tryToMakeAbsolute flagK arch64 before (difference add subtract number)
  folded.seg = .absolute →
    folded.addNumber = number + BitVec.ofInt 64 (add.label.address frags - subtract.label.address frags)

/-! ## What the walk counts -/

def Kind.isPlain : Kind M → Bool
  | .fill _ | .align _ _ => true
  | _ => false

/-- The bytes of a frag for the walk, which is at `size`. -/
def Body.counted (size : Int) (body : Body M) : Int :=
  body.fix +
    match body.kind with
    | .fill bytes => bytes
    | .align power _ => relaxAlign (size + body.fix) power
    | _ => 0

/-- The bytes of a frag at `address`. -/
def Body.taken (address : Int) (body : Body M) : Int :=
  body.fix +
    match body.kind with
    | .fill bytes => bytes
    | .align power maxBytes => alignFill (address + body.fix) power maxBytes
    | _ => 0

def walked (size : Int) : List (Body M) → Int
  | [] => size
  | body :: rest => walked (size + body.counted size) rest

/-- By how much the walk is too long, from `address` on: padding that an alignment does not have there. -/
def misjudged (address size : Int) : List (Body M) → Int
  | [] => 0
  | body :: rest =>
    body.counted size - body.taken address +
      misjudged (address + body.taken address) (size + body.counted size) rest

/-- The frags from that of the one label up to that of the other. -/
def between (frags : List (Body M)) (start target : Nat) : List (Body M) := (frags.drop start).take (target - start)

/-- The walk gets to the frag at `target`. -/
def Walkable (frags : List (Body M)) (start target : Nat) : Prop :=
  start ≤ target ∧ target < frags.length ∧ ∀ body ∈ between frags start target, body.kind.isPlain

/-- `address` is a multiple of every alignment of the chain. -/
def Multiple (chain : List (Body M)) (address : Int) : Prop :=
  ∀ body ∈ chain, ∀ power maxBytes, body.kind = .align power maxBytes → (2 : Int) ^ power ∣ address

/-- No alignment of the chain, which is at `address`, is skipped for its maximum. -/
def Unskipped (address : Int) : List (Body M) → Prop
  | [] => True
  | body :: rest =>
    (∀ power maxBytes, body.kind = .align power maxBytes →
      ¬ alignSkipped (address + body.fix) power maxBytes) ∧
      Unskipped (address + body.taken address) rest

/-- The distance that is folded fits the counter, or on a 32-bit target the type of the sum. -/
def Short (arch64 : Bool) (distance values : Int) : Prop :=
  if arch64 then 0 ≤ distance ∧ distance < 2 ^ 32 else 0 ≤ distance + values ∧ distance + values < 2 ^ 32

/-- **When a difference is not folded, or what is folded is what is there**: within a frag the values
are not too far apart for `sy_value`; else there is no number to drop, the walk begins at a multiple of
the alignments it comes to, none of them is skipped, and the distance is short. -/
def Foldable (flagK arch64 : Bool) (before : List (Body M)) (frags : List (Frag M)) (add subtract : Symbol)
    (number : BitVec 64) : Prop :=
  let values := add.label.value - subtract.label.value
  (flagK || !add.isSect || !subtract.isSect) ∨
    match add.label.frag, subtract.label.frag with
    | some target, some start =>
      if target = start then
        number.toInt + add.label.value.bmod (2 ^ 32) - subtract.label.value.bmod (2 ^ 32) < 0 ∨ arch64 ∨
          values % 2 ^ 64 < 2 ^ 32
      else
        Walkable before start target →
          number = 0 ∧ Multiple (between before start target) (fragAddress frags start) ∧
            Unskipped (fragAddress frags start) (between before start target) ∧
              Short arch64 (fragAddress frags target - fragAddress frags start) values
    | _, _ => True

/-- Where the walk goes wrong, it does in one way only: by the number or by where it begins.
`s_align` takes no power above 15. -/
def OneSlip (arch64 : Bool) (before : List (Body M)) (frags : List (Frag M)) (add subtract : Symbol)
    (number : BitVec 64) : Prop :=
  ∀ target start, add.label.frag = some target → subtract.label.frag = some start → target ≠ start →
    Walkable before start target →
      (number = 0 ∨ Multiple (between before start target) (fragAddress frags start)) ∧
        Unskipped (fragAddress frags start) (between before start target) ∧
          Short arch64 (fragAddress frags target - fragAddress frags start)
            (add.label.value - subtract.label.value) ∧
            ∀ body ∈ between before start target, ∀ power maxBytes,
              body.kind = .align power maxBytes → power ≤ 32

/-! ## The walk -/

theorem rnd32_eq (x : Int) (power : Nat) : rnd32 (x % 2 ^ 32) power = (x + relaxAlign x power) % 2 ^ 32 := by
  have positive : (0 : Int) < 2 ^ power := by positivity
  have split := Int.mul_ediv_add_emod (x + (2 ^ power - 1)) (2 ^ power)
  have least := Int.emod_nonneg (x + (2 ^ power - 1)) (by omega : (2 : Int) ^ power ≠ 0)
  have round : x + relaxAlign x power = x + (2 ^ power - 1) - (x + (2 ^ power - 1)) % 2 ^ power := by
    rw [relaxAlign]
    have commuted := Int.mul_comm ((2 : Int) ^ power) ((x + (2 ^ power - 1)) / 2 ^ power)
    omega
  rw [round, rnd32, Int.emod_add_emod]
  generalize x + (2 ^ power - 1) = y at split least ⊢
  by_cases small : power ≤ 32
  · have divides : (2 : Int) ^ power ∣ 2 ^ 32 := pow_dvd_pow 2 small
    have same := Int.emod_emod_of_dvd y divides
    have back := Int.mul_ediv_add_emod (y % 2 ^ 32) (2 ^ power)
    rw [Int.mul_comm, same] at back
    have fits := Int.emod_lt_of_pos y (by norm_num : (0 : Int) < 2 ^ 32)
    have floor : 0 ≤ y % 2 ^ 32 / 2 ^ power * 2 ^ power :=
      Int.mul_nonneg (Int.ediv_nonneg (Int.emod_nonneg _ (by norm_num)) positive.le) positive.le
    generalize y % 2 ^ power = r at back least ⊢
    generalize y % 2 ^ 32 / 2 ^ power * 2 ^ power = z at back floor ⊢
    omega
  · have large : (2 : Int) ^ 32 ≤ 2 ^ power := pow_le_pow_right₀ (by norm_num) (by omega)
    have divides : (2 : Int) ^ 32 ∣ 2 ^ power := pow_dvd_pow 2 (by omega)
    rw [Int.ediv_eq_zero_of_lt (Int.emod_nonneg _ (by norm_num))
      ((Int.emod_lt_of_pos y (by norm_num)).trans_le large), Int.zero_mul]
    have multiple : y - y % 2 ^ power = 2 ^ power * (y / 2 ^ power) := by omega
    rw [multiple]
    exact (Int.emod_eq_zero_of_dvd (divides.mul_right _)).symm

variable {target index : Nat}

theorem chainSize_past (past : target < index) (size : Int) (bodies : List (Body M)) :
    chainSize target index size bodies = none := by
  induction bodies generalizing index size with
  | nil => rfl
  | cons body rest ih =>
    rw [chainSize, if_neg (by omega)]
    split
    · exact ih (by omega) _
    · exact ih (by omega) _
    · rfl

theorem chainSize_step (before : index ≠ target) (size : Int) (body : Body M) (rest : List (Body M)) :
    chainSize target index (size % 2 ^ 32) (body :: rest) =
      if body.kind.isPlain then chainSize target (index + 1) ((size + body.counted size) % 2 ^ 32) rest else none := by
  obtain ⟨fix, kind⟩ := body
  rw [chainSize, if_neg before]
  cases kind with
  | align power maxBytes =>
    dsimp only
    rw [Int.emod_add_emod, rnd32_eq, Int.add_assoc]
    rfl
  | fill bytes =>
    dsimp only
    rw [Int.emod_add_emod]
    rfl
  | org | machineDependent | dwarf2dbg | leb128 => rfl

theorem chainSize_eq (ahead : index ≤ target) (size : Int) (bodies : List (Body M)) :
    chainSize target index (size % 2 ^ 32) bodies =
      if target - index < bodies.length ∧ ∀ body ∈ bodies.take (target - index), body.kind.isPlain then
        some (walked size (bodies.take (target - index)) % 2 ^ 32)
      else none := by
  induction bodies generalizing index size with
  | nil => rfl
  | cons body rest ih =>
    by_cases here : index = target
    · subst here
      simp [chainSize, walked]
    · obtain ⟨steps, further⟩ : ∃ steps, target - index = steps + 1 := ⟨target - index - 1, by omega⟩
      have later : target - (index + 1) = steps := by omega
      rw [chainSize_step here, ih (by omega), further, later]
      simp only [List.take_succ_cons, List.length_cons, List.forall_mem_cons, walked, Nat.add_lt_add_iff_right]
      by_cases plain : body.kind.isPlain
      · simp [plain]
      · simp [plain]

theorem walk_eq (frags : List (Body M)) (start target : Nat) :
    (Walkable frags start target ∧
        chainSize target start 0 (frags.drop start) = some (walked 0 (between frags start target) % 2 ^ 32)) ∨
      (¬Walkable frags start target ∧ chainSize target start 0 (frags.drop start) = none) := by
  by_cases ahead : start ≤ target
  · have walk := chainSize_eq ahead 0 (frags.drop start)
    rw [Int.zero_emod, List.length_drop] at walk
    by_cases walkable : Walkable frags start target
    · exact .inl ⟨walkable, by rw [walk, if_pos ⟨by have := walkable.2.1; omega, walkable.2.2⟩]; rfl⟩
    · refine .inr ⟨walkable, walk.trans (if_neg ?_)⟩
      rintro ⟨inside, plain⟩
      exact walkable ⟨ahead, by omega, plain⟩
  · exact .inr ⟨fun walkable => ahead walkable.1, chainSize_past (by omega) _ _⟩

/-! ## What the walk misjudges -/

theorem relaxAlign_shift {power : Nat} {x y : Int} (apart : (2 : Int) ^ power ∣ x - y) :
    relaxAlign x power = relaxAlign y power := by
  obtain ⟨count, apart⟩ := apart
  obtain rfl : x = y + 2 ^ power * count := by omega
  have nonzero : (2 : Int) ^ power ≠ 0 := by positivity
  rw [relaxAlign, relaxAlign, Int.add_right_comm, Int.add_mul_ediv_left _ _ nonzero, Int.add_mul, Int.mul_comm count]
  omega

section Misjudged

variable {body : Body M} {rest : List (Body M)} {address size : Int}

/-- A frag that is counted and taken from places that are apart by a multiple of its alignment. -/
theorem counted_eq_taken (done : ∀ power maxBytes, body.kind = .align power maxBytes →
      ¬ alignSkipped (address + body.fix) power maxBytes)
    (apart : ∀ power maxBytes, body.kind = .align power maxBytes → (2 : Int) ^ power ∣ address - size) :
    body.counted size = body.taken address := by
  obtain ⟨fix, kind⟩ := body
  cases kind with
  | align power maxBytes =>
    have divides := apart power maxBytes rfl
    have filled : alignFill (address + fix) power maxBytes = relaxAlign (address + fix) power :=
      if_neg (done power maxBytes rfl)
    have shifted : relaxAlign (address + fix) power = relaxAlign (size + fix) power :=
      relaxAlign_shift (by rwa [Int.add_sub_add_right])
    simp only [Body.counted, Body.taken, filled, shifted]
  | fill | org | machineDependent | dwarf2dbg | leb128 => rfl

theorem aligned_behind {power : Nat} {maxBytes : Int} (is : body.kind = .align power maxBytes)
    (done : ¬ alignSkipped (address + body.fix) power maxBytes) (size : Int) :
    (2 : Int) ^ power ∣ address + body.taken address - (size + body.counted size) := by
  have filled : alignFill (address + body.fix) power maxBytes = relaxAlign (address + body.fix) power :=
    if_neg done
  have taken := relaxAlign_dvd (address + body.fix) power
  have counted := relaxAlign_dvd (size + body.fix) power
  simp only [Body.taken, Body.counted, is, filled, ← Int.add_assoc]
  exact Int.dvd_sub taken counted

theorem apart_behind {power : Nat} (done : ∀ power maxBytes, body.kind = .align power maxBytes →
      ¬ alignSkipped (address + body.fix) power maxBytes) (apart : (2 : Int) ^ power ∣ address - size) :
    (2 : Int) ^ power ∣ address + body.taken address - (size + body.counted size) := by
  by_cases larger : ∃ other maxBytes, power ≤ other ∧ body.kind = .align other maxBytes
  · obtain ⟨other, maxBytes, le, is⟩ := larger
    exact (pow_dvd_pow 2 le).trans (aligned_behind is (done other maxBytes is) size)
  · have same : body.counted size = body.taken address := by
      refine counted_eq_taken done fun other maxBytes is => ?_
      have less : other ≤ power := by
        by_contra more
        exact larger ⟨other, maxBytes, by omega, is⟩
      exact (pow_dvd_pow 2 less).trans apart
    rw [same, Int.add_sub_add_right]
    exact apart

variable {chain : List (Body M)}

theorem misjudged_apart (unskipped : Unskipped address chain) {power : Nat}
    (apart : (2 : Int) ^ power ∣ address - size) :
    (2 : Int) ^ power ∣ address - size - misjudged address size chain := by
  induction chain generalizing address size with
  | nil => rwa [misjudged, Int.sub_zero]
  | cons body rest ih =>
    have later := ih unskipped.2 (apart_behind unskipped.1 apart)
    rw [misjudged]
    convert later using 1
    omega

theorem misjudged_aligned (unskipped : Unskipped address chain) (size : Int) :
    Multiple chain (address - size - misjudged address size chain) := by
  induction chain generalizing address size with
  | nil => exact fun one member => absurd member (List.not_mem_nil)
  | cons body rest ih =>
    have behind : address - size - misjudged address size (body :: rest) =
        address + body.taken address - (size + body.counted size) -
          misjudged (address + body.taken address) (size + body.counted size) rest := by
      rw [misjudged]
      omega
    rw [behind]
    intro one member power maxBytes is
    rcases List.mem_cons.mp member with rfl | later
    · exact misjudged_apart unskipped.2 (aligned_behind is (unskipped.1 power maxBytes is) size)
    · exact ih unskipped.2 _ one later power maxBytes is

/-- **A walk from a multiple of the alignments misjudges none of them.** -/
theorem misjudged_multiple (unskipped : Unskipped address chain)
    (apart : Multiple chain (address - size)) : misjudged address size chain = 0 := by
  induction chain generalizing address size with
  | nil => rfl
  | cons body rest ih =>
    have same : body.counted size = body.taken address :=
      counted_eq_taken unskipped.1 (apart body List.mem_cons_self)
    rw [misjudged, ih unskipped.2, same]
    · omega
    · rw [same, Int.add_sub_add_right]
      exact fun one member => apart one (List.mem_cons_of_mem _ member)

end Misjudged

/-! ## The addresses -/

variable (converter : Converter M)

/-- What the walk is over stays as it is. -/
def Keeps (body : Body M) (frag : Frag M) : Prop := body.kind.isPlain → frag.body = body

theorem firstGuess_keeps (address : Int) (bodies : List (Body M)) :
    List.Forall₂ Keeps bodies (firstGuess converter.toMachine address bodies) := by
  induction bodies generalizing address with
  | nil => exact .nil
  | cons body rest ih =>
    refine .cons (fun plain => ?_) (ih _)
    obtain ⟨fix, kind⟩ := body
    cases kind with
    | fill | align => rfl
    | org | machineDependent | dwarf2dbg | leb128 => cases plain

variable {frags : List (Frag M)}

theorem pass_keeps {bodies : List (Body M)} (keeps : List.Forall₂ Keeps bodies frags) :
    List.Forall₂ Keeps bodies (pass converter.toMachine frags).1 := by
  rw [pass, List.forall₂_map_right_iff]
  refine Theory.forall₂_trans (fun body frag relaxed keep step plain => ?_) keeps
    (passFrom_steps converter.toMachine [] frags 0)
  obtain ⟨site, next, is⟩ := step
  have same : frag.body = body := keep plain
  have relaxed_eq : relaxed.1.body = (relaxFrag converter.toMachine site next body).1 :=
    same ▸ congrArg Prod.fst is
  rw [relaxed_eq]
  obtain ⟨fix, kind⟩ := body
  cases kind with
  | fill | align => rfl
  | org | machineDependent | dwarf2dbg | leb128 => cases plain

theorem relaxSection_keeps {fuel : Nat} {bodies : List (Body M)}
    (relaxed : relaxSection converter.toMachine fuel bodies = some frags) : List.Forall₂ Keeps bodies frags := by
  obtain ⟨last, keeps, stopped⟩ := @doWhile_invariant _ _ (List.Forall₂ Keeps bodies) _ _ _
    (fun state next keeps stepped => by
      have is : (pass converter.toMachine state).1 = next := congrArg Prod.fst (Option.some.inj stepped)
      exact is ▸ pass_keeps converter keeps)
    (firstGuess_keeps converter 0 bodies) relaxed
  have is : (pass converter.toMachine last).1 = frags := congrArg Prod.fst (Option.some.inj stopped)
  exact is ▸ pass_keeps converter keeps

theorem round_keeps {bodies later : List (Body M)} (round : Round converter.toMachine bodies later) :
    List.Forall₂ (fun body after => body.kind.isPlain → after = body) bodies later := by
  induction round with
  | first => exact List.forall₂_same.mpr fun _ _ _ => rfl
  | again _ relaxed ih =>
    rw [List.forall₂_map_right_iff]
    refine forall₂_trans (fun body middle frag keep keeps plain => ?_) ih (relaxSection_keeps converter relaxed)
    obtain rfl := keep plain
    exact keeps plain

theorem called_keeps {before after : Frchain M} (called : Called converter.toMachine before after) :
    Settled converter after.frags ∧ List.Forall₂ Keeps before.bodies after.frags := by
  obtain ⟨later, align, fuel, round, _, relaxed, _⟩ := called
  refine ⟨relaxSection_settled converter relaxed, ?_⟩
  refine forall₂_trans (fun body middle frag keep keeps plain => ?_) (round_keeps converter round)
    (relaxSection_keeps converter relaxed)
  obtain rfl := keep plain
  exact keeps plain

theorem Body.taken_eq {body : Body M} (plain : body.kind.isPlain) (address : Int) :
    body.taken address = body.fix + body.kind.extra converter (address + body.fix) := by
  obtain ⟨fix, kind⟩ := body
  cases kind with
  | fill | align => rfl
  | org | machineDependent | dwarf2dbg | leb128 => cases plain

variable {converter}

/-- **From frag to frag the addresses go as the walk, but for what it misjudges.** -/
theorem Settled.walked_eq (settled : Settled converter frags) (chain : List (Body M))
    (index : Nat) (size : Int) (inside : index + chain.length < frags.length)
    (plain : ∀ body ∈ chain, body.kind.isPlain)
    (there : ∀ i, ∀ body, chain[i]? = some body → (frags[index + i]?).map Frag.body = some body) :
    fragAddress frags (index + chain.length) - fragAddress frags index =
      walked size chain - size - misjudged (fragAddress frags index) size chain := by
  induction chain generalizing index size with
  | nil => simp [walked, misjudged]
  | cons body rest ih =>
    rw [List.length_cons] at inside ⊢
    have here : (frags[index]?).map Frag.body = some body := there 0 body rfl
    obtain ⟨frag, found, rfl⟩ := Option.map_eq_some_iff.mp here
    have isPlain := plain frag.body (by simp)
    have notOrg : frag.body.kind.isOrg = false := by
      cases is : frag.body.kind with
      | org => rw [is] at isPlain; cases isPlain
      | fill | align | machineDependent | dwarf2dbg | leb128 => rfl
    have next := settled.next found (List.getElem?_eq_getElem (by omega : index + 1 < frags.length)) notOrg
    have at_ : fragAddress frags index = frag.address := by rw [fragAddress, found]; rfl
    have after : fragAddress frags (index + 1) =
        fragAddress frags index + frag.body.taken (fragAddress frags index) := by
      rw [at_, Body.taken_eq converter isPlain, fragAddress, List.getElem?_eq_getElem (by omega), Option.map_some,
        Option.getD_some, next, Frag.behind, Int.add_assoc]
    have rest_eq := ih (index + 1) (size + frag.body.counted size) (by omega)
      (fun body member => plain body (by simp [member]))
      (fun i body found => by rw [Nat.add_right_comm]; exact there (i + 1) body found)
    rw [walked, misjudged, ← after]
    rw [show index + (rest.length + 1) = index + 1 + rest.length by omega]
    omega

/-- The frags that the walk is over are those of the section as it is completed. -/
theorem between_kept {before after : List (Body M)} {start target : Nat}
    (completes : Completes before after) (keeps : List.Forall₂ Keeps after frags)
    (walkable : Walkable before start target) :
    target < frags.length ∧ ∀ i body, (between before start target)[i]? = some body →
      (frags[start + i]?).map Frag.body = some body := by
  obtain ⟨last, more, rfl⟩ := completes
  have inside : target < before.length := walkable.2.1
  refine ⟨?_, fun i body found => ?_⟩
  · rw [← keeps.length_eq, List.length_append, List.length_dropLast, List.length_cons]
    omega
  · have short : i < target - start := by
      have := (List.getElem?_eq_some_iff.mp found).1
      rw [between, List.length_take] at this
      omega
    have plain := walkable.2.2 body (List.mem_of_getElem? found)
    rw [between, List.getElem?_take_of_lt short, List.getElem?_drop] at found
    have kept : (before.dropLast ++ last :: more)[start + i]? = some body := by
      rw [List.getElem?_append_left (by rw [List.length_dropLast]; omega), List.getElem?_dropLast, if_pos (by omega)]
      exact found
    obtain ⟨frag, there, keep⟩ := forall₂_getElem? keeps kept
    rw [there, Option.map_some, keep plain]

theorem distance_eq {before after : List (Body M)} {start target : Nat}
    (completes : Completes before after) (settled : Settled converter frags)
    (keeps : List.Forall₂ Keeps after frags) (walkable : Walkable before start target) :
    fragAddress frags target - fragAddress frags start =
      walked 0 (between before start target) -
        misjudged (fragAddress frags start) 0 (between before start target) := by
  obtain ⟨inside, kept⟩ := between_kept completes keeps walkable
  have length : (between before start target).length = target - start := by
    rw [between, List.length_take, List.length_drop]
    have := walkable.2.1
    omega
  have reached : start + (between before start target).length = target := by
    rw [length]
    have := walkable.1
    omega
  have walked_eq := settled.walked_eq (between before start target) start
    0 (by omega) walkable.2.2 kept
  rw [reached] at walked_eq
  omega

/-! ## When folding is sound -/

theorem ofInt_eq_iff (x y : Int) : BitVec.ofInt 64 x = BitVec.ofInt 64 y ↔ x % 2 ^ 64 = y % 2 ^ 64 := by
  rw [← BitVec.toNat_inj, BitVec.toNat_ofInt, BitVec.toNat_ofInt]
  omega

/-- Within a frag the values are subtracted in the bits of `sy_value`. -/
theorem within_iff (arch64 : Bool) (number : BitVec 64) (values : Int) :
    number + BitVec.ofInt 64 (values % 2 ^ valueBits arch64) = number + BitVec.ofInt 64 values ↔
      arch64 ∨ values % 2 ^ 64 < 2 ^ 32 := by
  rw [BitVec.add_right_inj, ofInt_eq_iff]
  cases arch64 with
  | false =>
    simp only [valueBits, Bool.false_eq_true, if_false, false_or]
    omega
  | true =>
    simp only [valueBits, if_true, true_or, iff_true]
    omega

section Beyond

variable {arch64 : Bool} {distance values : Int}

/-- Behind it a right count leaves what the number should add. -/
theorem beyond_iff (short : Short arch64 distance values) (number : BitVec 64) :
    BitVec.ofInt 64 ((distance % 2 ^ 32 + values) % 2 ^ valueBits arch64) =
        number + BitVec.ofInt 64 (values + distance) ↔ number = 0 := by
  have right : BitVec.ofInt 64 ((distance % 2 ^ 32 + values) % 2 ^ valueBits arch64) =
      BitVec.ofInt 64 (values + distance) := by
    rw [ofInt_eq_iff]
    cases arch64 with
    | false =>
      simp only [valueBits, Short, Bool.false_eq_true, if_false] at short ⊢
      omega
    | true =>
      simp only [valueBits, Short, if_true] at short ⊢
      omega
  rw [right]
  exact BitVec.self_eq_add_left

/-- A count that comes out right is wrong by what 32 bits do not hold. -/
theorem beyond_count (short : Short arch64 distance values) {size : Int}
    (right : BitVec.ofInt 64 ((size % 2 ^ 32 + values) % 2 ^ valueBits arch64) =
      BitVec.ofInt 64 (values + distance)) : (2 : Int) ^ 32 ∣ size - distance := by
  rw [ofInt_eq_iff] at right
  cases arch64 with
  | false =>
    simp only [valueBits, Short, Bool.false_eq_true, if_false] at short right
    omega
  | true =>
    simp only [valueBits, Short, if_true] at short right
    omega

end Beyond

section Sound

variable {flagK arch64 : Bool} {before after : List (Body M)} {frags : List (Frag M)}
  {add subtract : Symbol} {number : BitVec 64} {target start : Nat}

theorem unfolded_sound (left : tryToMakeAbsolute flagK arch64 before (difference add subtract number) =
      difference add subtract number) : FoldSound flagK arch64 before frags add subtract number := by
  intro absolute
  rw [left] at absolute
  cases absolute

theorem within_sound_iff (gate : ¬ (flagK || !add.isSect || !subtract.isSect) = true)
    (addFrag : add.label.frag = some target) (subtractFrag : subtract.label.frag = some target) :
    FoldSound flagK arch64 before frags add subtract number ↔
      Foldable flagK arch64 before frags add subtract number := by
  have apart : add.label.address frags - subtract.label.address frags = add.label.value - subtract.label.value := by
    rw [Label.address, Label.address, addFrag, subtractFrag]
    omega
  unfold FoldSound Foldable tryToMakeAbsolute difference
  dsimp only
  rw [if_neg gate, or_iff_right gate, addFrag, subtractFrag, apart]
  dsimp only
  rw [if_pos rfl, if_pos rfl]
  split
  · rw [or_iff_right (by omega), ← within_iff arch64 number]
    exact ⟨fun sound => sound rfl, fun equal _ => equal⟩
  · exact iff_of_true (fun absolute => by cases absolute) (.inl (by omega))

theorem beyond_sound_iff (gate : ¬ (flagK || !add.isSect || !subtract.isSect) = true)
    (addFrag : add.label.frag = some target) (subtractFrag : subtract.label.frag = some start)
    (apart : target ≠ start) (walkable : Walkable before start target) :
    FoldSound flagK arch64 before frags add subtract number ↔
      BitVec.ofInt 64 ((walked 0 (between before start target) % 2 ^ 32 +
          (add.label.value - subtract.label.value)) % 2 ^ valueBits arch64) =
        number + BitVec.ofInt 64 (add.label.value - subtract.label.value +
          (fragAddress frags target - fragAddress frags start)) := by
  have addresses : add.label.address frags - subtract.label.address frags =
      add.label.value - subtract.label.value + (fragAddress frags target - fragAddress frags start) := by
    rw [Label.address, Label.address, addFrag, subtractFrag]
    simp only [Option.map_some, Option.getD_some]
    omega
  have walk := ((walk_eq before start target).resolve_right fun not => not.1 walkable).2
  unfold FoldSound tryToMakeAbsolute difference
  dsimp only
  rw [if_neg gate, addFrag, subtractFrag, addresses]
  dsimp only
  rw [if_neg apart, walk]
  exact ⟨fun sound => sound rfl, fun equal _ => equal⟩

/-- The labels are in different frags, and the walk comes from the one to the other. -/
theorem beyond_sound (gate : ¬ (flagK || !add.isSect || !subtract.isSect) = true)
    (addFrag : add.label.frag = some target) (subtractFrag : subtract.label.frag = some start)
    (apart : target ≠ start) (walkable : Walkable before start target) (settled : Settled converter frags)
    (completes : Completes before after) (keeps : List.Forall₂ Keeps after frags) :
    (Foldable flagK arch64 before frags add subtract number →
        FoldSound flagK arch64 before frags add subtract number) ∧
      (FoldSound flagK arch64 before frags add subtract number →
        OneSlip arch64 before frags add subtract number →
          Foldable flagK arch64 before frags add subtract number) := by
  have distance := distance_eq completes settled keeps walkable
  have foldable : Foldable flagK arch64 before frags add subtract number ↔
      number = 0 ∧ Multiple (between before start target) (fragAddress frags start) ∧
        Unskipped (fragAddress frags start) (between before start target) ∧
          Short arch64 (fragAddress frags target - fragAddress frags start)
            (add.label.value - subtract.label.value) := by
    unfold Foldable
    dsimp only
    rw [or_iff_right gate, addFrag, subtractFrag]
    dsimp only
    rw [if_neg apart, imp_iff_right walkable]
  -- from a multiple of the alignments the count is the distance
  have counted : Multiple (between before start target) (fragAddress frags start) →
      Unskipped (fragAddress frags start) (between before start target) →
        walked 0 (between before start target) = fragAddress frags target - fragAddress frags start := by
    intro multiple unskipped
    have none_ := @misjudged_multiple _ _ 0 _ unskipped (by rwa [Int.sub_zero])
    omega
  rw [beyond_sound_iff gate addFrag subtractFrag apart walkable, foldable]
  constructor
  · rintro ⟨number_, multiple, unskipped, short⟩
    rw [counted multiple unskipped]
    exact (beyond_iff short number).mpr number_
  · intro right oneSlip
    obtain ⟨numberOrMultiple, unskipped, short, powers⟩ :=
      oneSlip target start addFrag subtractFrag apart walkable
    obtain number_ | multiple := numberOrMultiple
    · subst number_
      rw [show (0 : BitVec 64) = 0#64 from rfl, BitVec.zero_add] at right
      refine ⟨rfl, fun body member power maxBytes is => ?_, unskipped, short⟩
      have surplus := beyond_count short right
      have aligned := misjudged_aligned unskipped 0 body member power maxBytes is
      have wide : (2 : Int) ^ power ∣ 2 ^ 32 := pow_dvd_pow 2 (powers body member power maxBytes is)
      have is_ : fragAddress frags start =
          fragAddress frags start - 0 - misjudged (fragAddress frags start) 0 (between before start target) +
            (walked 0 (between before start target) - (fragAddress frags target - fragAddress frags start)) := by
        omega
      rw [is_]
      exact Int.dvd_add aligned (wide.trans surplus)
    · rw [counted multiple unskipped] at right
      exact ⟨(beyond_iff short number).mp right, multiple, unskipped, short⟩

theorem sound_of_foldable (settled : Settled converter frags) (completes : Completes before after)
    (keeps : List.Forall₂ Keeps after frags) :
    (Foldable flagK arch64 before frags add subtract number →
        FoldSound flagK arch64 before frags add subtract number) ∧
      (FoldSound flagK arch64 before frags add subtract number →
        OneSlip arch64 before frags add subtract number →
          Foldable flagK arch64 before frags add subtract number) := by
  by_cases gate : (flagK || !add.isSect || !subtract.isSect) = true
  · exact ⟨fun _ => unfolded_sound (if_pos gate), fun _ _ => .inl gate⟩
  · cases addFrag : add.label.frag with
    | none =>
      refine ⟨fun _ => unfolded_sound ?_, fun _ _ => .inr ?_⟩
      · simp [tryToMakeAbsolute, difference, addFrag]
      · rw [addFrag]
        trivial
    | some target =>
      cases subtractFrag : subtract.label.frag with
      | none =>
        refine ⟨fun _ => unfolded_sound ?_, fun _ _ => .inr ?_⟩
        · simp [tryToMakeAbsolute, difference, addFrag, subtractFrag]
        · rw [addFrag, subtractFrag]
          trivial
      | some start =>
        by_cases apart : target = start
        · subst apart
          have within := @within_sound_iff _ flagK arch64 before frags add subtract number target gate
            addFrag subtractFrag
          exact ⟨within.mpr, fun sound _ => within.mp sound⟩
        · by_cases walkable : Walkable before start target
          · exact beyond_sound gate addFrag subtractFrag apart walkable settled completes keeps
          · have walk := ((walk_eq before start target).resolve_left fun is => walkable is.1).2
            refine ⟨fun _ => unfolded_sound ?_, fun _ _ => .inr ?_⟩
            · simp [tryToMakeAbsolute, difference, addFrag, subtractFrag, gate, apart, walk]
            · rw [addFrag, subtractFrag]
              dsimp only
              rw [if_neg apart]
              exact fun is => absurd is walkable

end Sound

/-- **Folding is sound where the difference is foldable**, in the sections as they are laid out; and only
there, as far as it slips in one way only. -/
theorem fold_sound (converter : Converter M) (flagK arch64 : Bool) {fuel : Nat} {chains laid : List (Frchain M)}
    (finished : relaxFrchains converter.toMachine fuel chains = some laid) {k : Nat} {chain final : Frchain M}
    (read : chains[k]? = some chain) (there : laid[k]? = some final) (contents : chain.zerofill = false)
    {before : List (Body M)} (completes : Completes before chain.bodies) (add subtract : Symbol)
    (number : BitVec 64) :
    (Foldable flagK arch64 before final.frags add subtract number →
        FoldSound flagK arch64 before final.frags add subtract number) ∧
      (FoldSound flagK arch64 before final.frags add subtract number →
        OneSlip arch64 before final.frags add subtract number →
          Foldable flagK arch64 before final.frags add subtract number) := by
  obtain ⟨found, is, _, called⟩ := forall₂_getElem? (relaxFrchains_called finished) read
  obtain rfl : found = final := Option.some.inj (is.symm.trans there)
  obtain ⟨settled, keeps⟩ := called_keeps converter (called contents)
  exact sound_of_foldable settled completes keeps

end Folding

/-! ## A label in the next frag -/

/-- Four bytes and two alignments to four. -/
def twoFrags : List (Body Jump) := [⟨4, .align 2 0⟩, ⟨2, .align 2 0⟩, ⟨2, .fill 0⟩]

def twoFragsLaid : List (Frag Jump) := [⟨0, ⟨4, .align 2 0⟩⟩, ⟨4, ⟨2, .align 2 0⟩⟩, ⟨8, ⟨2, .fill 0⟩⟩]

def firstLabel : Symbol := ⟨0x0e, some 0, 0⟩

def lastLabel : Symbol := ⟨0x0e, some 2, 0⟩

theorem twoFrags_completes : Completes twoFrags twoFrags := ⟨⟨2, .fill 0⟩, [], rfl⟩

def twoFragsRead : Frchain Jump := ⟨twoFrags, [], [], 2, false, false, false, 0⟩

theorem twoFrags_laid : relaxFrchains (i386Converter 32).toMachine 2 [twoFragsRead] =
    some [{ twoFragsRead with last := [0, 4, 8] }] := by decide

theorem twoFrags_folded : FoldSound false false twoFrags twoFragsLaid lastLabel firstLabel 0 := by
  refine (fold_sound (i386Converter 32) false false twoFrags_laid (k := 0) rfl rfl rfl twoFrags_completes
    lastLabel firstLabel 0).1 (.inr fun _ => ?_)
  have unlimited : ∀ (at_ : Int) (power power' : Nat) (maxBytes : Int),
      Kind.align power' 0 = (.align power maxBytes : Kind Jump) → ¬ alignSkipped at_ power maxBytes := by
    intro at_ power power' maxBytes is skipped
    cases is
    exact skipped.1 rfl
  refine ⟨rfl, fun body _ power maxBytes _ => Int.dvd_zero _, ⟨?_, ?_, trivial⟩, ?_⟩
  · exact fun power maxBytes is => unlimited _ power 2 maxBytes is
  · exact fun power maxBytes is => unlimited _ power 2 maxBytes is
  · rw [Short]
    decide

/-- **The number of the expression is dropped** when the labels are in different frags. -/
theorem number_dropped :
    tryToMakeAbsolute false false twoFrags (difference lastLabel firstLabel 4) = constant 8 ∧
      Completes twoFrags twoFrags ∧
      relaxFrchains (i386Converter 32).toMachine 2 [twoFragsRead] = some [{ twoFragsRead with last := [0, 4, 8] }] ∧
      ¬ FoldSound false false twoFrags twoFragsLaid lastLabel firstLabel 4 := by
  have folded : tryToMakeAbsolute false false twoFrags (difference lastLabel firstLabel 4) = constant 8 := by
    decide
  refine ⟨folded, twoFrags_completes, twoFrags_laid, fun sound => ?_⟩
  unfold FoldSound at sound
  rw [folded] at sound
  exact absurd (sound rfl) (by decide)

end Cctools.As
