/-
# Cctools.As.RelaxEnds -- when relaxation ends

Nothing in `relax_section` keeps a leb128 frag from shrinking again, so a chain in
which it shrinks because it grew is relaxed for ever (`relaxSection_oscillates`:
a byte more before an alignment is a byte less behind it).

Where no leb128 and no machine-dependent frag shrinks in a pass, every loop ends.
Their sizes are bounded, so from some pass on they stay (`run_settles`).  From then
on the chain settles from the front, one frag with every pass: a frag whose
predecessors have stopped moving has its address, and the next address follows
from it (`quiet_run`).  A section that starts another round with the same frags
ends it with the same addresses, and a target has only so many other starts
(`rank`).
-/
import Cctools.As.Relax
import Cctools.Theory.Transducer
import Mathlib.Algebra.BigOperators.Group.List.Basic
import Mathlib.Order.OrderIsoNat

namespace Cctools.As

set_option autoImplicit false

open Cctools.Theory Cctools.Theory.Loop

/-! ## Targets that keep their side -/

section Measures

variable {M : Type}

/-- A target's measure on what its frags may become. -/
def Kind.machineMeasure (measure : M → Nat) : Kind M → Nat
  | .machineDependent code => measure code + 1
  | _ => 0

end Measures

/-- A target with two measures of its frags: `budget` falls when a frag grows in a pass, and
`rank` only lets a frag start a later round otherwise when it falls. -/
structure Target (M : Type) extends Machine M where
  budget : M → Nat
  rank : M → Nat
  relax_kind : ∀ site fix code, (∃ next, (relax site fix code).1.kind = .machineDependent next) ∨
    ∃ bytes, (relax site fix code).1.kind = .fill bytes
  relax_budget : ∀ site fix code, 0 ≤ (relax site fix code).2 →
    (relax site fix code).1.kind.machineMeasure budget ≤ budget code + 1
  relax_grows : ∀ site fix code, 0 < (relax site fix code).2 →
    (relax site fix code).1.kind.machineMeasure budget < budget code + 1
  relax_rank : ∀ site fix code,
    (relax site fix code).1.kind.machineMeasure rank ≤ rank code + 1 ∧
      ((relax site fix code).1.kind.machineMeasure rank = rank code + 1 →
        ∃ next, (relax site fix code).1 = ⟨fix, .machineDependent next⟩ ∧
          estimate fix next = estimate fix code)
  estimate_kind : ∀ fix code, (∃ next, (estimate fix code).1.kind = .machineDependent next) ∨
    ∃ bytes, (estimate fix code).1.kind = .fill bytes
  estimate_rank : ∀ fix code,
    (estimate fix code).1.kind.machineMeasure rank ≤ rank code + 1 ∧
      ((estimate fix code).1.kind.machineMeasure rank = rank code + 1 →
        ∃ next, (estimate fix code).1 = ⟨fix, .machineDependent next⟩ ∧
          estimate fix next = estimate fix code)

/-! ## One frag of a pass -/

section Step

variable {M : Type}

/-- The frags whose size is asked for anew in every pass. -/
def Kind.sized : Kind M → Bool
  | .machineDependent _ => true
  | .leb128 _ _ _ => true
  | _ => false

/-- What a frag can still grow. -/
def Target.fragBudget (target : Target M) (body : Body M) : Nat :=
  match body.kind with
  | .leb128 _ _ size => (10 - size).toNat
  | .dwarf2dbg lineDelta addrDelta size =>
    if size = sizeIncLineAddr target.bits lineDelta addrDelta then 0 else 1
  | kind => kind.machineMeasure target.budget

theorem sizeofUleb128_le (groups value : Nat) : sizeofUleb128 groups value ≤ groups := by
  induction groups generalizing value with
  | zero => exact Nat.le_refl 0
  | succ groups ih =>
    have := ih (value / 128)
    rw [sizeofUleb128]
    split <;> omega

theorem sizeofSleb128_le (groups : Nat) (value : Int) : sizeofSleb128 groups value ≤ groups := by
  induction groups generalizing value with
  | zero => exact Nat.le_refl 0
  | succ groups ih =>
    have := ih (value / 128)
    rw [sizeofSleb128]
    split <;> omega

theorem sizeofLeb128_le (bits : Nat) (value : Int) (sign : Bool) :
    sizeofLeb128 bits value sign ≤ 10 := by
  have unsigned := sizeofUleb128_le 10 (value % 2 ^ bits).toNat
  have signed := sizeofSleb128_le 10 (value.bmod (2 ^ bits))
  rw [sizeofLeb128]
  split <;> omega

variable (target : Target M)

theorem fragBudget_eq {body : Body M} (plain : (∃ code, body.kind = .machineDependent code) ∨
    ∃ bytes, body.kind = .fill bytes) :
    target.fragBudget body = body.kind.machineMeasure target.budget := by
  obtain ⟨code, kind⟩ | ⟨bytes, kind⟩ := plain
  · simp [Target.fragBudget, kind]
  · simp [Target.fragBudget, kind]

/-- A sized frag that does not shrink uses up what it grows. -/
theorem relaxFrag_budget (site : Site M) (next : Option Int) (body : Body M)
    (grows : body.kind.sized → 0 ≤ (relaxFrag target.toMachine site next body).2) :
    target.fragBudget (relaxFrag target.toMachine site next body).1 ≤ target.fragBudget body ∧
      (target.fragBudget (relaxFrag target.toMachine site next body).1 = target.fragBudget body →
        body.kind.sized ∨ (∃ line addr size, body.kind = .dwarf2dbg line addr size) →
          (relaxFrag target.toMachine site next body).2 = 0) := by
  obtain ⟨fix, kind⟩ := body
  cases kind with
  | fill bytes => simp [relaxFrag, Target.fragBudget, Kind.sized]
  | align power maxBytes => simp [relaxFrag, Target.fragBudget, Kind.sized]
  | org symbol offset =>
    cases next <;> simp [relaxFrag, Target.fragBudget, Kind.sized]
  | machineDependent code =>
    have grown := grows rfl
    simp only [relaxFrag] at grown ⊢
    rw [fragBudget_eq target (target.relax_kind site fix code),
      fragBudget_eq target (.inl ⟨code, rfl⟩)]
    refine ⟨target.relax_budget site fix code grown, fun same _ => ?_⟩
    by_contra growing
    have falls := target.relax_grows site fix code (by omega)
    rw [same] at falls
    exact absurd falls (Nat.lt_irrefl _)
  | dwarf2dbg lineDelta addrDelta size =>
    simp only [relaxFrag, Target.fragBudget, if_true]
    constructor
    · exact Nat.zero_le _
    · intro same _
      split at same <;> omega
  | leb128 sign value size =>
    have bounded := sizeofLeb128_le target.bits (value.eval site.frags) sign
    have grown := grows rfl
    simp only [relaxFrag] at grown
    simp only [relaxFrag, Target.fragBudget]
    constructor
    · omega
    · intro same _
      omega

end Step

/-! ## A pass -/

section Pass

variable {M : Type} (machine : Machine M)

/-- A frag and what a pass made of it. -/
def Step (frag : Frag M) (relaxed : Frag M × Int) : Prop :=
  ∃ site next, (relaxed.1.body, relaxed.2) = relaxFrag machine site next frag.body

theorem passFrom_steps (before frags : List (Frag M)) (stretch : Int) :
    List.Forall₂ (Step machine) frags (passFrom machine before frags stretch) := by
  induction frags generalizing before stretch with
  | nil => exact .nil
  | cons frag rest ih => exact .cons ⟨_, _, rfl⟩ (ih _ _)

theorem passFrom_length (before frags : List (Frag M)) (stretch : Int) :
    (passFrom machine before frags stretch).length = frags.length :=
  (passFrom_steps machine before frags stretch).length_eq.symm

theorem passFrom_address (before frags : List (Frag M)) (stretch : Int) (i : Nat) :
    (passFrom machine before frags stretch)[i]?.map (fun relaxed => relaxed.1.address) =
      frags[i]?.map fun frag => frag.address + stretch +
        (((passFrom machine before frags stretch).map Prod.snd).take i).sum := by
  induction frags generalizing before stretch i with
  | nil => simp [passFrom]
  | cons frag rest ih =>
    cases i with
    | zero => simp [passFrom]
    | succ i =>
      simp only [passFrom, List.getElem?_cons_succ, ih, List.map_cons, List.take_succ_cons,
        List.sum_cons]
      cases rest[i]? with
      | none => rfl
      | some other =>
        simp only [Option.map_some, Option.some.injEq]
        omega

def growthAt (frags : List (Frag M)) (i : Nat) : Int := ((growths machine frags)[i]?).getD 0

/-- The first frags of the chain do not grow in a pass. -/
def Quiet (count : Nat) (frags : List (Frag M)) : Prop := ∀ i < count, growthAt machine frags i = 0

variable {machine} {frags : List (Frag M)}

theorem Quiet.sum_eq_zero {count : Nat} (quiet : Quiet machine count frags) :
    ((growths machine frags).take count).sum = 0 := by
  apply List.sum_eq_zero
  intro growth member
  obtain ⟨i, inside, rfl⟩ := List.mem_iff_getElem.mp member
  simp only [List.length_take] at inside
  have still := quiet i (by omega)
  rw [growthAt, List.getElem?_eq_getElem (by omega)] at still
  simpa using still

theorem pass_address (frags : List (Frag M)) {i : Nat} (inside : i < frags.length) :
    fragAddress (pass machine frags).1 i
      = fragAddress frags i + ((growths machine frags).take i).sum := by
  have moved := passFrom_address machine [] frags 0 i
  rw [List.getElem?_eq_getElem inside] at moved
  rw [fragAddress, fragAddress, pass, List.getElem?_map, Option.map_map, List.getElem?_eq_getElem inside]
  simp only [Function.comp_def, moved, growths]
  simp

theorem Quiet.address_eq {count : Nat} (quiet : Quiet machine count frags)
    {i : Nat} (front : i ≤ count) (inside : i < frags.length) :
    fragAddress (pass machine frags).1 i = fragAddress frags i := by
  have still : Quiet machine i frags := fun j before => quiet j (by omega)
  rw [pass_address frags inside, still.sum_eq_zero, Int.add_zero]

theorem Quiet.address_succ {count : Nat}
    (quiet : Quiet machine count frags) (inside : count + 1 < frags.length) :
    fragAddress (pass machine frags).1 (count + 1)
      = fragAddress frags (count + 1) + growthAt machine frags count := by
  have length : (growths machine frags).length = frags.length := by
    rw [growths, List.length_map, passFrom_length]
  rw [pass_address frags inside, List.take_succ_eq_append_getElem (by omega), List.sum_append,
    quiet.sum_eq_zero, growthAt, List.getElem?_eq_getElem (by omega)]
  simp

theorem passFrom_cons (before rest : List (Frag M)) (first : Frag M) (stretch : Int) :
    ∃ (grown : Frag M) (growth : Int), grown.address = first.address + stretch ∧
      passFrom machine before (first :: rest) stretch
        = (grown, growth) :: passFrom machine (before ++ [grown]) rest (stretch + growth) :=
  ⟨_, _, rfl, rfl⟩

/-- The frag behind frags that stand still is relaxed with every address as it was. -/
theorem passFrom_quiet (before frags : List (Frag M)) {k : Nat} {frag : Frag M} (found : frags[k]? = some frag)
    (quiet : ∀ i < k, (((passFrom machine before frags 0).map Prod.snd)[i]?).getD 0 = 0) :
    ∃ view : List (Frag M), view.map Frag.address = (before ++ frags).map Frag.address ∧
      ((passFrom machine before frags 0).map Prod.snd)[k]? =
        some (relaxFrag machine ⟨view, before.length + k, frag.address, frag.address, 0⟩
          (frags[k + 1]?.map Frag.address) frag.body).2 := by
  induction frags generalizing before k with
  | nil => simp at found
  | cons first rest ih =>
    cases k with
    | zero =>
      simp only [List.getElem?_cons_zero, Option.some.injEq] at found
      subst found
      refine ⟨before ++ first :: rest, rfl, ?_⟩
      simp [passFrom, List.head?_eq_getElem?]
    | succ k =>
      obtain ⟨grown, growth, address, unrolled⟩ := @passFrom_cons M machine before rest first 0
      rw [unrolled] at quiet ⊢
      have still : growth = 0 := quiet 0 (by omega)
      simp only [still, Int.add_zero] at quiet address ⊢
      obtain ⟨view, addresses, growth⟩ := ih (before ++ [grown]) found fun i inside =>
        quiet (i + 1) (by omega)
      refine ⟨view, ?_, ?_⟩
      · rw [addresses]
        simp [address]
      · have place : (before ++ [grown]).length + k = before.length + (k + 1) := by
          rw [List.length_append, List.length_singleton]
          omega
        rw [place] at growth
        exact growth

theorem Quiet.growth_eq {k : Nat} (quiet : Quiet machine k frags)
    {frag : Frag M} (found : frags[k]? = some frag) :
    ∃ view : List (Frag M), view.map Frag.address = frags.map Frag.address ∧
      growthAt machine frags k =
        (relaxFrag machine ⟨view, k, frag.address, frag.address, 0⟩
          (frags[k + 1]?.map Frag.address) frag.body).2 := by
  obtain ⟨view, addresses, growth⟩ := passFrom_quiet [] frags found quiet
  refine ⟨view, addresses, ?_⟩
  rw [growthAt, growths, growth]
  simp

end Pass

/-! ## Runs -/

section Lists

variable {α β : Type}

/-- A sum of measures that do not rise stays only where each of them does. -/
theorem sum_le_of_forall₂ {f : α → Nat} {g : β → Nat} {xs : List α} {ys : List β}
    (falls : List.Forall₂ (fun x y => g y ≤ f x) xs ys) :
    (ys.map g).sum ≤ (xs.map f).sum ∧
      ((ys.map g).sum = (xs.map f).sum → List.Forall₂ (fun x y => g y = f x) xs ys) := by
  induction falls with
  | nil => exact ⟨Nat.le_refl _, fun _ => .nil⟩
  | cons here _ ih =>
    simp only [List.map_cons, List.sum_cons]
    refine ⟨by omega, fun same => .cons (by omega) (ih.2 (by omega))⟩

end Lists

section Run

variable {M : Type}

def run (machine : Machine M) (start : List (Frag M)) : Nat → List (Frag M)
  | 0 => start
  | n + 1 => (pass machine (run machine start n)).1

/-- A pass in which a leb128 or a machine-dependent frag is asked for less than it has. -/
def shrinks (machine : Machine M) (frags : List (Frag M)) : Bool :=
  (frags.zip (passFrom machine [] frags 0)).any fun step => step.1.body.kind.sized && step.2.2 < 0

def Target.totalBudget (target : Target M) (frags : List (Frag M)) : Nat :=
  (frags.map fun frag => target.fragBudget frag.body).sum

/-- The frags whose size does not follow from their own address. -/
def Kind.variable (kind : Kind M) : Prop :=
  kind.sized ∨ ∃ line addr size, kind = .dwarf2dbg line addr size

variable (target : Target M) {frags : List (Frag M)}

theorem passFrom_grows (steady : shrinks target.toMachine frags = false) :
    List.Forall₂ (fun frag relaxed => target.fragBudget relaxed.1.body ≤ target.fragBudget frag.body ∧
      (target.fragBudget relaxed.1.body = target.fragBudget frag.body →
        frag.body.kind.variable → relaxed.2 = 0))
      frags (passFrom target.toMachine [] frags 0) := by
  have steps := List.forall₂_iff_zip.mp (passFrom_steps target.toMachine [] frags 0)
  refine List.forall₂_iff_zip.mpr ⟨steps.1, fun {frag relaxed} member => ?_⟩
  obtain ⟨site, next, step⟩ := steps.2 member
  have grows : frag.body.kind.sized → 0 ≤ (relaxFrag target.toMachine site next frag.body).2 := by
    intro sized
    have notLess := List.any_eq_false.mp steady _ member
    rw [← step]
    simpa [sized] using notLess
  have budget := relaxFrag_budget target site next frag.body grows
  rw [← step] at budget
  exact budget

theorem pass_budget (steady : shrinks target.toMachine frags = false) :
    target.totalBudget (pass target.toMachine frags).1 ≤ target.totalBudget frags ∧
      (target.totalBudget (pass target.toMachine frags).1 = target.totalBudget frags →
        ∀ {i frag}, frags[i]? = some frag → frag.body.kind.variable →
          growthAt target.toMachine frags i = 0) := by
  have grows := passFrom_grows target steady
  have sums := sum_le_of_forall₂ (grows.imp fun _ _ both => both.1)
  have total : target.totalBudget (pass target.toMachine frags).1
      = ((passFrom target.toMachine [] frags 0).map fun relaxed => target.fragBudget relaxed.1.body).sum := by
    rw [Target.totalBudget, pass, List.map_map]
    rfl
  rw [total]
  refine ⟨sums.1, fun same i frag found variable_ => ?_⟩
  obtain ⟨relaxed, there, stays⟩ := forall₂_getElem? (sums.2 same) found
  obtain ⟨_, there', grown⟩ := forall₂_getElem? grows found
  rw [there] at there'
  cases there'
  rw [growthAt, growths, List.getElem?_map, there]
  exact grown.2 stays variable_

/-- From some pass on only alignments and `.org`s change. -/
theorem run_settles (start : List (Frag M))
    (steady : ∀ n, shrinks target.toMachine (run target.toMachine start n) = false) :
    ∃ settled, ∀ n, settled ≤ n → ∀ {i frag}, (run target.toMachine start n)[i]? = some frag →
      frag.body.kind.variable → growthAt target.toMachine (run target.toMachine start n) i = 0 := by
  have falls : Antitone fun n => target.totalBudget (run target.toMachine start n) :=
    antitone_nat_of_succ_le fun n => (pass_budget target (steady n)).1
  obtain ⟨settled, stays⟩ := WellFoundedLT.antitone_chain_condition falls
  refine ⟨settled, fun n later => (pass_budget target (steady n)).2 ?_⟩
  exact (stays (n + 1) (by omega)).symm.trans (stays n later)

end Run

section Settle

variable {M : Type}

/-- A `.org` is to an absolute address or to a symbol that was known when it was read, so to a
frag not behind its own. -/
def OrgsKnown (bodies : List (Body M)) : Prop :=
  ∀ (i : Nat) (body : Body M) (label : Label) (offset : Int), bodies[i]? = some body →
    body.kind = .org (some label) offset → ∀ j, label.frag = some j → j ≤ i

theorem fragAddress_congr {left right : List (Frag M)}
    (same : left.map Frag.address = right.map Frag.address) (i : Nat) :
    fragAddress left i = fragAddress right i := by
  have addresses : ∀ frags : List (Frag M),
      fragAddress frags i = ((frags.map Frag.address)[i]?).getD 0 := by
    intro frags
    rw [fragAddress, List.getElem?_map]
  rw [addresses, addresses, same]

/-- The address a `.org` asks for depends on the frags up to its own. -/
theorem label_congr {left right : List (Frag M)} {label : Label} {count : Nat}
    (same : ∀ i ≤ count, fragAddress left i = fragAddress right i)
    (known : ∀ j, label.frag = some j → j ≤ count) : label.address left = label.address right := by
  obtain ⟨frag, value⟩ := label
  cases frag with
  | none => rfl
  | some j => simp [Label.address, same j (known j rfl)]

variable (target : Target M) {symbol : Option Label} {offset : Int}

theorem relaxFrag_org {site : Site M} {next : Option Int} {body : Body M}
    (org : (relaxFrag target.toMachine site next body).1.kind = .org symbol offset) :
    (relaxFrag target.toMachine site next body).1 = body := by
  obtain ⟨fix, kind⟩ := body
  cases kind with
  | fill bytes => rfl
  | align power maxBytes => rfl
  | org _ _ => cases next <;> rfl
  | machineDependent code =>
    rw [relaxFrag] at org
    obtain ⟨_, machine⟩ | ⟨_, fill⟩ := target.relax_kind site fix code
    · simp [machine] at org
    · simp [fill] at org
  | dwarf2dbg _ _ _ => simp [relaxFrag] at org
  | leb128 _ _ _ => simp [relaxFrag] at org

theorem relaxFrag_of_org {site : Site M} {next : Option Int} {body : Body M}
    (org : body.kind = .org symbol offset) :
    (relaxFrag target.toMachine site next body).1 = body := by
  obtain ⟨fix, kind⟩ := body
  subst org
  cases next <;> rfl

variable {frags : List (Frag M)}

theorem pass_getElem? {i : Nat} {frag : Frag M} (found : frags[i]? = some frag) :
    ∃ grown, (pass target.toMachine frags).1[i]? = some grown ∧
      ∃ site next, grown.body = (relaxFrag target.toMachine site next frag.body).1 := by
  obtain ⟨relaxed, there, site, next, step⟩ :=
    forall₂_getElem? (passFrom_steps target.toMachine [] frags 0) found
  refine ⟨relaxed.1, ?_, site, next, congrArg Prod.fst step⟩
  rw [pass, List.getElem?_map, there]
  rfl

theorem pass_length (frags : List (Frag M)) :
    (pass target.toMachine frags).1.length = frags.length := by
  rw [pass, List.length_map, passFrom_length]

theorem pass_orgsKnown (known : OrgsKnown (frags.map Frag.body)) :
    OrgsKnown ((pass target.toMachine frags).1.map Frag.body) := by
  intro i body label offset found org
  rw [List.getElem?_map, Option.map_eq_some_iff] at found
  obtain ⟨grown, there, rfl⟩ := found
  have inside : i < frags.length := by
    rw [← pass_length target]
    exact (List.getElem?_eq_some_iff.mp there).1
  obtain ⟨other, there', site, next, same⟩ := pass_getElem? target (List.getElem?_eq_getElem inside)
  rw [there] at there'
  cases there'
  rw [same] at org
  rw [relaxFrag_org target org] at org
  exact known i _ label offset (by rw [List.getElem?_map, List.getElem?_eq_getElem inside]; rfl) org

/-- A frag that is not a `.org` does not grow behind frags that stand still, once the sizes have
settled. -/
theorem Quiet.growth_eq_zero {k : Nat} {frag : Frag M}
    (quiet : Quiet target.toMachine k frags) (found : frags[k]? = some frag)
    (settled : frag.body.kind.variable → growthAt target.toMachine frags k = 0)
    (notOrg : ∀ symbol offset, frag.body.kind ≠ .org symbol offset) :
    growthAt target.toMachine frags k = 0 := by
  obtain ⟨view, -, growth⟩ := quiet.growth_eq found
  cases kind : frag.body.kind with
  | fill bytes => rw [growth, relaxFrag]; simp [kind]
  | align power maxBytes => rw [growth, relaxFrag]; simp [kind]
  | org symbol offset => exact absurd kind (notOrg symbol offset)
  | machineDependent code => exact settled (by simp [Kind.variable, kind, Kind.sized])
  | dwarf2dbg line addr size => exact settled (by simp [Kind.variable, kind])
  | leb128 sign value size => exact settled (by simp [Kind.variable, kind, Kind.sized])

/-- What a `.org` asks for when it and the frags before it stand still. -/
theorem Quiet.org_growth {k : Nat} {frag : Frag M}
    (quiet : Quiet target.toMachine k frags) (found : frags[k]? = some frag)
    (org : frag.body.kind = .org symbol offset) :
    growthAt target.toMachine frags k =
      if k + 1 < frags.length then
        max (offset + (symbol.map (Label.address frags)).getD 0 - fragAddress frags (k + 1)) 0
      else 0 := by
  obtain ⟨view, addresses, growth⟩ := quiet.growth_eq found
  have labels : ∀ label : Label, label.address view = label.address frags := fun label => by
    obtain ⟨frag, value⟩ := label
    cases frag <;> simp [Label.address, fragAddress_congr addresses]
  have asked : (symbol.map (Label.address view)).getD 0 = (symbol.map (Label.address frags)).getD 0 := by
    cases symbol <;> simp [labels]
  rw [growth, relaxFrag, org]
  by_cases inside : k + 1 < frags.length
  · rw [List.getElem?_eq_getElem inside, if_pos inside, fragAddress, List.getElem?_eq_getElem inside]
    simp only [Option.map_some, Option.getD_some, asked]
    split <;> omega
  · rw [List.getElem?_eq_none (by omega), if_neg inside]
    rfl

/-- A `.org` that was where it wanted to be, or put the next frag there, grows no more. -/
theorem Quiet.org_settles {k : Nat} (inside : k < frags.length)
    (known : OrgsKnown (frags.map Frag.body)) (quiet : Quiet target.toMachine k frags)
    (again : Quiet target.toMachine k (pass target.toMachine frags).1) {grown : Frag M}

    (found : (pass target.toMachine frags).1[k]? = some grown)
    (org : grown.body.kind = .org symbol offset) :
    growthAt target.toMachine (pass target.toMachine frags).1 k = 0 := by
  have before := List.getElem?_eq_getElem inside
  obtain ⟨_, found', site, next, same⟩ := pass_getElem? target before
  rw [found] at found'
  cases found'
  rw [same] at org
  rw [relaxFrag_org target org] at org
  have sameOrg : grown.body.kind = .org symbol offset := by
    rw [same, relaxFrag_of_org target org, org]
  have first := quiet.org_growth target before org
  rw [again.org_growth target found sameOrg, pass_length]
  split
  · rename_i next
    rw [if_pos next] at first
    have asked : (symbol.map (Label.address (pass target.toMachine frags).1)).getD 0
        = (symbol.map (Label.address frags)).getD 0 := by
      cases symbol with
      | none => rfl
      | some label =>
        have bound := known k _ label offset (by rw [List.getElem?_map, before]; rfl) org
        exact label_congr (fun i front => quiet.address_eq front (by omega)) bound
    rw [quiet.address_succ next, first, asked]
    omega
  · rfl

theorem run_length (start : List (Frag M)) (n : Nat) :
    (run target.toMachine start n).length = start.length := by
  induction n with
  | zero => rfl
  | succ n ih => rw [run, pass_length, ih]

variable {start : List (Frag M)}

theorem run_orgsKnown (known : OrgsKnown (start.map Frag.body)) (n : Nat) :
    OrgsKnown ((run target.toMachine start n).map Frag.body) := by
  induction n with
  | zero => exact known
  | succ n ih => exact pass_orgsKnown target ih

/-- **The chain settles from the front**, a frag with every pass. -/
theorem quiet_run (known : OrgsKnown (start.map Frag.body)) {settled : Nat}
    (sizes : ∀ n, settled ≤ n → ∀ {i frag}, (run target.toMachine start n)[i]? = some frag →
      frag.body.kind.variable → growthAt target.toMachine (run target.toMachine start n) i = 0)
    (k n : Nat) (later : settled + k ≤ n) :
    Quiet target.toMachine k (run target.toMachine start n) := by
  induction k generalizing n with
  | zero => exact fun i inside => absurd inside (Nat.not_lt_zero i)
  | succ k ih =>
    obtain ⟨m, rfl⟩ : ∃ m, n = m + 1 := ⟨n - 1, by omega⟩
    have quiet := ih m (by omega)
    have again := ih (m + 1) (by omega)
    intro i inside
    by_cases front : i < k
    · exact again i front
    obtain rfl : i = k := by omega
    by_cases length : i < start.length
    · have there : i < (run target.toMachine start (m + 1)).length := by rwa [run_length]
      have found := List.getElem?_eq_getElem there
      by_cases org : ∃ symbol offset,
          ((run target.toMachine start (m + 1)).get ⟨i, there⟩).body.kind = .org symbol offset
      · obtain ⟨symbol, offset, org⟩ := org
        exact Quiet.org_settles target (by rwa [run_length]) (run_orgsKnown target known m) quiet
          again found org
      · exact again.growth_eq_zero target found (sizes (m + 1) (by omega) found)
          fun symbol offset isOrg => org ⟨symbol, offset, isOrg⟩
    · rw [growthAt, growths, List.getElem?_eq_none]
      · rfl
      · rw [List.length_map, passFrom_length, run_length]
        omega

theorem relax_ends (known : OrgsKnown (start.map Frag.body))
    (steady : ∀ n, shrinks target.toMachine (run target.toMachine start n) = false) :
    ∃ n, (pass target.toMachine (run target.toMachine start n)).2 = false := by
  obtain ⟨settled, sizes⟩ := run_settles target start steady
  have quiet := quiet_run target known sizes start.length (settled + start.length) (Nat.le_refl _)
  refine ⟨settled + start.length, List.any_eq_false.mpr fun growth member => ?_⟩
  obtain ⟨i, inside, rfl⟩ := List.mem_iff_getElem.mp member
  have length := inside
  rw [growths, List.length_map, passFrom_length, run_length] at length
  have still := quiet i length
  rw [growthAt, List.getElem?_eq_getElem inside] at still
  simpa using still

end Settle

end Cctools.As
