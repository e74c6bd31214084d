/-
# Cctools.As.LayoutEnds -- when the layout of the sections ends

`layout_addresses` relaxes its sections again until none of them changes.  A
section starts each round from its frags without their addresses, the sizes
guessed anew; what is left of the last round is what the target keeps in its own
frags.  Its `rank` bounds how often that changes (`Lower`), and from equal starts
a round gives equal addresses.

`layoutAddresses_ends` puts the two loops together.  Jumps, alignments and `.org`s
never shrink by themselves (`i386_steady`); `relaxSection_oscillates` is a section
with a leb128 that has no end.
-/
import Cctools.As.I386

namespace Cctools.As

set_option autoImplicit false

open Cctools.Theory Cctools.Theory.Loop

/-! ## Starting again -/

section Start

variable {M : Type} (target : Target M)

def Target.bodyRank (body : Body M) : Nat := body.kind.machineMeasure target.rank

/-- The first loop makes the same of both. -/
def SameStart (left right : Body M) : Prop :=
  guess target.toMachine left = guess target.toMachine right ∧
    ∀ address, guessBytes target.toMachine address left = guessBytes target.toMachine address right

/-- A later form of a frag: it starts a round alike, or has a lower rank. -/
def Lower (before after : Body M) : Prop :=
  target.bodyRank after ≤ target.bodyRank before ∧
    (target.bodyRank after = target.bodyRank before → SameStart target after before)

variable {target}

theorem Lower.refl (body : Body M) : Lower target body body :=
  ⟨Nat.le_refl _, fun _ => ⟨rfl, fun _ => rfl⟩⟩

theorem Lower.trans {first second third : Body M} (earlier : Lower target first second)
    (later : Lower target second third) : Lower target first third := by
  refine ⟨Nat.le_trans later.1 earlier.1, fun same => ?_⟩
  have middle : target.bodyRank second = target.bodyRank first := by
    have := later.1
    have := earlier.1
    omega
  have one := earlier.2 middle
  have two := later.2 (same.trans middle.symm)
  exact ⟨two.1.trans one.1, fun address => (two.2 address).trans (one.2 address)⟩

variable (target)

theorem sameStart_machine {fix : Int} {code next : M}
    (alike : target.estimate fix next = target.estimate fix code) :
    SameStart target ⟨fix, .machineDependent next⟩ ⟨fix, .machineDependent code⟩ :=
  ⟨congrArg Prod.fst alike, fun _ => by simp only [guessBytes, alike]⟩

theorem relaxFrag_lower (site : Site M) (next : Option Int) (body : Body M) :
    Lower target body (relaxFrag target.toMachine site next body).1 := by
  obtain ⟨fix, kind⟩ := body
  cases kind with
  | fill bytes => exact Lower.refl _
  | align power maxBytes => exact Lower.refl _
  | org symbol offset => cases next <;> exact Lower.refl _
  | machineDependent code =>
    obtain ⟨falls, same⟩ := target.relax_rank site fix code
    refine ⟨falls, fun equal => ?_⟩
    obtain ⟨other, is, alike⟩ := same equal
    rw [relaxFrag, is]
    exact sameStart_machine target alike
  | dwarf2dbg line addr size => exact ⟨Nat.le_refl _, fun _ => ⟨rfl, fun _ => rfl⟩⟩
  | leb128 sign value size => exact ⟨Nat.le_refl _, fun _ => ⟨rfl, fun _ => rfl⟩⟩

theorem guess_lower (body : Body M) : Lower target body (guess target.toMachine body) := by
  obtain ⟨fix, kind⟩ := body
  cases kind with
  | fill bytes => exact Lower.refl _
  | align power maxBytes => exact Lower.refl _
  | org symbol offset => exact Lower.refl _
  | machineDependent code =>
    obtain ⟨falls, same⟩ := target.estimate_rank fix code
    refine ⟨falls, fun equal => ?_⟩
    obtain ⟨other, is, alike⟩ := same equal
    have guessed : guess target.toMachine ⟨fix, .machineDependent code⟩
        = ⟨fix, .machineDependent other⟩ := is
    rw [guessed]
    exact sameStart_machine target alike
  | dwarf2dbg line addr size => exact ⟨Nat.le_refl _, fun _ => ⟨rfl, fun _ => rfl⟩⟩
  | leb128 sign value size => exact ⟨Nat.le_refl _, fun _ => ⟨rfl, fun _ => rfl⟩⟩

theorem firstGuess_bodies (address : Int) (bodies : List (Body M)) :
    (firstGuess target.toMachine address bodies).map Frag.body
      = bodies.map (guess target.toMachine) := by
  induction bodies generalizing address with
  | nil => rfl
  | cons body rest ih => rw [firstGuess, List.map_cons, List.map_cons, ih]

theorem firstGuess_lower (address : Int) (bodies : List (Body M)) :
    List.Forall₂ (Lower target) bodies
      ((firstGuess target.toMachine address bodies).map Frag.body) := by
  rw [firstGuess_bodies, List.forall₂_map_right_iff, List.forall₂_same]
  exact fun body _ => guess_lower target body

theorem pass_lower (frags : List (Frag M)) :
    List.Forall₂ (Lower target) (frags.map Frag.body)
      ((pass target.toMachine frags).1.map Frag.body) := by
  rw [pass, List.map_map, List.forall₂_map_left_iff, List.forall₂_map_right_iff]
  refine (passFrom_steps target.toMachine [] frags 0).imp fun frag relaxed step => ?_
  obtain ⟨site, next, is⟩ := step
  have body : relaxed.1.body = (relaxFrag target.toMachine site next frag.body).1 :=
    congrArg Prod.fst is
  simp only [Function.comp_apply, body]
  exact relaxFrag_lower target site next frag.body

theorem forall₂_lower_trans {first second third : List (Body M)}
    (earlier : List.Forall₂ (Lower target) first second)
    (later : List.Forall₂ (Lower target) second third) : List.Forall₂ (Lower target) first third :=
  forall₂_trans (fun _ _ _ here there => here.trans there) earlier later

theorem firstGuess_congr (address : Int) {left right : List (Body M)}
    (same : List.Forall₂ (SameStart target) left right) :
    firstGuess target.toMachine address left = firstGuess target.toMachine address right := by
  induction same generalizing address with
  | nil => rfl
  | cons here _ ih => rw [firstGuess, firstGuess, here.1, here.2 address, ih]

def Target.totalRank (bodies : List (Body M)) : Nat := (bodies.map target.bodyRank).sum

/-- A chain of later forms starts a round alike, or has a lower rank. -/
theorem lower_start {before after : List (Body M)} (lower : List.Forall₂ (Lower target) before after) :
    target.totalRank after ≤ target.totalRank before ∧
      (target.totalRank after = target.totalRank before →
        firstGuess target.toMachine 0 after = firstGuess target.toMachine 0 before) := by
  have sums := sum_le_of_forall₂ (lower.imp fun _ _ both => both.1)
  refine ⟨sums.1, fun same => firstGuess_congr target 0 ?_⟩
  have equal := sums.2 same
  clear sums same
  induction lower with
  | nil => exact .nil
  | cons here _ ih =>
    cases equal with
    | cons same rest => exact .cons (here.2 same) (ih rest)

end Start

/-! ## Rounds of a section -/

section Rounds

variable {M : Type}

/-- The chains a section goes through: from its first guess, pass by pass, and after a round from
the next guess. -/
inductive Reached (machine : Machine M) (bodies : List (Body M)) : List (Frag M) → Prop where
  | start : Reached machine bodies (firstGuess machine 0 bodies)
  | passed {frags : List (Frag M)} (reached : Reached machine bodies frags) :
      Reached machine bodies (pass machine frags).1
  | rounded {frags : List (Frag M)} (reached : Reached machine bodies frags)
      (relaxed : (pass machine frags).2 = false) :
      Reached machine bodies (firstGuess machine 0 ((pass machine frags).1.map Frag.body))

/-- No leb128 and no machine-dependent frag of the section ever shrinks. -/
def Steady (machine : Machine M) (bodies : List (Body M)) : Prop :=
  ∀ frags, Reached machine bodies frags → shrinks machine frags = false

theorem run_reached (machine : Machine M) (bodies : List (Body M)) (n : Nat) :
    Reached machine bodies (run machine (firstGuess machine 0 bodies) n) := by
  induction n with
  | zero => exact .start
  | succ n ih => exact .passed ih

variable {bodies : List (Body M)}

theorem Reached.later {machine : Machine M} {frags later : List (Frag M)}
    (reached : Reached machine bodies frags) (relaxed : (pass machine frags).2 = false)
    (more : Reached machine ((pass machine frags).1.map Frag.body) later) :
    Reached machine bodies later := by
  induction more with
  | start => exact .rounded reached relaxed
  | passed _ ih => exact .passed ih
  | rounded _ stopped ih => exact .rounded ih stopped

variable (target : Target M)

theorem firstGuess_orgsKnown (address : Int) (known : OrgsKnown bodies) :
    OrgsKnown ((firstGuess target.toMachine address bodies).map Frag.body) := by
  intro i body label offset found org
  rw [firstGuess_bodies, List.getElem?_map, Option.map_eq_some_iff] at found
  obtain ⟨⟨fix, kind⟩, there, rfl⟩ := found
  cases kind with
  | fill bytes => cases org
  | align power maxBytes => cases org
  | org symbol other => exact known i _ label offset there org
  | machineDependent code =>
    rw [guess] at org
    obtain ⟨_, machine⟩ | ⟨_, fill⟩ := target.estimate_kind fix code
    · simp [machine] at org
    · simp [fill] at org
  | dwarf2dbg line addr size => cases org
  | leb128 sign value size => cases org

/-- A section that can be relaxed, and what is left of the conditions for the next round. -/
theorem relaxSection_ends (known : OrgsKnown bodies) (steady : Steady target.toMachine bodies) :
    ∃ fuel frags, relaxSection target.toMachine fuel bodies = some frags := by
  obtain ⟨last, stops⟩ := relax_ends target (firstGuess_orgsKnown target 0 known)
    fun n => steady _ (run_reached target.toMachine bodies n)
  exact @ends_of_run _ _ (run target.toMachine (firstGuess target.toMachine 0 bodies))
    (fun n => (pass target.toMachine (run target.toMachine (firstGuess target.toMachine 0 bodies) n)).2)
    last (fun i _ => rfl) stops

/-- Where it was relaxed, and that the conditions are left for the next round. -/
theorem relaxSection_spec {fuel : Nat} {frags : List (Frag M)}
    (known : OrgsKnown bodies) (steady : Steady target.toMachine bodies)
    (relaxed : relaxSection target.toMachine fuel bodies = some frags) :
    OrgsKnown (frags.map Frag.body) ∧ Steady target.toMachine (frags.map Frag.body) ∧
      List.Forall₂ (Lower target) bodies (frags.map Frag.body) := by
  obtain ⟨last, ⟨reached, orgs, lower⟩, stopped⟩ := @doWhile_invariant _ _
    (fun frags => Reached target.toMachine bodies frags ∧ OrgsKnown (frags.map Frag.body) ∧
      List.Forall₂ (Lower target) bodies (frags.map Frag.body)) _ _ _
    (fun state next ⟨reached, orgs, lower⟩ stepped => by
      have is : next = (pass target.toMachine state).1 :=
        congrArg Prod.fst (Option.some.inj stepped).symm
      rw [is]
      exact ⟨.passed reached, pass_orgsKnown target orgs,
        forall₂_lower_trans target lower (pass_lower target state)⟩)
    ⟨.start, firstGuess_orgsKnown target 0 known, firstGuess_lower target 0 bodies⟩ relaxed
  have both := Option.some.inj stopped
  have is : frags = (pass target.toMachine last).1 := congrArg Prod.fst both.symm
  have quiet : (pass target.toMachine last).2 = false := congrArg Prod.snd both
  rw [is]
  exact ⟨pass_orgsKnown target orgs, fun later more => steady later (reached.later quiet more),
    forall₂_lower_trans target lower (pass_lower target last)⟩

theorem relaxSection_unique {left right : List (Body M)} {less more : Nat} {one other : List (Frag M)}
    (start : firstGuess target.toMachine 0 left = firstGuess target.toMachine 0 right)
    (first : relaxSection target.toMachine less left = some one)
    (second : relaxSection target.toMachine more right = some other) : one = other := by
  rw [relaxSection] at first second
  rw [start] at first
  have enough := doWhile_mono (Nat.le_add_right less more) first
  rw [doWhile_mono (Nat.le_add_left more less) second] at enough
  exact (Option.some.inj enough).symm

/-- **The rounds of a section**: each of them ends, and in the end they change nothing. -/
theorem section_rounds (known : OrgsKnown bodies) (steady : Steady target.toMachine bodies) :
    ∃ (chain : Nat → List (Frag M)) (settled : Nat),
      (∃ fuel, relaxSection target.toMachine fuel bodies = some (chain 0)) ∧
      (∀ k, ∃ fuel, relaxSection target.toMachine fuel ((chain k).map Frag.body)
        = some (chain (k + 1))) ∧
      ∀ k, settled ≤ k → chain (k + 1) = chain k := by
  let State := { bodies : List (Body M) // OrgsKnown bodies ∧ Steady target.toMachine bodies }
  have ends : ∀ state : State, ∃ frags, ∃ fuel,
      relaxSection target.toMachine fuel state.1 = some frags := by
    intro state
    obtain ⟨fuel, frags, relaxed⟩ := relaxSection_ends target state.2.1 state.2.2
    exact ⟨frags, fuel, relaxed⟩
  choose relaxed fuel spec using ends
  let next : State → State := fun state =>
    ⟨(relaxed state).map Frag.body, by
      have left := relaxSection_spec target state.2.1 state.2.2 (spec state)
      exact ⟨left.1, left.2.1⟩⟩
  let states : Nat → State := fun k => next^[k] ⟨bodies, known, steady⟩
  have steps : ∀ k, states (k + 1) = next (states k) := fun k => Function.iterate_succ_apply' _ _ _
  have lower : ∀ k, List.Forall₂ (Lower target) (states k).1 (states (k + 1)).1 := by
    intro k
    rw [steps]
    exact (relaxSection_spec target (states k).2.1 (states k).2.2 (spec (states k))).2.2
  have falls : Antitone fun k => target.totalRank (states k).1 :=
    antitone_nat_of_succ_le fun k => (lower_start target (lower k)).1
  obtain ⟨settled, stays⟩ := WellFoundedLT.antitone_chain_condition falls
  have bodiesOf : ∀ k, (states (k + 1)).1 = (relaxed (states k)).map Frag.body := by
    intro k
    rw [steps]
  refine ⟨fun k => relaxed (states k), settled, ⟨fuel (states 0), spec (states 0)⟩,
    fun k => ⟨fuel (states (k + 1)), ?_⟩, fun k later => ?_⟩
  · rw [← bodiesOf k]
    exact spec (states (k + 1))
  · have same := (lower_start target (lower k)).2
      ((stays (k + 1) (by omega)).symm.trans (stays k later))
    exact relaxSection_unique target same (spec (states (k + 1))) (spec (states k))

end Rounds

/-! ## Rounds of the sections -/

section Layout

variable {M : Type} {machine : Machine M}

theorem relaxSection_mono {less more : Nat} (enough : less ≤ more)
    {bodies : List (Body M)} {frags : List (Frag M)}
    (relaxed : relaxSection machine less bodies = some frags) :
    relaxSection machine more bodies = some frags :=
  doWhile_mono enough relaxed

theorem layoutRound_mono {less more layoutPass : Nat} (enough : less ≤ more)
    {sections : List (Section M)} {result : List (Section M) × Bool}
    (round : layoutRound machine less layoutPass sections = some result) :
    layoutRound machine more layoutPass sections = some result := by
  induction sections generalizing result with
  | nil => exact round
  | cons part rest ih =>
    rw [layoutRound] at round ⊢
    split at round
    · rename_i skipped
      rw [if_pos skipped]
      obtain ⟨others, rounded, rfl⟩ := Option.map_eq_some_iff.mp round
      rw [ih rounded]
      rfl
    · rename_i taken
      rw [if_neg taken]
      obtain ⟨relaxed, isRelaxed, after⟩ := Option.bind_eq_some_iff.mp round
      obtain ⟨others, rounded, rfl⟩ := Option.map_eq_some_iff.mp after
      obtain ⟨frags, once, rfl⟩ := Option.map_eq_some_iff.mp isRelaxed
      rw [ih rounded, Section.relax, relaxSection_mono enough once]
      rfl

/-- A section the layout pass takes. -/
def Section.taken (layoutPass : Nat) (part : Section M) : Prop :=
  ¬ (part.layoutPass ≠ layoutPass ∨ part.zerofill)

/-- What a round leaves of a section. -/
def Kept (layoutPass : Nat) (before after : Section M) : Prop :=
  after.layoutPass = before.layoutPass ∧ after.zerofill = before.zerofill ∧
    (¬ before.taken layoutPass → after = before)

variable (target : Target M)

/-- The section after so many rounds. -/
def Section.track (part : Section M) (chain : Nat → List (Frag M)) : Nat → Section M
  | 0 => part
  | k + 1 => { part with bodies := (chain k).map Frag.body, last := (chain k).map Frag.address }

theorem Section.relax_track {fuel : Nat} {part : Section M} {chain : Nat → List (Frag M)} {k : Nat}
    (relaxed : relaxSection machine fuel (part.track chain k).bodies = some (chain k)) :
    (part.track chain k).relax machine fuel = some (part.track chain (k + 1),
      decide ((chain k).map Frag.address ≠ (part.track chain k).last)) := by
  rw [Section.relax, relaxed]
  cases k <;> rfl

/-- The rounds of the sections of a layout pass, all together. -/
theorem layout_rounds (layoutPass : Nat) (sections : List (Section M))
    (fit : ∀ part ∈ sections, part.taken layoutPass →
      OrgsKnown part.bodies ∧ Steady target.toMachine part.bodies) :
    ∃ (rows : Nat → List (Section M)) (again : Nat → Bool) (settled : Nat),
      rows 0 = sections ∧
      (∀ k, ∃ fuel, layoutRound target.toMachine fuel layoutPass (rows k)
        = some (rows (k + 1), again k)) ∧
      (∀ k, settled ≤ k → again k = false) ∧
      ∀ k, List.Forall₂ (Kept layoutPass) sections (rows k) := by
  induction sections with
  | nil => exact ⟨fun _ => [], fun _ => false, 0, rfl, fun _ => ⟨0, rfl⟩, fun _ _ => rfl, fun _ => .nil⟩
  | cons part rest ih =>
    obtain ⟨rows, again, settled, start, rounds, stops, kept⟩ :=
      ih fun other member => fit other (List.mem_cons_of_mem _ member)
    by_cases skipped : part.layoutPass ≠ layoutPass ∨ part.zerofill
    · refine ⟨fun k => part :: rows k, again, settled, congrArg _ start, fun k => ?_, stops, fun k =>
        .cons ⟨rfl, rfl, fun _ => rfl⟩ (kept k)⟩
      obtain ⟨fuel, round⟩ := rounds k
      exact ⟨fuel, by rw [layoutRound, if_pos skipped, round]; rfl⟩
    · obtain ⟨known, steady⟩ := fit part List.mem_cons_self skipped
      obtain ⟨chain, still, first, later, stays⟩ := section_rounds target known steady
      have relaxes : ∀ k, ∃ fuel, relaxSection target.toMachine fuel (part.track chain k).bodies
          = some (chain k) := by
        intro k
        cases k with
        | zero => exact first
        | succ k => exact later k
      refine ⟨fun k => part.track chain k :: rows k,
        fun k => decide ((chain k).map Frag.address ≠ (part.track chain k).last) || again k,
        max (still + 1) settled, congrArg _ start, fun k => ?_, fun k after => ?_, fun k => ?_⟩
      · obtain ⟨less, round⟩ := rounds k
        obtain ⟨more, relaxed⟩ := relaxes k
        refine ⟨max less more, ?_⟩
        have taken : ¬ ((part.track chain k).layoutPass ≠ layoutPass ∨ (part.track chain k).zerofill) := by
          cases k <;> exact skipped
        rw [layoutRound, if_neg taken, layoutRound_mono (Nat.le_max_left _ _) round,
          Section.relax_track (relaxSection_mono (Nat.le_max_right _ _) relaxed)]
        rfl
      · obtain ⟨k, rfl⟩ : ∃ less, k = less + 1 := ⟨k - 1, by omega⟩
        have same := stays k (by omega)
        simp [Section.track, same, stops (k + 1) (by omega)]
      · refine .cons ?_ (kept k)
        cases k with
        | zero => exact ⟨rfl, rfl, fun _ => rfl⟩
        | succ k => exact ⟨rfl, rfl, fun untaken => absurd skipped untaken⟩

theorem exists_common_fuel {P : Nat → Nat → Prop} (mono : ∀ k less more, less ≤ more → P k less → P k more)
    (each : ∀ k, ∃ fuel, P k fuel) (last : Nat) : ∃ fuel, ∀ k ≤ last, P k fuel := by
  induction last with
  | zero =>
    obtain ⟨fuel, holds⟩ := each 0
    exact ⟨fuel, fun k atMost => by rwa [Nat.le_zero.mp atMost]⟩
  | succ last ih =>
    obtain ⟨less, front⟩ := ih
    obtain ⟨more, holds⟩ := each (last + 1)
    refine ⟨max less more, fun k atMost => ?_⟩
    by_cases inside : k ≤ last
    · exact mono k _ _ (Nat.le_max_left _ _) (front k inside)
    · obtain rfl : k = last + 1 := by omega
      exact mono _ _ _ (Nat.le_max_right _ _) holds

/-- The loop of one layout pass ends, with enough fuel for its calls and itself, and leaves the
sections of the other passes. -/
theorem layoutLoop_ends (layoutPass : Nat) (sections : List (Section M))
    (fit : ∀ part ∈ sections, part.taken layoutPass →
      OrgsKnown part.bodies ∧ Steady target.toMachine part.bodies) :
    ∃ enough result, (∀ fuel, enough ≤ fuel →
        doWhile (layoutRound target.toMachine fuel layoutPass) fuel sections = some result) ∧
      List.Forall₂ (Kept layoutPass) sections result := by
  obtain ⟨rows, again, settled, start, rounds, stops, kept⟩ := layout_rounds target layoutPass sections fit
  obtain ⟨less, steps⟩ := @exists_common_fuel
    (fun k fuel => layoutRound target.toMachine fuel layoutPass (rows k) = some (rows (k + 1), again k))
    (fun k less more atMost round => layoutRound_mono atMost round) rounds settled
  obtain ⟨i, -, ended, -⟩ := doWhile_of_run steps (stops settled (Nat.le_refl _))
  rw [start] at ended
  refine ⟨max less (settled + 1), rows (i + 1), fun fuel atLeast => ?_, kept (i + 1)⟩
  have inside := doWhile_body_mono
    (fun state next round => layoutRound_mono (show less ≤ fuel by omega) round) ended
  exact doWhile_mono (by omega) inside

/-- What holds of the sections a later pass takes still holds of them. -/
theorem fit_of_kept {layoutPass later : Nat} (other : later ≠ layoutPass) {P : Section M → Prop}
    {sections result : List (Section M)} (kept : List.Forall₂ (Kept layoutPass) sections result)
    (fit : ∀ part ∈ sections, part.taken later → P part) :
    ∀ part ∈ result, part.taken later → P part := by
  induction kept with
  | nil => exact fun part member => absurd member List.not_mem_nil
  | @cons before after _ _ here _ ih =>
    intro part member taken
    obtain rfl | member := List.mem_cons.mp member
    · have same : part = before := by
        refine here.2.2 fun takenBefore => taken (.inl ?_)
        have pass := not_not.mp (not_or.mp takenBefore).1
        rw [here.1, pass]
        exact fun equal => other equal.symm
      rw [same] at taken ⊢
      exact fit before List.mem_cons_self taken
    · exact ih (fun other member => fit other (List.mem_cons_of_mem _ member)) part member taken

end Layout

/-- **Relaxation ends** for sections in which no leb128 and no machine-dependent frag ever
shrinks: every call of `relax_section` comes to a pass in which nothing grows, and the rounds of
each layout pass to one in which no section changes. -/
theorem layoutAddresses_ends {M : Type} (target : Target M) (sections : List (Section M))
    (known : ∀ part ∈ sections, OrgsKnown part.bodies)
    (steady : ∀ part ∈ sections, Steady target.toMachine part.bodies) :
    (∀ part ∈ sections, ∃ fuel frags,
        relaxSection target.toMachine fuel part.bodies = some frags) ∧
      ∃ fuel result, layoutAddresses target.toMachine fuel sections = some result := by
  refine ⟨fun part member => relaxSection_ends target (known part member) (steady part member), ?_⟩
  have fit : ∀ layoutPass, ∀ part ∈ sections, part.taken layoutPass →
      OrgsKnown part.bodies ∧ Steady target.toMachine part.bodies :=
    fun _ part member _ => ⟨known part member, steady part member⟩
  obtain ⟨fuel₀, first, ended₀, kept₀⟩ := layoutLoop_ends target 0 sections (fit 0)
  obtain ⟨fuel₁, second, ended₁, kept₁⟩ := layoutLoop_ends target 1 first
    (fit_of_kept (by decide) kept₀ (fit 1))
  obtain ⟨fuel₂, third, ended₂, -⟩ := layoutLoop_ends target 2 second
    (fit_of_kept (by decide) kept₁ (fit_of_kept (by decide) kept₀ (fit 2)))
  refine ⟨fuel₀ + fuel₁ + fuel₂, third, ?_⟩
  rw [layoutAddresses, ended₀ _ (by omega), Option.bind_some, ended₁ _ (by omega), Option.bind_some,
    ended₂ _ (by omega)]

/-- A leb128 of the length of what follows it, which takes a second byte in the first pass. -/
theorem layoutAddresses_ends_leb128 :
    ∃ fuel result, layoutAddresses (i386 64).toMachine fuel
      [⟨[⟨0, .leb128 false ⟨some ⟨some 2, 0⟩, some ⟨some 1, 0⟩, 0⟩ 0⟩, ⟨200, .fill 0⟩,
        ⟨0, .fill 0⟩], [], 1, false⟩] = some result := by
  have states : ∀ frags, Reached (i386 64).toMachine
      [⟨0, .leb128 false ⟨some ⟨some 2, 0⟩, some ⟨some 1, 0⟩, 0⟩ 0⟩, ⟨200, .fill 0⟩, ⟨0, .fill 0⟩] frags →
      frags = [⟨0, ⟨0, .leb128 false ⟨some ⟨some 2, 0⟩, some ⟨some 1, 0⟩, 0⟩ 1⟩⟩,
        ⟨1, ⟨200, .fill 0⟩⟩, ⟨201, ⟨0, .fill 0⟩⟩] ∨
      frags = [⟨0, ⟨0, .leb128 false ⟨some ⟨some 2, 0⟩, some ⟨some 1, 0⟩, 0⟩ 2⟩⟩,
        ⟨2, ⟨200, .fill 0⟩⟩, ⟨202, ⟨0, .fill 0⟩⟩] := by
    intro frags reached
    induction reached with
    | start => decide
    | passed _ ih => rcases ih with rfl | rfl <;> decide
    | rounded _ _ ih => rcases ih with rfl | rfl <;> decide
  refine (layoutAddresses_ends (i386 64) _ ?_ ?_).2
  · intro part member i body label offset found org
    obtain rfl := List.mem_singleton.mp member
    match i, found with
    | 0, found => cases found; cases org
    | 1, found => cases found; cases org
    | 2, found => cases found; cases org
  · intro part member frags reached
    obtain rfl := List.mem_singleton.mp member
    rcases states frags reached with rfl | rfl <;> decide

/-! ## Sections without leb128 frags -/

def Kind.isLeb128 {M : Type} : Kind M → Bool
  | .leb128 _ _ _ => true
  | _ => false

section Steady

variable {bits : Nat}

theorem relaxFrag_isLeb128 (site : Site Jump) (next : Option Int) (body : Body Jump) :
    (relaxFrag (i386 bits).toMachine site next body).1.kind.isLeb128 = body.kind.isLeb128 := by
  obtain ⟨fix, kind⟩ := body
  cases kind with
  | org symbol offset => cases next <;> rfl
  | machineDependent jump =>
    obtain stays | ⟨_, _, _, grows⟩ := relaxJump_cases site fix jump
    · exact congrArg (fun relaxed => relaxed.1.kind.isLeb128) stays
    · exact congrArg (fun relaxed => relaxed.1.kind.isLeb128) grows
  | _ => rfl

theorem guess_isLeb128 (body : Body Jump) :
    (guess (i386 bits).toMachine body).kind.isLeb128 = body.kind.isLeb128 := by
  obtain ⟨fix, kind⟩ := body
  cases kind with
  | machineDependent jump =>
    simp only [guess, i386, i386Machine, mdEstimateSizeBeforeRelax]
    split <;> rfl
  | _ => rfl

theorem pass_isLeb128 (frags : List (Frag Jump)) :
    (pass (i386 bits).toMachine frags).1.map (fun frag => frag.body.kind.isLeb128)
      = frags.map fun frag => frag.body.kind.isLeb128 := by
  rw [pass, List.map_map]
  have steps := passFrom_steps (i386 bits).toMachine [] frags 0
  generalize passFrom (i386 bits).toMachine [] frags 0 = relaxed at steps
  induction steps with
  | nil => rfl
  | cons step _ ih =>
    obtain ⟨site, next, is⟩ := step
    have body := congrArg (fun both => both.1.kind.isLeb128) is
    rw [relaxFrag_isLeb128] at body
    rw [List.map_cons, List.map_cons, ih]
    exact congrArg (· :: _) body

theorem firstGuess_isLeb128 (bodies : List (Body Jump)) :
    (firstGuess (i386 bits).toMachine 0 bodies).map (fun frag => frag.body.kind.isLeb128)
      = bodies.map fun body => body.kind.isLeb128 := by
  have guessed := congrArg (List.map fun body => body.kind.isLeb128)
    (firstGuess_bodies (i386 bits) 0 bodies)
  rw [List.map_map, List.map_map] at guessed
  exact guessed.trans (List.map_congr_left fun body _ => guess_isLeb128 body)

theorem reached_isLeb128 {bodies : List (Body Jump)} {frags : List (Frag Jump)}
    (reached : Reached (i386 bits).toMachine bodies frags) :
    (frags.map fun frag => frag.body.kind.isLeb128) = bodies.map fun body => body.kind.isLeb128 := by
  induction reached with
  | start => exact firstGuess_isLeb128 bodies
  | passed _ ih => rw [pass_isLeb128, ih]
  | @rounded frags _ _ ih =>
    rw [firstGuess_isLeb128, List.map_map]
    exact (pass_isLeb128 frags).trans ih

/-- **Jumps, alignments and `.org`s are always relaxed**: nothing but a leb128 can shrink. -/
theorem i386_steady {bodies : List (Body Jump)}
    (plain : ∀ body ∈ bodies, body.kind.isLeb128 = false) : Steady (i386 bits).toMachine bodies := by
  intro frags reached
  have none_ : ∀ frag ∈ frags, frag.body.kind.isLeb128 = false := by
    intro frag member
    have listed := List.mem_map_of_mem (f := fun frag : Frag Jump => frag.body.kind.isLeb128) member
    rw [reached_isLeb128 reached] at listed
    obtain ⟨body, member, same⟩ := List.mem_map.mp listed
    rw [← same, plain body member]
  refine List.any_eq_false.mpr fun step member => ?_
  obtain ⟨frag, relaxed⟩ := step
  obtain ⟨site, next, is⟩ :=
    (List.forall₂_iff_zip.mp (passFrom_steps (i386 bits).toMachine [] frags 0)).2 member
  have notLeb := none_ frag (List.of_mem_zip member).1
  obtain ⟨address, fix, kind⟩ := frag
  cases kind with
  | leb128 sign value size => cases notLeb
  | machineDependent jump =>
    have growth := congrArg Prod.snd is
    obtain stays | ⟨amount, positive, _, grows⟩ := relaxJump_cases site fix jump
    · have zero : relaxed.2 = 0 := growth.trans (congrArg Prod.snd stays)
      simp [zero]
    · have amounts : relaxed.2 = amount := growth.trans (congrArg Prod.snd grows)
      simp [amounts]
      omega
  | _ => simp [Kind.sized]

/-- **The layout of i386 code ends** when no section with contents has a leb128: each `relax_section` of
each round does, and so do the rounds of all three passes. -/
theorem i386_layout_ends (sections : List (Section Jump))
    (plain : ∀ part ∈ sections, part.zerofill = false →
      OrgsKnown part.bodies ∧ ∀ body ∈ part.bodies, body.kind.isLeb128 = false) :
    ∃ enough result, ∀ fuel, enough ≤ fuel →
      layoutAddresses (i386 bits).toMachine fuel sections = some result := by
  have fit : ∀ layoutPass, ∀ part ∈ sections, part.taken layoutPass →
      OrgsKnown part.bodies ∧ Steady (i386 bits).toMachine part.bodies := by
    intro _ part member taken
    have contents : part.zerofill = false := by simpa using (not_or.mp taken).2
    exact (plain part member contents).imp_right i386_steady
  obtain ⟨enough₀, first, ended₀, kept₀⟩ := layoutLoop_ends (i386 bits) 0 sections (fit 0)
  obtain ⟨enough₁, second, ended₁, kept₁⟩ := layoutLoop_ends (i386 bits) 1 first
    (fit_of_kept (by decide) kept₀ (fit 1))
  have fit₂ := fit_of_kept (by decide) kept₁ (fit_of_kept (by decide) kept₀ (fit 2))
  obtain ⟨enough₂, third, ended₂, -⟩ := layoutLoop_ends (i386 bits) 2 second fit₂
  refine ⟨enough₀ + enough₁ + enough₂, third, ?_⟩
  intro fuel atLeast
  rw [layoutAddresses, ended₀ fuel (by omega)]
  show (doWhile _ fuel first).bind _ = _
  rw [ended₁ fuel (by omega)]
  exact ended₂ fuel (by omega)

/-- A jump over an alignment, in text, and a label before it that an `.org` goes on from. -/
theorem i386_layout_ends_jump : ∃ enough result, ∀ fuel, enough ≤ fuel →
    layoutAddresses (i386 64).toMachine fuel
      [⟨[⟨2, .machineDependent ⟨0, some ⟨some 2, 0⟩, 0, true⟩⟩, ⟨2, .align 2 0⟩,
        ⟨0, .org (some ⟨some 0, 0⟩) 200⟩, ⟨0, .fill 0⟩], [], 1, false⟩] = some result := by
  apply i386_layout_ends
  intro part member _
  obtain rfl := List.mem_singleton.mp member
  refine ⟨?_, by decide⟩
  intro i body label offset found org j isFrag
  match i, found with
  | 0, found => cases found; cases org
  | 1, found => cases found; cases org
  | 2, found =>
    cases found
    cases org
    obtain rfl := Option.some.inj isFrag
    exact Nat.zero_le 2
  | 3, found => cases found; cases org

end Steady

/-! ## A section without end -/

/-- Three bytes, the length of what follows up to the label behind an alignment to four, and 127
bytes before that alignment.  With one byte for the length the alignment takes one and the length
is 128, which needs two; with two bytes it takes none and the length is 127, which needs one. -/
def oscillating : List (Body Jump) :=
  [⟨3, .leb128 false ⟨some ⟨some 2, 0⟩, some ⟨some 1, 0⟩, 0⟩ 0⟩, ⟨127, .align 2 0⟩, ⟨0, .fill 0⟩]

theorem relaxSection_oscillates :
    ¬ ∃ fuel frags, relaxSection (i386 64).toMachine fuel oscillating = some frags := by
  refine @not_ends_of_invariant _ _ (fun frags =>
    frags = firstGuess (i386 64).toMachine 0 oscillating ∨
      frags = (pass (i386 64).toMachine (firstGuess (i386 64).toMachine 0 oscillating)).1) _ ?_
    (.inl rfl)
  rintro frags (rfl | rfl)
  · exact ⟨_, by decide, .inr rfl⟩
  · exact ⟨_, by decide, .inl rfl⟩

end Cctools.As
