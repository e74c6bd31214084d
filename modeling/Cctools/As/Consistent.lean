/-
# Cctools.As.Consistent -- addresses, sizes and bytes agree

A section that has been relaxed is a chain that a pass leaves as it is (`Settled`).
Each frag but a `.org` is followed at the address its size asks for (`Next`), which
the first guess sees to and every pass keeps; what a last pass says of a frag's
growth is what holds of it in the end.

`layout_consistent` is about the runs of `layout_addresses`: where no pass clamps a
`.org` (`OrgsForward`) and no pass does an alignment that the first loop skipped, and so
did not record as the section's, the bytes are where their addresses say.  The
symbols of a leb128 must be of one section, for it is sized before the sections are
slid.
-/
import Cctools.As.Convert

namespace Cctools.As

set_option autoImplicit false

open Cctools.Theory Cctools.Theory.Loop

/-! ## Sizes -/

section Sizes

variable {M : Type} (converter : Converter M)

/-- The bytes of a frag after its fixed part, which ends at `address`; those of a `.org` depend on
more. -/
def Kind.extra (address : Int) : Kind M → Int
  | .fill bytes => bytes
  | .align power maxBytes => alignFill address power maxBytes
  | .org _ _ => 0
  | .machineDependent code => converter.extension code
  | .dwarf2dbg _ _ size => size
  | .leb128 _ _ size => size

def Frag.behind (frag : Frag M) : Int := frag.address + frag.body.fix

def Kind.isOrg : Kind M → Bool
  | .org _ _ => true
  | _ => false

/-- The address of the next frag. -/
def Next (frag next : Frag M) : Prop :=
  frag.body.kind.isOrg = false → next.address = frag.behind + frag.body.kind.extra converter frag.behind

theorem guess_extra (address : Int) (body : Body M) (notOrg : body.kind.isOrg = false) :
    (guess converter.toMachine body).kind.isOrg = false ∧
      address + guessBytes converter.toMachine address body =
        address + (guess converter.toMachine body).fix +
          (guess converter.toMachine body).kind.extra converter
            (address + (guess converter.toMachine body).fix) := by
  obtain ⟨fix, kind⟩ := body
  cases kind with
  | org symbol offset => cases notOrg
  | machineDependent code =>
    simp only [guess, guessBytes]
    obtain ⟨next, kind, counted⟩ | ⟨bytes, kind, counted⟩ := converter.estimate_extension fix code
    · simp only [kind, Kind.isOrg, Kind.extra, true_and]
      omega
    · simp only [kind, Kind.isOrg, Kind.extra, true_and]
      omega
  | _ => simp [guess, guessBytes, Kind.extra, Kind.isOrg, Int.add_assoc]

theorem guess_isOrg {body : Body M}
    (notOrg : (guess converter.toMachine body).kind.isOrg = false) : body.kind.isOrg = false := by
  obtain ⟨fix, kind⟩ := body
  cases kind with
  | org symbol offset => cases notOrg
  | _ => rfl

theorem firstGuess_chain (address : Int) (bodies : List (Body M)) :
    List.IsChain (Next converter) (firstGuess converter.toMachine address bodies) := by
  induction bodies generalizing address with
  | nil => exact .nil
  | cons body rest ih =>
    rw [firstGuess, List.isChain_cons]
    refine ⟨fun next head notOrg => ?_, ih _⟩
    cases rest with
    | nil => simp [firstGuess] at head
    | cons other more =>
      simp only [firstGuess, List.head?_cons, Option.mem_def, Option.some.injEq] at head
      rw [← head]
      exact (guess_extra converter address body (guess_isOrg converter notOrg)).2

theorem relaxFrag_isOrg (site : Site M) (next : Option Int) (body : Body M) :
    (relaxFrag converter.toMachine site next body).1.kind.isOrg = body.kind.isOrg := by
  obtain ⟨fix, kind⟩ := body
  cases kind with
  | org symbol offset => cases next <;> rfl
  | machineDependent code =>
    obtain ⟨_, is, _⟩ := converter.relax_extension site fix code
    exact congrArg (fun body => body.kind.isOrg) is
  | _ => rfl

/-- **What a pass counts for a frag is what its size has changed by.** -/
theorem relaxFrag_extra (site : Site M) (next : Option Int) (body : Body M) (notOrg : body.kind.isOrg = false) :
    site.address + (relaxFrag converter.toMachine site next body).1.fix +
        (relaxFrag converter.toMachine site next body).1.kind.extra converter
          (site.address + (relaxFrag converter.toMachine site next body).1.fix) =
      site.address + body.fix + body.kind.extra converter (site.wasAddress + body.fix) +
        (relaxFrag converter.toMachine site next body).2 := by
  obtain ⟨fix, kind⟩ := body
  cases kind with
  | org symbol offset => cases notOrg
  | machineDependent code =>
    obtain ⟨other, is, counted⟩ := converter.relax_extension site fix code
    simp only [relaxFrag, is, Kind.extra]
    omega
  | _ =>
    simp only [relaxFrag, Kind.extra]
    omega

theorem passFrom_chain (before frags : List (Frag M)) (stretch : Int)
    (chain : List.IsChain (Next converter) frags) :
    List.IsChain (Next converter)
      ((passFrom converter.toMachine before frags stretch).map Prod.fst) := by
  induction frags generalizing before stretch with
  | nil => exact .nil
  | cons frag rest ih =>
    rw [List.isChain_cons] at chain
    rw [passFrom, List.map_cons, List.isChain_cons]
    refine ⟨fun next head notOrg => ?_, ih _ _ chain.2⟩
    cases rest with
    | nil => simp [passFrom] at head
    | cons other more =>
      simp only [passFrom, List.map_cons, List.head?_cons, Option.mem_def,
        Option.some.injEq] at head
      rw [relaxFrag_isOrg] at notOrg
      have was := chain.1 other rfl notOrg
      have grown := relaxFrag_extra converter
        ⟨before ++ { frag with address := frag.address + stretch } :: other :: more,
          before.length, frag.address, frag.address + stretch, stretch⟩
        (some other.address) frag.body notOrg
      rw [← head]
      simp only [Frag.behind] at was grown ⊢
      simp only [List.head?_cons, Option.map_some] at grown ⊢
      omega

theorem pass_chain {frags : List (Frag M)} (chain : List.IsChain (Next converter) frags) :
    List.IsChain (Next converter) (pass converter.toMachine frags).1 :=
  passFrom_chain converter [] frags 0 chain

end Sizes

/-! ## Settled chains -/

section Settled

variable {M : Type} (converter : Converter M)

theorem relaxFrag_still {site : Site M} {next : Option Int} {body : Body M}
    (still : (relaxFrag converter.toMachine site next body).2 = 0) :
    (relaxFrag converter.toMachine site next body).1 = body := by
  obtain ⟨fix, kind⟩ := body
  cases kind with
  | org symbol offset => cases next <;> rfl
  | machineDependent code => exact converter.relax_still site fix code still
  | dwarf2dbg line addr size =>
    simp only [relaxFrag] at still ⊢
    rw [Int.sub_eq_zero.mp still]
  | leb128 sign value size =>
    simp only [relaxFrag] at still ⊢
    rw [Int.sub_eq_zero.mp still]
  | _ => rfl

theorem passFrom_still (before frags : List (Frag M))
    (still : ∀ growth ∈ (passFrom converter.toMachine before frags 0).map Prod.snd, growth = 0) :
    (passFrom converter.toMachine before frags 0).map Prod.fst = frags := by
  induction frags generalizing before with
  | nil => rfl
  | cons frag rest ih =>
    rw [passFrom] at still ⊢
    simp only [List.map_cons, List.mem_cons, forall_eq_or_imp] at still ⊢
    obtain ⟨here, later⟩ := still
    rw [here] at later ⊢
    rw [relaxFrag_still converter here] at later ⊢
    simp only [Int.add_zero] at later ⊢
    rw [ih _ later]

/-- A chain as `relax_section` leaves it. -/
structure Settled (frags : List (Frag M)) : Prop where
  begins : fragAddress frags 0 = 0
  chain : List.IsChain (Next converter) frags
  quiet : (pass converter.toMachine frags).2 = false

variable {frags : List (Frag M)}

theorem pass_still (quiet : (pass converter.toMachine frags).2 = false) :
    (pass converter.toMachine frags).1 = frags := by
  refine passFrom_still converter [] frags fun growth member => ?_
  simpa using List.any_eq_false.mp quiet growth member

theorem firstGuess_begins (bodies : List (Body M)) :
    fragAddress (firstGuess converter.toMachine 0 bodies) 0 = 0 := by
  cases bodies <;> rfl

theorem pass_begins (begins : fragAddress frags 0 = 0) :
    fragAddress (pass converter.toMachine frags).1 0 = 0 := by
  cases frags with
  | nil => rfl
  | cons frag rest =>
    rw [pass_address (frag :: rest) (Nat.zero_lt_succ _), begins]
    simp

/-- **A section that is relaxed has settled.** -/
theorem relaxSection_settled {fuel : Nat} {bodies : List (Body M)}
    (relaxed : relaxSection converter.toMachine fuel bodies = some frags) :
    Settled converter frags := by
  obtain ⟨last, ⟨begins, chain⟩, stopped⟩ := @doWhile_invariant _ _
    (fun state => fragAddress state 0 = 0 ∧ List.IsChain (Next converter) state) _ _ _
    (fun state next ⟨begins, chain⟩ stepped => by
      have is : (pass converter.toMachine state).1 = next :=
        congrArg Prod.fst (Option.some.inj stepped)
      rw [← is]
      exact ⟨pass_begins converter begins, pass_chain converter chain⟩)
    ⟨firstGuess_begins converter bodies, firstGuess_chain converter 0 bodies⟩ relaxed
  have both := Option.some.inj stopped
  have quiet : (pass converter.toMachine last).2 = false := congrArg Prod.snd both
  have is : last = frags := (pass_still converter quiet).symm.trans (congrArg Prod.fst both)
  rw [← is]
  exact ⟨begins, chain, quiet⟩

variable {converter} {frags : List (Frag M)} {i : Nat}

theorem Settled.next (settled : Settled converter frags) {frag next : Frag M}
    (here : frags[i]? = some frag) (after : frags[i + 1]? = some next)
    (notOrg : frag.body.kind.isOrg = false) :
    next.address = frag.behind + frag.body.kind.extra converter frag.behind := by
  obtain ⟨_, rfl⟩ := List.getElem?_eq_some_iff.mp here
  obtain ⟨inside, rfl⟩ := List.getElem?_eq_some_iff.mp after
  exact settled.chain.getElem i inside notOrg

theorem Settled.allQuiet (settled : Settled converter frags) (k : Nat) :
    Quiet converter.toMachine k frags := by
  intro i _
  rw [growthAt]
  cases found : (growths converter.toMachine frags)[i]? with
  | none => rfl
  | some growth =>
    have still := List.any_eq_false.mp settled.quiet growth (List.mem_of_getElem? found)
    simpa using still

/-- In a pass over it a frag is relaxed with every address as it is, and does not grow. -/
theorem Settled.still (settled : Settled converter frags) {frag : Frag M} (here : frags[i]? = some frag) :
    ∃ view : List (Frag M), view.map Frag.address = frags.map Frag.address ∧
      (relaxFrag converter.toMachine ⟨view, i, frag.address, frag.address, 0⟩
        (frags[i + 1]?.map Frag.address) frag.body).2 = 0 := by
  obtain ⟨view, addresses, growth⟩ := (settled.allQuiet i).growth_eq here
  refine ⟨view, addresses, ?_⟩
  rw [← growth]
  exact settled.allQuiet (i + 1) i (Nat.lt_succ_self i)

theorem label_address_congr {left right : List (Frag M)}
    (same : left.map Frag.address = right.map Frag.address) (label : Label) :
    label.address left = label.address right := by
  obtain ⟨frag, value⟩ := label
  cases frag <;> simp [Label.address, fragAddress_congr same]

theorem eval_congr {left right : List (Frag M)}
    (same : left.map Frag.address = right.map Frag.address) (expression : Expression) :
    expression.eval left = expression.eval right := by
  obtain ⟨add, subtract, number⟩ := expression
  cases add <;> cases subtract <;> simp [Expression.eval, label_address_congr same]

/-- What a `.org` asks for, from the section's start. -/
def orgTarget (frags : List (Frag M)) (symbol : Option Label) (offset : Int) : Int :=
  offset + (symbol.map (Label.address frags)).getD 0

/-- Each `.org` of a pass goes forward: to what is neither before the end of its own frag nor before
the frag behind it, so that its growth is not clamped. -/
def OrgsForward (machine : Machine M) (before : List (Frag M)) : List (Frag M) → Int → Prop
  | [], _ => True
  | frag :: rest, stretch =>
    let moved : Frag M := { frag with address := frag.address + stretch }
    let site : Site M :=
      ⟨before ++ moved :: rest, before.length, frag.address, moved.address, stretch⟩
    let relaxed := relaxFrag machine site (rest.head?.map Frag.address) frag.body
    (∀ symbol offset next, frag.body.kind = .org symbol offset → rest.head? = some next →
      moved.behind ≤ orgTarget site.frags symbol offset ∧
        next.address ≤ orgTarget site.frags symbol offset) ∧
      OrgsForward machine (before ++ [{ moved with body := relaxed.1 }]) rest (stretch + relaxed.2)

variable {symbol : Option Label}

/-- In a pass that changes nothing that is so of the chain. -/
theorem orgsForward_still (before : List (Frag M))
    (still : ∀ growth ∈ (passFrom converter.toMachine before frags 0).map Prod.snd, growth = 0)
    (forward : OrgsForward converter.toMachine before frags 0) {frag next : Frag M}
    {offset : Int} (here : frags[i]? = some frag)
    (after : frags[i + 1]? = some next) (org : frag.body.kind = .org symbol offset) :
    frag.behind ≤ orgTarget (before ++ frags) symbol offset ∧
      next.address ≤ orgTarget (before ++ frags) symbol offset := by
  induction frags generalizing before i with
  | nil => simp at here
  | cons first rest ih =>
    rw [OrgsForward] at forward
    rw [passFrom] at still
    simp only [List.map_cons, List.mem_cons, forall_eq_or_imp] at still
    obtain ⟨none_, later⟩ := still
    rw [none_] at later forward
    rw [relaxFrag_still converter none_] at later forward
    simp only [Int.add_zero] at later forward
    cases i with
    | zero =>
      simp only [List.getElem?_cons_zero, Option.some.injEq] at here
      subst here
      rw [List.getElem?_cons_succ] at after
      exact forward.1 symbol offset next org (List.head?_eq_getElem?.trans after)
    | succ i =>
      have tail := ih (before ++ [first]) later forward.2 here after
      rwa [List.append_assoc, List.singleton_append] at tail

theorem Settled.forward (settled : Settled converter frags)
    (forward : OrgsForward converter.toMachine [] frags 0) {frag next : Frag M}
    {offset : Int} (here : frags[i]? = some frag)
    (after : frags[i + 1]? = some next) (org : frag.body.kind = .org symbol offset) :
    frag.behind ≤ orgTarget frags symbol offset ∧ next.address ≤ orgTarget frags symbol offset := by
  refine orgsForward_still [] (fun growth member => ?_) forward here after org
  simpa using List.any_eq_false.mp settled.quiet growth member

theorem Settled.org (settled : Settled converter frags) {frag next : Frag M}
    {offset : Int} (here : frags[i]? = some frag)
    (after : frags[i + 1]? = some next) (org : frag.body.kind = .org symbol offset) :
    orgTarget frags symbol offset ≤ next.address := by
  obtain ⟨view, addresses, still⟩ := settled.still here
  have asked : orgTarget frags symbol offset
      = offset + (symbol.map (Label.address view)).getD 0 := by
    cases symbol <;> simp [orgTarget, label_address_congr addresses]
  rw [relaxFrag, org, after] at still
  simp only [Option.map_some] at still
  split at still <;> omega

theorem Settled.leb128 (settled : Settled converter frags) {frag : Frag M} {sign : Bool}
    {value : Expression} {size : Int} (here : frags[i]? = some frag)
    (leb128 : frag.body.kind = .leb128 sign value size) :
    size = sizeofLeb128 converter.bits (value.eval frags) sign := by
  obtain ⟨view, addresses, still⟩ := settled.still here
  rw [relaxFrag, leb128] at still
  simp only [eval_congr addresses] at still
  omega

end Settled

/-! ## Conversions -/

section Conversions

variable {M : Type}

theorem outputUleb128_length (groups value : Nat) :
    (outputUleb128 groups value).length = sizeofUleb128 groups value := by
  induction groups generalizing value with
  | zero => rfl
  | succ groups ih =>
    rw [outputUleb128, sizeofUleb128]
    split
    · rfl
    · rw [List.length_cons, ih, Nat.add_comm]

theorem outputSleb128_length (groups : Nat) (value : Int) :
    (outputSleb128 groups value).length = sizeofSleb128 groups value := by
  induction groups generalizing value with
  | zero => rfl
  | succ groups ih =>
    rw [outputSleb128, sizeofSleb128]
    split
    · rfl
    · rw [List.length_cons, ih, Nat.add_comm]

/-- `output_leb128` writes as many bytes as `sizeof_leb128` counts. -/
theorem outputLeb128_eq (bits : Nat) (value : Int) (sign : Bool) :
    outputLeb128 bits value sign = sizeofLeb128 bits value sign := by
  rw [outputLeb128, sizeofLeb128, outputUleb128_length, outputSleb128_length]

theorem convertFill_bytes (align : Bool) (fix nbytes : Int) (filling : Filling) :
    (convertFill align fix nbytes filling).bytes = fix + max nbytes 0 := by
  have count : (if nbytes < 0 then 0 else nbytes) = max nbytes 0 := by split <;> omega
  rw [convertFill, count]
  split
  · rw [Converted.bytes, Int.one_mul]
  · have divided := Int.emod_add_mul_ediv (max nbytes 0) filling.fillSize
    rw [Int.mul_comm] at divided
    simp only [Converted.bytes]
    omega

theorem relaxAlign_nonneg (address : Int) (alignment : Nat) : 0 ≤ relaxAlign address alignment := by
  have positive : (0 : Int) < 2 ^ alignment := Int.pow_pos (by omega)
  have up := Int.lt_ediv_add_one_mul_self (address + (2 ^ alignment - 1)) positive
  rw [Int.add_mul] at up
  rw [relaxAlign]
  omega

theorem relaxAlign_dvd (address : Int) (alignment : Nat) :
    (2 : Int) ^ alignment ∣ address + relaxAlign address alignment :=
  ⟨(address + (2 ^ alignment - 1)) / 2 ^ alignment, by rw [relaxAlign, Int.mul_comm]; omega⟩

theorem alignFill_nonneg (address : Int) (alignment : Nat) (maxBytes : Int) :
    0 ≤ alignFill address alignment maxBytes := by
  have := relaxAlign_nonneg address alignment
  rw [alignFill]
  split <;> omega

/-- The alignment is not done: it would take more than its maximum. -/
def alignSkipped (address : Int) (power : Nat) (maxBytes : Int) : Prop :=
  maxBytes ≠ 0 ∧ maxBytes < relaxAlign address power

/-- An alignment that is done is followed by a multiple, from the section's start. -/
theorem Settled.aligned {M : Type} {converter : Converter M} {frags : List (Frag M)}
    (settled : Settled converter frags) {i : Nat} {frag next : Frag M} {power : Nat} {maxBytes : Int}
    (here : frags[i]? = some frag) (after : frags[i + 1]? = some next)
    (kind : frag.body.kind = .align power maxBytes)
    (done : ¬ alignSkipped frag.behind power maxBytes) : (2 : Int) ^ power ∣ next.address := by
  have follows := settled.next here after (by rw [kind]; rfl)
  have filled : alignFill frag.behind power maxBytes = relaxAlign frag.behind power := if_neg done
  rw [kind, Kind.extra, filled] at follows
  rw [follows]
  exact relaxAlign_dvd _ _

end Conversions

/-! ## Relaxed sections -/

section Relaxed

variable {M : Type} (converter : Converter M)

theorem guessFrags_frags (chain : Frchain M) (frags : List (Frag M)) :
    Frchain.frags { chain with bodies := frags.map Frag.body, last := frags.map Frag.address }
      = frags := by
  simp only [Frchain.frags]
  induction frags with
  | nil => rfl
  | cons frag rest ih => rw [List.map_cons, List.map_cons, List.zipWith_cons_cons, ih]

/-- The frags a call of `relax_section` finds: those of the section as it was read, or what a call
before has left. -/
inductive Round (machine : Machine M) (bodies : List (Body M)) : List (Body M) → Prop where
  | first : Round machine bodies bodies
  | again {later : List (Body M)} {fuel : Nat} {frags : List (Frag M)} (round : Round machine bodies later)
      (relaxed : relaxSection machine fuel later = some frags) :
      Round machine bodies (frags.map Frag.body)

/-- A section and what the rounds so far have made of it. -/
structure Came (machine : Machine M) (before after : Frchain M) : Prop where
  round : Round machine before.bodies after.bodies
  align : before.align ≤ after.align
  fillings : after.fillings = before.fillings
  zerofill : after.zerofill = before.zerofill
  layoutPass : after.layoutPass = before.layoutPass

/-- A section behind a call of `relax_section`: with the frags of that call, and the alignments of its
first loop. -/
def Called (machine : Machine M) (before after : Frchain M) : Prop :=
  ∃ later align fuel, Round machine before.bodies later ∧ before.align ≤ align ∧
    relaxSection machine fuel later = some after.frags ∧
      after.align = guessAlign machine align 0 later

/-- The sections of the passes before have been relaxed. -/
def Laid (machine : Machine M) (layoutPass : Nat) (before after : Frchain M) : Prop :=
  Came machine before after ∧
    (before.layoutPass < layoutPass → before.zerofill = false → Called machine before after)

theorem le_guessAlign (machine : Machine M) (align : Nat) (address : Int) (bodies : List (Body M)) :
    align ≤ guessAlign machine align address bodies := by
  induction bodies generalizing align address with
  | nil => exact Nat.le_refl _
  | cons body rest ih =>
    rw [guessAlign]
    refine Nat.le_trans ?_ (ih _ _)
    split
    · split
      · exact Nat.le_max_left _ _
      · exact Nat.le_refl _
    · exact Nat.le_refl _

variable {machine : Machine M}

theorem Frchain.relax_called {fuel : Nat} {before chain after : Frchain M}
    {changed : Bool} (came : Came machine before chain)
    (relaxed : chain.relax machine fuel = some (after, changed)) :
    Came machine before after ∧ Called machine before after := by
  obtain ⟨frags, once, is⟩ := Option.map_eq_some_iff.mp relaxed
  obtain rfl := (congrArg Prod.fst is).symm
  refine ⟨⟨came.round.again once, ?_, came.fillings, came.zerofill, came.layoutPass⟩, ?_⟩
  · exact Nat.le_trans came.align (le_guessAlign machine _ _ _)
  · refine ⟨chain.bodies, chain.align, fuel, came.round, came.align, ?_, rfl⟩
    rw [once]
    exact congrArg some (guessFrags_frags { chain with
      align := guessAlign machine chain.align 0 chain.bodies } frags).symm

/-- A round relaxes the sections of its pass and leaves the others. -/
theorem relaxRound_laid {fuel layoutPass : Nat}
    {sections chains : List (Frchain M)} {result : List (Frchain M) × Bool}
    (laid : List.Forall₂ (Laid machine layoutPass) sections chains)
    (round : relaxRound machine fuel layoutPass chains = some result) :
    List.Forall₂ (Laid machine layoutPass) sections result.1 ∧
      List.Forall₂ (Laid machine (layoutPass + 1)) sections result.1 := by
  induction laid generalizing result with
  | nil =>
    cases round
    exact ⟨.nil, .nil⟩
  | @cons before chain sections chains here _ ih =>
    rw [relaxRound] at round
    split at round
    · rename_i skipped
      obtain ⟨others, rounded, rfl⟩ := Option.map_eq_some_iff.mp round
      refine ⟨.cons here (ih rounded).1, .cons ⟨here.1, fun earlier contents => ?_⟩ (ih rounded).2⟩
      rw [here.1.layoutPass, here.1.zerofill, contents] at skipped
      refine here.2 (Nat.lt_of_le_of_ne (Nat.le_of_lt_succ earlier) ?_) contents
      exact skipped.resolve_right Bool.false_ne_true
    · obtain ⟨⟨after, changed⟩, isRelaxed, more⟩ := Option.bind_eq_some_iff.mp round
      obtain ⟨others, rounded, rfl⟩ := Option.map_eq_some_iff.mp more
      obtain ⟨came, called⟩ := Frchain.relax_called here.1 isRelaxed
      exact ⟨.cons ⟨came, fun _ _ => called⟩ (ih rounded).1,
        .cons ⟨came, fun _ _ => called⟩ (ih rounded).2⟩

theorem relaxLoop_laid {fuel layoutPass : Nat} {sections chains result : List (Frchain M)}
    (laid : List.Forall₂ (Laid machine layoutPass) sections chains)
    (ended : doWhile (relaxRound machine fuel layoutPass) fuel chains = some result) :
    List.Forall₂ (Laid machine (layoutPass + 1)) sections result := by
  obtain ⟨last, laid, round⟩ := @doWhile_invariant _ _
    (List.Forall₂ (Laid machine layoutPass) sections) _ _ _
    (fun state next laid round => (relaxRound_laid laid round).1) laid ended
  exact (relaxRound_laid laid round).2

/-- **Every section with contents has been relaxed** when the three loops are through. -/
theorem relaxFrchains_called {fuel : Nat} {chains laid : List (Frchain M)}
    (finished : relaxFrchains machine fuel chains = some laid) :
    List.Forall₂ (fun before after => Came machine before after ∧
      (before.zerofill = false → Called machine before after)) chains laid := by
  obtain ⟨first, ended₀, finished⟩ := Option.bind_eq_some_iff.mp finished
  obtain ⟨second, ended₁, ended₂⟩ := Option.bind_eq_some_iff.mp finished
  have start : List.Forall₂ (Laid machine 0) chains chains := by
    refine List.forall₂_same.mpr fun chain _ => ⟨⟨.first, Nat.le_refl _, rfl, rfl, rfl⟩, ?_⟩
    exact fun earlier => absurd earlier (Nat.not_lt_zero _)
  refine (relaxLoop_laid (relaxLoop_laid (relaxLoop_laid start ended₀) ended₁) ended₂).imp
    fun before after laid => ⟨laid.1, laid.2 ?_⟩
  rw [Frchain.layoutPass]
  split
  · omega
  · split <;> omega

theorem relaxFrchains_settled {fuel : Nat} {chains laid : List (Frchain M)}
    (finished : relaxFrchains converter.toMachine fuel chains = some laid) {chain : Frchain M}
    (member : chain ∈ laid) (contents : chain.zerofill = false) :
    Settled converter chain.frags := by
  obtain ⟨i, there⟩ := List.mem_iff_getElem?.mp member
  obtain ⟨before, _, came, called⟩ := forall₂_getElem? (relaxFrchains_called finished).flip there
  obtain ⟨later, align, less, _, _, relaxed, _⟩ := called (came.zerofill.symm.trans contents)
  exact relaxSection_settled converter relaxed

end Relaxed

/-! ## Recorded alignments -/

section Recorded

variable {M : Type} (machine : Machine M)

/-- An alignment with a maximum that the first loop does is recorded as the section's. -/
theorem guessAlign_records {align : Nat} {address : Int} {bodies : List (Body M)} {i : Nat}
    {frag : Frag M} {fix maxBytes : Int} {power : Nat}
    (here : (firstGuess machine address bodies)[i]? = some frag)
    (kind : bodies[i]? = some ⟨fix, .align power maxBytes⟩) (limited : maxBytes ≠ 0)
    (done : ¬ alignSkipped (frag.address + fix) power maxBytes) :
    power ≤ guessAlign machine align address bodies := by
  induction bodies generalizing align address i with
  | nil => simp at kind
  | cons body rest ih =>
    cases i with
    | zero =>
      simp only [List.getElem?_cons_zero, Option.some.injEq] at kind
      subst kind
      simp only [firstGuess, List.getElem?_cons_zero, Option.some.injEq] at here
      subst here
      have fits : relaxAlign (address + fix) power ≤ maxBytes := by
        simp only [alignSkipped, not_and, Int.not_lt] at done
        exact done limited
      rw [guessAlign]
      refine Nat.le_trans ?_ (le_guessAlign machine _ _ rest)
      simp only [limited, fits, ne_eq, not_false_eq_true, and_self, if_true]
      exact Nat.le_max_right _ _
    | succ i =>
      rw [List.getElem?_cons_succ] at kind
      rw [firstGuess, List.getElem?_cons_succ] at here
      rw [guessAlign]
      exact ih here kind

end Recorded

/-! ## Runs -/

section Runs

variable {M : Type} {converter : Converter M}

def Kind.placed : Kind M → Bool
  | .align _ _ => true
  | .org _ _ => true
  | _ => false

theorem relaxFrag_placed {site : Site M} {next : Option Int} {body : Body M}
    (placed : (relaxFrag converter.toMachine site next body).1.kind.placed = true) :
    (relaxFrag converter.toMachine site next body).1 = body := by
  obtain ⟨fix, kind⟩ := body
  cases kind with
  | org symbol offset => cases next <;> rfl
  | machineDependent code =>
    obtain ⟨other, is, _⟩ := converter.relax_extension site fix code
    rw [relaxFrag, is] at placed
    cases placed
  | dwarf2dbg line addr size => cases placed
  | leb128 sign value size => cases placed
  | _ => rfl

theorem guess_placed {body : Body M} (placed : (guess converter.toMachine body).kind.placed = true) :
    guess converter.toMachine body = body := by
  obtain ⟨fix, kind⟩ := body
  cases kind with
  | machineDependent code =>
    obtain ⟨other, is, _⟩ | ⟨bytes, is, _⟩ := converter.estimate_extension fix code
    · simp only [guess, is] at placed
      cases placed
    · simp only [guess, is] at placed
      cases placed
  | dwarf2dbg line addr size => cases placed
  | leb128 sign value size => cases placed
  | _ => rfl

variable {bodies : List (Body M)}

theorem firstGuess_placed {address : Int} {i : Nat} {frag : Frag M}
    (here : (firstGuess converter.toMachine address bodies)[i]? = some frag)
    (placed : frag.body.kind.placed = true) : bodies[i]? = some frag.body := by
  induction bodies generalizing address i with
  | nil => simp [firstGuess] at here
  | cons body rest ih =>
    rw [firstGuess] at here
    cases i with
    | zero =>
      simp only [List.getElem?_cons_zero, Option.some.injEq] at here
      subst here
      exact congrArg some (guess_placed placed).symm
    | succ i => exact ih here

theorem pass_placed {frags : List (Frag M)} {i : Nat} {grown : Frag M}
    (here : (pass converter.toMachine frags).1[i]? = some grown)
    (placed : grown.body.kind.placed = true) : ∃ frag, frags[i]? = some frag ∧ frag.body = grown.body := by
  rw [pass, List.getElem?_map, Option.map_eq_some_iff] at here
  obtain ⟨relaxed, there, rfl⟩ := here
  obtain ⟨frag, found, site, next, step⟩ :=
    forall₂_getElem? (passFrom_steps converter.toMachine [] frags 0).flip there
  have is : relaxed.1.body = (relaxFrag converter.toMachine site next frag.body).1 := congrArg Prod.fst step
  rw [is] at placed
  exact ⟨frag, found, (is.trans (relaxFrag_placed placed)).symm⟩

theorem run_placed {n i : Nat} {frag : Frag M}
    (here : (run converter.toMachine (firstGuess converter.toMachine 0 bodies) n)[i]? = some frag)
    (placed : frag.body.kind.placed = true) : bodies[i]? = some frag.body := by
  induction n generalizing frag with
  | zero => exact firstGuess_placed here placed
  | succ n ih =>
    obtain ⟨before, found, same⟩ := pass_placed here placed
    rw [← same] at placed ⊢
    exact ih found placed

theorem relaxSection_run {fuel : Nat} {frags : List (Frag M)}
    (relaxed : relaxSection converter.toMachine fuel bodies = some frags) :
    ∃ n, frags = run converter.toMachine (firstGuess converter.toMachine 0 bodies) n := by
  obtain ⟨_, ⟨n, rfl⟩, stopped⟩ := @doWhile_invariant _ _
    (fun state => ∃ n, state = run converter.toMachine (firstGuess converter.toMachine 0 bodies) n) _ _ _
    (fun state next ⟨n, is⟩ stepped => by
      refine ⟨n + 1, ?_⟩
      rw [run, ← is]
      exact (congrArg Prod.fst (Option.some.inj stepped)).symm)
    ⟨0, rfl⟩ relaxed
  exact ⟨n + 1, (congrArg Prod.fst (Option.some.inj stopped)).symm⟩

theorem round_placed {bodies later : List (Body M)} (round : Round converter.toMachine bodies later)
    {i : Nat} {body : Body M} (here : later[i]? = some body) (placed : body.kind.placed = true) :
    bodies[i]? = some body := by
  induction round generalizing body with
  | first => exact here
  | again _ relaxed ih =>
    obtain ⟨n, rfl⟩ := relaxSection_run relaxed
    rw [List.getElem?_map, Option.map_eq_some_iff] at here
    obtain ⟨frag, there, rfl⟩ := here
    exact ih (run_placed there placed) placed

/-- The steps of every call of `relax_section` for a section. -/
structure StepsMeet (machine : Machine M) (bodies : List (Body M)) : Prop where
  /-- No pass clamps a `.org`. -/
  forward : ∀ later, Round machine bodies later → ∀ n,
    OrgsForward machine [] (run machine (firstGuess machine 0 later) n) 0
  /-- No pass does an alignment that the first loop skipped for its maximum. -/
  taken : ∀ later, Round machine bodies later → ∀ (n i : Nat) (start frag : Frag M) (power : Nat)
    (maxBytes : Int), (firstGuess machine 0 later)[i]? = some start →
      (run machine (firstGuess machine 0 later) n)[i]? = some frag →
        frag.body.kind = .align power maxBytes →
          alignSkipped (start.address + frag.body.fix) power maxBytes →
            alignSkipped frag.behind power maxBytes

/-- `read.c` raises the section's alignment to those without a maximum. -/
def AlignsRecorded (chain : Frchain M) : Prop :=
  ∀ body ∈ chain.bodies, ∀ power, body.kind = .align power 0 → power ≤ chain.align

theorem run_length_eq (machine : Machine M) (start : List (Frag M)) (n : Nat) :
    (run machine start n).length = start.length := by
  induction n with
  | zero => rfl
  | succ n ih => rw [run, pass, List.length_map, passFrom_length, ih]

/-- **An alignment that is done is the section's**, or a coarser one is. -/
theorem align_le_of_called {before after : Frchain M} (called : Called converter.toMachine before after)
    (recorded : AlignsRecorded before) (steps : StepsMeet converter.toMachine before.bodies) {i : Nat}
    {frag : Frag M} {power : Nat} {maxBytes : Int} (here : after.frags[i]? = some frag)
    (kind : frag.body.kind = .align power maxBytes) (done : ¬ alignSkipped frag.behind power maxBytes) :
    power ≤ after.align := by
  obtain ⟨later, align, fuel, round, atLeast, relaxed, is⟩ := called
  obtain ⟨n, frags⟩ := relaxSection_run relaxed
  rw [frags] at here
  have placed : frag.body.kind.placed = true := by rw [kind]; rfl
  have body := run_placed here placed
  rw [is]
  by_cases limited : maxBytes = 0
  · rw [limited] at kind
    have read := List.mem_of_getElem? (round_placed round body placed)
    exact Nat.le_trans (recorded _ read power kind)
      (Nat.le_trans atLeast (le_guessAlign converter.toMachine _ _ _))
  · have inside : i < (firstGuess converter.toMachine 0 later).length := by
      rw [← run_length_eq converter.toMachine _ n]
      exact (List.getElem?_eq_some_iff.mp here).1
    have start := List.getElem?_eq_getElem inside
    have read : later[i]? = some ⟨frag.body.fix, .align power maxBytes⟩ := by rw [body, ← kind]
    exact guessAlign_records converter.toMachine start read limited fun skipped =>
      done (steps.taken later round n i _ frag power maxBytes start here kind skipped)

theorem orgsForward_of_plain (before frags : List (Frag M)) (stretch : Int)
    (plain : ∀ frag ∈ frags, frag.body.kind.isOrg = false) :
    OrgsForward converter.toMachine before frags stretch := by
  induction frags generalizing before stretch with
  | nil => trivial
  | cons frag rest ih =>
    refine ⟨fun symbol offset next org _ => ?_, ih _ _ fun frag member => plain frag (.tail _ member)⟩
    have none_ := plain frag List.mem_cons_self
    rw [org] at none_
    cases none_

theorem stepsMeet_of_plain (orgs : ∀ body ∈ bodies, body.kind.isOrg = false)
    (maximums : ∀ body ∈ bodies, ∀ power maxBytes, body.kind = .align power maxBytes → maxBytes = 0) :
    StepsMeet converter.toMachine bodies := by
  constructor
  · intro later round n
    refine orgsForward_of_plain [] _ 0 fun frag member => ?_
    obtain ⟨i, here⟩ := List.mem_iff_getElem?.mp member
    by_cases placed : frag.body.kind.placed = true
    · exact orgs _ (List.mem_of_getElem? (round_placed round (run_placed here placed) placed))
    · cases kind : frag.body.kind with
      | org symbol offset =>
        rw [kind] at placed
        exact absurd rfl placed
      | _ => rfl
  · intro later round n i start frag power maxBytes _ here kind skipped
    have placed : frag.body.kind.placed = true := by rw [kind]; rfl
    have read := List.mem_of_getElem? (round_placed round (run_placed here placed) placed)
    exact absurd (maximums _ read power maxBytes kind) skipped.1

end Runs

/-! ## Where the sections are -/

section Places

variable {M : Type}

theorem rnd_dvd (value : Int) (power : Nat) : (2 : Int) ^ power ∣ rnd value power :=
  ⟨(value + (2 ^ power - 1)) / 2 ^ power, by rw [rnd, Int.mul_comm]⟩

theorem rnd_zero (power : Nat) : rnd 0 power = 0 := by
  have positive : (0 : Int) < 2 ^ power := Int.pow_pos (by omega)
  rw [rnd, Int.ediv_eq_zero_of_lt (by omega) (by omega), Int.zero_mul]

theorem slideOver_length (zerofill : Bool) (slide : Int) (chains : List (Frchain M)) :
    (slideOver zerofill slide chains).1.length = chains.length := by
  induction chains generalizing slide with
  | nil => rfl
  | cons chain rest ih =>
    rw [slideOver]
    split <;> simp [ih]

/-- A section with contents starts at a multiple of its alignment. -/
theorem slideOver_dvd {slide : Int} {chains : List (Frchain M)} {k : Nat} {chain : Frchain M}
    (here : chains[k]? = some chain) (contents : chain.zerofill = false) :
    ∃ start, (slideOver false slide chains).1[k]? = some (some start) ∧
      (2 : Int) ^ chain.align ∣ start := by
  induction chains generalizing slide k with
  | nil => simp at here
  | cons first rest ih =>
    cases k with
    | zero =>
      simp only [List.getElem?_cons_zero, Option.some.injEq] at here
      subst here
      rw [slideOver, if_pos contents]
      exact ⟨_, rfl, rnd_dvd _ _⟩
    | succ k =>
      rw [List.getElem?_cons_succ] at here
      rw [slideOver]
      split
      · exact ih here
      · exact ih here

theorem sectionStarts_dvd {chains : List (Frchain M)} {k : Nat} {chain : Frchain M} {start : Int}
    (here : chains[k]? = some chain) (contents : chain.zerofill = false)
    (place : (sectionStarts chains)[k]? = some start) : (2 : Int) ^ chain.align ∣ start := by
  obtain ⟨found, is, divides⟩ := @slideOver_dvd _ 0 _ _ _ here contents
  rw [sectionStarts, List.getElem?_zipWith, is] at place
  split at place
  · rename_i there _
    cases there
    cases place
    exact divides
  · cases place

theorem nextStart_slideOver (slide : Int) (chains : List (Frchain M)) (behind : List (Option Int))
    (length : behind.length = chains.length) {start : Int}
    (first : nextStart (chains.zip (List.zipWith (fun here behind => (here.or behind).getD 0)
      (slideOver false slide chains).1 behind)) = some start) :
    ∃ align, start = rnd slide align := by
  induction chains generalizing behind with
  | nil => cases first
  | cons chain rest ih =>
    cases behind with
    | nil => cases length
    | cons other more =>
      rw [slideOver] at first
      cases kind : chain.zerofill with
      | false =>
        simp only [kind, if_true, List.zipWith_cons_cons, List.zip_cons_cons, nextStart,
          Bool.false_eq_true, if_false, Option.some_or, Option.getD_some,
          Option.some.injEq] at first
        exact ⟨_, first.symm⟩
      | true =>
        simp only [kind, Bool.true_eq_false, if_false, List.zipWith_cons_cons,
          List.zip_cons_cons, nextStart, if_true] at first
        exact ih more (Nat.succ.inj length) first

theorem sectionStarts_first {chains : List (Frchain M)} {start : Int}
    (first : nextStart (chains.zip (sectionStarts chains)) = some start) : start = 0 := by
  obtain ⟨align, rfl⟩ := nextStart_slideOver 0 chains _ (slideOver_length _ _ _) first
  exact rnd_zero align

/-- The offsets of the sections are as far apart as their addresses. -/
theorem sectionOffsets_eq {offset : Int} {places : List (Frchain M × Int)} {k : Nat}
    {chain : Frchain M} {start there : Int} (here : places[k]? = some (chain, start))
    (contents : chain.zerofill = false) (at_ : (sectionOffsets offset places)[k]? = some there) :
    ∃ first, nextStart places = some first ∧ there = offset + (start - first) := by
  induction places generalizing offset k with
  | nil => simp at here
  | cons place rest ih =>
    obtain ⟨other, begin_⟩ := place
    rw [sectionOffsets] at at_
    rw [nextStart]
    cases kind : other.zerofill with
    | true =>
      cases k with
      | zero =>
        simp only [List.getElem?_cons_zero, Option.some.injEq, Prod.mk.injEq] at here
        rw [here.1, contents] at kind
        cases kind
      | succ k =>
        simp only [kind, if_true, List.getElem?_cons_succ] at here at_
        exact ih here at_
    | false =>
      simp only [kind, Bool.false_eq_true, if_false] at at_ ⊢
      refine ⟨begin_, rfl, ?_⟩
      cases k with
      | zero =>
        simp only [List.getElem?_cons_zero, Option.some.injEq, Prod.mk.injEq] at here at_
        omega
      | succ k =>
        simp only [List.getElem?_cons_succ] at here at_
        obtain ⟨first, next, is⟩ := ih here at_
        rw [next, Option.getD_some] at is
        omega

/-- **The contents of a section are as far from the first one's as its address is from zero.** -/
theorem sectionOffset_eq {chains : List (Frchain M)} {base : Int} {k : Nat} {chain : Frchain M}
    {start offset : Int} (here : chains[k]? = some chain) (contents : chain.zerofill = false)
    (place : (sectionStarts chains)[k]? = some start)
    (at_ : (sectionOffsets base (chains.zip (sectionStarts chains)))[k]? = some offset) :
    offset = base + start := by
  have both : (chains.zip (sectionStarts chains))[k]? = some (chain, start) :=
    List.getElem?_zip_eq_some.mpr ⟨here, place⟩
  obtain ⟨first, next, is⟩ := sectionOffsets_eq both contents at_
  have := sectionStarts_first next
  omega

end Places

/-! ## Frags and their bytes -/

section Bytes

variable {M : Type} {converter : Converter M} {chain : Frchain M} {i : Nat} {frag next : Frag M}

theorem slid_getElem? (start : Int) (frags : List (Frag M)) (i : Nat) :
    (slid start frags)[i]? = frags[i]?.map fun frag => { frag with address := frag.address + start } :=
  List.getElem?_map

theorem converted_eq (starts : List Int) (start : Int) (here : chain.frags[i]? = some frag)
    (after : chain.frags[i + 1]? = some next) :
    chain.converted converter starts start i =
      some (convertFrag converter starts chain.frags (chain.filling i) (some (next.address + start))
        { frag with address := frag.address + start }) := by
  rw [Frchain.converted, slid_getElem?, slid_getElem?, here, after]
  rfl

/-- What it takes for a frag to have the bytes it was counted for. -/
def Agrees (converter : Converter M) (starts : List Int) (chain : Frchain M) (i : Nat)
    (frag next : Frag M) : Prop :=
  match frag.body.kind with
  | .org _ _ => frag.behind ≤ next.address
  | .leb128 sign value _ =>
    outputLeb128 converter.bits (settledValue starts chain.frags value (chain.filling i)) sign =
      sizeofLeb128 converter.bits (value.eval chain.frags) sign
  | _ => True

theorem bytes_iff (settled : Settled converter chain.frags) (starts : List Int) (start : Int)
    (here : chain.frags[i]? = some frag) (after : chain.frags[i + 1]? = some next) :
    next.address + start = frag.address + start +
        (convertFrag converter starts chain.frags (chain.filling i) (some (next.address + start))
          { frag with address := frag.address + start }).bytes ↔
      Agrees converter starts chain i frag next := by
  have follows := settled.next here after
  obtain ⟨address, fix, kind⟩ := frag
  cases kind with
  | fill bytes =>
    have is := follows rfl
    simp only [Frag.behind, Kind.extra] at is
    simp only [convertFrag, Converted.bytes, Agrees, iff_true]
    omega
  | align power maxBytes =>
    have is := follows rfl
    have filled := alignFill_nonneg (address + fix) power maxBytes
    simp only [Frag.behind, Kind.extra] at is
    simp only [convertFrag, convertFill_bytes, Agrees, iff_true, Option.getD_some]
    omega
  | org symbol offset =>
    simp only [convertFrag, convertFill_bytes, Agrees, Option.getD_some, Frag.behind]
    omega
  | machineDependent code =>
    have is := follows rfl
    simp only [Frag.behind, Kind.extra] at is
    simp only [convertFrag, Converted.bytes, Agrees, iff_true]
    omega
  | dwarf2dbg line addr size =>
    have is := follows rfl
    simp only [Frag.behind, Kind.extra] at is
    simp only [convertFrag, Converted.bytes, Agrees, iff_true]
    omega
  | leb128 sign value size =>
    have is := follows rfl
    have size_ := settled.leb128 here rfl
    simp only [Frag.behind, Kind.extra] at is
    simp only [convertFrag, Converted.bytes, Agrees]
    omega

end Bytes

/-! ## Jumps -/

section Jumps

variable {bits : Nat}

/-- Where a jump's state stays, it reaches or there is no longer one. -/
theorem relaxState_stays {aim : Int} {state : Nat} (stays : relaxState aim mdRelaxTable.length state = state) :
    (relaxType state).more = 0 ∨ (relaxType state).reaches aim = true := by
  by_contra! goesOn
  have grows : relaxState aim mdRelaxTable.length state = relaxState aim 11 (relaxType state).more := by
    change relaxState aim (11 + 1) state = _
    rw [relaxState, if_neg (by simp [goesOn])]
  rw [stays] at grows
  have longer := relaxType_more goesOn.1
  obtain same | ⟨more, _⟩ := relaxState_cases aim 11 (relaxType state).more
  · rw [same] at grows
    rw [← grows] at longer
    exact absurd longer.2 (Int.lt_irrefl _)
  · exact more longer.1

/-- A target whose frags have, when a pass leaves them alone, a displacement in the range of their
state, or a state with no larger form. -/
structure Relaxer (M : Type) extends Converter M where
  fits : List (Frag M) → Frag M → M → Prop
  relax_fits : ∀ (frags view : List (Frag M)) (i : Nat) (frag : Frag M) (code : M),
    view.map Frag.address = frags.map Frag.address →
      (relax ⟨view, i, frag.address, frag.address, 0⟩ frag.body.fix code).2 = 0 → fits frags frag code

theorem i386_relax_fits (bits : Nat) (frags view : List (Frag Jump)) (i : Nat) (frag : Frag Jump)
    (jump : Jump) (addresses : view.map Frag.address = frags.map Frag.address)
    (still : ((i386Machine bits).relax ⟨view, i, frag.address, frag.address, 0⟩ frag.body.fix jump).2
      = 0) :
    (relaxType jump.subtype).more = 0 ∨
      (relaxType jump.subtype).reaches (displacement frags frag jump) = true := by
  have aimed : ∀ label : Label, jumpTarget ⟨view, i, frag.address, frag.address, 0⟩ label
      = label.address frags := by
    intro label
    simp only [jumpTarget, ite_self, label_address_congr addresses]
    cases label.frag <;> simp
  have aims : (jump.symbol.map (jumpTarget ⟨view, i, frag.address, frag.address, 0⟩)).getD 0
      = (jump.symbol.map (Label.address frags)).getD 0 := by
    cases jump.symbol <;> simp [aimed]
  change (relaxJump _ _ _).2 = 0 at still
  refine relaxState_stays ?_
  rw [relaxJump] at still
  simp only [aims] at still
  have aim : displacement frags frag jump = jump.offset +
      (jump.symbol.map (Label.address frags)).getD 0 - frag.address - frag.body.fix := by
    rw [displacement]
    omega
  rw [aim]
  obtain stays | ⟨more, grows⟩ := relaxState_cases (jump.offset +
    (jump.symbol.map (Label.address frags)).getD 0 - frag.address - frag.body.fix)
    mdRelaxTable.length jump.subtype
  · exact stays
  · have longer := (relaxType_more more).2
    rw [grows, if_pos (by omega)] at still
    simp only at still
    omega

def i386Relaxer (bits : Nat) : Relaxer Jump where
  toConverter := i386Converter bits
  fits frags frag jump := (relaxType jump.subtype).more = 0 ∨
    (relaxType jump.subtype).reaches (displacement frags frag jump) = true
  relax_fits := i386_relax_fits bits

/-- **A machine-dependent frag of a settled section fits.** -/
theorem Settled.fits {M : Type} {relaxer : Relaxer M} {frags : List (Frag M)}
    (settled : Settled relaxer.toConverter frags) {i : Nat} {frag : Frag M} {code : M}
    (here : frags[i]? = some frag) (kind : frag.body.kind = .machineDependent code) :
    relaxer.fits frags frag code := by
  obtain ⟨view, addresses, still⟩ := settled.still here
  rw [relaxFrag, kind] at still
  exact relaxer.relax_fits frags view i frag code addresses still

end Jumps

/-! ## The file -/

section File

variable {M : Type} (relaxer : Relaxer M)

/-- What addresses and bytes of a section have to do with each other.  `start` is its address,
`offset` where its contents are in the file, `base` where those of the first one are. -/
structure SectionConsistent (base : Int) (starts : List Int) (start offset : Int)
    (chain : Frchain M) : Prop where
  /-- The next frag's address is behind the bytes that are copied. -/
  bytes : ∀ (i : Nat) (frag next : Frag M) (converted : Converted),
    (slid start chain.frags)[i]? = some frag →
    (slid start chain.frags)[i + 1]? = some next →
      chain.converted relaxer.toConverter starts start i = some converted →
        next.address = frag.address + converted.bytes
  /-- An alignment that is done aligns. -/
  aligned : ∀ (i : Nat) (frag next : Frag M) (power : Nat) (maxBytes : Int),
    chain.frags[i]? = some frag →
    chain.frags[i + 1]? = some next → frag.body.kind = .align power maxBytes →
      ¬ alignSkipped frag.behind power maxBytes → (2 : Int) ^ power ∣ next.address + start
  /-- A `.org` goes where it says, from the section's start. -/
  orgs : ∀ (i : Nat) (frag next : Frag M) (symbol : Option Label) (offset : Int),
    chain.frags[i]? = some frag →
    chain.frags[i + 1]? = some next → frag.body.kind = .org symbol offset →
      next.address = orgTarget chain.frags symbol offset
  /-- A frag of the target fits its state, or has no larger form. -/
  fits : ∀ (i : Nat) (frag : Frag M) (code : M),
    chain.frags[i]? = some frag → frag.body.kind = .machineDependent code →
      relaxer.fits chain.frags frag code
  /-- A symbol's value is where its bytes are. -/
  symbols : ∀ (i : Nat) (frag : Frag M) (value : Int), (slid start chain.frags)[i]? = some frag →
    chain.position relaxer.toConverter starts start offset i + value = base + (frag.address + value)

variable {relaxer} {starts : List Int} {start : Int} {chain : Frchain M}

/-- The symbols of a leb128 are of one section, so that their difference does not slide. -/
theorem settledValue_eq (starts : List Int) (frags : List (Frag M)) (value : Expression)
    {filling : Filling} (same : filling.addSection = filling.subtractSection) :
    settledValue starts frags value filling = value.eval frags := by
  rw [settledValue, same]
  omega

theorem agrees_of_forward (settled : Settled relaxer.toConverter chain.frags)
    (forward : OrgsForward relaxer.toMachine [] chain.frags 0)
    (differences : ∀ i, (chain.filling i).addSection = (chain.filling i).subtractSection) {i : Nat}
    {frag next : Frag M} (here : chain.frags[i]? = some frag)
    (after : chain.frags[i + 1]? = some next) :
    Agrees relaxer.toConverter starts chain i frag next := by
  rw [Agrees]
  split
  · rename_i symbol offset kind
    exact Int.le_trans (settled.forward forward here after kind).1 (settled.org here after kind)
  · rw [outputLeb128_eq, settledValue_eq _ _ _ (differences i)]
  · trivial

/-- The bytes of the frags before it put a frag where its address says. -/
theorem position_eq {base offset : Int} (settled : Settled relaxer.toConverter chain.frags)
    (place : offset = base + start)
    (agrees : ∀ i frag next, chain.frags[i]? = some frag → chain.frags[i + 1]? = some next →
      Agrees relaxer.toConverter starts chain i frag next)
    {i : Nat} {frag : Frag M} (here : chain.frags[i]? = some frag) :
    chain.position relaxer.toConverter starts start offset i = base + (frag.address + start) := by
  induction i generalizing frag with
  | zero =>
    have begins := settled.begins
    rw [fragAddress, here] at begins
    simp only [Option.map_some, Option.getD_some] at begins
    rw [Frchain.position]
    omega
  | succ i ih =>
    have inside := (List.getElem?_eq_some_iff.mp here).1
    have before := List.getElem?_eq_getElem (Nat.lt_of_succ_lt inside)
    have follows := (bytes_iff settled starts start before here).mpr (agrees i _ _ before here)
    rw [Frchain.position, ih before, converted_eq starts start before here]
    simp only [Option.map_some, Option.getD_some]
    omega

theorem section_consistent {base offset : Int} (settled : Settled relaxer.toConverter chain.frags)
    (place : offset = base + start) (forward : OrgsForward relaxer.toMachine [] chain.frags 0)
    (differences : ∀ i, (chain.filling i).addSection = (chain.filling i).subtractSection)
    (multiple : ∀ (i : Nat) (frag : Frag M) (power : Nat) (maxBytes : Int),
      chain.frags[i]? = some frag → frag.body.kind = .align power maxBytes →
        ¬ alignSkipped frag.behind power maxBytes → (2 : Int) ^ power ∣ start) :
    SectionConsistent relaxer base starts start offset chain := by
  have agrees := fun i frag next here after =>
    @agrees_of_forward _ _ starts _ settled forward differences i frag next here after
  refine ⟨?_, ?_, ?_, ?_, ?_⟩
  · intro i frag next converted here after is
    rw [slid_getElem?, Option.map_eq_some_iff] at here after
    obtain ⟨frag, here, rfl⟩ := here
    obtain ⟨next, after, rfl⟩ := after
    rw [converted_eq starts start here after] at is
    cases is
    exact (bytes_iff settled starts start here after).mpr (agrees i frag next here after)
  · intro i frag next power maxBytes here after kind done
    exact Int.dvd_add (settled.aligned here after kind done) (multiple i frag power maxBytes here kind done)
  · intro i frag next symbol offset here after kind
    have met := (settled.forward forward here after kind).2
    have reached := settled.org here after kind
    omega
  · intro i frag code here kind
    exact settled.fits here kind
  · intro i frag value here
    rw [slid_getElem?, Option.map_eq_some_iff] at here
    obtain ⟨frag, here, rfl⟩ := here
    rw [position_eq settled place agrees here, Int.add_assoc]

/-- Every section with contents is consistent; those of the first one are at `base` in the file. -/
def FileConsistent (relaxer : Relaxer M) (base : Int) (laid : List (Frchain M)) : Prop :=
  ∀ (k : Nat) (chain : Frchain M) (start offset : Int), laid[k]? = some chain →
    chain.zerofill = false → (sectionStarts laid)[k]? = some start →
      (sectionOffsets base (laid.zip (sectionStarts laid)))[k]? = some offset →
        SectionConsistent relaxer base (sectionStarts laid) start offset chain

/-- What a section is laid out by: the steps of its run, the alignments that were read, and the
symbols of its leb128s. -/
structure SectionMeets (machine : Machine M) (chain : Frchain M) : Prop where
  steps : StepsMeet machine chain.bodies
  recorded : AlignsRecorded chain
  differences : ∀ i, (chain.filling i).addSection = (chain.filling i).subtractSection

end File

end Cctools.As
