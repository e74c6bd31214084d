/-
# Cctools.Archive.SpecificMember -- a member is looked up by its name

`ofile_specific_member` compares with `strncmp` as many characters as the member's name
has.  A member whose whole name begins the name that is looked for is taken for it, unless
its name ends in a NUL.  And `size_ar_name` leaves the slash of System V on a name of one
letter.

What is looked for stands among the members that `check_archive` visits.  Where the scan
follows their headers, it finds the right one exactly when it mistakes no member before it.
-/
import Cctools.Archive.WalkersAgree

namespace Cctools.Archive.Walkers

set_option autoImplicit false

open Cctools.Theory Cctools.Theory.Decimal Cctools.Archive
open Cctools.Lipo (rnd)

/-- `strncmp(text, other, size) == 0`, of texts that end in a NUL. -/
def strncmpEq : Nat → List UInt8 → List UInt8 → Bool
  | 0, _, _ => true
  | size + 1, text, other =>
    if text.headD 0 ≠ other.headD 0 then false
    else if text.headD 0 = 0 then true
    else strncmpEq size text.tail other.tail

section Model

variable (archive : List UInt8)

/-- `i`, before it is an `int32_t`. -/
def scanNameSize (strtab : Option (Nat × Nat)) (header : Nat) : Nat :=
  if isSysvName archive header then ((scanName archive strtab header).getD []).length
  else if hasLongName archive header then longNumber archive header
  else sizeArName ((arName archive header).take 16)

/-- `i > 0 && strncmp(ar_name, member_name, i) == 0`, if the name can be read. -/
def isSelected (given : List UInt8) (strtab : Option (Nat × Nat)) (header : Nat) : Option Bool :=
  (scanName archive strtab header).map fun name =>
    let size := scanNameSize archive strtab header
    0 < size && size < 2 ^ 31 && strncmpEq size name given

/-- The member that `ofile_specific_member` selects, or that there is none, within as many turns of its loop. -/
def specificMember (given : List UInt8) : Nat → Scan → Option (Option Visit)
  | 0, _ => none
  | fuel + 1, scan =>
    if scan.header < archive.length then
      let strtab := scanStrtab archive scan.header scan.strtab
      match isSelected archive given strtab scan.header with
      | none => none
      | some true => some (some (scanVisit archive strtab scan.header))
      | some false => specificMember given fuel ⟨scanNext archive scan.header, strtab⟩
    else some none

def Returns (given : List UInt8) (scan : Scan) (result : Option Visit) : Prop :=
  ∃ fuel, specificMember archive given fuel scan = some result

/-! ## The members of the archive -/

/-- What `ar_name` says: without the blanks behind it, and without the slash of System V, which only `/` and
`//` keep. -/
def headerName (header : Nat) : List UInt8 :=
  let trimmed := (((arName archive header).take 16).reverse.dropWhile (· = 32)).reverse
  if trimmed ≠ ascii "/" ∧ trimmed ≠ ascii "//" ∧ trimmed.getLast? = some 47 then trimmed.dropLast else trimmed

/-- The name of a member: in the table of System V names, behind the header, or in it. -/
def properName (strtab : Option (Nat × Nat)) (header nameSize : Nat) : Option (List UInt8) :=
  if isSysvName archive header then scanName archive strtab header
  else if hasLongName archive header then some (nameOfSize archive header nameSize)
  else some (headerName archive header)

/-- The name as it is cut for the comparison. -/
def cutName (strtab : Option (Nat × Nat)) (header nameSize : Nat) : Option (List UInt8) :=
  if isSysvName archive header then scanName archive strtab header else some (nameOfSize archive header nameSize)

/-- A member of the archive, and its name. -/
structure Listed where
  visit : Visit
  proper : Option (List UInt8)
  deriving DecidableEq

/-- The members that `check_archive` visits. -/
def memberStep (fatAllowed : Bool) (scan : Scan) : Option (Listed × Scan) :=
  if scan.header < archive.length then do
    let nameSize ← checkNameSize archive scan.header
    let next ← checkMember archive fatAllowed scan.header
    let strtab := scanStrtab archive scan.header scan.strtab
    return (⟨⟨(checkVisit archive scan.header nameSize).member, cutName archive strtab scan.header nameSize⟩,
      properName archive strtab scan.header nameSize⟩, ⟨next, strtab⟩)
  else none

/-- The name, without the NULs behind it, is the given one. -/
def Listed.isNamed (given : List UInt8) (listed : Listed) : Bool := listed.proper.map cString = some given

/-- The first member of that name is selected, and none if there is none. -/
def ExactLookup (fatAllowed : Bool) (given : List UInt8) : Prop :=
  ∃ members, Visits (memberStep archive fatAllowed) ⟨8, none⟩ members ∧
    Returns archive given ⟨8, none⟩ ((members.find? (Listed.isNamed given)).map Listed.visit)

/-- The name, as it is cut, is the given one, or is not empty, has no NUL and begins the given one. -/
def Visit.fits (given : List UInt8) (visit : Visit) : Prop :=
  ∃ name, visit.name = some name ∧ (cString name = given ∨ name ≠ [] ∧ 0 ∉ name ∧ name <+: given)

/-- No member before the first one of that name fits it, and that one does. -/
def NoneMistaken (fatAllowed : Bool) (given : List UInt8) : Prop :=
  ∀ members, Visits (memberStep archive fatAllowed) ⟨8, none⟩ members →
    (∀ listed ∈ members.takeWhile (fun listed => !listed.isNamed given), ¬ listed.visit.fits given) ∧
      ∀ listed ∈ members.find? (Listed.isNamed given), listed.visit.fits given

/-! ## The scan follows the headers -/

/-- The digits behind `#1/` end in `ar_name`, and the name is short enough for an `int32_t`. -/
structure Readable (strtab : Option (Nat × Nat)) (header : Nat) : Prop where
  long : hasLongName archive header = true →
    strtoul ((longName archive header).take 13) % 2 ^ 32 = longNumber archive header ∧
      longNumber archive header ≤ sizeNumber archive header
  short : scanNameSize archive strtab header < 2 ^ 31
  name : (scanName archive strtab header).isSome = true

/-- Up to the first member that fits the given name, or to the end, every header is readable, every size is of
32 bits and every long name of even length. -/
inductive OnHeaders (given : List UInt8) : Scan → Prop where
  | empty {scan : Scan} : archive.length ≤ scan.header → OnHeaders given scan
  | here {scan : Scan} : Readable archive (scanStrtab archive scan.header scan.strtab) scan.header →
      (scanVisit archive (scanStrtab archive scan.header scan.strtab) scan.header).fits given → OnHeaders given scan
  | last {scan : Scan} : Readable archive (scanStrtab archive scan.header scan.strtab) scan.header →
      (numbered archive scan.header).nextOffset = archive.length → archive.length ≤ scanNext archive scan.header →
      OnHeaders given scan
  | later {scan : Scan} {next : Nat} : Readable archive (scanStrtab archive scan.header scan.strtab) scan.header →
      (numbered archive scan.header).nextOffset = next → next < archive.length →
      strtoul (arSize archive scan.header) < 2 ^ 32 → 2 ∣ nameNumber archive scan.header →
      OnHeaders given ⟨next, scanStrtab archive scan.header scan.strtab⟩ → OnHeaders given scan

end Model

/-! ## The comparison -/

theorem sizeArNameFrom_le (name : List UInt8) (i : Nat) : sizeArNameFrom name i ≤ i := by
  induction i with
  | zero => exact le_refl 0
  | succ i ih =>
    rw [sizeArNameFrom]
    split
    · exact Nat.le_succ_of_le ih
    · exact le_refl _

theorem sizeArName_le (name : List UInt8) : sizeArName name ≤ 16 := by
  have from15 := sizeArNameFrom_le name 15
  simp only [sizeArName]
  split <;> omega

/-- Texts that are compared to the end of the first are equal up to a NUL, or the first begins the other. -/
theorem strncmpEq_iff {name given : List UInt8} (text : 0 ∉ given) :
    strncmpEq name.length name given = true ↔ cString name = given ∨ 0 ∉ name ∧ name <+: given := by
  induction name generalizing given with
  | nil => simp [strncmpEq]
  | cons byte name ih =>
    cases given with
    | nil =>
      by_cases zero : byte = 0
      · simp [strncmpEq, zero, cString]
      · simp [strncmpEq, zero, cString]
    | cons other given =>
      simp only [List.mem_cons, not_or] at text
      have step := ih text.2
      by_cases same : byte = other
      · subst same
        have notZero : byte ≠ 0 := fun zero => text.1 zero.symm
        have zeroNot : (0 : UInt8) ≠ byte := text.1
        simp only [List.length_cons, strncmpEq, List.headD_cons, ne_eq, not_true_eq_false, ↓reduceIte, notZero,
          List.tail_cons, step, cString, List.mem_cons, zeroNot, false_or, List.cons_prefix_cons, true_and]
        rw [List.takeWhile_cons_of_pos (by simp [notZero])]
        simp
      · by_cases zero : byte = 0
        · subst zero
          simp [strncmpEq, same, cString]
        · simp [strncmpEq, same, cString, zero, List.cons_prefix_cons]

section Header

variable {archive : List UInt8} {fatAllowed : Bool} {given : List UInt8}

/-! ## One header -/

/-- The name that the scan compares, of a readable header. -/
theorem scanName_readable {strtab : Option (Nat × Nat)} {header nameSize : Nat}
    (readable : Readable archive strtab header) (named : checkNameSize archive header = some nameSize)
    (inside : header + sizeofArHdr + nameSize ≤ archive.length) :
    ∃ name, scanName archive strtab header = some name ∧ cutName archive strtab header nameSize = some name ∧
      name.length = scanNameSize archive strtab header := by
  obtain ⟨size, -, -⟩ := nameSize_of_long readable.long named
  obtain ⟨name, scanned⟩ := Option.isSome_iff_exists.mp readable.name
  refine ⟨name, scanned, ?_, ?_⟩
  · cases sysv : isSysvName archive header with
    | true => rw [cutName, if_pos sysv, scanned]
    | false =>
      rw [cutName, sysv, ← scanned, scanName_of_plain sysv, nameOfSize, nameOfSize]
      cases long : hasLongName archive header with
      | false => rfl
      | true =>
        rw [long, if_pos rfl] at size
        rw [size]
        rfl
  · cases sysv : isSysvName archive header with
    | true => rw [scanNameSize, if_pos sysv, scanned, Option.getD_some]
    | false =>
      rw [scanName_of_plain sysv, nameOfSize] at scanned
      rw [scanNameSize, sysv]
      cases long : hasLongName archive header with
      | true =>
        rw [long, if_pos rfl] at size
        rw [long, if_pos rfl, ← size] at scanned
        simp only [Bool.false_eq_true, ↓reduceIte, ← size]
        rw [← Option.some.inj scanned, List.length_take, List.length_drop]
        omega
      | false =>
        rw [long] at scanned
        simp only [Bool.false_eq_true, ↓reduceIte, shortName] at scanned ⊢
        have short : sizeArName ((arName archive header).take 16) ≤ 16 := sizeArName_le _
        rw [← Option.some.inj scanned, List.length_take, arName, List.length_drop]
        simp only [arName, sizeofArHdr] at *
        omega

/-- A readable header is the scan's member too, and is selected when it fits. -/
theorem selected_iff {strtab : Option (Nat × Nat)} {header nameSize : Nat} (text : 0 ∉ given) (asked : given ≠ [])
    (readable : Readable archive strtab header) (named : checkNameSize archive header = some nameSize)
    (inside : header + sizeofArHdr + nameSize ≤ archive.length) :
    scanVisit archive strtab header =
        ⟨(checkVisit archive header nameSize).member, cutName archive strtab header nameSize⟩ ∧
      ∃ answer, isSelected archive given strtab header = some answer ∧
        (answer = true ↔ (scanVisit archive strtab header).fits given) := by
  obtain ⟨size, -, -⟩ := nameSize_of_long readable.long named
  obtain ⟨name, scanned, cut, length⟩ := scanName_readable readable named inside
  have visit : scanVisit archive strtab header = ⟨(checkVisit archive header nameSize).member, some name⟩ := by
    simp only [scanVisit, checkVisit, ← size, scanned]
  refine ⟨by rw [visit, cut], _, by rw [isSelected, scanned]; rfl, ?_⟩
  have short := readable.short
  rw [visit, ← length]
  simp only [Bool.and_eq_true, decide_eq_true_eq, strncmpEq_iff text, Visit.fits, Option.some.injEq, exists_eq_left']
  rw [← length] at short
  constructor
  · rintro ⟨⟨some, -⟩, same | ⟨noNul, begins⟩⟩
    · exact .inl same
    · exact .inr ⟨List.ne_nil_of_length_pos some, noNul, begins⟩
  · rintro (same | ⟨some, noNul, begins⟩)
    · refine ⟨⟨List.length_pos_iff.mpr ?_, short⟩, .inl same⟩
      rintro rfl
      exact asked same.symm
    · exact ⟨⟨List.length_pos_iff.mpr some, short⟩, .inr ⟨noNul, begins⟩⟩

/-! ## What is returned -/

variable {result : Option Visit}

theorem returns_end {scan : Scan} (ended : archive.length ≤ scan.header) :
    Returns archive given scan result ↔ result = none := by
  constructor
  · rintro ⟨fuel, found⟩
    cases fuel with
    | zero => cases found
    | succ fuel =>
      rw [specificMember, if_neg (by omega)] at found
      exact (Option.some.inj found).symm
  · rintro rfl
    exact ⟨1, by rw [specificMember, if_neg (by omega)]⟩

theorem returns_selected {scan : Scan} (here : scan.header < archive.length)
    (selected : isSelected archive given (scanStrtab archive scan.header scan.strtab) scan.header = some true) :
    Returns archive given scan result ↔
      result = some (scanVisit archive (scanStrtab archive scan.header scan.strtab) scan.header) := by
  constructor
  · rintro ⟨fuel, found⟩
    cases fuel with
    | zero => cases found
    | succ fuel =>
      simp only [specificMember, if_pos here, selected] at found
      exact (Option.some.inj found).symm
  · rintro rfl
    exact ⟨1, by simp only [specificMember, if_pos here, selected]⟩

theorem returns_later {scan : Scan} (here : scan.header < archive.length)
    (other : isSelected archive given (scanStrtab archive scan.header scan.strtab) scan.header = some false) :
    Returns archive given scan result ↔
      Returns archive given ⟨scanNext archive scan.header, scanStrtab archive scan.header scan.strtab⟩ result := by
  constructor
  · rintro ⟨fuel, found⟩
    cases fuel with
    | zero => cases found
    | succ fuel =>
      simp only [specificMember, if_pos here, other] at found
      exact ⟨fuel, found⟩
  · rintro ⟨fuel, found⟩
    exact ⟨fuel + 1, by simp only [specificMember, if_pos here, other, found]⟩

/-! ## The members -/

theorem memberStep_eq {scan : Scan} {nameSize next : Nat} (here : scan.header < archive.length)
    (named : checkNameSize archive scan.header = some nameSize)
    (accepted : checkMember archive fatAllowed scan.header = some next) :
    memberStep archive fatAllowed scan =
      some (⟨⟨(checkVisit archive scan.header nameSize).member,
            cutName archive (scanStrtab archive scan.header scan.strtab) scan.header nameSize⟩,
          properName archive (scanStrtab archive scan.header scan.strtab) scan.header nameSize⟩,
        ⟨next, scanStrtab archive scan.header scan.strtab⟩) := by
  rw [memberStep, if_pos here, named, accepted]
  rfl

theorem memberStep_end {scan : Scan} (ended : archive.length ≤ scan.header) :
    memberStep archive fatAllowed scan = none := by
  rw [memberStep, if_neg (by omega)]

theorem members_behind {scan : Scan} {members : List Listed}
    (walked : Visits (memberStep archive fatAllowed) scan members) :
    ∀ listed ∈ members, scan.header ≤ listed.visit.member.header := by
  induction walked with
  | nil => simp
  | cons here _ ih =>
    rw [memberStep] at here
    split at here
    · obtain ⟨nameSize, named, here⟩ := Option.bind_eq_some_iff.mp here
      obtain ⟨next, accepted, here⟩ := Option.bind_eq_some_iff.mp here
      obtain ⟨rfl, rfl⟩ := Prod.mk.inj (Option.some.inj here)
      obtain ⟨_, -, next_eq, -⟩ := checkMember_eq_some accepted
      rintro listed (_ | ⟨_, later⟩)
      · exact le_refl _
      · have behind := ih listed later
        simp only at behind
        omega
    · cases here

theorem members_of_accepted {fuel : Nat} {scan : Scan}
    (accepted : checkMembers archive fatAllowed fuel scan.header = true) :
    ∃ members, Visits (memberStep archive fatAllowed) scan members := by
  induction fuel generalizing scan with
  | zero => cases accepted
  | succ fuel ih =>
    by_cases here : scan.header < archive.length
    · obtain ⟨next, step⟩ := checkMember_of_members here accepted
      rw [checkMembers, if_pos here, step] at accepted
      obtain ⟨nameSize, named, -, -⟩ := checkMember_eq_some step
      obtain ⟨members, walked⟩ := @ih ⟨next, scanStrtab archive scan.header scan.strtab⟩ accepted
      exact ⟨_, .cons (memberStep_eq here named step) walked⟩
    · exact ⟨[], .nil (memberStep_end (by omega))⟩

theorem OnHeaders.readable {scan : Scan} (follows : OnHeaders archive given scan) (here : scan.header < archive.length) :
    Readable archive (scanStrtab archive scan.header scan.strtab) scan.header := by
  cases follows with
  | empty ended => omega
  | here readable _ => exact readable
  | last readable _ _ => exact readable
  | later readable _ _ _ _ _ => exact readable

/-- From a header that is not selected the scan goes on to the next one, or ends with the archive. -/
theorem OnHeaders.goesOn {scan : Scan} {next nameSize : Nat} (follows : OnHeaders archive given scan)
    (small : archive.length < 2 ^ 64) (here : scan.header < archive.length)
    (named : checkNameSize archive scan.header = some nameSize)
    (accepted : checkMember archive fatAllowed scan.header = some next)
    (free : ¬ (scanVisit archive (scanStrtab archive scan.header scan.strtab) scan.header).fits given) :
    archive.length ≤ next ∧ archive.length ≤ scanNext archive scan.header ∨
      scanNext archive scan.header = next ∧
        OnHeaders archive given ⟨next, scanStrtab archive scan.header scan.strtab⟩ := by
  obtain ⟨other, named', next_eq, inside⟩ := checkMember_eq_some accepted
  obtain rfl : nameSize = other := by
    rw [named] at named'
    exact Option.some.inj named'
  obtain ⟨number, covered, offset, next_eq⟩ := offset_of_long (follows.readable here).long named next_eq
  cases follows with
  | empty ended => omega
  | here _ chosen => exact absurd chosen free
  | last _ ended behind => exact .inl ⟨by omega, behind⟩
  | later _ goesOn _ size even follows =>
    obtain rfl : next = _ := offset.symm.trans goesOn
    have together := (scanNext_eq_iff small (by omega) covered).mpr ⟨size, by rw [← number]; exact even⟩
    exact .inr ⟨by omega, follows⟩

theorem returns_behind {fuel : Nat} {scan : Scan} {visit : Visit} (small : archive.length < 2 ^ 64)
    (text : 0 ∉ given) (asked : given ≠ []) (accepted : checkMembers archive fatAllowed fuel scan.header = true)
    (follows : OnHeaders archive given scan) (found : Returns archive given scan (some visit)) :
    scan.header ≤ visit.member.header := by
  induction fuel generalizing scan with
  | zero => cases accepted
  | succ fuel ih =>
    by_cases here : scan.header < archive.length
    · obtain ⟨next, step⟩ := checkMember_of_members here accepted
      obtain ⟨nameSize, named, next_eq, inside⟩ := checkMember_eq_some step
      rw [checkMembers, if_pos here, step] at accepted
      obtain ⟨-, answer, selected, fits⟩ := selected_iff text asked (follows.readable here) named (by omega)
      cases answer with
      | true =>
        rw [returns_selected here selected] at found
        obtain rfl := Option.some.inj found
        exact le_refl _
      | false =>
        rw [returns_later here selected] at found
        have free := fun chosen => Bool.false_ne_true (fits.mpr chosen)
        obtain ⟨-, ended⟩ | ⟨together, follows⟩ := follows.goesOn small here named step free
        · rw [returns_end ended] at found
          cases found
        · rw [together] at found
          have behind := ih accepted follows found
          simp only at behind
          omega
    · rw [returns_end (by omega)] at found
      cases found

/-- The invariant of the loop: what is left of the scan finds the first of the members that are left. -/
theorem returns_find_iff {fuel : Nat} {scan : Scan} {members : List Listed} (small : archive.length < 2 ^ 64)
    (text : 0 ∉ given) (asked : given ≠ []) (accepted : checkMembers archive fatAllowed fuel scan.header = true)
    (walked : Visits (memberStep archive fatAllowed) scan members) (follows : OnHeaders archive given scan) :
    Returns archive given scan ((members.find? (Listed.isNamed given)).map Listed.visit) ↔
      (∀ listed ∈ members.takeWhile (fun listed => !listed.isNamed given), ¬ listed.visit.fits given) ∧
        ∀ listed ∈ members.find? (Listed.isNamed given), listed.visit.fits given := by
  induction fuel generalizing scan members with
  | zero => cases accepted
  | succ fuel ih =>
    by_cases here : scan.header < archive.length
    · obtain ⟨next, step⟩ := checkMember_of_members here accepted
      obtain ⟨nameSize, named, next_eq, inside⟩ := checkMember_eq_some step
      have forward : scan.header < next := by
        simp only [sizeofArHdr] at next_eq
        omega
      obtain ⟨rest, rfl, walkedRest⟩ := (visits_of_some (memberStep_eq here named step)).mp walked
      rw [checkMembers, if_pos here, step] at accepted
      obtain ⟨visit_eq, answer, selected, fits⟩ := selected_iff text asked (follows.readable here) named (by omega)
      rw [← visit_eq]
      generalize first : Listed.mk (scanVisit archive (scanStrtab archive scan.header scan.strtab) scan.header)
        (properName archive (scanStrtab archive scan.header scan.strtab) scan.header nameSize) = listed
      have visit : listed.visit = scanVisit archive (scanStrtab archive scan.header scan.strtab) scan.header := by
        rw [← first]
      have header : listed.visit.member.header = scan.header := by rw [← first]; rfl
      rw [← visit] at fits
      have goesOn := fun free => follows.goesOn small here named step (by rw [← visit]; exact free)
      by_cases same : listed.isNamed given = true
      · rw [List.find?_cons_of_pos same, List.takeWhile_cons_of_neg (by simp [same])]
        simp only [List.not_mem_nil, false_imp_iff, implies_true, true_and, Option.map_some, Option.mem_some_iff,
          forall_eq']
        cases answer with
        | true => exact iff_of_true ((returns_selected here selected).mpr (congrArg _ visit)) (fits.mp rfl)
        | false =>
          have free : ¬ listed.visit.fits given := fun chosen => Bool.false_ne_true (fits.mpr chosen)
          refine iff_of_false (fun found => ?_) free
          rw [returns_later here selected] at found
          obtain ⟨-, ended⟩ | ⟨together, follows⟩ := goesOn free
          · rw [returns_end ended] at found
            cases found
          · rw [together] at found
            have behind := returns_behind small text asked accepted follows found
            simp only at behind
            omega
      · have different := Bool.eq_false_iff.mpr same
        rw [List.find?_cons_of_neg same, List.takeWhile_cons_of_pos (by simp [different]), List.forall_mem_cons]
        cases answer with
        | true =>
          rw [returns_selected here selected]
          refine iff_of_false (fun found => ?_) (fun none_fits => none_fits.1.1 (fits.mp rfl))
          obtain ⟨other, found, visits⟩ := Option.map_eq_some_iff.mp found
          have behind := members_behind walkedRest _ (List.mem_of_find?_eq_some found)
          rw [visits, ← visit, header] at behind
          exact absurd forward (Nat.not_lt.mpr behind)
        | false =>
          have free : ¬ listed.visit.fits given := fun chosen => Bool.false_ne_true (fits.mpr chosen)
          rw [returns_later here selected]
          simp only [free, not_false_eq_true, true_and]
          obtain ⟨ended, scanEnded⟩ | ⟨together, follows⟩ := goesOn free
          · have walkedOut : memberStep archive fatAllowed ⟨next, scanStrtab archive scan.header scan.strtab⟩ = none :=
              memberStep_end ended
            obtain rfl := (visits_of_none walkedOut).mp walkedRest
            rw [returns_end scanEnded]
            simp
          · rw [together]
            exact ih accepted walkedRest follows
    · obtain rfl := (visits_of_none (memberStep_end (by omega))).mp walked
      have ended : archive.length ≤ scan.header := by omega
      rw [returns_end ended]
      simp

end Header

/-! ## The whole archive -/

section Whole

variable {archive : List UInt8} {fatAllowed : Bool} {given : List UInt8}

/-- **Where the scan follows the headers of an accepted archive, the first member of a name is selected, and none
if there is none, exactly when no member is mistaken.** -/
theorem exactLookup_iff (accepted : checkArchive archive fatAllowed = true) (small : archive.length < 2 ^ 64)
    (text : 0 ∉ given) (asked : given ≠ []) (follows : OnHeaders archive given ⟨8, none⟩) :
    ExactLookup archive fatAllowed given ↔ NoneMistaken archive fatAllowed given := by
  have accepted : ∃ fuel, checkMembers archive fatAllowed fuel 8 = true := by
    rw [checkArchive] at accepted
    split at accepted
    · cases accepted
    · split at accepted
      · rename_i empty
        exact ⟨1, by rw [checkMembers, if_neg (by omega)]⟩
      · split at accepted
        · cases accepted
        · exact ⟨_, accepted⟩
  obtain ⟨fuel, accepted⟩ := accepted
  constructor
  · rintro ⟨members, walked, found⟩ others walkedOthers
    obtain rfl := walked.unique walkedOthers
    exact (returns_find_iff small text asked accepted walked follows).mp found
  · intro noneMistaken
    obtain ⟨members, walked⟩ := @members_of_accepted archive fatAllowed fuel ⟨8, none⟩ accepted
    exact ⟨members, walked,
      (returns_find_iff small text asked accepted walked follows).mpr (noneMistaken members walked)⟩

/-- `bc` behind `abcd`. -/
def abcdBc : List UInt8 :=
  armag ++ fileHeader "#1/4            " "6         " ++ ascii "abcd" ++ [120, 10] ++
    fileHeader "bc/             " "2         " ++ [121, 10]

theorem exactLookup_abcdBc : ExactLookup abcdBc false (ascii "bc") := by
  have readable : Readable abcdBc none 8 := ⟨fun _ => by decide +kernel, by decide +kernel, by decide +kernel⟩
  have readable' : Readable abcdBc none 74 :=
    ⟨fun long => absurd long (by decide +kernel), by decide +kernel, by decide +kernel⟩
  have ends : (numbered abcdBc 8).nextOffset = 74 := by decide +kernel
  have second : scanVisit abcdBc none 74 = ⟨⟨74, 134, 2⟩, some (ascii "bc")⟩ := by decide +kernel
  have fits : (scanVisit abcdBc none 74).fits (ascii "bc") := by
    rw [second]
    exact ⟨_, rfl, .inl (by decide)⟩
  refine (exactLookup_iff (by decide +kernel) (by decide +kernel) (by decide) (by decide) ?_).mpr ?_
  · exact .later readable ends (by decide +kernel) (by decide +kernel) (by decide +kernel) (.here readable' fits)
  · intro members walked
    have first : memberStep abcdBc false ⟨8, none⟩ =
        some (⟨⟨⟨8, 72, 2⟩, some (ascii "abcd")⟩, some (ascii "abcd")⟩, ⟨74, none⟩) := by decide +kernel
    have second : memberStep abcdBc false ⟨74, none⟩ =
        some (⟨⟨⟨74, 134, 2⟩, some (ascii "bc")⟩, some (ascii "bc")⟩, ⟨136, none⟩) := by decide +kernel
    obtain ⟨_, rfl, behind⟩ := (visits_of_some first).mp walked
    obtain ⟨_, rfl, -⟩ := (visits_of_some second).mp behind
    rw [List.takeWhile_cons_of_pos (by decide +kernel), List.takeWhile_cons_of_neg (by decide +kernel),
      List.find?_cons_of_neg (by decide +kernel), List.find?_cons_of_pos (by decide +kernel)]
    simp only [List.mem_singleton, forall_eq, Option.mem_some_iff, forall_eq']
    refine ⟨?_, _, rfl, .inl (by decide)⟩
    rintro ⟨name, named, mistaken⟩
    obtain rfl := Option.some.inj named
    obtain other | ⟨-, -, begins⟩ := mistaken
    · exact absurd other (by decide)
    · exact absurd begins (by decide)

/-- `foo` stands before `foobar`. -/
def fooBar : List UInt8 :=
  armag ++ fileHeader "foo             " "2         " ++ [120, 10] ++
    fileHeader "foobar          " "2         " ++ [121, 10]

/-- `foobar` is asked for, and `foo` is selected. -/
theorem fooBar_mistaken : checkArchive fooBar false = true ∧ ¬ ExactLookup fooBar false (ascii "foobar") := by
  refine ⟨by decide +kernel, ?_⟩
  rintro ⟨members, walked, found⟩
  have first : memberStep fooBar false ⟨8, none⟩ =
      some (⟨⟨⟨8, 68, 2⟩, some (ascii "foo")⟩, some (ascii "foo")⟩, ⟨70, none⟩) := by decide +kernel
  have second : memberStep fooBar false ⟨70, none⟩ =
      some (⟨⟨⟨70, 130, 2⟩, some (ascii "foobar")⟩, some (ascii "foobar")⟩, ⟨132, none⟩) := by decide +kernel
  obtain ⟨_, rfl, behind⟩ := (visits_of_some first).mp walked
  obtain ⟨_, rfl, -⟩ := (visits_of_some second).mp behind
  rw [List.find?_cons_of_neg (by decide +kernel), List.find?_cons_of_pos (by decide +kernel),
    returns_selected (by decide +kernel) (by decide +kernel)] at found
  revert found
  decide +kernel

end Whole
end Cctools.Archive.Walkers
