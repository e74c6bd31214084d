/-
# Cctools.Archive.WalkersAgree -- when the three walks see the same members

An accepted header leaves room for its name and its data, so each of the three reads one
member there.  The walks stay together from a header when the three read that member
alike and round to one next header, or to the end of the archive.
-/
import Cctools.Archive.Walkers

namespace Cctools.Archive.Walkers

set_option autoImplicit false

open Cctools.Theory Cctools.Theory.Decimal Cctools.Archive
open Cctools.Lipo (rnd)

section Header

variable {archive : List UInt8} {contentsGood : Member → Bool} {fatAllowed : Bool}

/-! ## An accepted header -/

theorem checkMember_eq_some {header next : Nat} (accepted : checkMember archive fatAllowed header = some next) :
    ∃ nameSize, checkNameSize archive header = some nameSize ∧
      next = header + sizeofArHdr + nameSize + rnd ((sizeNumber archive header + 2 ^ 32 - nameSize) % 2 ^ 32) 2 ∧
      next ≤ archive.length := by
  have unfolded : checkMember archive fatAllowed header = (checkNameSize archive header).bind fun nameSize =>
      let data := header + sizeofArHdr + nameSize
      let rest := (sizeNumber archive header + 2 ^ 32 - nameSize) % 2 ^ 32
      if archive.length < rnd rest 2 + data then none
      else if isFat archive data && !fatAllowed then none
      else some (data + rnd rest 2) := by
    simp only [checkMember, checkNameSize, sizeNumber]
    split <;> rfl
  rw [unfolded] at accepted
  obtain ⟨nameSize, named, fits⟩ := Option.bind_eq_some_iff.mp accepted
  refine ⟨nameSize, named, ?_⟩
  dsimp only at fits
  split at fits
  · cases fits
  · split at fits
    · cases fits
    · obtain rfl := Option.some.inj fits
      exact ⟨rfl, by omega⟩

theorem checkMember_of_members {fuel header : Nat} (here : header < archive.length)
    (accepted : checkMembers archive fatAllowed fuel header = true) :
    ∃ next, checkMember archive fatAllowed header = some next := by
  cases fuel with
  | zero => cases accepted
  | succ fuel =>
    rw [checkMembers, if_pos here] at accepted
    cases step : checkMember archive fatAllowed header with
    | none =>
      rw [step] at accepted
      cases accepted
    | some next => exact ⟨next, rfl⟩

variable {header nameSize : Nat}

theorem checkNameSize_long (named : checkNameSize archive header = some nameSize)
    (long : hasLongName archive header = true) :
    nameSize = strtoul ((longName archive header).take 13) % 2 ^ 32 := by
  rw [checkNameSize, if_pos long] at named
  simp only [checkExtendFormat1] at named
  split at named
  · cases named
  · split at named
    · cases named
    · split at named
      · cases named
      · exact (Option.some.inj named).symm

theorem checkNameSize_short (named : checkNameSize archive header = some nameSize)
    (short : hasLongName archive header = false) : nameSize = 0 := by
  rw [checkNameSize, short] at named
  exact (Option.some.inj named).symm

variable {header next nameSize : Nat}

/-- A walk of the headers that stand behind each other, for `Visits` of the steps of `check_archive`. -/
theorem checkStep_eq (here : header < archive.length) (named : checkNameSize archive header = some nameSize)
    (accepted : checkMember archive fatAllowed header = some next) :
    checkStep archive fatAllowed header = some (checkVisit archive header nameSize, next) := by
  rw [checkStep, if_pos here, named, accepted]
  rfl

variable {header : Nat}

theorem checkStep_end (ended : archive.length ≤ header) :
    checkStep archive fatAllowed header = none := by
  rw [checkStep, if_neg (by omega)]

variable {scan : Scan}

theorem scanStep_eq (before : scan.header < archive.length) :
    scanStep archive scan = some (scanVisit archive (scanStrtab archive scan.header scan.strtab) scan.header,
      ⟨scanNext archive scan.header, scanStrtab archive scan.header scan.strtab⟩) := by
  rw [scanStep, if_pos before]

theorem scanStep_end (ended : archive.length ≤ scan.header) : scanStep archive scan = none := by
  rw [scanStep, if_neg (by omega)]

/-! ## Where the scan goes on -/

theorem strtoul_lt (text : List UInt8) : strtoul text < 2 ^ 64 := by
  rw [strtoul]
  split
  · decide
  · split <;> omega

theorem scanNext_eq_iff (small : archive.length < 2 ^ 64)
    (inside : header + sizeofArHdr + nameSize + rnd (sizeNumber archive header - nameSize) 2 ≤ archive.length)
    (short : nameSize ≤ sizeNumber archive header) :
    scanNext archive header = header + sizeofArHdr + nameSize + rnd (sizeNumber archive header - nameSize) 2 ↔
      strtoul (arSize archive header) < 2 ^ 32 ∧ 2 ∣ nameSize := by
  have bound := strtoul_lt (arSize archive header)
  have size : sizeNumber archive header = strtoul (arSize archive header) % 2 ^ 32 := rfl
  rw [scanNext]
  simp only [sizeofArHdr, rnd] at *
  generalize sizeNumber archive header = low at *
  generalize strtoul (arSize archive header) = size at *
  omega

/-! ## Names -/

theorem shortName_of_sysv (sysv : isSysvName archive header = true) :
    47 ∈ shortName archive header := by
  have first : (arName archive header).getD 0 0 = 47 := by
    simp only [isSysvName, Bool.and_eq_true, decide_eq_true_eq] at sysv
    exact sysv.1.1
  have some : ∃ size, sizeArName ((arName archive header).take 16) = size + 1 := by
    simp only [sizeArName]
    split
    · rename_i slash
      simp only [Bool.and_eq_true, decide_eq_true_eq] at slash
      exact ⟨_, (Nat.succ_pred_eq_of_pos (by omega)).symm⟩
    · exact ⟨_, rfl⟩
  obtain ⟨size, eq⟩ := some
  rw [shortName, eq]
  cases name : arName archive header with
  | nil =>
    rw [name] at first
    cases first
  | cons byte rest =>
    rw [name] at first
    have byte_eq : byte = 47 := first
    simp [byte_eq]

theorem hasLongName_of_sysv (sysv : isSysvName archive header = true) :
    hasLongName archive header = false := by
  simp only [isSysvName, Bool.and_eq_true, decide_eq_true_eq] at sysv
  have first := sysv.1.1
  rw [hasLongName]
  cases name : arName archive header with
  | nil => rfl
  | cons byte rest =>
    rw [name] at first
    have byte_eq : byte = 47 := first
    simp [byte_eq, arEfmt1]

variable {strtab : SysvStrtab}

theorem memberName_eq_iff (sysv : isSysvName archive header = true) :
    (memberName archive strtab header).toOption = some (shortName archive header) ↔
      SysvStrtab.size strtab ≤ tableNumber archive header := by
  have slash := shortName_of_sysv sysv
  rw [memberName, if_pos sysv]
  cases strtab with
  | null => simp [SysvStrtab.size, Except.toOption]
  | «at» start size =>
    simp only [SysvStrtab.size, tableNumber]
    by_cases found : strtoul ((arName archive header).drop 1) % 2 ^ 32 < size
    · rw [if_pos found]
      refine ⟨fun same => ?_, fun far => absurd found (by omega)⟩
      -- a name in the table has no slash
      have looked := Option.some.inj same
      rw [← looked] at slash
      have other := List.all_eq_true.mp List.all_takeWhile _ slash
      simp at other
    · rw [if_neg found]
      exact ⟨fun _ => by omega, fun _ => rfl⟩
  | freed size =>
    simp only [SysvStrtab.size, tableNumber]
    by_cases found : strtoul ((arName archive header).drop 1) % 2 ^ 32 < size
    · rw [if_pos found]
      refine ⟨fun same => ?_, fun far => absurd found (by omega)⟩
      cases same
    · rw [if_neg found]
      exact ⟨fun _ => by omega, fun _ => rfl⟩

theorem scanName_eq_iff {strtab : Option (Nat × Nat)} (sysv : isSysvName archive header = true) :
    scanName archive strtab header = some (shortName archive header) ↔
      ∀ table ∈ strtab, table.2 ≤ tableNumber archive header := by
  have slash := shortName_of_sysv sysv
  rw [scanName.eq_def, if_pos sysv]
  cases strtab with
  | none => simp
  | some table =>
    obtain ⟨start, size⟩ := table
    simp only [Option.mem_some_iff, forall_eq']
    by_cases found : tableNumber archive header < size
    · rw [if_pos found]
      refine ⟨fun same => ?_, fun far => absurd found (by omega)⟩
      simp only [tableName] at same
      split at same
      · cases same
      · have looked := Option.some.inj same
        rw [← looked] at slash
        have other := List.all_eq_true.mp List.all_takeWhile _ slash
        simp at other
    · rw [if_neg found]
      exact ⟨fun _ => by omega, fun _ => rfl⟩

theorem memberName_of_plain (plain : isSysvName archive header = false)
    (sizes : memberSize archive header = sizeNumber archive header) :
    (memberName archive strtab header).toOption = some (nameOfSize archive header (nameNumber archive header)) := by
  rw [memberName, plain, nameOfSize]
  cases long : hasLongName archive header with
  | false => rfl
  | true =>
    have names : memberNameSize archive header = nameNumber archive header := by
      rw [memberNameSize, sizes, nameNumber]
    simp [Except.toOption, names]

theorem scanName_of_plain {strtab : Option (Nat × Nat)} (plain : isSysvName archive header = false) :
    scanName archive strtab header = some (nameOfSize archive header (longNumber archive header)) := by
  rw [scanName.eq_def, plain]
  rfl

/-! ## One header, read three times -/

/-- What `ofile_first_member` or `ofile_next_member` leaves at a header. -/
def ofileAt (archive : List UInt8) (contentsGood : Member → Bool) (strtab stored : SysvStrtab) (header : Nat) :
    Option Ofile :=
  (setMember archive contentsGood header).map fun member =>
    ⟨member, memberName archive strtab member.header, stored⟩

/-- The two numbers behind the name are one, and the size covers it. -/
theorem nameSize_of_long (read : hasLongName archive header = true →
      strtoul ((longName archive header).take 13) % 2 ^ 32 = longNumber archive header ∧
        longNumber archive header ≤ sizeNumber archive header)
    (named : checkNameSize archive header = some nameSize) :
    nameSize = (if hasLongName archive header then longNumber archive header else 0) ∧
      nameSize ≤ sizeNumber archive header ∧ nameNumber archive header = nameSize := by
  cases long : hasLongName archive header with
  | false =>
    have noName := checkNameSize_short named long
    simp [noName, nameNumber, long]
  | true =>
    obtain ⟨same, covered⟩ := read long
    have number := checkNameSize_long named long
    rw [same] at number
    subst number
    simp only [↓reduceIte, nameNumber, long]
    exact ⟨trivial, covered, Nat.min_eq_left covered⟩

variable {scanned : Option (Nat × Nat)}

theorem alike_iff (behindMagic : 8 ≤ header) (named : checkNameSize archive header = some nameSize)
    (inside : header + sizeofArHdr + nameSize + (sizeNumber archive header + 2 ^ 32 - nameSize) % 2 ^ 32 ≤
      archive.length) :
    (checkVisit archive header nameSize = scanVisit archive scanned header ∧
        ∃ member, setMember archive contentsGood header = some member ∧
          checkVisit archive header nameSize = ⟨member, (memberName archive strtab member.header).toOption⟩) ↔
      Alike archive contentsGood strtab scanned header := by
  have small := sizeNumber_lt archive header
  have setIff : ∀ member, setMember archive contentsGood header = some member ↔ _ :=
    fun member => @setMember_eq_some _ _ header member behindMagic
  constructor
  · rintro ⟨scans, member, set, visits⟩
    obtain ⟨rfl, fits, good⟩ := (setIff _).mp set
    have members : (checkVisit archive header nameSize).member = numbered archive header := by rw [visits]
    have names : some (nameOfSize archive header nameSize) = (memberName archive strtab header).toOption :=
      congrArg Visit.name visits
    have scannedNames : some (nameOfSize archive header nameSize) = scanName archive scanned header :=
      congrArg Visit.name scans
    have data : header + sizeofArHdr + nameSize = header + sizeofArHdr + nameNumber archive header :=
      congrArg Member.data members
    have scannedData := congrArg (fun visit => visit.member.data) scans
    have scannedData : header + sizeofArHdr + nameSize =
      header + sizeofArHdr + (if hasLongName archive header then longNumber archive header else 0) := scannedData
    refine ⟨fun long => ?_, fun sysv => ?_, good⟩
    · have sameName := checkNameSize_long named long
      have number : nameNumber archive header = min (longNumber archive header) (sizeNumber archive header) := by
        rw [nameNumber, if_pos long, longNumber]
      rw [if_pos long] at scannedData
      omega
    · have short := hasLongName_of_sysv sysv
      have raw : nameOfSize archive header nameSize = shortName archive header := by
        rw [nameOfSize, short]
        rfl
      rw [raw] at names scannedNames
      exact ⟨(memberName_eq_iff sysv).mp names.symm, (scanName_eq_iff sysv).mp scannedNames.symm⟩
  · intro alike
    obtain ⟨scannedSize, covered, number⟩ := nameSize_of_long alike.long named
    have rest : (sizeNumber archive header + 2 ^ 32 - nameSize) % 2 ^ 32 = sizeNumber archive header - nameSize := by
      omega
    have fits : header + sizeofArHdr + sizeNumber archive header ≤ archive.length := by omega
    have sizes : memberSize archive header = sizeNumber archive header := by
      have size : memberSize archive header = min (sizeNumber archive header) (archive.length - sizeofArHdr) := rfl
      omega
    have members : (checkVisit archive header nameSize).member = numbered archive header := by
      simp only [checkVisit, numbered, rest, number]
    have visit : checkVisit archive header nameSize =
        ⟨numbered archive header, some (nameOfSize archive header nameSize)⟩ := by
      rw [← members]
      rfl
    have scanMember : (scanVisit archive scanned header).member = numbered archive header := by
      simp only [scanVisit, numbered, ← scannedSize, rest, number]
    have scanned_eq : scanVisit archive scanned header =
        ⟨numbered archive header, scanName archive scanned header⟩ := by
      rw [← scanMember]
      rfl
    have namesAgree : (memberName archive strtab header).toOption = some (nameOfSize archive header nameSize) ∧
        scanName archive scanned header = some (nameOfSize archive header nameSize) := by
      cases sysv : isSysvName archive header with
      | true =>
        have raw : nameOfSize archive header nameSize = shortName archive header := by
          rw [nameOfSize, hasLongName_of_sysv sysv]
          rfl
        rw [raw]
        exact ⟨(memberName_eq_iff sysv).mpr (alike.sysv sysv).1, (scanName_eq_iff sysv).mpr (alike.sysv sysv).2⟩
      | false =>
        refine ⟨by rw [memberName_of_plain sysv sizes, number], ?_⟩
        rw [scanName_of_plain sysv]
        cases long : hasLongName archive header with
        | false => simp [nameOfSize, long]
        | true =>
          rw [long, if_pos rfl] at scannedSize
          rw [scannedSize]
    refine ⟨by rw [visit, scanned_eq, namesAgree.2], numbered archive header, ?_, ?_⟩
    · exact (setIff _).mpr ⟨rfl, fits, alike.good⟩
    · rw [visit]
      exact congrArg (Visit.mk _) namesAgree.1.symm

/-- From a header whose name is read alike, `ofile_next_member` goes on where `check_archive` does. -/
theorem offset_of_long (read : hasLongName archive header = true →
      strtoul ((longName archive header).take 13) % 2 ^ 32 = longNumber archive header ∧
        longNumber archive header ≤ sizeNumber archive header)
    (named : checkNameSize archive header = some nameSize)
    (next_eq : next = header + sizeofArHdr + nameSize +
      rnd ((sizeNumber archive header + 2 ^ 32 - nameSize) % 2 ^ 32) 2) :
    nameNumber archive header = nameSize ∧ nameSize ≤ sizeNumber archive header ∧
      (numbered archive header).nextOffset = next ∧
      next = header + sizeofArHdr + nameSize + rnd (sizeNumber archive header - nameSize) 2 := by
  have small := sizeNumber_lt archive header
  obtain ⟨-, covered, number⟩ := nameSize_of_long read named
  have rest : (sizeNumber archive header + 2 ^ 32 - nameSize) % 2 ^ 32 = sizeNumber archive header - nameSize := by
    omega
  rw [rest] at next_eq
  refine ⟨number, covered, ?_, next_eq⟩
  rw [next_eq, ← number]
  rfl

/-! ## The walks -/

variable {name : Except Failure (List UInt8)}

theorem nextMember_last {member : Member} {stored : SysvStrtab}
    (ended : member.nextOffset = archive.length) : nextMember archive contentsGood ⟨member, name, stored⟩ = none := by
  rw [nextMember, ofileNextMember, if_pos ended]
  rfl

theorem nextMember_next {member : Member} {stored : SysvStrtab}
    (behindMagic : 8 ≤ member.nextOffset) (before : member.nextOffset < archive.length) :
    nextMember archive contentsGood ⟨member, name, stored⟩ =
      ofileAt archive contentsGood (stored.next archive member (numbered archive member.nextOffset))
        (stored.next archive member (numbered archive member.nextOffset)) member.nextOffset := by
  have goesOn : ofileNextMember archive contentsGood member = setMember archive contentsGood member.nextOffset := by
    rw [ofileNextMember, if_neg (by omega), if_neg (by omega)]
  simp only [nextMember, ofileAt, goesOn]
  cases set : setMember archive contentsGood member.nextOffset with
  | none => rfl
  | some other =>
    obtain ⟨rfl, -, -⟩ := (setMember_eq_some behindMagic).mp set
    rfl

/-- From here on the three walks end with the same members. -/
def SameFrom (archive : List UInt8) (contentsGood : Member → Bool) (fatAllowed : Bool) (header : Nat)
    (ofile : Option Ofile) (scan : Scan) : Prop :=
  ∃ visits, Visits (checkStep archive fatAllowed) header visits ∧ Visits (nextStep archive contentsGood) ofile visits ∧
    Visits (scanStep archive) scan visits

theorem sameFrom_end {ofile : Option Ofile} (ended : archive.length ≤ header) :
    SameFrom archive contentsGood fatAllowed header ofile scan ↔ ofile = none ∧ archive.length ≤ scan.header := by
  have checked : ∀ visits, Visits (checkStep archive fatAllowed) header visits ↔ visits = [] :=
    fun visits => visits_of_none (checkStep_end ended)
  constructor
  · rintro ⟨visits, check, next, scans⟩
    obtain rfl := (checked visits).mp check
    constructor
    · cases ofile with
      | none => rfl
      | some here =>
        obtain ⟨_, absurd_, _⟩ := (visits_of_some rfl).mp next
        cases absurd_
    · by_contra before
      obtain ⟨_, absurd_, _⟩ := (visits_of_some (scanStep_eq (Nat.not_le.mp before))).mp scans
      cases absurd_
  · rintro ⟨rfl, behind⟩
    exact ⟨[], .nil (checkStep_end ended), .nil rfl, .nil (scanStep_end behind)⟩

variable {strtab stored : SysvStrtab}

/-- Before it all three visit one header, in the same way, and go on together. -/
theorem sameFrom_step (here : header < archive.length) (named : checkNameSize archive header = some nameSize)
    (accepted : checkMember archive fatAllowed header = some next) :
    SameFrom archive contentsGood fatAllowed header (ofileAt archive contentsGood strtab stored header) scan ↔
      scan.header < archive.length ∧
      checkVisit archive header nameSize =
        scanVisit archive (scanStrtab archive scan.header scan.strtab) scan.header ∧
      ∃ member, setMember archive contentsGood header = some member ∧
        checkVisit archive header nameSize = ⟨member, (memberName archive strtab member.header).toOption⟩ ∧
        SameFrom archive contentsGood fatAllowed next
          (nextMember archive contentsGood ⟨member, memberName archive strtab member.header, stored⟩)
          ⟨scanNext archive scan.header, scanStrtab archive scan.header scan.strtab⟩ := by
  have checkHere := checkStep_eq here named accepted
  constructor
  · rintro ⟨visits, check, follows, scans⟩
    obtain ⟨rest, rfl, checkRest⟩ := (visits_of_some checkHere).mp check
    by_cases before : scan.header < archive.length
    · obtain ⟨rest', sameScan, scanRest⟩ := (visits_of_some (scanStep_eq before)).mp scans
      obtain ⟨scanned, rfl⟩ := List.cons.inj sameScan
      cases set : setMember archive contentsGood header with
      | none =>
        rw [ofileAt, set] at follows
        have none_here : nextStep archive contentsGood none = none := rfl
        cases (visits_of_none none_here).mp follows
      | some member =>
        rw [ofileAt, set] at follows
        obtain ⟨rest', sameNext, nextRest⟩ := (visits_of_some rfl).mp follows
        obtain ⟨visited, rfl⟩ := List.cons.inj sameNext
        exact ⟨before, scanned, member, rfl, visited, rest, checkRest, nextRest, scanRest⟩
    · cases (visits_of_none (scanStep_end (by omega))).mp scans
  · rintro ⟨before, scanned, member, set, visited, rest, checkRest, nextRest, scanRest⟩
    refine ⟨checkVisit archive header nameSize :: rest, .cons checkHere checkRest, ?_, ?_⟩
    · rw [ofileAt, set, visited]
      exact .cons rfl nextRest
    · rw [scanned]
      exact .cons (scanStep_eq before) scanRest

theorem sameFrom_header {ofile : Option Ofile}
    (same : SameFrom archive contentsGood fatAllowed header ofile scan) (here : header < archive.length)
    {next nameSize : Nat} (named : checkNameSize archive header = some nameSize)
    (accepted : checkMember archive fatAllowed header = some next) : scan.header = header := by
  obtain ⟨visits, check, -, scans⟩ := same
  obtain ⟨rest, rfl, -⟩ := (visits_of_some (checkStep_eq here named accepted)).mp check
  by_cases before : scan.header < archive.length
  · obtain ⟨rest', sameScan, -⟩ := (visits_of_some (scanStep_eq before)).mp scans
    have scanned := (List.cons.inj sameScan).1
    exact (congrArg (fun visit => visit.member.header) scanned).symm
  · cases (visits_of_none (scanStep_end (by omega))).mp scans

theorem agree_alike (agree : Agree archive contentsGood strtab stored scanned header) :
    Alike archive contentsGood strtab (scanStrtab archive header scanned) header := by
  cases agree <;> assumption

/-- The invariant of the three loops, along `check_archive`. -/
theorem walks_agree {fuel header : Nat}
    (small : archive.length < 2 ^ 64) (behindMagic : 8 ≤ header) (here : header < archive.length)
    (accepted : checkMembers archive fatAllowed fuel header = true) :
    SameFrom archive contentsGood fatAllowed header (ofileAt archive contentsGood strtab stored header)
        ⟨header, scanned⟩ ↔
      Agree archive contentsGood strtab stored scanned header := by
  induction fuel generalizing header strtab stored scanned with
  | zero => cases accepted
  | succ fuel ih =>
    rw [checkMembers, if_pos here] at accepted
    cases step : checkMember archive fatAllowed header with
    | none =>
      rw [step] at accepted
      cases accepted
    | some next =>
      rw [step] at accepted
      obtain ⟨nameSize, named, next_eq, inside⟩ := checkMember_eq_some step
      have rounded : (sizeNumber archive header + 2 ^ 32 - nameSize) % 2 ^ 32 ≤
          rnd ((sizeNumber archive header + 2 ^ 32 - nameSize) % 2 ^ 32) 2 := by
        simp only [rnd]
        omega
      have fits : header + sizeofArHdr + nameSize + (sizeNumber archive header + 2 ^ 32 - nameSize) % 2 ^ 32 ≤
          archive.length := by omega
      rw [sameFrom_step here named step]
      constructor
      · rintro ⟨-, scans, member, set, visited, rest⟩
        have alike := (alike_iff behindMagic named fits).mp ⟨scans, member, set, visited⟩
        obtain ⟨rfl, -, -⟩ := (setMember_eq_some behindMagic).mp set
        obtain ⟨number, covered, offset, next_eq⟩ := offset_of_long alike.long named next_eq
        by_cases ended : next = archive.length
        · rw [sameFrom_end (by omega)] at rest
          exact .last alike (by omega) rest.2
        · rw [nextMember_next (by omega) (by omega), offset] at rest
          obtain ⟨after, step'⟩ := checkMember_of_members (by omega) accepted
          obtain ⟨nameSize', named', -, -⟩ := checkMember_eq_some step'
          have together := sameFrom_header rest (by omega) named' step'
          have together : scanNext archive header = next := together
          have even := (scanNext_eq_iff small (by omega) covered).mp (by omega)
          rw [together] at rest
          exact .next alike offset (by omega) even.1 (by rw [number]; exact even.2)
            ((ih (by omega) (by omega) accepted).mp rest)
      · intro agree
        have alike := agree_alike agree
        obtain ⟨scans, member, set, visited⟩ := (alike_iff behindMagic named fits).mpr alike
        obtain ⟨rfl, -, -⟩ := (setMember_eq_some behindMagic).mp set
        obtain ⟨number, covered, offset, next_eq⟩ := offset_of_long alike.long named next_eq
        refine ⟨here, scans, _, set, visited, ?_⟩
        cases agree with
        | last _ ended behind =>
          rw [sameFrom_end (by omega)]
          exact ⟨nextMember_last ended, behind⟩
        | next _ goesOn before size even rest =>
          obtain rfl : next = _ := offset.symm.trans goesOn
          rw [nextMember_next (by omega) (by omega), goesOn]
          have together := (scanNext_eq_iff small (by omega) covered).mpr ⟨size, by rw [← number]; exact even⟩
          have together : scanNext archive header = next := by omega
          show SameFrom archive contentsGood fatAllowed next _ ⟨scanNext archive header, _⟩
          rw [together]
          exact (ih (by omega) (by omega) accepted).mpr rest

theorem checkVisits_inside {visits : List Visit}
    (walked : Visits (checkStep archive fatAllowed) header visits) :
    ∀ visit ∈ visits, visit.member.header + sizeofArHdr ≤ archive.length ∧
      visit.member.data + visit.member.size ≤ archive.length := by
  induction walked with
  | nil => simp
  | cons here _ ih =>
    rename_i state _ _ _
    rw [checkStep] at here
    split at here
    · obtain ⟨nameSize, named, here⟩ := Option.bind_eq_some_iff.mp here
      obtain ⟨next, accepted, here⟩ := Option.bind_eq_some_iff.mp here
      obtain ⟨rfl, rfl⟩ := Prod.mk.inj (Option.some.inj here)
      obtain ⟨other, named', next_eq, inside⟩ := checkMember_eq_some accepted
      obtain rfl : nameSize = other := by
        rw [named] at named'
        exact Option.some.inj named'
      rintro visit (_ | ⟨_, later⟩)
      · simp only [checkVisit, rnd] at *
        omega
      · exact ih visit later
    · cases here

end Header

/-! ## The whole archive -/

section Whole

variable {archive : List UInt8} {contentsGood : Member → Bool} {fatAllowed : Bool}

theorem firstMember_eq (long : 8 + sizeofArHdr ≤ archive.length) (magic : archive.take 8 = armag) :
    firstMember archive contentsGood =
      ofileAt archive contentsGood .null (firstStrtab archive (numbered archive 8)) 8 := by
  simp only [sizeofArHdr] at long
  have first : ofileFirstMember archive contentsGood = setMember archive contentsGood 8 := by
    have noMagic : ¬ (decide (archive.length < 8) || decide (archive.take 8 ≠ armag)) = true := by
      simp [magic]
      omega
    have noHeader : ¬ (decide (archive.length ≠ 8) && decide (archive.length < 8 + sizeofArHdr)) = true := by
      rintro header
      have short := of_decide_eq_true (Bool.and_eq_true_iff.mp header).2
      simp only [sizeofArHdr] at short
      omega
    rw [ofileFirstMember, if_neg noMagic, if_neg noHeader, if_neg (by omega)]
  rw [firstMember, first, ofileAt]
  cases set : setMember archive contentsGood 8 with
  | none => rfl
  | some member =>
    obtain ⟨rfl, -, -⟩ := (setMember_eq_some (le_refl 8)).mp set
    rfl

/-- **The three walks of an accepted archive end with the same members, all inside the archive, exactly
when its headers agree.** -/
theorem sameMembers_iff (accepted : checkArchive archive fatAllowed = true) (small : archive.length < 2 ^ 64) :
    SameMembers archive contentsGood fatAllowed ↔ HeadersAgree archive contentsGood := by
  have inside : SameMembers archive contentsGood fatAllowed ↔
      SameFrom archive contentsGood fatAllowed 8 (firstMember archive contentsGood) ⟨8, none⟩ := by
    constructor
    · rintro ⟨visits, check, next, scans, -⟩
      exact ⟨visits, check, next, scans⟩
    · rintro ⟨visits, check, next, scans⟩
      exact ⟨visits, check, next, scans, checkVisits_inside check⟩
  rw [inside, HeadersAgree]
  rw [checkArchive] at accepted
  split at accepted
  · cases accepted
  · rename_i magic
    simp only [ne_eq, Bool.or_eq_true, decide_eq_true_eq, not_or, not_not] at magic
    split at accepted
    · rename_i empty
      refine iff_of_true ((sameFrom_end (by omega)).mpr ⟨?_, le_of_eq empty⟩) (.inl empty)
      rw [firstMember, ofileFirstMember, if_neg (by simp [magic.2]; omega), if_neg (by simp [empty]), if_pos empty]
      rfl
    · split at accepted
      · cases accepted
      · rename_i notEmpty long
        rw [firstMember_eq (by omega) magic.2, walks_agree small (le_refl 8) (by omega) accepted]
        constructor
        · exact .inr
        · rintro (empty | agree)
          · exact absurd empty notEmpty
          · exact agree

/-! ## Two archives -/

/-- A member whose name has an even length, and one in the style of System V. -/
def evenName : List UInt8 :=
  armag ++ fileHeader "#1/4            " "6         " ++ ascii "abcd" ++ [120, 10] ++
    fileHeader "b/              " "2         " ++ [121, 10]

theorem sameMembers_evenName : SameMembers evenName (fun _ => true) false := by
  refine (sameMembers_iff (by decide +kernel) (by decide +kernel)).mpr (.inr ?_)
  have ends : (numbered evenName 8).nextOffset = 74 := by decide +kernel
  refine .next ⟨fun _ => by decide +kernel, fun sysv => ?_, rfl⟩ ends (by decide +kernel) (by decide +kernel)
    (by decide +kernel) (.last ⟨fun long => ?_, fun sysv => ?_, rfl⟩ (by decide +kernel) (by decide +kernel))
  · exact absurd sysv (by decide +kernel)
  · exact absurd long (by decide +kernel)
  · exact absurd sysv (by decide +kernel)

/-- A member whose name has three characters, and another member. -/
def oddName : List UInt8 :=
  armag ++ fileHeader "#1/3            " "4         " ++ ascii "abc" ++ [120, 10] ++
    fileHeader "b/              " "2         " ++ [121, 10]

/-- `check_archive` and `ofile_next_member` go on at 73, the scan at 72. -/
theorem oddName_drifts : checkArchive oddName false = true ∧ ¬ SameMembers oddName (fun _ => true) false := by
  refine ⟨by decide +kernel, ?_⟩
  rintro ⟨visits, check, -, scans, -⟩
  have first : checkStep oddName false 8 = some (checkVisit oddName 8 3, 73) := by decide +kernel
  have second : checkStep oddName false 73 = some (checkVisit oddName 73 0, 135) := by decide +kernel
  obtain ⟨_, rfl, checkRest⟩ := (visits_of_some first).mp check
  obtain ⟨rest, rfl, -⟩ := (visits_of_some second).mp checkRest
  have scanFirst : scanStep oddName ⟨8, none⟩ = some (scanVisit oddName none 8, ⟨72, none⟩) := by
    decide +kernel
  have scanSecond : scanStep oddName ⟨72, none⟩ = some (scanVisit oddName none 72, ⟨134, none⟩) := by
    decide +kernel
  obtain ⟨rest', same, scans⟩ := (visits_of_some scanFirst).mp scans
  obtain ⟨-, rfl⟩ := List.cons.inj same
  obtain ⟨rest', same, -⟩ := (visits_of_some scanSecond).mp scans
  have headers : (checkVisit oddName 73 0).member.header = (scanVisit oddName none 72).member.header :=
    congrArg (fun visit => visit.member.header) (List.cons.inj same).1
  revert headers
  decide

end Whole
end Cctools.Archive.Walkers
