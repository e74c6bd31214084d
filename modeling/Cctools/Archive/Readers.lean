/-
# Cctools.Archive.Readers -- when ld visits the members that libstuff visits

Both walks start behind the magic string.  They stay together from a header when the
two read the same numbers in it and the next header, two-byte aligned from the data
for libstuff, is four-byte aligned in the file as ld wants it.
-/
import Cctools.Archive.TableOfContents

namespace Cctools.Archive

set_option autoImplicit false

open Cctools.Theory Cctools.Theory.Decimal
open Cctools.Lipo (rnd)

/-! ## The numbers in a header -/

section Header

variable (archive : List UInt8)

/-- The number at `ar_size`, however far its digits go. -/
def sizeNumber (header : Nat) : Nat := strtoul (arSize archive header) % 2 ^ 32

/-- The number behind `#1/`, no more than the size. -/
def nameNumber (header : Nat) : Nat :=
  if hasLongName archive header then min (strtoul (longName archive header) % 2 ^ 32) (sizeNumber archive header)
  else 0

def numbered (header : Nat) : Member :=
  ⟨header, header + sizeofArHdr + nameNumber archive header, sizeNumber archive header - nameNumber archive header⟩

/-- The ten characters of `ar_size` hold the number that stands there, and the length of the
name is one that a signed reader reads too and that the size covers. -/
structure Legible (header : Nat) : Prop where
  size : strtol ((arSize archive header).take 10) % 2 ^ 32 = sizeNumber archive header
  name : hasLongName archive header = true →
    strtol (longName archive header) % 2 ^ 32 = nameNumber archive header

variable (contentsGood : Member → Bool)

structure Sound (header : Nat) : Prop where
  legible : Legible archive header
  inside : header + sizeofArHdr + sizeNumber archive header ≤ archive.length
  good : contentsGood (numbered archive header) = true

/-- From this header on every member is sound and ends where both readers go on. -/
inductive InStep : Nat → Prop where
  | last {header : Nat} : Sound archive contentsGood header →
      rnd (header + sizeofArHdr + sizeNumber archive header) 4 = archive.length → InStep header
  | next {header : Nat} : Sound archive contentsGood header → 4 ∣ (numbered archive header).nextOffset →
      (numbered archive header).nextOffset < archive.length →
      InStep (numbered archive header).nextOffset → InStep header

variable {archive contentsGood}

theorem nameNumber_le (archive : List UInt8) (header : Nat) : nameNumber archive header ≤ sizeNumber archive header := by
  rw [nameNumber]
  split
  · exact Nat.min_le_right _ _
  · exact Nat.zero_le _

theorem sizeNumber_lt (archive : List UInt8) (header : Nat) : sizeNumber archive header < 2 ^ 32 := Nat.mod_lt _ (by decide)

/-! ## One header -/

theorem setMember_eq_some {header : Nat} {member : Member} (behindMagic : 8 ≤ header) :
    setMember archive contentsGood header = some member ↔
      member = numbered archive header ∧ header + sizeofArHdr + sizeNumber archive header ≤ archive.length ∧
        contentsGood (numbered archive header) = true := by
  have whole : memberNameSize archive header ≤ memberSize archive header := by
    rw [memberNameSize]
    split
    · exact Nat.min_le_right _ _
    · exact Nat.zero_le _
  have size : memberSize archive header = min (sizeNumber archive header) (archive.length - sizeofArHdr) := rfl
  by_cases fits : header + sizeofArHdr + sizeNumber archive header ≤ archive.length
  · have sizes : memberSize archive header = sizeNumber archive header := by omega
    have names : memberNameSize archive header = nameNumber archive header := by
      rw [memberNameSize, sizes, nameNumber]
    have short := nameNumber_le archive header
    simp only [setMember, sizes, names]
    rw [if_neg (by omega)]
    show (if contentsGood (numbered archive header) = true then some (numbered archive header) else none) = _ ↔ _
    split
    · rename_i good
      simp [fits, good, eq_comm]
    · rename_i bad
      simp [bad]
  · simp only [setMember]
    rw [if_pos (by simp only [sizeofArHdr] at *; omega)]
    simp [fits]

/-- ld reads the same header, data and size exactly from a legible header. -/
theorem entry_eq_iff (header : Nat) : entry archive header = numbered archive header ↔ Legible archive header := by
  have short := nameNumber_le archive header
  have small := sizeNumber_lt archive header
  cases long : hasLongName archive header with
  | false =>
    have noName : nameNumber archive header = 0 := by simp [nameNumber, long]
    simp only [entry, numbered, content, contentSize, long, noName, Bool.false_eq_true, ↓reduceIte,
      Member.mk.injEq, true_and, Nat.add_zero, Nat.sub_zero]
    constructor
    · intro same
      exact ⟨by omega, by simp [long]⟩
    · intro legible
      have := legible.size
      omega
  | true =>
    simp only [entry, numbered, content, contentSize, long, ↓reduceIte, Member.mk.injEq, true_and]
    have space : (getLongNameSpace archive header : Int) = strtol (longName archive header) % 2 ^ 32 := by
      rw [getLongNameSpace]
      omega
    constructor
    · rintro ⟨data, size⟩
      have sameName : getLongNameSpace archive header = nameNumber archive header := by omega
      rw [sameName] at size
      exact ⟨by omega, fun _ => by omega⟩
    · intro legible
      have sameName : getLongNameSpace archive header = nameNumber archive header := by
        have := legible.name long
        omega
      have := legible.size
      rw [sameName]
      exact ⟨rfl, by omega⟩

/-- Where ld goes on, from a legible header in a file mapped at a multiple of four. -/
theorem next_of_legible {base header : Nat} (mapped : 4 ∣ base) (same : entry archive header = numbered archive header) :
    next base archive header = rnd (header + sizeofArHdr + sizeNumber archive header) 4 := by
  have short := nameNumber_le archive header
  obtain ⟨data, size⟩ : content archive header = header + sizeofArHdr + nameNumber archive header ∧
      contentSize archive header = sizeNumber archive header - nameNumber archive header := by
    simpa [entry, numbered] using same
  rw [next, data, size]
  simp only [rnd]
  omega

/-! ## The walks -/

theorem entriesFrom_end {base header : Nat} (fuel : Nat) (ended : archive.length ≤ header) :
    entriesFrom base archive fuel header = ([], header) := by
  cases fuel with
  | zero => rfl
  | succ fuel => rw [entriesFrom, if_neg (by omega)]

theorem membersFrom_none (fuel : Nat) : membersFrom archive contentsGood fuel none = [] := by
  cases fuel <;> rfl

/-- A member that ends less than four bytes before the end of the file is libstuff's last. -/
theorem ofileNextMember_last {member : Member} (behindMagic : 8 ≤ member.nextOffset)
    (close : archive.length < member.nextOffset + 4) : ofileNextMember archive contentsGood member = none := by
  rw [ofileNextMember]
  split
  · rfl
  · split
    · rfl
    · cases set : setMember archive contentsGood member.nextOffset with
      | none => rfl
      | some other =>
        have inside := ((setMember_eq_some behindMagic).mp set).2.1
        simp only [sizeofArHdr] at inside
        omega

theorem ofileNextMember_header {member other : Member} (behindMagic : 8 ≤ member.nextOffset)
    (goesOn : ofileNextMember archive contentsGood member = some other) :
    other.header = member.nextOffset := by
  rw [ofileNextMember] at goesOn
  split at goesOn
  · cases goesOn
  · split at goesOn
    · cases goesOn
    · rw [((setMember_eq_some behindMagic).mp goesOn).1]
      rfl

theorem InStep.sound {header : Nat} (inStep : InStep archive contentsGood header) :
    Sound archive contentsGood header := by
  cases inStep <;> assumption

theorem inStep_iff {header : Nat} (sound : Sound archive contentsGood header) :
    InStep archive contentsGood header ↔
      rnd (header + sizeofArHdr + sizeNumber archive header) 4 = archive.length ∨
        (4 ∣ (numbered archive header).nextOffset ∧ (numbered archive header).nextOffset < archive.length ∧
          InStep archive contentsGood (numbered archive header).nextOffset) := by
  constructor
  · intro inStep
    cases inStep with
    | last _ last => exact .inl last
    | next _ aligned before rest => exact .inr ⟨aligned, before, rest⟩
  · rintro (last | ⟨aligned, before, rest⟩)
    · exact .last sound last
    · exact .next sound aligned before rest

theorem walks_agree {base : Nat} (mapped : 4 ∣ base) {fuel header : Nat} (behindMagic : 8 ≤ header)
    (here : header < archive.length) (enough : archive.length ≤ fuel + header) :
    (membersFrom archive contentsGood fuel (setMember archive contentsGood header) =
        (entriesFrom base archive fuel header).1 ∧
      (entriesFrom base archive fuel header).2 = archive.length) ↔ InStep archive contentsGood header := by
  induction fuel generalizing header with
  | zero => omega
  | succ fuel ih =>
    rw [entriesFrom, if_pos here]
    cases set : setMember archive contentsGood header with
    | none =>
      constructor
      · rintro ⟨same, -⟩
        rw [membersFrom_none] at same
        cases same
      · intro inStep
        rw [(setMember_eq_some behindMagic).mpr ⟨rfl, inStep.sound.inside, inStep.sound.good⟩] at set
        cases set
    | some member =>
      obtain ⟨rfl, inside, good⟩ := (setMember_eq_some behindMagic).mp set
      rw [membersFrom, List.cons.injEq]
      by_cases same : entry archive header = numbered archive header
      · have sound : Sound archive contentsGood header := ⟨(entry_eq_iff header).mp same, inside, good⟩
        have short := nameNumber_le archive header
        have offset : (numbered archive header).nextOffset = header + sizeofArHdr + nameNumber archive header +
          rnd (sizeNumber archive header - nameNumber archive header) 2 := rfl
        have behind : 8 ≤ (numbered archive header).nextOffset := by
          simp only [rnd] at *
          omega
        rw [next_of_legible mapped same, inStep_iff sound, same]
        simp only [true_and]
        -- ld is at the end, or both go on to one header, or to two different ones
        by_cases ended : archive.length ≤ rnd (header + sizeofArHdr + sizeNumber archive header) 4
        · rw [entriesFrom_end fuel ended,
            ofileNextMember_last behind (by simp only [rnd] at *; omega), membersFrom_none]
          simp only [true_and]
          constructor
          · exact .inl
          · rintro (last | ⟨aligned, before, -⟩)
            · exact last
            · simp only [rnd] at *
              omega
        · by_cases aligned : 4 ∣ (numbered archive header).nextOffset
          · have target : rnd (header + sizeofArHdr + sizeNumber archive header) 4 =
                (numbered archive header).nextOffset := by
              simp only [rnd] at *
              omega
            rw [target] at ended ⊢
            have goesOn : ofileNextMember archive contentsGood (numbered archive header) =
                setMember archive contentsGood (numbered archive header).nextOffset := by
              rw [ofileNextMember, if_neg (by omega), if_neg (by omega)]
            rw [goesOn, ih behind (by omega) (by simp only [sizeofArHdr, rnd] at *; omega)]
            constructor
            · intro rest
              exact .inr ⟨aligned, by omega, rest⟩
            · rintro (last | ⟨-, -, rest⟩)
              · omega
              · exact rest
          · constructor
            · rintro ⟨rest, -⟩
              obtain ⟨fuel, rfl⟩ : ∃ less, fuel = less + 1 :=
                ⟨fuel - 1, by simp only [sizeofArHdr, rnd] at *; omega⟩
              rw [entriesFrom, if_pos (by omega)] at rest
              cases goesOn : ofileNextMember archive contentsGood (numbered archive header) with
              | none =>
                rw [goesOn, membersFrom_none] at rest
                cases rest
              | some other =>
                rw [goesOn, membersFrom, List.cons.injEq] at rest
                have first := ofileNextMember_header behind goesOn
                rw [rest.1] at first
                have headers : rnd (header + sizeofArHdr + sizeNumber archive header) 4 =
                  (numbered archive header).nextOffset := first
                simp only [rnd] at *
                omega
            · rintro (last | ⟨aligned', -, -⟩)
              · omega
              · exact absurd aligned' aligned
      · constructor
        · rintro ⟨⟨same', -⟩, -⟩
          exact absurd same'.symm same
        · intro inStep
          exact absurd ((entry_eq_iff header).mpr inStep.sound.legible) same

end Header

/-! ## The whole archive -/

section Whole

variable (contentsGood : Member → Bool) (form : TocForm) (base : Nat) (archive : List UInt8)

/-- ld's walk visits the members of libstuff's walk, with the same data, and ends with the file;
its table of contents finds the first entry of every name. -/
def ReadsAsLibstuff : Prop :=
  ofileMembers archive contentsGood = (ldEntries base archive).1 ∧
    (ldEntries base archive).2 = archive.length ∧ FindsFirst form base archive

variable {contentsGood form base archive}

theorem tocForm_of_short (short : archive.length ≤ 8) : tocForm archive = none := by
  have empty : archive.drop 8 = [] := List.drop_eq_nil_of_le short
  have name : getName archive 8 = some [] := by
    simp [getName, hasLongName, arName, empty, arEfmt1, cString]
  simp [tocForm, name, ascii]

theorem ofileMembers_of_accepted {fatAllowed : Bool} (contentsGood : Member → Bool)
    (accepted : checkArchive archive fatAllowed = true)
    (starts : tocForm archive = some form) :
    8 + sizeofArHdr ≤ archive.length ∧
      ofileFirstMember archive contentsGood = setMember archive contentsGood 8 := by
  have long : ¬ archive.length ≤ 8 := by
    intro short
    rw [tocForm_of_short short] at starts
    cases starts
  rw [checkArchive] at accepted
  split at accepted
  · cases accepted
  · rename_i magic
    rw [if_neg (by omega)] at accepted
    split at accepted
    · cases accepted
    · rename_i header
      refine ⟨by omega, ?_⟩
      rw [ofileFirstMember, if_neg magic, if_neg (by simp; omega), if_neg (by omega)]

/-- **ld reads an archive as libstuff does exactly when every member is sound and its padded end is
a multiple of four, and the table of contents lies in the file.** -/
theorem ld_reads_as_libstuff {fatAllowed : Bool} (accepted : checkArchive archive fatAllowed = true)
    (starts : tocForm archive = some form) (mapped : 4 ∣ base) :
    ReadsAsLibstuff contentsGood form base archive ↔
      InStep archive contentsGood 8 ∧ TocInFile form base archive := by
  obtain ⟨long, first⟩ := ofileMembers_of_accepted contentsGood accepted starts
  simp only [sizeofArHdr] at long
  rw [ReadsAsLibstuff, ofileMembers, ldEntries, first, ← and_assoc,
    walks_agree mapped (by omega) (by omega) (by omega), findsFirst_iff]

/-! ## Two archives -/

def fileHeader (name size : String) : List UInt8 :=
  ascii name ++ ascii "0           0     0     100644  " ++ ascii size ++ [96, 10]

/-- A table of contents with one entry, and a member of four bytes. -/
def fourBytes : List UInt8 :=
  armag ++ fileHeader "__.SYMDEF       " "20        " ++
    [8, 0, 0, 0, 0, 0, 0, 0, 88, 0, 0, 0, 4, 0, 0, 0] ++ ascii "_a" ++ [0, 0] ++
    fileHeader "a               " "4         " ++ ascii "abc\n"

theorem fourBytes_read : ReadsAsLibstuff (fun _ => true) .symdef 4096 fourBytes := by
  have accepted : checkArchive fourBytes false = true := by decide +kernel
  have starts : tocForm fourBytes = some .symdef := by decide +kernel
  refine (ld_reads_as_libstuff accepted starts (by decide)).mpr ⟨?_, ?_⟩
  · have table : Sound fourBytes (fun _ => true) 8 :=
      ⟨⟨by decide +kernel, by decide +kernel⟩, by decide +kernel, rfl⟩
    have member : Sound fourBytes (fun _ => true) 88 :=
      ⟨⟨by decide +kernel, by decide +kernel⟩, by decide +kernel, rfl⟩
    have ends : (numbered fourBytes 8).nextOffset = 88 := by decide +kernel
    refine .next table ?_ ?_ ?_ <;> rw [ends]
    · decide
    · decide +kernel
    · exact .last member (by decide +kernel)
  · exact ⟨by decide +kernel, by decide +kernel, by decide +kernel, by decide +kernel⟩

/-- A member of two bytes before another one. -/
def twoBytes : List UInt8 :=
  armag ++ fileHeader "__.SYMDEF       " "8         " ++ [0, 0, 0, 0, 0, 0, 0, 0] ++
    fileHeader "a               " "2         " ++ ascii "a\n" ++
    fileHeader "b               " "4         " ++ ascii "abc\n"

/-- libstuff goes on at 138, ld at 140. -/
theorem twoBytes_misread :
    checkArchive twoBytes false = true ∧ tocForm twoBytes = some .symdef ∧
      ¬ ReadsAsLibstuff (fun _ => true) .symdef 4096 twoBytes := by
  refine ⟨by decide +kernel, by decide +kernel, ?_⟩
  rintro ⟨same, -, -⟩
  have headers : (ofileMembers twoBytes fun _ => true).map Member.header =
      (ldEntries 4096 twoBytes).1.map Member.header := congrArg _ same
  revert headers
  decide +kernel

end Whole

end Cctools.Archive
