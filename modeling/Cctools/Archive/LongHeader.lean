/-
# Cctools.Archive.LongHeader -- headers in the long name form, written and read

Every header in an archive that libstuff writes begins with `#1/` and a length.  The
numbers that were printed into it are the ones that both readers find.
-/
import Cctools.Archive.Readers

namespace Cctools.Archive

set_option autoImplicit false

open Cctools.Theory Cctools.Theory.Decimal
open Cctools.Lipo (rnd)

/-- The text of a header: the length of the name, 32 characters of date, owner and mode, the size,
and `ar_fmag`. -/
def longHeader (nameSize : Nat) (middle : List UInt8) (size : Nat) (fmag : List UInt8) : List UInt8 :=
  arEfmt1 ++ leftJustify 13 (printed 10 nameSize) ++ middle ++ leftJustify 10 (printed 10 size) ++ fmag

section Read

variable {archive middle fmag rest : List UInt8} {header nameSize size : Nat}

/-- A long header stands in the archive, and its size is told from what follows. -/
structure StandsAt (archive : List UInt8) (header nameSize : Nat) (middle : List UInt8) (size : Nat)
    (fmag rest : List UInt8) : Prop where
  bytes : archive.drop header = longHeader nameSize middle size fmag ++ rest
  middle_whole : middle.length = 32
  fmag_whole : fmag.length = 2
  size_fits : size < 2 ^ 32
  name_fits : nameSize ≤ size
  ends : size < 10 ^ 9 ∨ fmag.head?.all (fun c => !isDigit c) = true

theorem printed_short {n width : Nat} (some_ : 0 < width) (small : n < 10 ^ width) :
    (leftJustify width (printed 10 n)).length = width :=
  length_leftJustify ((length_printed_le (by decide) some_).mpr small)

theorem length_longHeader (middle_whole : middle.length = 32) (fmag_whole : fmag.length = 2)
    (name_fits : nameSize < 10 ^ 13) (size_fits : size < 10 ^ 10) :
    (longHeader nameSize middle size fmag).length = sizeofArHdr := by
  simp only [longHeader, List.length_append, printed_short (by decide) name_fits,
    printed_short (by decide) size_fits, middle_whole, fmag_whole]
  rfl

theorem StandsAt.hasLongName (stands : StandsAt archive header nameSize middle size fmag rest) :
    hasLongName archive header = true := by
  rw [Archive.hasLongName, arName, stands.bytes, longHeader]
  simp [arEfmt1]

theorem StandsAt.longName (stands : StandsAt archive header nameSize middle size fmag rest) :
    longName archive header = printed 10 nameSize ++ (List.replicate (13 - (printed 10 nameSize).length) 32 ++
      (middle ++ (leftJustify 10 (printed 10 size) ++ (fmag ++ rest)))) := by
  rw [Archive.longName, arName, stands.bytes, longHeader]
  simp only [leftJustify, List.append_assoc]
  exact List.drop_left' rfl

theorem StandsAt.arSize (stands : StandsAt archive header nameSize middle size fmag rest) :
    arSize archive header =
      printed 10 size ++ (List.replicate (10 - (printed 10 size).length) 32 ++ (fmag ++ rest)) := by
  have split : archive.drop (header + 48) = (archive.drop header).drop 48 := by rw [List.drop_drop]
  have small := stands.name_fits
  have fits := stands.size_fits
  rw [Archive.arSize, split, stands.bytes, longHeader]
  simp only [List.append_assoc]
  rw [← List.append_assoc arEfmt1, ← List.append_assoc (arEfmt1 ++ _), List.drop_left', leftJustify,
    List.append_assoc]
  have wide : (leftJustify 13 (printed 10 nameSize)).length = 13 := printed_short (by decide) (by omega)
  simp only [List.length_append, wide, stands.middle_whole]
  rfl

theorem StandsAt.digits_short (stands : StandsAt archive header nameSize middle size fmag rest) :
    (printed 10 nameSize).length < 13 := by
  have small := stands.name_fits
  have fits := stands.size_fits
  exact Nat.lt_succ_of_le ((length_printed_le (by decide) (by decide)).mpr (by omega))

theorem StandsAt.strtoul_name (stands : StandsAt archive header nameSize middle size fmag rest) :
    strtoul (Archive.longName archive header) = nameSize := by
  have small := stands.name_fits
  have fits := stands.size_fits
  rw [stands.longName]
  exact strtoul_printed (by omega) (leftJustify_ends (.inl stands.digits_short))

theorem StandsAt.strtol_name (stands : StandsAt archive header nameSize middle size fmag rest) :
    strtol (Archive.longName archive header) = nameSize := by
  have small := stands.name_fits
  have fits := stands.size_fits
  rw [stands.longName]
  exact strtol_printed (by omega) (leftJustify_ends (.inl stands.digits_short))

theorem StandsAt.sizeNumber (stands : StandsAt archive header nameSize middle size fmag rest) :
    sizeNumber archive header = size := by
  have fits := stands.size_fits
  have fmagStarts : (fmag ++ rest).head? = fmag.head? := by
    obtain ⟨c, more, rfl⟩ := List.exists_cons_of_length_eq_add_one stands.fmag_whole
    rfl
  have ends : (printed 10 size).length < 10 ∨ (fmag ++ rest).head?.all (fun c => !isDigit c) = true :=
    stands.ends.imp (fun small => Nat.lt_succ_of_le ((length_printed_le (by decide) (by decide)).mpr small))
      (by rw [fmagStarts]; exact id)
  rw [Archive.sizeNumber, stands.arSize, strtoul_printed (by omega) (leftJustify_ends ends), Nat.mod_eq_of_lt fits]

theorem StandsAt.nameNumber (stands : StandsAt archive header nameSize middle size fmag rest) :
    nameNumber archive header = nameSize := by
  have small := stands.name_fits
  have fits := stands.size_fits
  rw [Archive.nameNumber, if_pos stands.hasLongName, stands.strtoul_name, stands.sizeNumber]
  omega

theorem StandsAt.numbered (stands : StandsAt archive header nameSize middle size fmag rest) :
    numbered archive header = ⟨header, header + sizeofArHdr + nameSize, size - nameSize⟩ := by
  rw [Archive.numbered, stands.nameNumber, stands.sizeNumber]

end Read

end Cctools.Archive
