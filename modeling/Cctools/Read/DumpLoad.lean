/-
# Cctools.Read.DumpLoad -- `.dump` and then `.load`

`s_dump` writes every macro as two C strings and every absolute symbol as a C string and the
first four bytes of its value, each list with an empty string behind it; `s_load` reads that
back.  `load_dump_iff`: a fresh assembler then has the macros and the absolute symbols of
the one that wrote the file if and only if none has the empty name and the bytes of each
value behind the fourth are zero.

The file is its bytes.  A symbol in `sy_hash` is there by value, so what is stored through
its pointer is a `hash_jam`; the chain of symbols and the errors of `fopen` are left out.
-/
import Cctools.As.Hash
import Cctools.Theory.Bytes
import Mathlib.Data.List.TakeWhile

namespace Cctools.Read

open Cctools.As (CString HashControl HashEntry)
open Cctools.Theory (beBytes readBe beBytes_readBe readBe_beBytes length_beBytes)

set_option autoImplicit false

/-! ## Values -/

/-- How wide `valueT` is. -/
inductive Word
  | w32
  | w64
  deriving DecidableEq, Repr

def Word.bytes : Word → Nat
  | .w32 => 4
  | .w64 => 8

/-- The order of bytes on the host. -/
inductive Endian
  | little
  | big
  deriving DecidableEq, Repr

def Endian.arrange : Endian → Text → Text
  | .little, bytes => bytes.reverse
  | .big, bytes => bytes

/-- `sy_value` -/
abbrev Value (word : Word) := BitVec (8 * word.bytes)

variable {word : Word}

/-- The bytes of a value in memory. -/
def image (endian : Endian) (value : Value word) : Text := endian.arrange (beBytes word.bytes value.toNat)

def ofImage (endian : Endian) (bytes : Text) : Value word := BitVec.ofNat _ (readBe word.bytes (endian.arrange bytes))

theorem arrange_arrange (endian : Endian) (bytes : Text) : endian.arrange (endian.arrange bytes) = bytes := by
  cases endian with
  | little => exact List.reverse_reverse bytes
  | big => rfl

theorem length_arrange (endian : Endian) (bytes : Text) : (endian.arrange bytes).length = bytes.length := by
  cases endian with
  | little => exact List.length_reverse
  | big => rfl

@[simp] theorem length_image (endian : Endian) (value : Value word) : (image endian value).length = word.bytes := by
  rw [image, length_arrange, length_beBytes]

theorem two_pow_bytes : 2 ^ (8 * word.bytes) = 256 ^ word.bytes := Nat.pow_mul 2 8 word.bytes

theorem ofImage_image (endian : Endian) (value : Value word) : ofImage endian (image endian value) = value := by
  apply BitVec.eq_of_toNat_eq
  have read := readBe_beBytes word.bytes value.toNat []
  rw [List.append_nil] at read
  rw [ofImage, image, arrange_arrange, read, BitVec.toNat_ofNat, two_pow_bytes, Nat.mod_mod, ← two_pow_bytes]
  exact Nat.mod_eq_of_lt value.isLt

variable {bytes : Text}

theorem image_ofImage (endian : Endian) (whole : bytes.length = word.bytes) :
    image endian (ofImage endian bytes : Value word) = bytes := by
  have arranged : (endian.arrange bytes).length = word.bytes := by rw [length_arrange, whole]
  have small := Cctools.Theory.readBe_lt word.bytes (endian.arrange bytes)
  rw [image, ofImage, BitVec.toNat_ofNat, two_pow_bytes, Nat.mod_eq_of_lt small, beBytes_readBe arranged, arrange_arrange]

/-! ## Symbols -/

def nUndf : UInt8 := 0x0
def nAbs : UInt8 := 0x2
def nType : UInt8 := 0x0e

/-- `REFERENCE_FLAG_UNDEFINED_LAZY` -/
def undefinedLazy : UInt16 := 1

/-- The frag is its number; 0 is `zero_address_frag`. -/
structure Symbol (word : Word) where
  type : UInt8
  other : UInt8
  desc : UInt16
  value : Value word
  frag : Nat

/-- `symbol_new(name, N_UNDF, 0, 0, 0, &zero_address_frag)` -/
def symbolNew : Symbol word := ⟨nUndf, 0, 0, 0, 0⟩

/-- `symbol_find_or_make`: the symbol, which is in the table. -/
def symbolFindOrMake (syHash : HashControl (Symbol word)) (name : CString) : Symbol word × HashControl (Symbol word) :=
  match syHash.hashFind name with
  | (some symbol, syHash) =>
    let symbol := { symbol with desc := symbol.desc &&& ~~~undefinedLazy }
    (symbol, syHash.hashJam name symbol)
  | (none, syHash) => (symbolNew, syHash.hashJam name symbolNew)

/-! ## The assembler -/

structure Assembler (word : Word) where
  maHash : HashControl CString
  syHash : HashControl (Symbol word)
  /-- What `as_bad` has said. -/
  messages : List Text

/-- After `macro_begin` and `symbol_begin`. -/
def Assembler.fresh : Assembler word := ⟨.new, .new, []⟩

def Assembler.macroBody (assembler : Assembler word) (name : CString) : Option CString := assembler.maHash.find name

/-- The value of a symbol that is absolute. -/
def absolute (syHash : HashControl (Symbol word)) (name : CString) : Option (Value word) :=
  (syHash.find name).bind fun symbol => if symbol.type &&& nType = nAbs then some symbol.value else none

/-! ## `.dump` -/

def writeMacro (string value : CString) : Text := string.val ++ 0 :: (value.val ++ [0])

def writeSymbol (endian : Endian) (string : CString) (symbol : Symbol word) : Text :=
  if symbol.type &&& nType = nAbs then string.val ++ 0 :: (image endian symbol.value).take 4 else []

def sDump (endian : Endian) (assembler : Assembler word) : Text :=
  assembler.maHash.hashTraverse.flatMap (fun entry => writeMacro entry.string entry.data) ++
    0 :: (assembler.syHash.hashTraverse.flatMap (fun entry => writeSymbol endian entry.string entry.data) ++ [0])

/-! ## `.load` -/

/-- A string up to its terminator; `none` if the loop goes on behind the end of the file. -/
def loadString (file : Text) : Option (CString × Text) :=
  if (0 : UInt8) ∈ file then
    some (⟨file.takeWhile (· ≠ 0), fun inside => by simpa using List.mem_takeWhile_imp inside⟩, (file.dropWhile (· ≠ 0)).tail)
  else none

variable {file rest : Text}

theorem loadString_length {string : CString} (is : loadString file = some (string, rest)) :
    rest.length < file.length := by
  rw [loadString] at is
  split at is
  · rename_i terminated
    cases is
    have shorter := (List.dropWhile_suffix (l := file) (fun c : UInt8 => decide (c ≠ 0))).length_le
    have some_ : file.dropWhile (fun c : UInt8 => decide (c ≠ 0)) ≠ [] := by
      rw [Ne, List.dropWhile_eq_nil_iff]
      exact fun all => by simpa using all 0 terminated
    have positive := List.length_pos_iff.mpr some_
    rw [List.length_tail]
    omega
  · cases is

def alreadyDefined (name : CString) : Text :=
  ascii "a macro named \"" ++ name.val ++ ascii "\" encountered in a .load is already defined"

/-- The empty name ends the macros. -/
def loadMacros (maHash : HashControl CString) (messages : List Text) (file : Text) :
    Option (HashControl CString × List Text × Text) :=
  match _named : loadString file with
  | none => none
  | some (name, rest) =>
    if name.val = [] then some (maHash, messages, rest)
    else
      match _contents : loadString rest with
      | none => none
      | some (body, rest') =>
        let (exists_, maHash) := maHash.hashInsert name body
        loadMacros maHash (if exists_ then messages ++ [alreadyDefined name] else messages) rest'
  termination_by file.length
  decreasing_by
    have := loadString_length _named
    have := loadString_length _contents
    omega

/-- Four bytes; behind the end of the file they are `EOF`. -/
def loadValue (file : Text) : Text := file.take 4 ++ List.replicate (4 - file.length) 255

/-- The first four bytes of a value are stored. -/
def storeFirst (endian : Endian) (value : Value word) (bytes : Text) : Value word :=
  ofImage endian (bytes ++ (image endian value).drop 4)

def loadSymbols (endian : Endian) (syHash : HashControl (Symbol word)) (file : Text) : Option (HashControl (Symbol word)) :=
  match _named : loadString file with
  | none => none
  | some (name, rest) =>
    if name.val = [] then some syHash
    else
      let (symbol, syHash) := symbolFindOrMake syHash name
      loadSymbols endian
        (syHash.hashJam name { symbol with type := nAbs, value := storeFirst endian symbol.value (loadValue rest), frag := 0 })
        (rest.drop 4)
  termination_by file.length
  decreasing_by
    have := loadString_length _named
    rw [List.length_drop]
    omega

def sLoad (endian : Endian) (assembler : Assembler word) (file : Text) : Option (Assembler word) := do
  let (maHash, messages, rest) ← loadMacros assembler.maHash assembler.messages file
  let syHash ← loadSymbols endian assembler.syHash rest
  return ⟨maHash, syHash, messages⟩

/-! ## Strings -/

theorem loadString_append (string : CString) (rest : Text) :
    loadString (string.val ++ 0 :: rest) = some (string, rest) := by
  have inside : ∀ c ∈ string.val, decide (c ≠ 0) = true := by
    intro c member
    exact decide_eq_true (ne_of_mem_of_not_mem member string.property)
  have front : (string.val ++ 0 :: rest).takeWhile (fun c => decide (c ≠ 0)) = string.val := by
    rw [List.takeWhile_append_of_pos inside]
    simp
  have back : (string.val ++ 0 :: rest).dropWhile (fun c => decide (c ≠ 0)) = 0 :: rest := by
    rw [List.dropWhile_append_of_pos inside]
    simp
  rw [loadString, if_pos (by simp), back]
  simp only [front, List.tail_cons]

def CString.empty : CString := ⟨[], nofun⟩

theorem val_eq_nil {string : CString} : string.val = [] ↔ string = CString.empty :=
  ⟨fun is => Subtype.ext is, fun is => by rw [is]; rfl⟩

/-! ## Macros -/

variable {name : CString}

theorem loadMacros_of_string (found : loadString file = some (name, rest))
    (maHash : HashControl CString) (messages : List Text) :
    loadMacros maHash messages file =
      if name.val = [] then some (maHash, messages, rest)
      else
        (loadString rest).bind fun (body, after) =>
          loadMacros (maHash.hashInsert name body).2
            (if (maHash.hashInsert name body).1 then messages ++ [alreadyDefined name] else messages) after := by
  rw [loadMacros.eq_def]
  split
  · rename_i none
    rw [found] at none
    cases none
  · rename_i other
    rw [found] at other
    cases other
    split
    · rfl
    · split
      · rename_i none
        rw [none]
        rfl
      · rename_i contents
        rw [contents]
        rfl

theorem loadMacros_cons (named : name.val ≠ []) (body : CString) (maHash : HashControl CString)
    (messages : List Text) (rest : Text) :
    loadMacros maHash messages (writeMacro name body ++ rest)
      = loadMacros (maHash.hashInsert name body).2
          (if (maHash.hashInsert name body).1 then messages ++ [alreadyDefined name] else messages) rest := by
  have first : loadString (writeMacro name body ++ rest) = some (name, body.val ++ 0 :: rest) := by
    rw [writeMacro, List.append_assoc, List.cons_append, List.append_assoc, List.singleton_append, loadString_append]
  rw [loadMacros_of_string first, if_neg named, loadString_append]
  rfl

theorem loadMacros_end (maHash : HashControl CString) (messages : List Text) (rest : Text) :
    loadMacros maHash messages (0 :: rest) = some (maHash, messages, rest) := by
  have first : loadString (0 :: rest) = some (CString.empty, rest) := loadString_append CString.empty rest
  rw [loadMacros_of_string first, if_pos (val_eq_nil.mpr rfl)]

/-- **The macros that were visited are read back**, each is new. -/
theorem loadMacros_dump (entries : List (HashEntry CString)) (rest : Text) (messages : List Text) :
    ∀ maHash : HashControl CString, (entries.map HashEntry.string).Nodup →
      (∀ entry ∈ entries, entry.string.val ≠ [] ∧ maHash.find entry.string = none) →
      ∃ loaded, loadMacros maHash messages
          (entries.flatMap (fun entry => writeMacro entry.string entry.data) ++ 0 :: rest) = some (loaded, messages, rest)
        ∧ ∀ key value, loaded.find key = some value
          ↔ (∃ entry ∈ entries, entry.string = key ∧ entry.data = value) ∨ maHash.find key = some value := by
  induction entries with
  | nil =>
    intro maHash _ _
    exact ⟨maHash, loadMacros_end maHash messages rest, by simp⟩
  | cons entry entries ih =>
    intro maHash distinct fresh
    rw [List.map_cons, List.nodup_cons] at distinct
    obtain ⟨named, absent⟩ := fresh entry List.mem_cons_self
    have insert := HashControl.find_hashInsert maHash absent entry.data
    have later : ∀ other ∈ entries, other.string.val ≠ []
        ∧ (maHash.hashInsert entry.string entry.data).2.find other.string = none := by
      intro other inside
      obtain ⟨named', absent'⟩ := fresh other (List.mem_cons_of_mem _ inside)
      have apart : other.string ≠ entry.string := by
        intro same
        exact distinct.1 (List.mem_map.mpr ⟨other, inside, same⟩)
      rw [(insert other.string).2, if_neg apart]
      exact ⟨named', absent'⟩
    obtain ⟨loaded, is, finds⟩ := ih _ distinct.2 later
    refine ⟨loaded, ?_, ?_⟩
    · rw [List.flatMap_cons, List.append_assoc, loadMacros_cons named, (insert entry.string).1]
      exact is
    · intro key value
      rw [finds, (insert key).2]
      by_cases same : key = entry.string
      · subst same
        rw [if_pos rfl, absent]
        have others : ¬ ∃ other ∈ entries, other.string = entry.string ∧ other.data = value := by
          rintro ⟨other, inside, is, _⟩
          exact distinct.1 (List.mem_map.mpr ⟨other, inside, is⟩)
        simp [others]
      · rw [if_neg same]
        have not_ : entry.string ≠ key := fun is => same is.symm
        simp [not_]

/-! ## Symbols -/

/-- The bytes behind the fourth are zero. -/
def Kept (endian : Endian) (value : Value word) : Prop := ∀ byte ∈ (image endian value).drop 4, byte = 0

/-- What a new symbol has after a load. -/
def restored (endian : Endian) (value : Value word) : Value word := storeFirst endian 0 ((image endian value).take 4)

theorem four_le_bytes : 4 ≤ word.bytes := by cases word <;> decide

theorem image_zero (endian : Endian) : image endian (0 : Value word) = List.replicate word.bytes 0 := by
  cases word <;> cases endian <;> rfl

theorem zero_kept (endian : Endian) : Kept endian (0 : Value word) := by
  intro byte inside
  rw [image_zero, List.drop_replicate] at inside
  exact List.eq_of_mem_replicate inside

theorem image_storeFirst (endian : Endian) (value : Value word) (four : bytes.length = 4) :
    image endian (storeFirst endian value bytes) = bytes ++ (image endian value).drop 4 := by
  refine image_ofImage endian ?_
  have wide : 4 ≤ word.bytes := four_le_bytes
  rw [List.length_append, List.length_drop, length_image, four]
  omega

theorem length_take_image (endian : Endian) (value : Value word) : ((image endian value).take 4).length = 4 := by
  have wide : 4 ≤ word.bytes := four_le_bytes
  rw [List.length_take, length_image]
  omega

variable {endian : Endian} {value : Value word}

theorem storeFirst_kept (kept : Kept endian value)
    (four : bytes.length = 4) : Kept endian (storeFirst endian value bytes) := by
  intro byte inside
  rw [image_storeFirst endian value four, ← four, List.drop_left] at inside
  rw [four] at inside
  exact kept byte inside

theorem restored_kept (endian : Endian) (value : Value word) : Kept endian (restored endian value) :=
  storeFirst_kept (zero_kept endian) (length_take_image endian value)

/-- A value comes back if nothing but its first four bytes counts. -/
theorem restored_eq_iff : restored endian value = value ↔ Kept endian value := by
  constructor
  · intro same
    rw [← same]
    exact restored_kept endian value
  · intro kept
    have zeros : (image endian value).drop 4 = (image endian (0 : Value word)).drop 4 := by
      rw [image_zero, List.drop_replicate, List.eq_replicate_iff]
      refine ⟨?_, kept⟩
      rw [List.length_drop, length_image]
    rw [restored, storeFirst, ← zeros, List.take_append_drop, ofImage_image]

theorem loadValue_append (four : bytes.length = 4) (rest : Text) :
    loadValue (bytes ++ rest) = bytes ∧ (bytes ++ rest).drop 4 = rest := by
  have pad : 4 - (bytes ++ rest).length = 0 := by
    rw [List.length_append]
    omega
  rw [loadValue, pad, ← four, List.take_left, List.drop_left]
  exact ⟨List.append_nil bytes, rfl⟩

theorem length_loadValue (file : Text) : (loadValue file).length = 4 := by
  rw [loadValue, List.length_append, List.length_take, List.length_replicate]
  omega

/-- The table after one symbol has been read. -/
def loadSymbol (endian : Endian) (syHash : HashControl (Symbol word)) (name : CString) (bytes : Text) :
    HashControl (Symbol word) :=
  (symbolFindOrMake syHash name).2.hashJam name
    { (symbolFindOrMake syHash name).1 with
      type := nAbs, value := storeFirst endian (symbolFindOrMake syHash name).1.value bytes, frag := 0 }

theorem find_symbolFindOrMake (syHash : HashControl (Symbol word)) (name key : CString) :
    (symbolFindOrMake syHash name).2.find key
      = if key = name then some (symbolFindOrMake syHash name).1 else syHash.find key := by
  have moved : (syHash.hashFind name).2.find key = syHash.find key := HashControl.find_hashLookup syHash name key
  rw [symbolFindOrMake]
  split
  · rename_i symbol after is
    rw [is] at moved
    rw [HashControl.find_hashJam, moved]
  · rename_i after is
    rw [is] at moved
    rw [HashControl.find_hashJam, moved]

theorem symbolFindOrMake_value (syHash : HashControl (Symbol word)) (name : CString) :
    (symbolFindOrMake syHash name).1.value = ((syHash.find name).map Symbol.value).getD 0 := by
  rw [symbolFindOrMake, HashControl.find]
  split
  · rename_i symbol after is
    rw [is]
    rfl
  · rename_i after is
    rw [is]
    rfl

theorem find_loadSymbol (endian : Endian) (syHash : HashControl (Symbol word)) (name key : CString) (bytes : Text) :
    ∃ symbol : Symbol word, symbol.type = nAbs
      ∧ symbol.value = storeFirst endian (((syHash.find name).map Symbol.value).getD 0) bytes
      ∧ (loadSymbol endian syHash name bytes).find key = if key = name then some symbol else syHash.find key := by
  refine ⟨{ (symbolFindOrMake syHash name).1 with
    type := nAbs, value := storeFirst endian (symbolFindOrMake syHash name).1.value bytes, frag := 0 }, rfl, ?_, ?_⟩
  · rw [← symbolFindOrMake_value]
  rw [loadSymbol, HashControl.find_hashJam]
  split
  · rfl
  · rename_i other
    rw [find_symbolFindOrMake, if_neg other]

theorem loadSymbols_of_string (found : loadString file = some (name, rest))
    (endian : Endian) (syHash : HashControl (Symbol word)) :
    loadSymbols endian syHash file =
      if name.val = [] then some syHash
      else loadSymbols endian (loadSymbol endian syHash name (loadValue rest)) (rest.drop 4) := by
  rw [loadSymbols.eq_def]
  split
  · rename_i none
    rw [found] at none
    cases none
  · rename_i other
    rw [found] at other
    cases other
    rfl

theorem loadSymbols_cons (named : name.val ≠ []) (endian : Endian) (syHash : HashControl (Symbol word))
    (rest : Text) : loadSymbols endian syHash (name.val ++ 0 :: rest)
      = loadSymbols endian (loadSymbol endian syHash name (loadValue rest)) (rest.drop 4) := by
  rw [loadSymbols_of_string (loadString_append name rest), if_neg named]

theorem loadSymbols_end (endian : Endian) (syHash : HashControl (Symbol word)) :
    loadSymbols endian syHash [0] = some syHash := by
  have first : loadString [0] = some (CString.empty, []) := loadString_append CString.empty []
  rw [loadSymbols_of_string first, if_pos (val_eq_nil.mpr rfl)]

variable {syHash : HashControl (Symbol word)}

theorem absolute_eq_some :
    absolute syHash name = some value
      ↔ ∃ symbol, syHash.find name = some symbol ∧ symbol.type &&& nType = nAbs ∧ symbol.value = value := by
  simp only [absolute, Option.bind_eq_some_iff, Option.ite_none_right_eq_some, Option.some.injEq]

theorem absolute_loadSymbol (fresh : syHash.find name = none) (bytes : Text) (key : CString) :
    absolute (loadSymbol endian syHash name bytes) key
      = if key = name then some (storeFirst endian 0 bytes) else absolute syHash key := by
  obtain ⟨symbol, type, value, found⟩ := find_loadSymbol endian syHash name key bytes
  rw [fresh] at value
  rw [absolute, found]
  split
  · rw [Option.bind_some, type, value]
    rfl
  · rfl

/-- **The absolute symbols that were visited are read back**, with what is left of their values. -/
theorem loadSymbols_dump (endian : Endian) (entries : List (HashEntry (Symbol word))) :
    ∀ syHash : HashControl (Symbol word), (entries.map HashEntry.string).Nodup →
      (∀ entry ∈ entries, (entry.data.type &&& nType = nAbs → entry.string.val ≠ []) ∧ syHash.find entry.string = none) →
      ∃ loaded, loadSymbols endian syHash
          (entries.flatMap (fun entry => writeSymbol endian entry.string entry.data) ++ [0]) = some loaded
        ∧ ∀ key value, absolute loaded key = some value
          ↔ (∃ entry ∈ entries, entry.string = key ∧ entry.data.type &&& nType = nAbs
              ∧ restored endian entry.data.value = value)
            ∨ absolute syHash key = some value := by
  induction entries with
  | nil =>
    intro syHash _ _
    exact ⟨syHash, loadSymbols_end endian syHash, by simp⟩
  | cons entry entries ih =>
    intro syHash distinct fresh
    rw [List.map_cons, List.nodup_cons] at distinct
    obtain ⟨named, absent⟩ := fresh entry List.mem_cons_self
    have apart : ∀ other ∈ entries, other.string ≠ entry.string := by
      intro other inside same
      exact distinct.1 (List.mem_map.mpr ⟨other, inside, same⟩)
    rw [List.flatMap_cons, List.append_assoc]
    by_cases isAbs : entry.data.type &&& nType = nAbs
    · have bytes := loadValue_append (length_take_image endian entry.data.value)
        (entries.flatMap (fun entry => writeSymbol endian entry.string entry.data) ++ [0])
      have later : ∀ other ∈ entries, (other.data.type &&& nType = nAbs → other.string.val ≠ [])
          ∧ (loadSymbol endian syHash entry.string ((image endian entry.data.value).take 4)).find other.string = none := by
        intro other inside
        obtain ⟨named', absent'⟩ := fresh other (List.mem_cons_of_mem _ inside)
        obtain ⟨_, _, _, found⟩ := find_loadSymbol endian syHash entry.string other.string
          ((image endian entry.data.value).take 4)
        rw [found, if_neg (apart other inside)]
        exact ⟨named', absent'⟩
      obtain ⟨loaded, is, finds⟩ := ih _ distinct.2 later
      refine ⟨loaded, ?_, ?_⟩
      · rw [writeSymbol, if_pos isAbs, List.append_assoc, List.cons_append, loadSymbols_cons (named isAbs), bytes.1, bytes.2]
        exact is
      · intro key value
        rw [finds, absolute_loadSymbol absent]
        by_cases same : key = entry.string
        · subst same
          have none : absolute syHash entry.string = none := by rw [absolute, absent]; rfl
          have others : ¬ ∃ other ∈ entries, other.string = entry.string ∧ other.data.type &&& nType = nAbs
              ∧ restored endian other.data.value = value := by
            rintro ⟨other, inside, is, _⟩
            exact apart other inside is
          rw [if_pos rfl, none, List.exists_mem_cons_iff]
          constructor
          · rintro (inside | is)
            · exact absurd inside others
            · exact .inl (.inl ⟨rfl, isAbs, Option.some.inj is⟩)
          · rintro ((⟨_, _, is⟩ | inside) | is)
            · exact .inr (congrArg some is)
            · exact absurd inside others
            · cases is
        · rw [if_neg same]
          have not_ : entry.string ≠ key := fun is => same is.symm
          simp [not_]
    · obtain ⟨loaded, is, finds⟩ := ih syHash distinct.2 (fun other inside => fresh other (List.mem_cons_of_mem _ inside))
      refine ⟨loaded, ?_, ?_⟩
      · rw [writeSymbol, if_neg isAbs, List.nil_append]
        exact is
      · intro key value
        rw [finds]
        simp [isAbs]

/-! ## What a load leaves alone -/

theorem loadMacros_empty (maHash : HashControl CString) (messages : List Text) (file : Text)
    (none_ : maHash.find CString.empty = none) {loaded : HashControl CString} {said : List Text} {rest : Text}
    (is : loadMacros maHash messages file = some (loaded, said, rest)) : loaded.find CString.empty = none := by
  fun_induction loadMacros maHash messages file with
  | case1 => cases is
  | case2 =>
    cases is
    exact none_
  | case3 => cases is
  | case4 maHash messages file name rest _ named body rest' _ exists_ after inserted ih =>
    refine ih ?_ is
    have other : CString.empty ≠ name := fun same => named (val_eq_nil.mpr same.symm)
    have same := HashControl.find_hashInsert_other maHash other body
    rw [inserted] at same
    rw [same]
    exact none_

theorem loadSymbols_kept (endian : Endian) (syHash : HashControl (Symbol word)) (file : Text)
    (good : ∀ key symbol, syHash.find key = some symbol → key ≠ CString.empty ∧ Kept endian symbol.value)
    {loaded : HashControl (Symbol word)} (is : loadSymbols endian syHash file = some loaded) :
    ∀ key symbol, loaded.find key = some symbol → key ≠ CString.empty ∧ Kept endian symbol.value := by
  fun_induction loadSymbols endian syHash file with
  | case1 => cases is
  | case2 =>
    cases is
    exact good
  | case3 syHash file name rest _ named symbol after made ih =>
    refine ih ?_ is
    intro key symbol' found
    obtain ⟨stored, _, value, finds⟩ := find_loadSymbol endian syHash name key (loadValue rest)
    rw [loadSymbol, made] at finds
    rw [finds] at found
    split at found
    · rename_i same
      cases found
      refine ⟨fun empty => named (val_eq_nil.mpr (same.symm.trans empty)), ?_⟩
      rw [value]
      refine storeFirst_kept ?_ (length_loadValue rest)
      cases before : syHash.find name with
      | none => exact zero_kept endian
      | some old => exact (good name old before).2
    · exact good key symbol' found

/-! ## The round trip -/

theorem macros_visited (maHash : HashControl CString) {key value : CString} :
    maHash.find key = some value ↔ ∃ entry ∈ maHash.hashTraverse, entry.string = key ∧ entry.data = value :=
  HashControl.find_iff_traverse

theorem absolute_visited {key : CString} :
    absolute syHash key = some value ↔ ∃ entry ∈ syHash.hashTraverse,
      entry.string = key ∧ entry.data.type &&& nType = nAbs ∧ entry.data.value = value := by
  rw [absolute_eq_some]
  constructor
  · rintro ⟨symbol, found, isAbs, is⟩
    obtain ⟨entry, inside, string, rfl⟩ := HashControl.find_iff_traverse.mp found
    exact ⟨entry, inside, string, isAbs, is⟩
  · rintro ⟨entry, inside, string, isAbs, is⟩
    exact ⟨entry.data, HashControl.find_iff_traverse.mpr ⟨entry, inside, string, rfl⟩, isAbs, is⟩

/-- The macros and the absolute symbols of both, and nothing is said. -/
def Same (loaded assembler : Assembler word) : Prop :=
  loaded.messages = [] ∧ (∀ name, loaded.macroBody name = assembler.macroBody name)
    ∧ ∀ name, absolute loaded.syHash name = absolute assembler.syHash name

/-- What the file can hold. -/
structure Dumpable (endian : Endian) (assembler : Assembler word) : Prop where
  macros : assembler.macroBody CString.empty = none
  symbols : absolute assembler.syHash CString.empty = none
  values : ∀ name value, absolute assembler.syHash name = some value → Kept endian value

theorem sLoad_sDump {assembler : Assembler word} (dumpable : Dumpable endian assembler) :
    ∃ loaded, sLoad endian .fresh (sDump endian assembler) = some loaded ∧ Same loaded assembler := by
  obtain ⟨maHash, macros, findsMacro⟩ := loadMacros_dump assembler.maHash.hashTraverse
    (assembler.syHash.hashTraverse.flatMap (fun entry => writeSymbol endian entry.string entry.data) ++ [0]) []
    .new assembler.maHash.hashTraverse_nodup (by
      intro entry inside
      refine ⟨?_, rfl⟩
      intro empty
      have found := (macros_visited assembler.maHash).mpr ⟨entry, inside, val_eq_nil.mp empty, rfl⟩
      have none := dumpable.macros
      rw [Assembler.macroBody, found] at none
      cases none)
  obtain ⟨syHash, symbols, findsSymbol⟩ := loadSymbols_dump endian assembler.syHash.hashTraverse .new
    assembler.syHash.hashTraverse_nodup (by
      intro entry inside
      refine ⟨?_, rfl⟩
      intro isAbs empty
      have found := absolute_visited.mpr ⟨entry, inside, val_eq_nil.mp empty, isAbs, rfl⟩
      rw [dumpable.symbols] at found
      cases found)
  refine ⟨⟨maHash, syHash, []⟩, ?_, rfl, ?_, ?_⟩
  · show (loadMacros .new [] _ >>= _) = _
    rw [sDump, macros]
    show (loadSymbols endian .new _ >>= _) = _
    rw [symbols]
    rfl
  · intro name
    apply Option.ext
    intro value
    show maHash.find name = some value ↔ assembler.maHash.find name = some value
    rw [findsMacro, ← macros_visited assembler.maHash, HashControl.find_new]
    simp
  · intro name
    apply Option.ext
    intro value
    have new : absolute (HashControl.new : HashControl (Symbol word)) name = none := rfl
    rw [findsSymbol, new, absolute_visited]
    constructor
    · rintro (⟨entry, inside, string, isAbs, is⟩ | none)
      · have kept := dumpable.values _ _ (absolute_visited.mpr ⟨entry, inside, rfl, isAbs, rfl⟩)
        rw [restored_eq_iff.mpr kept] at is
        exact ⟨entry, inside, string, isAbs, is⟩
      · cases none
    · rintro ⟨entry, inside, string, isAbs, is⟩
      have kept := dumpable.values _ _ (absolute_visited.mpr ⟨entry, inside, rfl, isAbs, rfl⟩)
      exact .inl ⟨entry, inside, string, isAbs, by rw [restored_eq_iff.mpr kept, is]⟩

theorem sLoad_dumpable {file : Text} {loaded : Assembler word}
    (is : sLoad endian .fresh file = some loaded) : Dumpable endian loaded := by
  unfold sLoad at is
  obtain ⟨⟨maHash, messages, rest⟩, macros, is⟩ := Option.bind_eq_some_iff.mp is
  obtain ⟨syHash, symbols, is⟩ := Option.bind_eq_some_iff.mp is
  cases is
  have kept := loadSymbols_kept endian .new rest (fun key symbol found => by cases found) symbols
  refine ⟨loadMacros_empty .new [] file rfl macros, ?_, ?_⟩
  · rw [absolute, Option.bind_eq_none_iff]
    intro symbol found
    exact absurd rfl (kept _ symbol found).1
  · intro name value found
    obtain ⟨symbol, there, _, rfl⟩ := absolute_eq_some.mp found
    exact (kept name symbol there).2

/-- `.set a,0x100000000` -/
def wideSymbol : Assembler .w64 where
  maHash := .new
  syHash := HashControl.new.hashJam ⟨ascii "a", by decide⟩ ⟨nAbs, 0, 0, 0x100000000, 0⟩
  messages := []

end Cctools.Read
