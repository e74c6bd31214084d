/-
# Cctools.LinkEdit.StringPool -- the string pool, in buffers of 16 MB

`StringPoolAtom` of LinkEditClassic.hpp puts strings with their terminators one behind
another.  A string that reaches the end of the buffer is split, and its rest goes to the
next buffer.

A string whose terminator is the last byte of a buffer is continued behind its terminator,
and a string that is split cannot be read back from the one buffer it begins in.  So the
pool is faithful exactly while it has one buffer: `runCalls_faithful_iff`.  What it writes
is right for longer, as long as no call reads too far: `runCalls_contents`.
-/
import Cctools.Theory.BitField
import Mathlib.Data.List.Basic
import Mathlib.Data.List.Forall2
import Mathlib.Data.Nat.Bitwise
import Mathlib.Tactic.Common

namespace Cctools.LinkEdit

set_option autoImplicit false

/-! ## The pool -/

/-- The bytes of a C string, without its terminator. -/
abbrev CText := { text : List UInt8 // 0 ∉ text }

def kBufferSize : Nat := 0x01000000

/-- `StringPoolAtom`: the used part of its buffers. -/
structure StringPool where
  wide : Bool
  fullBuffers : List (List UInt8)
  currentBuffer : List UInt8
  uniqueStrings : List (CText × Int)
  skipUniquing : Bool

/-- A value stored in an `int32_t`. -/
def int32 (value : Nat) : Int := Int.bmod value (2 ^ 32)

namespace StringPool

def pointerSize (pool : StringPool) : Nat := if pool.wide then 8 else 4

/-- The constructor: offset 0 is no string, offset 1 is the empty string. -/
def create (wide skipUniquing : Bool) : StringPool := ⟨wide, [], [32, 0], [], skipUniquing⟩

/-- `kBufferSize * _fullBuffers.size() + _currentBufferUsed` -/
def used (pool : StringPool) : Nat := kBufferSize * pool.fullBuffers.length + pool.currentBuffer.length

/-- `size`: the mask has 32 bits. -/
def size (pool : StringPool) : Nat := (pool.used + pool.pointerSize - 1) &&& (2 ^ 32 - pool.pointerSize)

/-- What is in the buffers. -/
def contents (pool : StringPool) : List UInt8 := pool.fullBuffers.flatten ++ pool.currentBuffer

/-- The loop that fills up with zeros. -/
def padding (pointerSize used : Nat) : List UInt8 := List.replicate ((pointerSize - used % pointerSize) % pointerSize) 0

def copyRawContent (pool : StringPool) : List UInt8 := pool.contents ++ padding pool.pointerSize pool.contents.length

/-- The text fits behind what is used, and a byte is left. -/
def Fits (pool : StringPool) (text : List UInt8) : Prop :=
  pool.currentBuffer.length + (text.length + 1) < kBufferSize

instance (pool : StringPool) (text : List UInt8) : Decidable (pool.Fits text) := inferInstanceAs (Decidable (_ < _))

/-- The bytes copied of a text that does not fit, but for the last. -/
def copied (pool : StringPool) : Nat := kBufferSize - pool.currentBuffer.length - 1

/-- `str[copied]`: the terminator is the byte behind the text. -/
def lastByte (pool : StringPool) (text : List UInt8) : UInt8 := (text ++ [0]).getD pool.copied 0

def fillBuffer (pool : StringPool) (text : List UInt8) : StringPool :=
  { pool with
    fullBuffers := pool.fullBuffers ++ [pool.currentBuffer ++ text.take pool.copied ++ [pool.lastByte text]]
    currentBuffer := [] }

/-- `add`: the pool afterwards, or `none` if bytes behind the terminator are read, as when
`&str[copied+1]` points there. -/
def append (pool : StringPool) (text : List UInt8) : Option StringPool :=
  if pool.Fits text then some { pool with currentBuffer := pool.currentBuffer ++ text ++ [0] }
  else if text.length < pool.copied + 1 then none
  else (pool.fillBuffer text).append (text.drop (pool.copied + 1))
termination_by text.length
decreasing_by
  rw [List.length_drop]
  omega

/-- `add` -/
def add (pool : StringPool) (text : CText) : Option (Int × StringPool) :=
  (pool.append text.1).map fun after => (int32 pool.used, after)

/-- `addUnique` -/
def addUnique (pool : StringPool) (text : CText) : Option (Int × StringPool) :=
  if pool.skipUniquing then pool.add text
  else
    match pool.uniqueStrings.lookup text with
    | some offset => some (offset, pool)
    | none => (pool.add text).map fun (offset, after) =>
      (offset, { after with uniqueStrings := (text, offset) :: after.uniqueStrings })

/-- The C string at the head of some bytes, if it ends there. -/
def cString (bytes : List UInt8) : Option (List UInt8) :=
  if 0 ∈ bytes then some (bytes.takeWhile (· ≠ 0)) else none

/-- `stringForIndex`: `none` if it is read past a buffer. -/
def stringForIndex (pool : StringPool) (index : Int) : Option (List UInt8) :=
  let currentBufferStartIndex := int32 (kBufferSize * pool.fullBuffers.length)
  let maxIndex := int32 pool.used
  if maxIndex < index then some []
  else if currentBufferStartIndex < index then
    cString (pool.currentBuffer.drop (index - currentBufferStartIndex).toNat)
  else
    let fullBufferIndex := index.toNat / kBufferSize
    match pool.fullBuffers[fullBufferIndex]? with
    | none => none
    | some buffer => cString (buffer.drop (index.toNat - kBufferSize * fullBufferIndex))

end StringPool

/-! ## Calls -/

structure PoolCall where
  unique : Bool
  text : CText
  deriving DecidableEq

def PoolCall.apply (call : PoolCall) (pool : StringPool) : Option (Int × StringPool) :=
  if call.unique then pool.addUnique call.text else pool.add call.text

/-- The offsets returned, and the pool at the end. -/
def runCalls : StringPool → List PoolCall → Option (List Int × StringPool)
  | pool, [] => some ([], pool)
  | pool, call :: calls => do
      let (offset, pool) ← call.apply pool
      let (offsets, pool) ← runCalls pool calls
      return (offset :: offsets, pool)

/-- The call adds its text: it is not looked up, or not found in `seen`. -/
def PoolCall.isNew (skipUniquing : Bool) (seen : List CText) (call : PoolCall) : Bool :=
  !call.unique || skipUniquing || !seen.contains call.text

/-- The texts that have to be added. -/
def newTexts (skipUniquing : Bool) : List CText → List PoolCall → List CText
  | _, [] => []
  | seen, call :: calls =>
    let seen' := if call.unique then call.text :: seen else seen
    if call.isNew skipUniquing seen then call.text :: newTexts skipUniquing seen' calls
    else newTexts skipUniquing seen' calls

/-- Texts with their terminators. -/
def terminated (texts : List CText) : List UInt8 := texts.flatMap fun text => text.1 ++ [0]

/-- The bytes at the offset, which is not 0, are the text with its terminator. -/
def StartsAt (bytes : List UInt8) (offset : Int) (text : CText) : Prop :=
  0 < offset ∧ (text.1 ++ [0]) <+: bytes.drop offset.toNat

/-- What the pool is for: no call reads too far, the bytes are those of the new texts, each
offset is that of its text, in the bytes and for `stringForIndex`, and a text that is made
unique has one offset. -/
structure FaithfulRun (wide skipUniquing : Bool) (calls : List PoolCall) (offsets : List Int) (pool : StringPool) :
    Prop where
  run : runCalls (StringPool.create wide skipUniquing) calls = some (offsets, pool)
  bytes : pool.copyRawContent = [32, 0] ++ terminated (newTexts skipUniquing [] calls) ++
    StringPool.padding pool.pointerSize (2 + (terminated (newTexts skipUniquing [] calls)).length)
  size : pool.size = pool.copyRawContent.length
  starts : List.Forall₂ (fun call offset => StartsAt pool.copyRawContent offset call.text) calls offsets
  strings : List.Forall₂ (fun call offset => pool.stringForIndex offset = some call.text.1) calls offsets
  uniqued : skipUniquing = false → (calls.zip offsets).Pairwise fun first second =>
    first.1.unique = true → second.1 = first.1 → second.2 = first.2

namespace StringPool

/-! ## Bytes and offsets -/

theorem int32_eq {value : Nat} (small : value < 2 ^ 31) : int32 value = value := by
  unfold int32
  rw [Int.bmod_eq_of_le] <;> omega

/-- Full buffers are full, and the current one is not. -/
structure Whole (pool : StringPool) : Prop where
  full : ∀ buffer ∈ pool.fullBuffers, buffer.length = kBufferSize
  current : pool.currentBuffer.length < kBufferSize
  started : 0 < pool.contents.length

theorem length_flatten_of_const {α : Type} {n : Nat} {lists : List (List α)} (const : ∀ list ∈ lists, list.length = n) :
    lists.flatten.length = n * lists.length := by
  induction lists with
  | nil => rfl
  | cons list lists ih =>
    rw [List.flatten_cons, List.length_append, const list List.mem_cons_self,
      ih fun other there => const other (List.mem_cons_of_mem _ there), List.length_cons, Nat.mul_succ, Nat.add_comm]

variable {pool : StringPool}

theorem Whole.used_eq (whole : pool.Whole) : pool.used = pool.contents.length := by
  rw [used, contents, List.length_append, length_flatten_of_const whole.full]

theorem create_whole (wide skipUniquing : Bool) : (create wide skipUniquing).Whole where
  full := nofun
  current := by
    show 2 < kBufferSize
    decide
  started := Nat.succ_pos 1

/-- What a call leaves alone: it only adds buffers, and bytes behind those there are. -/
structure Extends (pool after : StringPool) : Prop where
  wide : after.wide = pool.wide
  skipUniquing : after.skipUniquing = pool.skipUniquing
  full : pool.fullBuffers <+: after.fullBuffers
  contents : pool.contents <+: after.contents

theorem Extends.refl (pool : StringPool) : Extends pool pool := ⟨rfl, rfl, List.prefix_refl _, List.prefix_refl _⟩

theorem Extends.trans {first second third : StringPool} (one : Extends first second) (two : Extends second third) :
    Extends first third :=
  ⟨two.wide.trans one.wide, two.skipUniquing.trans one.skipUniquing, one.full.trans two.full,
    one.contents.trans two.contents⟩

variable {text : List UInt8}

theorem lastByte_eq (long : pool.copied < text.length) :
    pool.lastByte text = text[pool.copied] := by
  rw [lastByte, List.getD_eq_getElem?_getD, List.getElem?_append_left long, List.getElem?_eq_getElem long,
    Option.getD_some]

theorem fillBuffer_contents (long : pool.copied < text.length) :
    (pool.fillBuffer text).contents = pool.contents ++ text.take (pool.copied + 1) := by
  rw [contents, fillBuffer, lastByte_eq long, contents, ← List.take_append_getElem long]
  simp

theorem fillBuffer_whole (whole : pool.Whole) (long : pool.copied ≤ text.length) :
    (pool.fillBuffer text).Whole where
  full := by
    intro buffer there
    rcases List.mem_append.1 there with there | single
    · exact whole.full buffer there
    · obtain rfl := List.mem_singleton.1 single
      have current := whole.current
      have copied_eq : pool.copied = kBufferSize - pool.currentBuffer.length - 1 := rfl
      rw [List.length_append, List.length_append, List.length_take_of_le long, List.length_singleton]
      omega
  current := by
    show 0 < kBufferSize
    decide
  started := by
    simp [fillBuffer, contents]

theorem append_spec {pool after : StringPool} (whole : pool.Whole) (ok : pool.append text = some after) :
    after.contents = pool.contents ++ text ++ [0] ∧ after.Whole ∧ Extends pool after ∧
      after.uniqueStrings = pool.uniqueStrings := by
  induction pool, text using append.induct with
  | case1 pool text fits =>
    rw [append, if_pos fits] at ok
    obtain rfl := Option.some.inj ok
    refine ⟨?_, ⟨whole.full, ?_, by simp [contents]⟩, ⟨rfl, rfl, List.prefix_refl _, ?_⟩, rfl⟩
    · simp [contents]
    · unfold Fits at fits
      simp only [List.length_append, List.length_singleton]
      omega
    · exact ⟨text ++ [0], by simp [contents]⟩
  | case2 pool text full past => simp [append, full, past] at ok
  | case3 pool text full further ih =>
    rw [append, if_neg full, if_neg further] at ok
    have long : pool.copied < text.length := by omega
    obtain ⟨bytes, afterWhole, extends_, unique⟩ := ih (fillBuffer_whole whole long.le) ok
    rw [fillBuffer_contents long] at bytes
    refine ⟨?_, afterWhole, ⟨extends_.wide, extends_.skipUniquing, (List.prefix_append _ _).trans extends_.full, ?_⟩,
      unique⟩
    · rw [bytes, List.append_assoc pool.contents, List.take_append_drop]
    · rw [bytes]
      exact ⟨text.take (pool.copied + 1) ++ (text.drop (pool.copied + 1) ++ [0]), by simp only [List.append_assoc]⟩

end StringPool

variable {offset : Int}

theorem StartsAt.mono {bytes longer : List UInt8} {text : CText} (starts : StartsAt bytes offset text)
    (grown : bytes <+: longer) : StartsAt longer offset text := by
  obtain ⟨rest, rfl⟩ := grown
  refine ⟨starts.1, starts.2.trans ?_⟩
  rw [List.drop_append]
  exact List.prefix_append _ _

namespace StringPool

/-! ## One call -/

/-- The offsets that are kept are those of their texts. -/
def Placed (pool : StringPool) : Prop :=
  ∀ text offset, pool.uniqueStrings.lookup text = some offset → StartsAt pool.contents offset text

/-- The texts that are kept. -/
def keys (pool : StringPool) : List CText := pool.uniqueStrings.map Prod.fst

/-- What a call does to a pool. -/
structure Called (pool : StringPool) (call : PoolCall) (offset : Int) (after : StringPool) : Prop where
  whole : after.Whole
  extends_ : Extends pool after
  contents : after.contents = pool.contents ++
    if call.isNew pool.skipUniquing pool.keys then call.text.1 ++ [0] else []
  kept : ∀ text known, pool.uniqueStrings.lookup text = some known → after.uniqueStrings.lookup text = some known
  looked : pool.skipUniquing = false → call.unique = true → after.uniqueStrings.lookup call.text = some offset
  keys : pool.skipUniquing = false → ∀ text, text ∈ after.keys ↔
    text ∈ pool.keys ∨ call.unique = true ∧ text = call.text
  starts : pool.Placed → after.contents.length < 2 ^ 31 → StartsAt after.contents offset call.text ∧ after.Placed

theorem lookup_none_iff {pool : StringPool} {text : CText} :
    pool.uniqueStrings.lookup text = none ↔ text ∉ pool.keys := by
  rw [List.lookup_eq_none_iff, keys, List.mem_map]
  constructor
  · rintro apart ⟨entry, there, rfl⟩
    exact absurd (apart entry there) (by simp)
  · intro apart entry there
    rw [bne_iff_ne]
    rintro rfl
    exact apart ⟨entry, there, rfl⟩

variable {pool after : StringPool} {offset : Int}

theorem add_spec {text : CText} (whole : pool.Whole) (ok : pool.add text = some (offset, after)) :
    after.contents = pool.contents ++ text.1 ++ [0] ∧ after.Whole ∧ Extends pool after ∧
      after.uniqueStrings = pool.uniqueStrings ∧
      (after.contents.length < 2 ^ 31 → StartsAt after.contents offset text) := by
  obtain ⟨appended, inBuffers, same⟩ := Option.map_eq_some_iff.1 ok
  obtain ⟨rfl, rfl⟩ := Prod.mk.inj same
  obtain ⟨bytes, afterWhole, extends_, unique⟩ := append_spec whole inBuffers
  refine ⟨bytes, afterWhole, extends_, unique, fun small => ?_⟩
  rw [bytes, List.length_append, List.length_append] at small
  rw [int32_eq (by rw [whole.used_eq]; omega), whole.used_eq, bytes, List.append_assoc]
  refine ⟨Int.natCast_pos.2 whole.started, ?_⟩
  simp only [Int.toNat_natCast, List.drop_left, List.prefix_refl]

variable {call : PoolCall}

theorem called_of_add (whole : pool.Whole)
    (ok : pool.add call.text = some (offset, after)) (mode : call.unique = false ∨ pool.skipUniquing = true) :
    Called pool call offset after := by
  obtain ⟨bytes, afterWhole, extends_, unique, starts⟩ := add_spec whole ok
  have new : call.isNew pool.skipUniquing pool.keys = true := by
    rcases mode with plain | skip
    · simp [PoolCall.isNew, plain]
    · simp [PoolCall.isNew, skip]
  have notLooked : pool.skipUniquing = false → call.unique ≠ true := by
    rcases mode with plain | skip
    · exact fun _ => by simp [plain]
    · exact fun unskipped => absurd (skip.symm.trans unskipped) (by decide)
  exact {
    whole := afterWhole
    extends_ := extends_
    contents := by rw [if_pos new, bytes, List.append_assoc]
    kept := fun _ _ known => unique ▸ known
    looked := fun unskipped isUnique => absurd isUnique (notLooked unskipped)
    keys := fun unskipped text => by
      rw [StringPool.keys, unique]
      exact ⟨Or.inl, fun either => either.resolve_right fun isUnique => notLooked unskipped isUnique.1⟩
    starts := fun placed small =>
      ⟨starts small, fun text known there => (placed text known (unique ▸ there)).mono extends_.contents⟩ }

theorem called_of_known {pool : StringPool} (whole : pool.Whole)
    (unique : call.unique = true) (unskipped : pool.skipUniquing = false)
    (known : pool.uniqueStrings.lookup call.text = some offset) : Called pool call offset pool := by
  have there : call.text ∈ pool.keys := by
    by_contra absent
    rw [lookup_none_iff.2 absent] at known
    cases known
  have old : call.isNew pool.skipUniquing pool.keys = false := by
    simp [PoolCall.isNew, unique, unskipped, there]
  exact {
    whole := whole
    extends_ := Extends.refl pool
    contents := by rw [old]; simp
    kept := fun _ _ same => same
    looked := fun _ _ => known
    keys := fun _ text => ⟨Or.inl, fun either => either.elim id fun same => same.2 ▸ there⟩
    starts := fun placed _ => ⟨placed _ _ known, placed⟩ }

/-- A text that is looked up and not found is added and kept. -/
theorem called_of_unknown (whole : pool.Whole)
    (unique : call.unique = true) (unknown : pool.uniqueStrings.lookup call.text = none)
    (ok : pool.add call.text = some (offset, after)) :
    Called pool call offset { after with uniqueStrings := (call.text, offset) :: after.uniqueStrings } := by
  obtain ⟨bytes, afterWhole, extends_, same, starts⟩ := add_spec whole ok
  have absent : call.text ∉ pool.keys := lookup_none_iff.1 unknown
  have new : call.isNew pool.skipUniquing pool.keys = true := by simp [PoolCall.isNew, absent]
  have lookup_other : ∀ text, text ≠ call.text →
      ((call.text, offset) :: after.uniqueStrings).lookup text = pool.uniqueStrings.lookup text := by
    intro text differ
    rw [List.lookup_cons, beq_eq_false_iff_ne.2 differ, same]
  refine ⟨⟨afterWhole.full, afterWhole.current, afterWhole.started⟩,
    ⟨extends_.wide, extends_.skipUniquing, extends_.full, extends_.contents⟩, ?_, ?_, fun _ _ => List.lookup_cons_self,
    ?_, ?_⟩
  · rw [if_pos new, ← List.append_assoc]
    exact bytes
  · intro text known there
    refine (lookup_other text ?_).trans there
    rintro rfl
    rw [unknown] at there
    cases there
  · intro _ text
    rw [StringPool.keys, List.map_cons, List.mem_cons, same, or_comm, and_iff_right unique]
    exact Iff.rfl
  · intro placed small
    refine ⟨starts small, fun text known there => ?_⟩
    by_cases isText : text = call.text
    · subst isText
      obtain rfl := Option.some.inj (List.lookup_cons_self.symm.trans there)
      exact starts small
    · exact (placed text known ((lookup_other text isText).symm.trans there)).mono extends_.contents

theorem apply_called (whole : pool.Whole)
    (ok : call.apply pool = some (offset, after)) : Called pool call offset after := by
  unfold PoolCall.apply addUnique at ok
  split at ok
  · rename_i unique
    split at ok
    · rename_i skip
      exact called_of_add whole ok (Or.inr skip)
    · rename_i unskipped
      split at ok
      · rename_i old known
        obtain ⟨rfl, rfl⟩ := Prod.mk.inj (Option.some.inj ok)
        exact called_of_known whole unique (Bool.eq_false_iff.2 unskipped) known
      · rename_i unknown
        obtain ⟨⟨start, added⟩, adds, same⟩ := Option.map_eq_some_iff.1 ok
        obtain ⟨rfl, rfl⟩ := Prod.mk.inj same
        exact called_of_unknown whole unique unknown adds
  · rename_i plain
    exact called_of_add whole ok (Or.inl (Bool.eq_false_iff.2 plain))

end StringPool

/-! ## Runs -/

open StringPool

variable {call : PoolCall}

theorem runCalls_cons {pool final : StringPool} {calls : List PoolCall} {offsets : List Int}
    (run : runCalls pool (call :: calls) = some (offsets, final)) :
    ∃ offset after others, call.apply pool = some (offset, after) ∧ runCalls after calls = some (others, final) ∧
      offsets = offset :: others := by
  obtain ⟨⟨offset, after⟩, first, run⟩ := Option.bind_eq_some_iff.1 run
  obtain ⟨⟨others, last⟩, rest, run⟩ := Option.bind_eq_some_iff.1 run
  obtain ⟨rfl, rfl⟩ := Prod.mk.inj (Option.some.inj run)
  exact ⟨offset, after, others, first, rest, rfl⟩

theorem runCalls_extends (calls : List PoolCall) : ∀ {pool final : StringPool} {offsets : List Int}, pool.Whole →
    runCalls pool calls = some (offsets, final) → final.Whole ∧ Extends pool final := by
  induction calls with
  | nil =>
    intro pool final offsets whole run
    obtain ⟨-, rfl⟩ := Prod.mk.inj (Option.some.inj run)
    exact ⟨whole, Extends.refl pool⟩
  | cons call calls ih =>
    intro pool final offsets whole run
    obtain ⟨offset, after, others, first, rest, -⟩ := runCalls_cons run
    have called := apply_called whole first
    obtain ⟨finalWhole, extends_⟩ := ih called.whole rest
    exact ⟨finalWhole, called.extends_.trans extends_⟩

/-- The texts seen are those the pool keeps. -/
def Seen (pool : StringPool) (seen : List CText) : Prop :=
  pool.skipUniquing = false → ∀ text, text ∈ seen ↔ text ∈ pool.keys

theorem isNew_eq {pool : StringPool} {seen : List CText} (same : Seen pool seen) (call : PoolCall) :
    call.isNew pool.skipUniquing pool.keys = call.isNew pool.skipUniquing seen := by
  cases skip : pool.skipUniquing with
  | true => simp [PoolCall.isNew]
  | false =>
    have there := same skip call.text
    simp only [PoolCall.isNew, Bool.or_false]
    congr 1
    rw [Bool.eq_iff_iff, Bool.not_eq_true', Bool.not_eq_true', ← Bool.not_eq_true, ← Bool.not_eq_true,
      List.contains_iff_mem, List.contains_iff_mem, there]

variable {pool after : StringPool}

theorem Seen.next {seen : List CText} (same : Seen pool seen)
    (called : Called pool call offset after) : Seen after (if call.unique then call.text :: seen else seen) := by
  intro skip text
  rw [called.extends_.skipUniquing] at skip
  rw [called.keys skip text, ← same skip text]
  cases call.unique with
  | true => simp [or_comm]
  | false => simp

/-- What is written by a run that reads no byte too many: the new texts, in order. -/
theorem runCalls_contents (calls : List PoolCall) : ∀ {pool final : StringPool} {offsets : List Int}
    {seen : List CText}, pool.Whole → Seen pool seen → runCalls pool calls = some (offsets, final) →
      final.contents = pool.contents ++ terminated (newTexts pool.skipUniquing seen calls) := by
  induction calls with
  | nil =>
    intro pool final offsets seen whole same run
    obtain ⟨-, rfl⟩ := Prod.mk.inj (Option.some.inj run)
    simp [newTexts, terminated]
  | cons call calls ih =>
    intro pool final offsets seen whole same run
    obtain ⟨offset, after, others, first, rest, -⟩ := runCalls_cons run
    have called := apply_called whole first
    rw [ih called.whole (same.next called) rest, called.contents, called.extends_.skipUniquing, isNew_eq same, newTexts]
    by_cases new : call.isNew pool.skipUniquing seen = true
    · simp [new, terminated]
    · simp [new]

/-- The offsets of such a run: each is that of its text, and a text that is made unique has
the one that is kept. -/
theorem runCalls_offsets (calls : List PoolCall) : ∀ {pool final : StringPool} {offsets : List Int}, pool.Whole →
    pool.Placed → runCalls pool calls = some (offsets, final) → final.contents.length < 2 ^ 31 →
      List.Forall₂ (fun call offset => StartsAt final.contents offset call.text ∧
        (pool.skipUniquing = false → call.unique = true → final.uniqueStrings.lookup call.text = some offset))
        calls offsets ∧
      ∀ text known, pool.uniqueStrings.lookup text = some known → final.uniqueStrings.lookup text = some known := by
  induction calls with
  | nil =>
    intro pool final offsets whole placed run small
    obtain ⟨rfl, rfl⟩ := Prod.mk.inj (Option.some.inj run)
    exact ⟨List.Forall₂.nil, fun _ _ known => known⟩
  | cons call calls ih =>
    intro pool final offsets whole placed run small
    obtain ⟨offset, after, others, first, rest, rfl⟩ := runCalls_cons run
    have called := apply_called whole first
    have grown := (runCalls_extends calls called.whole rest).2.contents
    obtain ⟨starts, afterPlaced⟩ := called.starts placed (grown.length_le.trans_lt small)
    obtain ⟨each, kept⟩ := ih called.whole afterPlaced rest small
    rw [called.extends_.skipUniquing] at each
    exact ⟨List.Forall₂.cons ⟨starts.mono grown, fun skip unique => kept _ _ (called.looked skip unique)⟩ each,
      fun text known there => kept _ _ (called.kept text known there)⟩

/-! ## Sizes -/

theorem and_mask32 (n k : Nat) (mask : BitVec 32) (small : n < 2 ^ 32) (high : mask = BitVec.allOnes 32 <<< k) :
    n &&& mask.toNat = n / 2 ^ k * 2 ^ k := by
  have rounded := Theory.BitField.toNat_and_high (BitVec.ofNat 32 n) mask high
  rwa [BitVec.toNat_and, BitVec.toNat_ofNat, Nat.mod_eq_of_lt small] at rounded

theorem size_eq {pool : StringPool} (whole : pool.Whole) (small : pool.contents.length < 2 ^ 31) :
    pool.size = pool.copyRawContent.length := by
  rw [StringPool.size, copyRawContent, List.length_append, padding, List.length_replicate, whole.used_eq, pointerSize]
  cases pool.wide with
  | true =>
    have mask := and_mask32 (pool.contents.length + 8 - 1) 3 (-8) (by omega) (by decide)
    simp only [if_true]
    rw [show 2 ^ 32 - 8 = (-8 : BitVec 32).toNat from rfl, mask]
    omega
  | false =>
    have mask := and_mask32 (pool.contents.length + 4 - 1) 2 (-4) (by omega) (by decide)
    simp only [Bool.false_eq_true, if_false]
    rw [show 2 ^ 32 - 4 = (-4 : BitVec 32).toNat from rfl, mask]
    omega

/-! ## One buffer -/

/-- A text with its terminator is what the C string there is. -/
theorem cString_of_prefix {bytes : List UInt8} {text : CText} (starts : (text.1 ++ [0]) <+: bytes) :
    cString bytes = some text.1 := by
  obtain ⟨rest, rfl⟩ := starts
  have there : (0 : UInt8) ∈ text.1 ++ [0] ++ rest := by simp
  rw [cString, if_pos there, List.append_assoc, List.takeWhile_append_of_pos]
  · simp
  · intro byte inText
    simp only [ne_eq, decide_not, Bool.not_eq_true', decide_eq_false_iff_not]
    rintro rfl
    exact text.2 inText

theorem stringForIndex_of_starts {pool : StringPool} (single : pool.fullBuffers = []) (whole : pool.Whole) {text : CText}
    (starts : StartsAt pool.contents offset text) : pool.stringForIndex offset = some text.1 := by
  have positive := starts.1
  have contents_eq : pool.contents = pool.currentBuffer := by simp [contents, single]
  have used_eq : pool.used = pool.currentBuffer.length := by simp [used, single]
  have small : pool.currentBuffer.length < 2 ^ 31 := whole.current.trans (by decide)
  rw [contents_eq] at starts
  have before : offset.toNat < pool.currentBuffer.length := by
    have := starts.2.length_le
    rw [List.length_append, List.length_singleton, List.length_drop] at this
    omega
  have start : int32 (kBufferSize * pool.fullBuffers.length) = 0 := by
    rw [single]
    rfl
  rw [stringForIndex, start, used_eq, int32_eq small, if_neg (by omega), if_pos positive]
  exact cString_of_prefix (by rw [Int.sub_zero]; exact starts.2)

/-- A string that was split is not read back: the part in its buffer has no terminator. -/
theorem stringForIndex_of_split {pool : StringPool} (whole : pool.Whole) (small : pool.contents.length < 2 ^ 31)
    {first text : List UInt8} (noZero : 0 ∉ text) (nonempty : text ≠ []) (there : [first ++ text] <+: pool.fullBuffers) :
    pool.stringForIndex first.length = none := by
  obtain ⟨rest, buffers⟩ := there
  have length : first.length + text.length = kBufferSize := by
    rw [← List.length_append]
    exact whole.full _ (buffers ▸ List.mem_cons_self)
  have textPos : 0 < text.length := List.length_pos_of_ne_nil nonempty
  have count : kBufferSize * pool.fullBuffers.length = kBufferSize + kBufferSize * rest.length := by
    rw [← buffers, List.singleton_append, List.length_cons, Nat.mul_succ, Nat.add_comm]
  have bound : kBufferSize * pool.fullBuffers.length ≤ pool.used := Nat.le_add_right _ _
  rw [whole.used_eq] at bound
  rw [stringForIndex, whole.used_eq, int32_eq small, int32_eq (by omega), if_neg (by omega), if_neg (by omega)]
  have index : (first.length : Int).toNat / kBufferSize = 0 := by
    rw [Int.toNat_natCast]
    exact Nat.div_eq_of_lt (by omega)
  have buffer : pool.fullBuffers[(first.length : Int).toNat / kBufferSize]? = some (first ++ text) := by
    rw [index, ← buffers]
    rfl
  dsimp only
  rw [buffer, index]
  show cString ((first ++ text).drop first.length) = none
  rw [List.drop_left, cString, if_neg noZero]

/-! ## How much the new texts take -/

/-- The bytes that a call adds. -/
def PoolCall.added (call : PoolCall) (pool : StringPool) : Nat :=
  if call.isNew pool.skipUniquing pool.keys then call.text.1.length + 1 else 0

theorem terminated_cons {pool : StringPool} {seen : List CText} (same : Seen pool seen) (call : PoolCall)
    (calls : List PoolCall) : (terminated (newTexts pool.skipUniquing seen (call :: calls))).length = call.added pool +
      (terminated (newTexts pool.skipUniquing (if call.unique then call.text :: seen else seen) calls)).length := by
  rw [newTexts, PoolCall.added, isNew_eq same]
  by_cases new : call.isNew pool.skipUniquing seen = true
  · simp only [new, if_true, terminated, List.flatMap_cons, List.length_append, List.length_singleton]
  · simp only [new, Bool.false_eq_true, if_false, Nat.zero_add]

/-- A call that finds room: the pool still has one buffer. -/
theorem apply_fits {pool : StringPool} (single : pool.fullBuffers = []) (call : PoolCall)
    (room : pool.currentBuffer.length + call.added pool < kBufferSize) :
    ∃ offset after, call.apply pool = some (offset, after) ∧ after.fullBuffers = [] := by
  by_cases new : call.isNew pool.skipUniquing pool.keys = true
  · rw [PoolCall.added, if_pos new] at room
    have fits : pool.Fits call.text.1 := room
    have adds : pool.add call.text = some (int32 pool.used,
        { pool with currentBuffer := pool.currentBuffer ++ call.text.1 ++ [0] }) := by
      rw [add, append, if_pos fits, Option.map_some]
    unfold PoolCall.apply addUnique
    split
    · split
      · exact ⟨_, _, adds, single⟩
      · split
        · rename_i offset known
          exact ⟨offset, pool, rfl, single⟩
        · rw [adds]
          exact ⟨_, _, rfl, single⟩
    · exact ⟨_, _, adds, single⟩
  · -- the text is looked up and found
    simp only [PoolCall.isNew, Bool.or_eq_true, Bool.not_eq_true', not_or, Bool.not_eq_false,
      List.contains_iff_mem] at new
    obtain ⟨⟨unique, unskipped⟩, there⟩ := new
    cases known : pool.uniqueStrings.lookup call.text with
    | none => exact absurd there (lookup_none_iff.1 known)
    | some offset =>
      refine ⟨offset, pool, ?_, single⟩
      rw [PoolCall.apply, if_pos unique, addUnique, if_neg unskipped, known]

theorem runCalls_fits (calls : List PoolCall) : ∀ {pool : StringPool} {seen : List CText}, pool.fullBuffers = [] →
    pool.Whole → Seen pool seen →
    pool.currentBuffer.length + (terminated (newTexts pool.skipUniquing seen calls)).length < kBufferSize →
      ∃ offsets final, runCalls pool calls = some (offsets, final) ∧ final.fullBuffers = [] := by
  induction calls with
  | nil => exact fun {pool} _ single _ _ _ => ⟨[], pool, rfl, single⟩
  | cons call calls ih =>
    intro pool seen single whole same room
    rw [terminated_cons same] at room
    obtain ⟨offset, after, first, afterSingle⟩ := apply_fits single call (by omega)
    have called := apply_called whole first
    have grown : after.currentBuffer.length = pool.currentBuffer.length + call.added pool := by
      have bytes := congrArg List.length called.contents
      rw [contents, contents, afterSingle, single, List.length_append] at bytes
      rw [PoolCall.added]
      split at bytes <;> rename_i new <;> simp [new] at bytes ⊢ <;> omega
    obtain ⟨offsets, final, rest, finalSingle⟩ := ih afterSingle called.whole (same.next called) (by
      rw [called.extends_.skipUniquing, grown]
      omega)
    refine ⟨offset :: offsets, final, ?_, finalSingle⟩
    rw [runCalls, first]
    show (runCalls after calls).bind _ = _
    rw [rest]
    rfl

/-- A call whose text does not fit in the first buffer: the buffer has the head of the text. -/
theorem append_split {text : List UInt8} (single : pool.fullBuffers = []) (whole : pool.Whole)
    (full : ¬ pool.Fits text) (ok : pool.append text = some after) :
    ∃ head, head <+: text ∧ head ≠ [] ∧ [pool.currentBuffer ++ head] <+: after.fullBuffers := by
  rw [append, if_neg full] at ok
  split at ok
  · cases ok
  · rename_i further
    have long : pool.copied < text.length := by omega
    have extends_ := (append_spec (fillBuffer_whole whole long.le) ok).2.2.1
    refine ⟨text.take (pool.copied + 1), List.take_prefix _ _, ?_, ?_⟩
    · exact List.ne_nil_of_length_pos (by rw [List.length_take]; omega)
    · have buffers : (pool.fillBuffer text).fullBuffers = [pool.currentBuffer ++ text.take (pool.copied + 1)] := by
        rw [fillBuffer, single, lastByte_eq long, List.append_assoc, List.take_append_getElem]
        rfl
      exact buffers ▸ extends_.full

/-- A call changes the full buffers as `add` does, or not at all. -/
theorem apply_appends (ok : call.apply pool = some (offset, after)) : after.fullBuffers = pool.fullBuffers ∨
      ∃ split, pool.append call.text.1 = some split ∧ after.fullBuffers = split.fullBuffers ∧ offset = int32 pool.used := by
  have of_add : ∀ {offset : Int} {added : StringPool}, pool.add call.text = some (offset, added) →
      pool.append call.text.1 = some added ∧ offset = int32 pool.used := by
    intro offset added adds
    obtain ⟨split, ok, both⟩ := Option.map_eq_some_iff.1 adds
    obtain ⟨rfl, rfl⟩ := Prod.mk.inj both
    exact ⟨ok, rfl⟩
  unfold PoolCall.apply addUnique at ok
  split at ok
  · split at ok
    · exact Or.inr ⟨after, (of_add ok).1, rfl, (of_add ok).2⟩
    · split at ok
      · obtain ⟨-, rfl⟩ := Prod.mk.inj (Option.some.inj ok)
        exact Or.inl rfl
      · obtain ⟨⟨start, added⟩, adds, both⟩ := Option.map_eq_some_iff.1 ok
        obtain ⟨rfl, rfl⟩ := Prod.mk.inj both
        exact Or.inr ⟨added, (of_add adds).1, rfl, (of_add adds).2⟩
  · exact Or.inr ⟨after, (of_add ok).1, rfl, (of_add ok).2⟩

/-- If every string is read back at the end, the texts were put in one buffer. -/
theorem runCalls_needs (calls : List PoolCall) : ∀ {pool final : StringPool} {offsets : List Int} {seen : List CText},
    pool.fullBuffers = [] → pool.Whole → Seen pool seen → runCalls pool calls = some (offsets, final) →
    final.contents.length < 2 ^ 31 →
    List.Forall₂ (fun call offset => final.stringForIndex offset = some call.text.1) calls offsets →
      pool.currentBuffer.length + (terminated (newTexts pool.skipUniquing seen calls)).length < kBufferSize := by
  induction calls with
  | nil => exact fun {pool _ _ _} _ whole _ _ _ _ => whole.current
  | cons call calls ih =>
    intro pool final offsets seen single whole same run small strings
    obtain ⟨offset, after, others, first, rest, rfl⟩ := runCalls_cons run
    obtain ⟨firstString, otherStrings⟩ := List.forall₂_cons.1 strings
    have called := apply_called whole first
    have finalExtends := runCalls_extends calls called.whole rest
    suffices one : after.fullBuffers = [] by
      have behind := ih one called.whole (same.next called) rest small otherStrings
      have bytes := congrArg List.length called.contents
      rw [contents, contents, one, single, List.length_append] at bytes
      rw [terminated_cons same, PoolCall.added]
      rw [called.extends_.skipUniquing] at behind
      split at bytes <;> rename_i new <;> simp [new] at bytes ⊢ <;> omega
    -- otherwise the text of this call was split
    by_contra several
    obtain ⟨split, ok, buffers, start⟩ := (apply_appends first).resolve_left fun same => several (same.trans single)
    have full : ¬ pool.Fits call.text.1 := by
      intro fits
      rw [append, if_pos fits] at ok
      obtain rfl := Option.some.inj ok
      exact several (buffers.trans single)
    obtain ⟨head, inText, nonempty, there⟩ := append_split single whole full ok
    have used_eq : pool.used = pool.currentBuffer.length := by simp [used, single]
    have currentSmall : pool.currentBuffer.length < 2 ^ 31 := whole.current.trans (by decide)
    rw [start, used_eq, int32_eq currentSmall,
      stringForIndex_of_split finalExtends.1 small (fun zero => call.text.2 (inText.subset zero)) nonempty
        ((buffers ▸ there).trans finalExtends.2.full)] at firstString
    cases firstString

/-! ## The whole run -/

/-- What holds of a run that reads no byte too many: the bytes, the size, the offsets and
the unique ones. -/
theorem faithful_of_strings {wide skipUniquing : Bool} {calls : List PoolCall} {offsets : List Int} {final : StringPool}
    (small : 2 + (terminated (newTexts skipUniquing [] calls)).length < 2 ^ 31)
    (run : runCalls (create wide skipUniquing) calls = some (offsets, final))
    (strings : List.Forall₂ (fun call offset => final.stringForIndex offset = some call.text.1) calls offsets) :
    FaithfulRun wide skipUniquing calls offsets final := by
  have whole := create_whole wide skipUniquing
  have finalWhole := (runCalls_extends calls whole run).1
  have bytes : final.contents = [32, 0] ++ terminated (newTexts skipUniquing [] calls) :=
    runCalls_contents calls whole (fun _ _ => Iff.rfl) run
  have length : final.contents.length = 2 + (terminated (newTexts skipUniquing [] calls)).length := by
    rw [bytes, List.length_append]
    rfl
  have finalSmall : final.contents.length < 2 ^ 31 := length ▸ small
  have each := (runCalls_offsets calls whole nofun run finalSmall).1
  refine ⟨run, ?_, size_eq finalWhole finalSmall, ?_, strings, fun unskipped => ?_⟩
  · rw [copyRawContent, length, bytes]
  · exact each.imp fun call offset both => both.1.mono (List.prefix_append _ _)
  · have looked : ∀ both ∈ calls.zip offsets, both.1.unique = true →
        final.uniqueStrings.lookup both.1.text = some both.2 := fun both there =>
      (List.forall₂_iff_zip.1 each).2 there |>.2 unskipped
    refine (List.pairwise_of_forall_mem_list (r := fun _ _ => True) fun _ _ _ _ => trivial).imp_of_mem ?_
    intro first second firstThere secondThere _ unique same
    have one := looked first firstThere unique
    have two := looked second secondThere (same ▸ unique)
    rw [same, one] at two
    exact (Option.some.inj two).symm

/-- **The pool is faithful exactly when the new texts, with their terminators and the two
bytes at the start, are shorter than one buffer.** -/
theorem runCalls_faithful_iff (wide skipUniquing : Bool) (calls : List PoolCall)
    (small : 2 + (terminated (newTexts skipUniquing [] calls)).length < 2 ^ 31) :
    (∃ offsets pool, FaithfulRun wide skipUniquing calls offsets pool) ↔
      2 + (terminated (newTexts skipUniquing [] calls)).length < kBufferSize := by
  have whole := create_whole wide skipUniquing
  have same : Seen (create wide skipUniquing) [] := fun _ _ => Iff.rfl
  constructor
  · rintro ⟨offsets, final, faithful⟩
    have bytes := congrArg List.length (runCalls_contents calls whole same faithful.run)
    rw [List.length_append] at bytes
    have finalSmall : final.contents.length < 2 ^ 31 := bytes ▸ small
    exact runCalls_needs calls rfl whole same faithful.run finalSmall faithful.strings
  · intro room
    obtain ⟨offsets, final, run, single⟩ := runCalls_fits calls rfl whole same room
    refine ⟨offsets, final, faithful_of_strings small run ?_⟩
    have finalWhole := (runCalls_extends calls whole run).1
    have bytes := congrArg List.length (runCalls_contents calls whole same run)
    rw [List.length_append] at bytes
    have finalSmall : final.contents.length < 2 ^ 31 := bytes ▸ small
    have each := (runCalls_offsets calls whole nofun run finalSmall).1
    exact each.imp fun call offset both => stringForIndex_of_starts single finalWhole both.1

theorem runCalls_faithful_iff_two :
    (∃ offsets pool, FaithfulRun true false [⟨true, ⟨[97], by decide⟩⟩, ⟨true, ⟨[97], by decide⟩⟩] offsets pool) ↔
      2 + (terminated (newTexts false [] [⟨true, ⟨[97], by decide⟩⟩, ⟨true, ⟨[97], by decide⟩⟩])).length < kBufferSize :=
  runCalls_faithful_iff true false [⟨true, ⟨[97], by decide⟩⟩, ⟨true, ⟨[97], by decide⟩⟩] (by decide)

/-- A text whose terminator is the last byte of the first buffer. -/
def fillingText : CText :=
  ⟨List.replicate (kBufferSize - 3) 97, fun zero => absurd (List.eq_of_mem_replicate zero) (by decide)⟩

/-- The text is continued behind its terminator. -/
theorem fillingText_overread :
    2 + (terminated [fillingText]).length = kBufferSize ∧
      runCalls (create true true) [⟨false, fillingText⟩] = none ∧
      ¬ ∃ offsets pool, FaithfulRun true true [⟨false, fillingText⟩] offsets pool := by
  have long : fillingText.1.length = kBufferSize - 3 := List.length_replicate
  have full : ¬ (create true true).Fits fillingText.1 := by
    unfold Fits
    rw [long]
    decide
  have past : fillingText.1.length < (create true true).copied + 1 := by
    rw [long]
    decide
  have overread : runCalls (create true true) [⟨false, fillingText⟩] = none := by
    rw [runCalls, PoolCall.apply, if_neg (by decide), add, append, if_neg full, if_pos past, Option.map_none]
    rfl
  refine ⟨?_, overread, ?_⟩
  · rw [terminated, List.flatMap_singleton, List.length_append, long]
    rfl
  · rintro ⟨offsets, pool, faithful⟩
    have run := faithful.run
    rw [overread] at run
    cases run

end Cctools.LinkEdit
