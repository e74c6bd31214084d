/-
# Cctools.Input.NextBuffer -- the buffers of whole lines

`input_scrub_next_buffer`, byte by byte: the partial line behind the last newline is kept in
place under a terminator, copied to the front at the next call, and more is read behind it;
a line that is longer than the buffer makes the buffer grow.

`buffers_iff`: the buffers together are the text up to its last newline, and nothing is
written outside, if and only if no partial line is longer than the lines before it in the
buffer, which `memcpy` cannot copy, and no line grows to where the size is no `int`.
-/
import Cctools.Read.Statements
import Cctools.Theory.Block
import Mathlib.Data.List.DropRight
import Mathlib.Algebra.GroupWithZero.Nat

namespace Cctools.Input

open Cctools.Read (Text newline)
open Cctools.Theory (Block)

set_option autoImplicit false

/-! ## The statics -/

def bufferSize : Nat := 64 * 1024

/-- A buffer has a number, which stands for its address. -/
structure InputScrub where
  bufferStart : Nat
  block : Block
  partialWhere : Option Nat
  partialSize : Nat
  saveSource : UInt8
  bufferLength : Nat
  /-- What `input_file_give_next_buffer` still has to give. -/
  file : List Text

/-- An `int`; `none` is an overflow. -/
def int (n : Nat) : Option Nat := if n < 2 ^ 31 then some n else none

/-- After `input_scrub_begin` and `input_scrub_new_file`; `cells` is what `xmalloc` gives. -/
def begin_ (cells : Nat → UInt8) (file : List Text) : InputScrub where
  bufferStart := 0
  block := (⟨1 + bufferSize + bufferSize + 1, cells⟩ : Block).put 0 [newline]
  partialWhere := none
  partialSize := 0
  saveSource := 0
  bufferLength := bufferSize
  file := file

/-! ## `input_scrub_next_buffer` -/

/-- The place behind the last newline before `limit`; `none` before the start of the buffer. -/
def afterNewline (block : Block) : Nat → Option Nat
  | 0 => none
  | p + 1 => if block.cells p = newline then some (p + 1) else afterNewline block p

/-- From `get_more` on: the limit, `*bufp`, and the statics.  The number of a buffer that has
been reallocated is new. -/
def getMore (scrub : InputScrub) (bufp : Nat) : List Text → Option (Option Nat × Nat × InputScrub)
  | [] => some (none, bufp, { scrub with partialWhere := none, file := [] })
  | chunk :: file => do
      let start := 1 + scrub.partialSize
      let block ← scrub.block.write start chunk
      let limit := start + chunk.length
      let p ← afterNewline block limit
      if p ≤ 1 then
        let partialSize ← int (scrub.partialSize + (limit - start))
        let area ← int (1 + scrub.bufferLength * 2)
        if bufferSize + limit < area then getMore { scrub with block, partialSize } bufp file
        else
          let bufferLength ← int (scrub.bufferLength * 2)
          let size ← int (1 + bufferLength + bufferLength + 1)
          getMore
            { scrub with bufferStart := scrub.bufferStart + 1, block := block.realloc size, partialSize, bufferLength }
            (scrub.bufferStart + 1) file
      else
        let partialSize ← int (limit - p)
        let terminated ← block.write p [0]
        return (some p, bufp,
          { scrub with block := terminated, partialWhere := some p, partialSize, saveSource := block.cells p, file })

/-- `none` is a write or a copy that C does not define. -/
def inputScrubNextBuffer (scrub : InputScrub) (bufp : Nat) : Option (Option Nat × Nat × InputScrub) :=
  if scrub.partialSize = 0 then getMore scrub bufp scrub.file
  else do
    let source ← scrub.partialWhere
    let block ← scrub.block.memcpy 1 source scrub.partialSize
    let block ← block.write 1 [scrub.saveSource]
    getMore { scrub with block } bufp scrub.file

/-- What is returned by so many calls up to the one that returns NULL. -/
def buffers : Nat → InputScrub → Nat → Option (List Text)
  | 0, _, _ => none
  | calls + 1, scrub, bufp => do
      let (limit, bufp, scrub) ← inputScrubNextBuffer scrub bufp
      match limit with
      | none => some []
      | some limit =>
        if bufp = scrub.bufferStart then (buffers calls scrub bufp).map (scrub.block.read 1 (limit - 1) :: ·)
        else none

/-! ## Lines -/

/-- The text up to its last newline, and what is behind it. -/
def wholeLines (text : Text) : Text := text.rdropWhile (· ≠ newline)

def partialLine (text : Text) : Text := text.rtakeWhile (· ≠ newline)

/-- One buffer for each chunk with a newline. -/
def lineBuffers (carry : Text) : List Text → List Text
  | [] => []
  | chunk :: file =>
    if newline ∈ chunk then wholeLines (carry ++ chunk) :: lineBuffers (partialLine chunk) file
    else lineBuffers (carry ++ chunk) file

/-- No partial line is longer than the lines before it, and none grows to `2 ^ 30 - 2 ^ 16` without its newline. -/
def Fits (carry : Text) : List Text → Prop
  | [] => True
  | chunk :: file =>
    if newline ∈ chunk then (partialLine chunk).length ≤ (wholeLines (carry ++ chunk)).length ∧ Fits (partialLine chunk) file
    else (carry ++ chunk).length < 2 ^ 30 - 2 ^ 16 ∧ Fits (carry ++ chunk) file

theorem whole_append_partial (text : Text) : wholeLines text ++ partialLine text = text :=
  List.rdropWhile_append_rtakeWhile

theorem partial_no_newline (text : Text) : newline ∉ partialLine text := by
  intro inside
  simpa using List.mem_rtakeWhile_imp inside

theorem partial_of_no_newline {text : Text} (none : newline ∉ text) : partialLine text = text ∧ wholeLines text = [] := by
  have all : ∀ c ∈ text, decide (c ≠ newline) = true := fun c inside => decide_eq_true (ne_of_mem_of_not_mem inside none)
  exact ⟨List.rtakeWhile_eq_self_iff.mpr all, List.rdropWhile_eq_nil_iff.mpr all⟩

theorem lines_of_split (body : Text) {behind : Text} (none : newline ∉ behind) :
    wholeLines (body ++ newline :: behind) = body ++ [newline] ∧ partialLine (body ++ newline :: behind) = behind := by
  have all : ∀ c ∈ behind.reverse, decide (c ≠ newline) = true := fun c inside =>
    decide_eq_true (ne_of_mem_of_not_mem (List.mem_reverse.mp inside) none)
  have front : (body ++ newline :: behind).reverse = behind.reverse ++ newline :: body.reverse := by simp
  rw [wholeLines, partialLine, List.rdropWhile, List.rtakeWhile, front, List.dropWhile_append_of_pos all,
    List.takeWhile_append_of_pos all]
  simp

theorem whole_concat {text : Text} (some_ : newline ∈ text) : ∃ body, wholeLines text = body ++ [newline] := by
  have notNil : wholeLines text ≠ [] := by
    intro none
    simpa using List.rdropWhile_eq_nil_iff.mp none newline some_
  have last := List.rdropWhile_last_not (fun c => decide (c ≠ newline)) text notNil
  refine ⟨(wholeLines text).dropLast, ?_⟩
  have is : (wholeLines text).getLast notNil = newline := by
    by_contra other
    exact last (decide_eq_true other)
  rw [← is, List.dropLast_append_getLast]

theorem lines_append {text : Text} (some_ : newline ∈ text) (carry : Text) :
    wholeLines (carry ++ text) = carry ++ wholeLines text ∧ partialLine (carry ++ text) = partialLine text := by
  obtain ⟨body, whole⟩ := whole_concat some_
  have split : carry ++ text = (carry ++ body) ++ newline :: partialLine text := by
    conv_lhs => rw [← whole_append_partial text, whole]
    simp
  obtain ⟨front, behind⟩ := lines_of_split (carry ++ body) (partial_no_newline text)
  rw [split, front, behind, whole]
  exact ⟨List.append_assoc _ _ _, rfl⟩

/-! ## What the buffers are -/

theorem lineBuffers_lines : ∀ (carry : Text) (file : List Text), newline ∉ carry →
    (lineBuffers carry file).flatten = wholeLines (carry ++ file.flatten)
      ∧ ∀ lines ∈ lineBuffers carry file, ∃ body, lines = body ++ [newline]
  | carry, [], absent => by
      refine ⟨?_, nofun⟩
      rw [List.flatten_nil, List.append_nil, (partial_of_no_newline absent).2]
      rfl
  | carry, chunk :: file, absent => by
      rw [lineBuffers, List.flatten_cons, ← List.append_assoc]
      split
      · rename_i some_
        have inBoth : newline ∈ carry ++ chunk := List.mem_append_right carry some_
        obtain ⟨flat, each⟩ := lineBuffers_lines (partialLine chunk) file (partial_no_newline chunk)
        have split : carry ++ chunk ++ file.flatten = wholeLines (carry ++ chunk) ++ (partialLine chunk ++ file.flatten) := by
          conv_lhs => rw [← whole_append_partial (carry ++ chunk), (lines_append some_ carry).2, List.append_assoc]
        refine ⟨?_, ?_⟩
        · rw [List.flatten_cons, flat, split]
          by_cases more : newline ∈ partialLine chunk ++ file.flatten
          · rw [(lines_append more _).1]
          · obtain ⟨body, whole⟩ := whole_concat inBoth
            rw [(partial_of_no_newline more).2, List.append_nil, whole, List.append_assoc, List.singleton_append,
              (lines_of_split body more).1]
        · intro lines inside
          rcases List.mem_cons.mp inside with rfl | later
          · exact whole_concat inBoth
          · exact each lines later
      · rename_i absent'
        have neither : newline ∉ carry ++ chunk := by
          rw [List.mem_append]
          exact fun inside => inside.elim absent absent'
        exact lineBuffers_lines (carry ++ chunk) file neither

/-! ## The invariant -/

/-- The text that has been read since the last newline stands at the front. -/
structure Ready (scrub : InputScrub) (carry : Text) : Prop where
  before : scrub.block.cells 0 = newline
  size : scrub.block.size = 2 * scrub.bufferLength + 2
  doubled : ∃ times ≤ 13, scrub.bufferLength = bufferSize * 2 ^ times
  partialSize : scrub.partialSize = carry.length
  carried : scrub.block.read 1 carry.length = carry
  absent : newline ∉ carry
  room : carry.length + bufferSize ≤ 2 * scrub.bufferLength

theorem afterNewline_content {block : Block} (before : block.cells 0 = newline) (content : Text)
    (is : block.read 1 content.length = content) :
    afterNewline block (1 + content.length) = some (1 + (wholeLines content).length) := by
  induction content using List.reverseRecOn with
  | nil =>
    rw [List.length_nil, afterNewline, if_pos before]
    rfl
  | append_singleton front c ih =>
    have last : block.cells (1 + front.length) = c := by
      rw [Block.cells_of_read is (by simp)]
      simp
    have front_ : block.read 1 front.length = front := by
      rw [List.length_append, List.length_singleton, Block.read_append] at is
      exact (List.append_inj is (Block.length_read _ _ _)).1
    rw [List.length_append, List.length_singleton, ← Nat.add_assoc, afterNewline, last, wholeLines]
    split
    · rename_i newline_
      rw [List.rdropWhile_concat_neg _ _ _ (by simp [newline_]), List.length_append, List.length_singleton]
      congr 1
    · rename_i other
      rw [ih front_, List.rdropWhile_concat_pos _ _ _ (by simp [other])]
      rfl

/-- A call has returned lines, and the partial line behind them is under the terminator. -/
structure Left (scrub : InputScrub) (lines carry : Text) : Prop where
  before : scrub.block.cells 0 = newline
  size : scrub.block.size = 2 * scrub.bufferLength + 2
  doubled : ∃ times ≤ 13, scrub.bufferLength = bufferSize * 2 ^ times
  partialWhere : scrub.partialWhere = some (1 + lines.length)
  partialSize : scrub.partialSize = carry.length
  returned : scrub.block.read 1 lines.length = lines
  saved : ∀ c rest, carry = c :: rest → scrub.saveSource = c ∧ scrub.block.read (2 + lines.length) rest.length = rest
  absent : newline ∉ carry
  short : carry.length < bufferSize
  inside : 1 + lines.length + carry.length ≤ scrub.block.size

theorem bufferSize_le {bufferLength : Nat} (doubled : ∃ times ≤ 13, bufferLength = bufferSize * 2 ^ times) :
    bufferSize ≤ bufferLength ∧ bufferLength ≤ 2 ^ 29 := by
  obtain ⟨times, few, rfl⟩ := doubled
  have low : 1 ≤ 2 ^ times := Nat.one_le_two_pow
  have high : 2 ^ times ≤ 2 ^ 13 := Nat.pow_le_pow_right (by decide) few
  unfold bufferSize
  omega

theorem int_of_lt {n : Nat} (fits : n < 2 ^ 31) : int n = some n := if_pos fits

/-! ## A chunk is read -/

variable {scrub : InputScrub}

theorem Ready.write {carry : Text} (ready : Ready scrub carry) {chunk : Text}
    (sized : chunk.length ≤ bufferSize) :
    ∃ block, scrub.block.write (1 + scrub.partialSize) chunk = some block ∧ block.cells 0 = newline
      ∧ block.size = 2 * scrub.bufferLength + 2 ∧ block.read 1 (carry ++ chunk).length = carry ++ chunk := by
  have room := ready.room
  have size := ready.size
  refine ⟨scrub.block.put (1 + scrub.partialSize) chunk, if_pos ?_, ?_, size, ?_⟩
  · rw [ready.partialSize, size]
    omega
  · rw [Block.cells_put_of_apart _ _ _ (.inl (by omega)), ready.before]
  · rw [List.length_append, Block.read_append, ready.partialSize,
      Block.read_put_of_apart _ _ _ (.inl (by omega)), ready.carried, Block.read_put]

theorem length_whole_add (text : Text) : (wholeLines text).length + (partialLine text).length = text.length := by
  rw [← List.length_append, whole_append_partial]

/-- **A chunk with a newline ends the call.** -/
theorem getMore_lines {carry : Text} (ready : Ready scrub carry) (bufp : Nat) {chunk : Text}
    (sized : chunk.length ≤ bufferSize) (some_ : newline ∈ chunk) (file : List Text) :
    ∃ after, getMore scrub bufp (chunk :: file) = some (some (1 + (wholeLines (carry ++ chunk)).length), bufp, after)
      ∧ Left after (wholeLines (carry ++ chunk)) (partialLine chunk) ∧ after.file = file
      ∧ after.bufferStart = scrub.bufferStart := by
  obtain ⟨block, write, before, size, content⟩ := ready.write sized
  have limit : 1 + scrub.partialSize + chunk.length = 1 + (carry ++ chunk).length := by
    rw [ready.partialSize, List.length_append, Nat.add_assoc]
  have found := afterNewline_content before (carry ++ chunk) content
  have lengths := length_whole_add (carry ++ chunk)
  have chunkLengths := length_whole_add chunk
  have bounds := bufferSize_le ready.doubled
  have room := ready.room
  rw [(lines_append some_ carry).2] at lengths
  have total : (carry ++ chunk).length = carry.length + chunk.length := List.length_append
  obtain ⟨body, whole⟩ := whole_concat (List.mem_append_right carry some_)
  obtain ⟨front, wholeChunk⟩ := whole_concat some_
  have wholeLength : (wholeLines (carry ++ chunk)).length = body.length + 1 := by
    rw [whole, List.length_append, List.length_singleton]
  have chunkLength : (wholeLines chunk).length = front.length + 1 := by
    rw [wholeChunk, List.length_append, List.length_singleton]
  have rest : 1 + (carry ++ chunk).length - (1 + (wholeLines (carry ++ chunk)).length) = (partialLine chunk).length := by
    omega
  have small : bufferSize < 2 ^ 31 := by decide
  have terminated : block.write (1 + (wholeLines (carry ++ chunk)).length) [0]
      = some (block.put (1 + (wholeLines (carry ++ chunk)).length) [0]) := by
    refine if_pos ?_
    rw [List.length_singleton, size]
    omega
  refine ⟨{ scrub with
    block := block.put (1 + (wholeLines (carry ++ chunk)).length) [0]
    partialWhere := some (1 + (wholeLines (carry ++ chunk)).length)
    partialSize := (partialLine chunk).length
    saveSource := block.cells (1 + (wholeLines (carry ++ chunk)).length)
    file := file }, ?_, ?_, rfl, rfl⟩
  · rw [getMore, write]
    dsimp only [Option.bind_eq_bind, Option.bind_some]
    rw [limit, found, Option.bind_some, if_neg (by omega), rest, int_of_lt (by omega), Option.bind_some, terminated]
    rfl
  · have both := content
    rw [← whole_append_partial (carry ++ chunk), (lines_append some_ carry).2, List.length_append, Block.read_append] at both
    obtain ⟨inFront, behind⟩ := List.append_inj both (Block.length_read _ _ _)
    refine ⟨?_, size, ready.doubled, rfl, rfl, ?_, ?_, partial_no_newline chunk, ?_, ?_⟩
    · exact (Block.cells_put_of_apart _ _ _ (.inl (by omega))).trans before
    · exact (Block.read_put_of_apart _ _ _ (.inl (by omega))).trans inFront
    · intro c tail is
      rw [is] at behind
      obtain ⟨first, tailIs⟩ := Block.read_tail behind
      refine ⟨first, ?_⟩
      have place : 2 + (wholeLines (carry ++ chunk)).length = 1 + (wholeLines (carry ++ chunk)).length + 1 := by omega
      rw [place]
      refine (Block.read_put_of_apart _ _ _ (.inr ?_)).trans tailIs
      exact Nat.le_refl _
    · omega
    · show _ ≤ block.size
      omega

/-- **A chunk with no newline grows the line**, and the buffer where there is no room for another chunk. -/
theorem getMore_grows {carry : Text} (ready : Ready scrub carry) {bufp : Nat}
    (same : bufp = scrub.bufferStart) {chunk : Text} (sized : chunk.length ≤ bufferSize) (absent : newline ∉ chunk)
    (file : List Text) :
    ((carry ++ chunk).length < 2 ^ 30 - 2 ^ 16 → ∃ after bufp', getMore scrub bufp (chunk :: file) = getMore after bufp' file
        ∧ Ready after (carry ++ chunk) ∧ bufp' = after.bufferStart)
      ∧ (¬ (carry ++ chunk).length < 2 ^ 30 - 2 ^ 16 → getMore scrub bufp (chunk :: file) = none) := by
  obtain ⟨block, write, before, size, content⟩ := ready.write sized
  have limit : 1 + scrub.partialSize + chunk.length = 1 + (carry ++ chunk).length := by
    rw [ready.partialSize, List.length_append, Nat.add_assoc]
  have neither : newline ∉ carry ++ chunk := by
    rw [List.mem_append]
    exact fun inside => inside.elim ready.absent absent
  have found := afterNewline_content before (carry ++ chunk) content
  rw [(partial_of_no_newline neither).2, List.length_nil, Nat.add_zero] at found
  have bounds := bufferSize_le ready.doubled
  have room := ready.room
  have total : (carry ++ chunk).length = carry.length + chunk.length := List.length_append
  have small : bufferSize = 2 ^ 16 := rfl
  have partial_ : scrub.partialSize + (1 + (carry ++ chunk).length - (1 + scrub.partialSize)) = (carry ++ chunk).length := by
    rw [ready.partialSize]
    omega
  have call : getMore scrub bufp (chunk :: file)
      = if bufferSize + (1 + (carry ++ chunk).length) < 1 + scrub.bufferLength * 2 then
          getMore { scrub with block, partialSize := (carry ++ chunk).length } bufp file
        else
          (int (1 + scrub.bufferLength * 2 + scrub.bufferLength * 2 + 1)).bind fun size =>
            getMore
              { scrub with
                bufferStart := scrub.bufferStart + 1, block := block.realloc size, partialSize := (carry ++ chunk).length
                bufferLength := scrub.bufferLength * 2 }
              (scrub.bufferStart + 1) file := by
    rw [getMore, write]
    dsimp only [Option.bind_eq_bind, Option.bind_some]
    rw [limit, found, Option.bind_some, if_pos (Nat.le_refl 1), partial_, int_of_lt (by omega), Option.bind_some,
      int_of_lt (by omega), Option.bind_some]
    split
    · rfl
    · rw [int_of_lt (by omega)]
      rfl
  rw [call]
  split
  · rename_i roomy
    refine ⟨fun _ => ⟨_, bufp, rfl, ?_, same⟩, fun long => absurd ?_ long⟩
    · exact ⟨before, size, ready.doubled, rfl, content, neither, by dsimp only; omega⟩
    · omega
  · rename_i full
    obtain ⟨times, few, length⟩ := ready.doubled
    constructor
    · intro short
      have lower : times ≤ 12 := by
        by_contra most
        obtain rfl : times = 13 := by omega
        rw [length] at full
        unfold bufferSize at full
        omega
      have next : ∃ times ≤ 13, scrub.bufferLength * 2 = bufferSize * 2 ^ times :=
        ⟨times + 1, by omega, by rw [length, Nat.pow_succ, Nat.mul_assoc]⟩
      have bounds' := bufferSize_le next
      rw [int_of_lt (by omega)]
      refine ⟨_, _, rfl, ?_, rfl⟩
      refine ⟨before, ?_, next, rfl, content, neither, ?_⟩
      · show 1 + _ + _ + 1 = _
        dsimp only
        omega
      · dsimp only
        omega
    · intro long
      have most : times = 13 := by
        by_contra fewer
        have low : 2 ^ times ≤ 2 ^ 12 := Nat.pow_le_pow_right (by decide) (by omega)
        rw [length] at room
        unfold bufferSize at room sized
        omega
      rw [length, most]
      rfl

/-! ## The run -/

/-- What is made of one call, and of the calls behind it. -/
def onward (calls : Nat) : Option (Option Nat × Nat × InputScrub) → Option (List Text)
  | none => none
  | some (none, _, _) => some []
  | some (some limit, bufp, scrub) =>
    if bufp = scrub.bufferStart then (buffers calls scrub bufp).map (scrub.block.read 1 (limit - 1) :: ·) else none

theorem buffers_succ (calls : Nat) (scrub : InputScrub) (bufp : Nat) :
    buffers (calls + 1) scrub bufp = onward calls (inputScrubNextBuffer scrub bufp) := by
  rw [buffers]
  rcases inputScrubNextBuffer scrub bufp with _ | ⟨_ | limit, bufp, scrub⟩ <;> rfl

/-- **The partial line is copied to the front** if it is not longer than the lines before it. -/
theorem nextBuffer_left {lines carry : Text} (left : Left scrub lines carry) (bufp : Nat) :
    (carry.length ≤ lines.length → ∃ after, inputScrubNextBuffer scrub bufp = getMore after bufp scrub.file
        ∧ Ready after carry ∧ after.bufferStart = scrub.bufferStart)
      ∧ (¬ carry.length ≤ lines.length → inputScrubNextBuffer scrub bufp = none) := by
  have bounds := bufferSize_le left.doubled
  have short := left.short
  have inside := left.inside
  have size := left.size
  rcases carry with _ | ⟨c, rest⟩
  · refine ⟨fun _ => ⟨scrub, ?_, ?_, rfl⟩, fun long => absurd (Nat.zero_le _) long⟩
    · have zero : scrub.partialSize = 0 := left.partialSize
      rw [inputScrubNextBuffer, if_pos zero]
    · exact ⟨left.before, left.size, left.doubled, left.partialSize, rfl, nofun, by rw [List.length_nil]; omega⟩
  obtain ⟨first, saved⟩ := left.saved c rest rfl
  have some_ : ¬ scrub.partialSize = 0 := by
    rw [left.partialSize]
    exact Nat.succ_ne_zero _
  have length : (c :: rest).length = rest.length + 1 := List.length_cons
  rw [inputScrubNextBuffer, if_neg some_, left.partialWhere]
  dsimp only [Option.bind_eq_bind, Option.bind_some]
  rw [left.partialSize, Block.memcpy]
  constructor
  · intro fits
    have copied : scrub.block.write 1 (scrub.block.read (1 + lines.length) (c :: rest).length)
        = some (scrub.block.put 1 (scrub.block.read (1 + lines.length) (c :: rest).length)) := by
      refine if_pos ?_
      rw [Block.length_read]
      omega
    have restored : (scrub.block.put 1 (scrub.block.read (1 + lines.length) (c :: rest).length)).write 1 [scrub.saveSource]
        = some ((scrub.block.put 1 (scrub.block.read (1 + lines.length) (c :: rest).length)).put 1 [scrub.saveSource]) := by
      refine if_pos ?_
      rw [Block.size_put, List.length_singleton]
      omega
    rw [if_neg (by omega), if_pos inside, copied, Option.bind_some, restored, Option.bind_some]
    refine ⟨_, rfl, ?_, rfl⟩
    have room : (c :: rest).length + bufferSize ≤ 2 * scrub.bufferLength := by omega
    refine ⟨?_, size, left.doubled, rfl, ?_, left.absent, room⟩
    · refine (Block.cells_put_of_apart _ _ _ (.inl (by decide))).trans ?_
      exact (Block.cells_put_of_apart _ _ _ (.inl (by decide))).trans left.before
    · have source : scrub.block.read (1 + lines.length) (c :: rest).length
          = scrub.block.cells (1 + lines.length) :: rest := by
        have place : 1 + lines.length + 1 = 2 + lines.length := by omega
        rw [length, Nat.add_comm rest.length 1, Block.read_append, place, saved]
        rfl
      have copy := Block.read_put scrub.block 1 (scrub.block.cells (1 + lines.length) :: rest)
      dsimp only
      rw [source, first]
      exact Block.read_put_head (Block.read_tail copy).2 c
  · intro long
    rw [if_pos (by omega)]
    rfl

/-- **The run**, by induction on the chunks: the calls return the lines, or one of them is not defined. -/
theorem run_spec : ∀ (file : List Text) (carry : Text) (scrub : InputScrub) (bufp calls : Nat), Ready scrub carry →
    bufp = scrub.bufferStart → (∀ chunk ∈ file, chunk.length ≤ bufferSize) → file.length ≤ calls →
    (Fits carry file → onward calls (getMore scrub bufp file) = some (lineBuffers carry file))
      ∧ (¬ Fits carry file → onward calls (getMore scrub bufp file) = none)
  | [], carry, scrub, bufp, calls, _, _, _, _ => ⟨fun _ => rfl, fun not => absurd trivial not⟩
  | chunk :: file, carry, scrub, bufp, calls, ready, same, sized, enough => by
      have small := sized chunk List.mem_cons_self
      have others : ∀ chunk ∈ file, chunk.length ≤ bufferSize := fun chunk inside => sized chunk (List.mem_cons_of_mem _ inside)
      obtain ⟨calls, rfl⟩ : ∃ k, calls = k + 1 := Nat.exists_eq_succ_of_ne_zero (by
        rw [List.length_cons] at enough
        omega)
      rw [List.length_cons] at enough
      rw [Fits, lineBuffers]
      by_cases some_ : newline ∈ chunk
      · rw [if_pos some_, if_pos some_]
        obtain ⟨after, call, left, rest, start⟩ := getMore_lines ready bufp small some_ file
        have next : onward (calls + 1) (getMore scrub bufp (chunk :: file))
            = (onward calls (inputScrubNextBuffer after bufp)).map (wholeLines (carry ++ chunk) :: ·) := by
          rw [call, onward, if_pos (same.trans start.symm), buffers_succ, Nat.add_sub_cancel_left, left.returned]
        obtain ⟨copied, overlaps⟩ := nextBuffer_left left bufp
        by_cases fits : (partialLine chunk).length ≤ (wholeLines (carry ++ chunk)).length
        · obtain ⟨after', call', ready', start'⟩ := copied fits
          obtain ⟨good, bad⟩ := run_spec file (partialLine chunk) after' bufp calls ready'
            (by rw [start', start, same]) others (by omega)
          rw [next, call', rest]
          refine ⟨fun all => by rw [good all.2]; rfl, fun not => ?_⟩
          rw [bad (fun later => not ⟨fits, later⟩)]
          rfl
        · rw [next, overlaps fits]
          exact ⟨fun all => absurd all.1 fits, fun _ => rfl⟩
      · rw [if_neg some_, if_neg some_]
        obtain ⟨grows, overflows⟩ := getMore_grows ready same small some_ file
        by_cases short : (carry ++ chunk).length < 2 ^ 30 - 2 ^ 16
        · obtain ⟨after, bufp', call, ready', start⟩ := grows short
          obtain ⟨good, bad⟩ := run_spec file (carry ++ chunk) after bufp' (calls + 1) ready' start others (by omega)
          rw [call]
          exact ⟨fun all => good all.2, fun not => bad (fun later => not ⟨short, later⟩)⟩
        · rw [overflows short]
          exact ⟨fun all => absurd all.1 short, fun _ => rfl⟩

theorem begin_ready (cells : Nat → UInt8) (file : List Text) : Ready (begin_ cells file) [] where
  before := rfl
  size := by
    show 1 + bufferSize + bufferSize + 1 = 2 * bufferSize + 2
    omega
  doubled := ⟨0, by decide, rfl⟩
  partialSize := rfl
  carried := rfl
  absent := nofun
  room := by
    show 0 + bufferSize ≤ 2 * bufferSize
    decide

/-- The lines are all returned, and each buffer ends in a newline. -/
def Returns (cells : Nat → UInt8) (file : List Text) : Prop :=
  ∃ all, buffers (file.length + 1) (begin_ cells file) 0 = some all ∧ all.flatten = wholeLines file.flatten
    ∧ ∀ lines ∈ all, ∃ body, lines = body ++ [newline]

theorem begin_buffers (cells : Nat → UInt8) {file : List Text} (sized : ∀ chunk ∈ file, chunk.length ≤ bufferSize) :
    (Fits [] file → buffers (file.length + 1) (begin_ cells file) 0 = some (lineBuffers [] file))
      ∧ (¬ Fits [] file → buffers (file.length + 1) (begin_ cells file) 0 = none) := by
  have start : inputScrubNextBuffer (begin_ cells file) 0 = getMore (begin_ cells file) 0 file := if_pos rfl
  rw [buffers_succ, start]
  exact run_spec file [] (begin_ cells file) 0 file.length (begin_ready cells file) rfl sized (Nat.le_refl _)

/-- **Line buffering loses nothing and writes nothing outside** if and only if no partial line is longer than
the lines before it and no line grows too long for the size of its buffer. -/
theorem buffers_iff (cells : Nat → UInt8) (file : List Text)
    (chunks : ∀ chunk ∈ file, chunk ≠ [] ∧ chunk.length ≤ bufferSize) : Returns cells file ↔ Fits [] file := by
  obtain ⟨good, bad⟩ := begin_buffers cells (fun chunk inside => (chunks chunk inside).2)
  constructor
  · rintro ⟨all, is, _⟩
    by_contra not
    rw [bad not] at is
    cases is
  · intro fits
    obtain ⟨flat, each⟩ := lineBuffers_lines [] file nofun
    exact ⟨_, good fits, flat, each⟩

theorem twoChunks_returned :
    Returns (fun _ => 0) [[97, newline, 98], [99, newline]] ↔ Fits [] [[97, newline, 98], [99, newline]] :=
  buffers_iff (fun _ => 0) [[97, newline, 98], [99, newline]] (by decide)

/-- A short line, and the start of a long one that fills the buffer. -/
def shortThenLong : List Text := [97 :: newline :: List.replicate (bufferSize - 2) 98, [newline]]

/-- **The partial line is longer than what it is copied over**: `memcpy` on regions that overlap. -/
theorem shortThenLong_overlaps :
    (∀ chunk ∈ shortThenLong, chunk ≠ [] ∧ chunk.length ≤ bufferSize) ∧ ∀ cells, ¬ Returns cells shortThenLong := by
  have sized : ∀ chunk ∈ shortThenLong, chunk ≠ [] ∧ chunk.length ≤ bufferSize := by
    intro chunk inside
    rcases List.mem_cons.mp inside with rfl | inside
    · refine ⟨List.cons_ne_nil _ _, ?_⟩
      rw [List.length_cons, List.length_cons, List.length_replicate]
      decide
    · rw [List.mem_singleton.mp inside]
      exact ⟨List.cons_ne_nil _ _, by decide⟩
  refine ⟨sized, ?_⟩
  rintro cells ⟨all, is, _⟩
  have absent : newline ∉ List.replicate (bufferSize - 2) (98 : UInt8) := by
    intro inside
    cases List.eq_of_mem_replicate inside
  obtain ⟨front, behind⟩ := lines_of_split [97] absent
  rw [List.singleton_append] at front behind
  have not : ¬ Fits [] shortThenLong := by
    rw [shortThenLong, Fits, if_pos (by simp), List.nil_append, front, behind, List.length_replicate]
    rintro ⟨fits, _⟩
    revert fits
    decide
  rw [(begin_buffers cells (fun chunk inside => (sized chunk inside).2)).2 not] at is
  cases is

end Cctools.Input
