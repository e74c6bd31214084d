/-
# Cctools.OutputFile.ChainLinks -- from one fixup to the next

What linking a pair of neighbouring fixups does.  It writes only between the two
(`linkPair_frame`), and then either the first leads to the second, through
non-pointers that still say what they stood for, or it ends its chain and the
second begins one (`linkPair_spec`).  Which of the two is decided by the distance
and the words between (`joined`).

For a 64-bit pointer `next` is in its upper half, so a pair owns the bits from
half a pointer behind the first to half a pointer behind the second (`lead`).
-/
import Cctools.OutputFile.ChainedFixups
import Cctools.Theory.Chains
import Cctools.Theory.Transducer

namespace Cctools.OutputFile

set_option autoImplicit false

open Cctools.Theory
open Cctools.Theory.BitMemory

/-! ## One step -/

section Next

variable {format : PointerFormat} {bits : Bits} {loc : Nat}

theorem PointerFormat.next_of_steps {steps : Nat}
    (field : (get bits (8 * loc + format.nextStart) format.nextWidth).toNat = steps)
    (some_ : 0 < steps) : format.next bits loc = some (loc + steps * format.stride) := by
  rw [PointerFormat.next, if_neg, field]
  intro zero
  rw [zero] at field
  exact some_.ne' (field.symm.trans (by simp))

theorem PointerFormat.next_of_zero
    (zero : get bits (8 * loc + format.nextStart) format.nextWidth = 0) :
    format.next bits loc = none := if_pos zero

theorem PointerFormat.next_congr {other : Bits}
    (same : ∀ i, 8 * loc + format.nextStart ≤ i →
      i < 8 * loc + format.nextStart + format.nextWidth → bits i = other i) :
    format.next bits loc = format.next other loc := by
  rw [PointerFormat.next, PointerFormat.next, get_congr same]

theorem nonPointer_congr {maxValidPointer : BitVec 32} {other : Bits}
    (same : ∀ i, 8 * loc ≤ i → i < 8 * loc + 32 → bits i = other i) :
    nonPointer maxValidPointer bits loc = nonPointer maxValidPointer other loc := by
  have target : get bits (8 * loc) 26 = get other (8 * loc) 26 :=
    get_congr fun i above below => same i above (by omega)
  have bind : get bits (8 * loc + 31) 1 = get other (8 * loc + 31) 1 :=
    get_congr fun i above below => same i (by omega) (by omega)
  rw [nonPointer, nonPointer, target, bind]

end Next

/-! ## Hops over non-pointers -/

section Coopt

variable {options : ChainOptions}

theorem wordsBetween_spec {bits : Bits} {start k : Nat} (found : wordsBetween options bits start = some k) :
    k < 31 ∧ chainable options (get bits (8 * (start + 4 * (k + 1))) 32) = true := by
  unfold wordsBetween at found
  have near := List.find?_some found
  refine ⟨?_, near⟩
  have member := List.mem_of_find?_eq_some found
  simpa using member

theorem find?_congr {α : Type} {p q : α → Bool} {elements : List α}
    (same : ∀ x ∈ elements, p x = q x) : elements.find? p = elements.find? q := by
  induction elements with
  | nil => rfl
  | cons x rest ih =>
    rw [List.find?_cons, List.find?_cons, same x List.mem_cons_self,
      ih fun y member => same y (List.mem_cons_of_mem _ member)]

theorem wordsBetween_congr {one other : Bits} {start : Nat}
    (same : ∀ i, 8 * (start + 4) ≤ i → i < 8 * (start + 128) → one i = other i) :
    wordsBetween options one start = wordsBetween options other start := by
  refine find?_congr fun k member => congrArg (chainable options) (get_congr fun i above below => ?_)
  have inside : k < 31 := by simpa using member
  exact same i (by omega) (by omega)

theorem chainable_iff {value : BitVec 32} : chainable options value = true ↔
    value.toInt < options.range ∧ -(options.range : Int) < value.toInt := by
  simp [chainable]

theorem add_bias {value : BitVec 32} (small : options.maxRebase < 2 ^ 26)
    (near : chainable options value = true) :
    options.maxRebase < (value + BitVec.ofNat 32 options.bias).toNat ∧
      (value + BitVec.ofNat 32 options.bias).toNat < 2 ^ 26 := by
  obtain ⟨below, above⟩ := chainable_iff.mp near
  have range : options.range = (2 ^ 26 - options.maxRebase) / 2 := rfl
  have bias : options.bias = (2 ^ 26 + options.maxRebase) / 2 := rfl
  rw [BitVec.toInt_eq_toNat_cond] at below above
  have small32 := value.isLt
  rw [BitVec.toNat_add, BitVec.toNat_ofNat]
  split at below <;> omega

/-- **A non-pointer as a link**: it leads on, and it can be told from a pointer and restored. -/
theorem coopt_spec {bits : Bits} {loc steps : Nat} (small : options.maxRebase < 2 ^ 26)
    (near : chainable options (get bits (8 * loc) 32) = true) (some_ : 0 < steps) (few : steps < 32) :
    ∃ linked, coopt options bits loc steps = .ok linked ∧
      (∀ i, i < 8 * loc ∨ 8 * loc + 32 ≤ i → linked i = bits i) ∧
      PointerFormat.next .ptr32 linked loc = some (loc + 4 * steps) ∧
      nonPointer (BitVec.ofNat 32 options.maxRebase) linked loc = some (get bits (8 * loc) 32) := by
  obtain ⟨above, below⟩ := add_bias small near
  generalize value_eq : get bits (8 * loc) 32 = value at *
  let linked := set (set (set bits (8 * loc + 31) (0 : BitVec 1)) (8 * loc + 26) (BitVec.ofNat 5 steps))
    (8 * loc) ((value + BitVec.ofNat 32 options.bias).setWidth 26)
  have next : get linked (8 * loc + 26) 5 = BitVec.ofNat 5 steps := by
    rw [get_set_of_apart _ _ (by omega), get_set]
  have bind : get linked (8 * loc + 31) 1 = 0 := by
    rw [get_set_of_apart _ _ (by omega), get_set_of_apart _ _ (by omega), get_set]
  have target : get linked (8 * loc) 26 = (value + BitVec.ofNat 32 options.bias).setWidth 26 := get_set _ _
  have width : (BitVec.ofNat 5 steps).toNat = steps := by
    rw [BitVec.toNat_ofNat, Nat.mod_eq_of_lt few]
  refine ⟨linked, ?_, ?_, ?_, ?_⟩
  · rw [coopt, value_eq]
    exact if_pos (by rw [next, width])
  · intro i apart
    simp only [linked]
    rw [set_of_apart _ _ (by omega), set_of_apart _ _ (by omega), set_of_apart _ _ (by omega)]
  · rw [Nat.mul_comm]
    exact @PointerFormat.next_of_steps .ptr32 _ _ _ ((congrArg BitVec.toNat next).trans width) some_
  · have valid : (BitVec.ofNat 32 options.maxRebase).toNat = options.maxRebase := by
      rw [BitVec.toNat_ofNat, Nat.mod_eq_of_lt (by omega)]
    have kept : ((value + BitVec.ofNat 32 options.bias).setWidth 26).toNat
        = (value + BitVec.ofNat 32 options.bias).toNat := by
      rw [BitVec.toNat_setWidth, Nat.mod_eq_of_lt below]
    rw [nonPointer]
    simp only [bind, target, valid, kept]
    rw [if_pos ⟨trivial, above⟩]
    congr 1
    have whole : ((value + BitVec.ofNat 32 options.bias).setWidth 26).setWidth 32
        = value + BitVec.ofNat 32 options.bias := by
      apply BitVec.eq_of_toNat_eq
      rw [BitVec.toNat_setWidth, kept, Nat.mod_eq_of_lt (by omega)]
    rw [whole]
    exact BitVec.add_sub_cancel _ _

theorem chainPossible_cases {bits : Bits} {endZone p : Nat}
    (possible : chainPossible options bits endZone p = true) (before : p < endZone) :
    ∃ k, wordsBetween options bits p = some k ∧
      chainPossible options bits endZone (p + 4 * (k + 1)) = true := by
  rw [chainPossible, hopsReach, if_neg (by omega)] at possible
  split at possible
  · cases possible
  · rename_i k found
    exact ⟨k, found, possible⟩

/-- Only the words behind the first location and before the last are looked at. -/
theorem chainPossible_congr {one other : Bits} {finalLoc p : Nat} (whole : 4 ∣ finalLoc - p)
    (same : ∀ i, 8 * (p + 4) ≤ i → i < 8 * finalLoc → one i = other i) :
    chainPossible options one (finalLoc - 124) p = chainPossible options other (finalLoc - 124) p := by
  induction left : finalLoc - p using Nat.strong_induction_on generalizing p with
  | _ left ih =>
    rw [chainPossible, chainPossible, hopsReach, hopsReach]
    split
    · rfl
    · rename_i far
      have words : wordsBetween options one p = wordsBetween options other p :=
        wordsBetween_congr fun i above below => same i above (by omega)
      rw [words]
      cases wordsBetween options other p with
      | none => rfl
      | some k => exact ih _ (by omega) (by omega) (fun i above below => same i (by omega) below) rfl

/-- **The hops lead to the last location**, and every non-pointer they use can be restored. -/
theorem hopsWith_spec {orig bits : Bits} {finalLoc curLoc : Nat} (small : options.maxRebase < 2 ^ 26)
    (same : ∀ i, 8 * curLoc ≤ i → i < 8 * finalLoc → bits i = orig i)
    (possible : chainPossible options orig (finalLoc - 124) curLoc = true)
    (near : chainable options (get orig (8 * curLoc) 32) = true)
    (before : curLoc < finalLoc) (whole : 4 ∣ finalLoc - curLoc) :
    ∃ linked stones, hopsWith (wordsBetween options) (coopt options) bits (finalLoc - 124)
        finalLoc curLoc = .ok linked ∧
      (∀ i, i < 8 * curLoc ∨ 8 * finalLoc ≤ i → linked i = bits i) ∧
      Leads (PointerFormat.next .ptr32 linked) curLoc stones finalLoc ∧
      ∀ stone ∈ curLoc :: stones, curLoc ≤ stone ∧ stone + 4 ≤ finalLoc ∧
        nonPointer (BitVec.ofNat 32 options.maxRebase) linked stone = some (get orig (8 * stone) 32) := by
  induction left : finalLoc - curLoc using Nat.strong_induction_on generalizing bits curLoc with
  | _ left ih =>
    subst left
    have word : get bits (8 * curLoc) 32 = get orig (8 * curLoc) 32 :=
      get_congr fun i above below => same i above (by omega)
    rw [← word] at near
    by_cases far : curLoc < finalLoc - 124
    · obtain ⟨k, found, later⟩ := chainPossible_cases possible far
      obtain ⟨few, nearNext⟩ := wordsBetween_spec found
      have words : wordsBetween options bits curLoc = some k := by
        rw [← found]
        exact wordsBetween_congr fun i above below => same i (by omega) (by omega)
      obtain ⟨first, cooptOk, frame, step, restores⟩ :=
        @coopt_spec options bits curLoc (k + 1) small near (by omega) (by omega)
      obtain ⟨linked, stones, hopsOk, frames, leads, all⟩ := @ih _ (by omega) first
        (curLoc + 4 * (k + 1))
        (fun i above below => (frame i (by omega)).trans (same i (by omega) below))
        later nearNext (by omega) (by omega) rfl
      have kept : ∀ i, 8 * curLoc ≤ i → i < 8 * curLoc + 32 → linked i = first i :=
        fun i above below => frames i (by omega)
      refine ⟨linked, (curLoc + 4 * (k + 1)) :: stones, ?_, fun i apart => ?_, ?_, ?_⟩
      · rw [hopsWith, if_pos far, words]
        simp only [cooptOk, Except.bind, hopsOk]
      · rw [frames i (by omega), frame i (by omega)]
      · refine .through ?_ leads
        rw [← step]
        exact PointerFormat.next_congr fun i above below => kept i
          (by simp only [PointerFormat.nextStart] at above; omega)
          (by simp only [PointerFormat.nextStart, PointerFormat.nextWidth] at below; omega)
      · intro stone member
        obtain rfl | member := List.mem_cons.mp member
        · refine ⟨le_rfl, by omega, ?_⟩
          rw [nonPointer_congr kept, restores, word]
        · obtain ⟨after, inside, value⟩ := all stone member
          exact ⟨by omega, inside, value⟩
    · obtain ⟨linked, cooptOk, frame, step, restores⟩ :=
        @coopt_spec options bits curLoc ((finalLoc - curLoc) / 4) small near (by omega) (by omega)
      refine ⟨linked, [], ?_, fun i apart => frame i (by omega), ?_, ?_⟩
      · rw [hopsWith, if_neg far, cooptOk]
      · refine .direct ?_
        rw [step]
        congr 1
        omega
      · intro stone member
        obtain rfl := List.mem_singleton.mp member
        exact ⟨le_rfl, by omega, by rw [restores, word]⟩

end Coopt

/-! ## A pair of fixups -/

/-- The bits of a pointer before its `next`, as far as a pair does not own them. -/
def PointerFormat.lead : PointerFormat → Nat
  | .ptr32 | .ptr32Firmware => 0
  | _ => 32

/-- Whether the second fixup continues the chain of the first. -/
def joined (options : ChainOptions) (format : PointerFormat) (bits : Bits) (pageBufferStart : Nat)
    (prevOffset offset : Nat) : Bool :=
  match format with
  | .ptr32 => offset - prevOffset < 127 || options.stealPointersFixupChains &&
      chainPossible options bits (pageBufferStart + offset - 124) (pageBufferStart + prevOffset)
  | _ => true

section Pair

variable {options : ChainOptions} {format : PointerFormat} {bits linked : Bits}
variable {pageBufferStart prevOffset offset : Nat} {start : Option Nat}

theorem joined_congr {other : Bits} (prevWhole : 4 ∣ prevOffset) (whole : 4 ∣ offset)
    (same : ∀ i, 8 * (pageBufferStart + prevOffset) + format.lead ≤ i → bits i = other i) :
    joined options format bits pageBufferStart prevOffset offset
      = joined options format other pageBufferStart prevOffset offset := by
  cases format with
  | ptr32 =>
    simp only [joined]
    rw [chainPossible_congr (by omega) fun i above _ => same i (by
      simp only [PointerFormat.lead]
      omega)]
  | _ => rfl

/-- What a pair is linked to: the first fixup leads to the second, or the second begins a chain. -/
def PairLinked (options : ChainOptions) (format : PointerFormat) (bits linked : Bits)
    (pageBufferStart prevOffset offset : Nat) (start : Option Nat) : Prop :=
  if joined options format bits pageBufferStart prevOffset offset then
    start = none ∧ ∀ last : Bits, (∀ i, 8 * (pageBufferStart + prevOffset) + format.lead ≤ i →
        i < 8 * (pageBufferStart + offset) + format.lead → last i = linked i) →
      ∃ stones, Leads (format.next last) (pageBufferStart + prevOffset) stones
          (pageBufferStart + offset) ∧
        ∀ stone ∈ stones, pageBufferStart + prevOffset < stone ∧ stone < pageBufferStart + offset ∧
          format = .ptr32 ∧ nonPointer (BitVec.ofNat 32 options.maxRebase) last stone
            = some (get bits (8 * stone) 32)
  else start = some offset ∧ linked = bits

theorem linkNext_spec (wide : format.nextStart = 51) (narrow : format.nextWidth ≤ 12)
    (before : prevOffset + 4 ≤ offset)
    (links : linkNext format bits (pageBufferStart + prevOffset) (pageBufferStart + offset) = .ok linked) :
    (∀ i, i < 8 * (pageBufferStart + prevOffset) + 32 ∨ 8 * (pageBufferStart + offset) + 32 ≤ i →
        linked i = bits i) ∧
      ∀ last : Bits, (∀ i, 8 * (pageBufferStart + prevOffset) + 32 ≤ i →
          i < 8 * (pageBufferStart + offset) + 32 → last i = linked i) →
        format.next last (pageBufferStart + prevOffset) = some (pageBufferStart + offset) := by
  unfold linkNext at links
  dsimp only at links
  split at links
  · rename_i exact_
    cases links
    rw [get_set] at exact_
    refine ⟨fun i apart => set_of_apart _ _ (by omega), fun last same => ?_⟩
    have field : get last (8 * (pageBufferStart + prevOffset) + format.nextStart) format.nextWidth
        = BitVec.ofNat format.nextWidth
          ((pageBufferStart + offset - (pageBufferStart + prevOffset)) / format.stride) := by
      rw [get_congr fun i above below => same i (by omega) (by omega), get_set]
    rw [PointerFormat.next_of_steps (congrArg BitVec.toNat field), exact_]
    · congr 1
      omega
    · rcases Nat.eq_zero_or_pos (BitVec.ofNat format.nextWidth
        ((pageBufferStart + offset - (pageBufferStart + prevOffset)) / format.stride)).toNat with zero | some_
      · rw [zero] at exact_
        omega
      · exact some_
  · cases links

theorem linkPair_of_linkNext (wide : format.nextStart = 51) (narrow : format.nextWidth ≤ 12)
    (half : format.lead = 32)
    (always : joined options format bits pageBufferStart prevOffset offset = true)
    (before : prevOffset + 4 ≤ offset)
    (links : (linkNext format bits (pageBufferStart + prevOffset) (pageBufferStart + offset)).map
      (fun bits => (bits, none)) = .ok (linked, start)) :
    (∀ i, i < 8 * (pageBufferStart + prevOffset) + format.lead ∨
        8 * (pageBufferStart + offset) + format.lead ≤ i → linked i = bits i) ∧
      PairLinked options format bits linked pageBufferStart prevOffset offset start := by
  obtain ⟨next, linksNext, same⟩ := ok_of_map links
  obtain ⟨rfl, rfl⟩ := Prod.mk.inj same
  obtain ⟨frame, leads⟩ := linkNext_spec wide narrow before linksNext
  rw [PairLinked, if_pos always, half]
  exact ⟨frame, rfl, fun last agrees => ⟨[], .direct (leads last agrees), by simp⟩⟩

theorem chain32bitPointers_near (prevWhole : 4 ∣ prevOffset) (whole : 4 ∣ offset)
    (before : prevOffset < offset) (near : offset - prevOffset < 127) {last : Bits}
    (same : ∀ i, 8 * (pageBufferStart + prevOffset) ≤ i → i < 8 * (pageBufferStart + offset) →
      last i = set bits (8 * (pageBufferStart + prevOffset) + 26)
        (BitVec.ofNat 5 ((pageBufferStart + offset - (pageBufferStart + prevOffset)) / 4)) i) :
    PointerFormat.next .ptr32 last (pageBufferStart + prevOffset) = some (pageBufferStart + offset) := by
  have field : get last (8 * (pageBufferStart + prevOffset) + 26) 5
      = BitVec.ofNat 5 ((pageBufferStart + offset - (pageBufferStart + prevOffset)) / 4) := by
    rw [get_congr fun i above below => same i (by omega) (by omega), get_set]
  have steps := congrArg BitVec.toNat field
  rw [BitVec.toNat_ofNat, Nat.mod_eq_of_lt (by omega)] at steps
  rw [@PointerFormat.next_of_steps .ptr32 _ _ _ steps (by omega)]
  simp only [PointerFormat.stride]
  congr 1
  omega

theorem steal_spec {prevLoc finalLoc : Nat} (small : options.maxRebase < 2 ^ 26)
    (whole : 4 ∣ finalLoc - prevLoc) (far : prevLoc < finalLoc - 124)
    (possible : chainPossible options bits (finalLoc - 124) prevLoc = true) :
    ∃ linked stones, steal options bits prevLoc finalLoc = .ok linked ∧
      (∀ i, i < 8 * prevLoc ∨ 8 * finalLoc ≤ i → linked i = bits i) ∧
      Leads (PointerFormat.next .ptr32 linked) prevLoc stones finalLoc ∧
      ∀ stone ∈ stones, prevLoc + 4 ≤ stone ∧ stone + 4 ≤ finalLoc ∧
        nonPointer (BitVec.ofNat 32 options.maxRebase) linked stone = some (get bits (8 * stone) 32) := by
  obtain ⟨k, found, later⟩ := chainPossible_cases possible far
  obtain ⟨few, near⟩ := wordsBetween_spec found
  obtain ⟨linked, stones, hopsOk, frame, leads, all⟩ := @hopsWith_spec options bits
    (set bits (8 * prevLoc + 26) (BitVec.ofNat 5 (k + 1))) finalLoc _ small
    (fun i above below => set_of_apart _ _ (by omega)) later near (by omega) (by omega)
  refine ⟨linked, (prevLoc + 4 * (k + 1)) :: stones, ?_, fun i apart => ?_, ?_, ?_⟩
  · rw [steal, found]
    exact hopsOk
  · rw [frame i (by omega), set_of_apart _ _ (by omega)]
  · refine .through ?_ leads
    have field : get linked (8 * prevLoc + 26) 5 = BitVec.ofNat 5 (k + 1) := by
      rw [get_congr fun i above below => frame i (by omega), get_set]
    have steps := congrArg BitVec.toNat field
    rw [BitVec.toNat_ofNat, Nat.mod_eq_of_lt (by omega)] at steps
    rw [@PointerFormat.next_of_steps .ptr32 _ _ _ steps (by omega), Nat.mul_comm]
    rfl
  · intro stone member
    obtain ⟨after, inside, value⟩ := all stone member
    exact ⟨by omega, inside, value⟩

theorem chain32bitPointers_spec (prevWhole : 4 ∣ prevOffset) (whole : 4 ∣ offset)
    (before : prevOffset < offset)
    (links : chain32bitPointers options bits pageBufferStart prevOffset offset = .ok (linked, start)) :
    (∀ i, i < 8 * (pageBufferStart + prevOffset) ∨ 8 * (pageBufferStart + offset) ≤ i →
        linked i = bits i) ∧
      PairLinked options .ptr32 bits linked pageBufferStart prevOffset offset start := by
  have distance : pageBufferStart + offset - (pageBufferStart + prevOffset) = offset - prevOffset := by
    omega
  unfold chain32bitPointers at links
  dsimp only at links
  split at links
  · rename_i near
    rw [distance] at near
    obtain ⟨rfl, rfl⟩ := Prod.mk.inj (Except.ok.inj links)
    refine ⟨fun i apart => set_of_apart _ _ (by omega), ?_⟩
    rw [PairLinked, if_pos (by simp [joined, near])]
    exact ⟨rfl, fun last same =>
      ⟨[], .direct (chain32bitPointers_near prevWhole whole before near same), by simp⟩⟩
  · rename_i far
    rw [distance] at far
    split at links
    · rename_i steals
      split at links
      · cases links
      · rename_i small
        split at links
        · rename_i possible
          obtain ⟨stolen, stealOk, pair⟩ := ok_of_map links
          obtain ⟨rfl, rfl⟩ := Prod.mk.inj pair
          obtain ⟨result, stones, isOk, frame, leads, all⟩ :=
            steal_spec (Nat.not_le.mp small) (by omega) (by omega) possible
          obtain rfl : result = stolen := Except.ok.inj (isOk.symm.trans stealOk)
          refine ⟨frame, ?_⟩
          rw [PairLinked, if_pos (by simp [joined, steals, possible])]
          refine ⟨rfl, fun last same => ⟨stones, ?_, fun stone member => ?_⟩⟩
          · refine leads.congr fun loc member => PointerFormat.next_congr fun i above below => ?_
            simp only [PointerFormat.nextStart, PointerFormat.nextWidth] at above below
            obtain rfl | between := List.mem_cons.mp member
            · exact same i (by simp only [PointerFormat.lead]; omega)
                (by simp only [PointerFormat.lead]; omega)
            · obtain ⟨after, inside, -⟩ := all loc between
              exact same i (by simp only [PointerFormat.lead]; omega)
                (by simp only [PointerFormat.lead]; omega)
          · obtain ⟨after, inside, value⟩ := all stone member
            refine ⟨by omega, by omega, rfl, ?_⟩
            rw [nonPointer_congr fun i above below => same i
              (by simp only [PointerFormat.lead]; omega) (by simp only [PointerFormat.lead]; omega), value]
        · rename_i impossible
          obtain ⟨rfl, rfl⟩ := Prod.mk.inj (Except.ok.inj links)
          refine ⟨fun _ _ => rfl, ?_⟩
          rw [PairLinked, if_neg (by simp [joined, far, impossible])]
          exact ⟨rfl, rfl⟩
    · rename_i keeps
      obtain ⟨rfl, rfl⟩ := Prod.mk.inj (Except.ok.inj links)
      refine ⟨fun _ _ => rfl, ?_⟩
      rw [PairLinked, if_neg (by simp [joined, far, keeps])]
      exact ⟨rfl, rfl⟩

/-- **Linking a pair** writes only what the pair owns. -/
theorem linkPair_spec (prevWhole : 4 ∣ prevOffset) (whole : 4 ∣ offset) (before : prevOffset < offset)
    (links : linkPair options format bits pageBufferStart prevOffset offset = .ok (linked, start)) :
    (∀ i, i < 8 * (pageBufferStart + prevOffset) + format.lead ∨
        8 * (pageBufferStart + offset) + format.lead ≤ i → linked i = bits i) ∧
      PairLinked options format bits linked pageBufferStart prevOffset offset start := by
  have apart : prevOffset + 4 ≤ offset := by omega
  cases format with
  | ptr32 => exact chain32bitPointers_spec prevWhole whole before links
  | ptr32Firmware => cases links
  | ptr64 => exact linkPair_of_linkNext rfl (by decide) rfl rfl apart links
  | ptr64Offset => exact linkPair_of_linkNext rfl (by decide) rfl rfl apart links
  | arm64e => exact linkPair_of_linkNext rfl (by decide) rfl rfl apart links
  | arm64eKernel => exact linkPair_of_linkNext rfl (by decide) rfl rfl apart links
  | arm64eUserland => exact linkPair_of_linkNext rfl (by decide) rfl rfl apart links
  | arm64eUserland24 => exact linkPair_of_linkNext rfl (by decide) rfl rfl apart links
  | arm64eFirmware => exact linkPair_of_linkNext rfl (by decide) rfl rfl apart links

end Pair

end Cctools.OutputFile
