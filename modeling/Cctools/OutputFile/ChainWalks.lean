/-
# Cctools.OutputFile.ChainWalks -- walking the chains of a segment

Starting at the starts the table gives for a page and following `next`, one comes
to every fixup of the page once.  A page is linked pair by pair (`linkPage_spec`),
and a pair owns its part of the memory, so what later pages do is not seen.  In
the table a page with several starts has its own run of slots in the overflow area
(`overflowSlot`).

`linkSegment_visits`: so it is for every segment of every format, as long as the
starts and the numbers of the slots fit beside the flags of a 16-bit entry.  The
writer does not check the latter; `linkSegment_loses_slots` is a segment of 4 MB
whose last pages are read from the slots of others.
-/
import Cctools.OutputFile.ChainLinks
import Mathlib.Algebra.BigOperators.Group.List.Basic

namespace Cctools.OutputFile

set_option autoImplicit false

open Cctools.Theory
open Cctools.Theory.BitMemory

/-! ## The chains of a page -/

theorem PointerFormat.next_bounds (format : PointerFormat) :
    format.lead ≤ format.nextStart ∧ format.nextStart + format.nextWidth ≤ format.lead + 32 := by
  cases format <;> decide

section Page

variable {options : ChainOptions} {format : PointerFormat} {orig last : Bits}
variable {pageBufferStart size : Nat}

theorem next_of_unlinked {offset : Nat}
    (unlinked : get orig (8 * (pageBufferStart + offset) + format.nextStart) format.nextWidth = 0)
    (same : ∀ i, 8 * (pageBufferStart + offset) + format.lead ≤ i →
      i < 8 * (pageBufferStart + offset) + format.lead + 32 → last i = orig i) :
    format.next last (pageBufferStart + offset) = none := by
  obtain ⟨after, before⟩ := format.next_bounds
  apply PointerFormat.next_of_zero
  rw [get_congr fun i above below => same i (by omega) (by omega), unlinked]

/-- The walks from the first fixup of a page and from the later starts. -/
structure PageWalks (options : ChainOptions) (format : PointerFormat) (orig last : Bits)
    (isFixup : Nat → Bool) (starts locations : List Nat) (walks : List (List Nat)) : Prop where
  follows : List.Forall₂ (Walk (format.next last)) starts walks
  fixups : walks.flatten.filter isFixup = locations
  extras : ∀ loc ∈ walks.flatten, isFixup loc = false → format = .ptr32 ∧
    nonPointer (BitVec.ofNat 32 options.maxRebase) last loc = some (get orig (8 * loc) 32)

theorem PageWalks.join {isFixup : Nat → Bool} {a b : Nat} {starts locations stones : List Nat}
    {walks : List (List Nat)} (fixup : isFixup a = true)
    (leads : Leads (format.next last) a stones b)
    (between : ∀ stone ∈ stones, isFixup stone = false ∧ format = .ptr32 ∧
      nonPointer (BitVec.ofNat 32 options.maxRebase) last stone = some (get orig (8 * stone) 32))
    (rest : PageWalks options format orig last isFixup (b :: starts) locations walks) :
    ∃ more, PageWalks options format orig last isFixup (a :: starts) (a :: locations) more := by
  obtain ⟨follows, fixups, extras⟩ := rest
  cases follows with
  | @cons _ first _ others walk walks =>
    have skipped : stones.filter isFixup = [] :=
      List.filter_eq_nil_iff.mpr fun stone member => by simp [(between stone member).1]
    refine ⟨(a :: stones ++ first) :: others, .cons (leads.walk walk) walks, ?_, ?_⟩
    · rw [List.flatten_cons] at fixups ⊢
      rw [List.append_assoc, List.cons_append, List.filter_cons_of_pos fixup, List.filter_append,
        skipped, List.nil_append, fixups]
    · intro loc member extra
      rw [List.flatten_cons, List.append_assoc, List.cons_append, List.mem_cons, List.mem_append]
        at member
      rcases member with rfl | stone | later
      · rw [fixup] at extra
        cases extra
      · exact (between loc stone).2
      · exact extras loc (by rwa [List.flatten_cons]) extra

theorem PageWalks.begin {isFixup : Nat → Bool} {a : Nat} {starts locations : List Nat}
    {walks : List (List Nat)} (fixup : isFixup a = true) (ends : format.next last a = none)
    (rest : PageWalks options format orig last isFixup starts locations walks) :
    PageWalks options format orig last isFixup (a :: starts) (a :: locations) ([a] :: walks) := by
  obtain ⟨follows, fixups, extras⟩ := rest
  refine ⟨.cons (.last ends) follows, ?_, ?_⟩
  · rw [List.flatten_cons, List.singleton_append, List.filter_cons_of_pos fixup, fixups]
  · intro loc member extra
    rw [List.flatten_cons, List.singleton_append, List.mem_cons] at member
    rcases member with rfl | later
    · rw [fixup] at extra
      cases extra
    · exact extras loc later extra

/-- **Linking a page**, pair by pair: the new starts are the fixups that do not continue a chain,
and from them the walks come to every fixup once. -/
theorem linkPage_spec {a : Nat} {rest overflows : List Nat} {bits linked : Bits}
    (sorted : (a :: rest).Pairwise (· < ·)) (whole : ∀ offset ∈ a :: rest, 4 ∣ offset)
    (inside : ∀ offset ∈ a :: rest, offset + 4 ≤ size)
    (same : ∀ i, 8 * (pageBufferStart + a) + format.lead ≤ i → bits i = orig i)
    (unlinked : ∀ offset ∈ a :: rest,
      get orig (8 * (pageBufferStart + offset) + format.nextStart) format.nextWidth = 0)
    (links : linkPage options format pageBufferStart bits (a :: rest) = .ok (linked, overflows)) :
    (∀ i, i < 8 * (pageBufferStart + a) + format.lead ∨
        8 * (pageBufferStart + size) + format.lead ≤ i → linked i = bits i) ∧
      overflows = headsFrom (joined options format orig pageBufferStart) a rest ∧
      ∀ last : Bits, (∀ i, 8 * (pageBufferStart + a) + format.lead ≤ i →
          i < 8 * (pageBufferStart + size) + format.lead → last i = linked i) →
        ∀ isFixup : Nat → Bool, (∀ offset ∈ a :: rest, isFixup (pageBufferStart + offset) = true) →
          (∀ loc, isFixup loc = true → loc ≤ pageBufferStart + a ∨ ∃ offset ∈ rest,
            loc = pageBufferStart + offset) →
          ∃ walks, PageWalks options format orig last isFixup
            ((a :: overflows).map (pageBufferStart + ·)) ((a :: rest).map (pageBufferStart + ·)) walks := by
  induction rest generalizing a bits overflows with
  | nil =>
    obtain ⟨rfl, rfl⟩ := Prod.mk.inj (Except.ok.inj links)
    have room := inside a List.mem_cons_self
    refine ⟨fun _ _ => rfl, rfl, fun last agrees isFixup fixup _ => ⟨[[pageBufferStart + a]], ?_⟩⟩
    refine PageWalks.begin (fixup a List.mem_cons_self) ?_ ⟨.nil, rfl, by simp⟩
    exact next_of_unlinked (unlinked a List.mem_cons_self) fun i above below =>
      (agrees i above (by omega)).trans (same i above)
  | cons b rest ih =>
    obtain ⟨⟨middle, start⟩, pairLinks, after⟩ := ok_of_bind links
    obtain ⟨⟨final, later⟩, restLinks, both⟩ := ok_of_map after
    obtain ⟨rfl, rfl⟩ := Prod.mk.inj both
    rw [List.pairwise_cons] at sorted
    have before := sorted.1 b List.mem_cons_self
    have wholeA := whole a List.mem_cons_self
    have wholeB := whole b (List.mem_cons_of_mem _ List.mem_cons_self)
    have roomB := inside b (List.mem_cons_of_mem _ List.mem_cons_self)
    obtain ⟨frame, pair⟩ := linkPair_spec wholeA wholeB before pairLinks
    obtain ⟨frames, starts, walked⟩ := ih sorted.2
      (fun offset member => whole offset (List.mem_cons_of_mem _ member))
      (fun offset member => inside offset (List.mem_cons_of_mem _ member))
      (fun i above => (frame i (.inr above)).trans (same i (by omega)))
      (fun offset member => unlinked offset (List.mem_cons_of_mem _ member)) restLinks
    refine ⟨fun i apart => ?_, ?_, fun last agrees isFixup fixup others => ?_⟩
    · rw [frames i (by omega), frame i (by omega)]
    · rw [headsFrom, ← starts, ← joined_congr wholeA wholeB same]
      rw [PairLinked] at pair
      split at pair
      · rename_i together
        rw [if_pos together, pair.1]
        rfl
      · rename_i apart
        rw [if_neg apart, pair.1]
        rfl
    · obtain ⟨walks, pageWalks⟩ := walked last (fun i above below => agrees i (by omega) below) isFixup
        (fun offset member => fixup offset (List.mem_cons_of_mem _ member)) (by
          intro loc isOne
          rcases others loc isOne with low | ⟨offset, member, rfl⟩
          · exact .inl (by omega)
          · rcases List.mem_cons.mp member with rfl | member
            · exact .inl le_rfl
            · exact .inr ⟨offset, member, rfl⟩)
      have isA := fixup a List.mem_cons_self
      rw [PairLinked] at pair
      split at pair
      · obtain ⟨rfl, leads⟩ := pair
        obtain ⟨stones, leads, between⟩ := leads last fun i above below =>
          (agrees i above (by omega)).trans (frames i (.inl below))
        refine PageWalks.join isA leads (fun stone isStone => ?_) pageWalks
        obtain ⟨low, high, is32, value⟩ := between stone isStone
        refine ⟨?_, is32, ?_⟩
        · rw [Bool.eq_false_iff]
          intro isOne
          rcases others stone isOne with outside | ⟨offset, member, rfl⟩
          · omega
          · rcases List.mem_cons.mp member with rfl | member
            · omega
            · have := (List.pairwise_cons.mp sorted.2).1 offset member
              omega
        · subst is32
          rw [value, get_congr fun i above _ => same i (by simp only [PointerFormat.lead]; omega)]
      · obtain ⟨rfl, rfl⟩ := pair
        refine ⟨_, PageWalks.begin isA ?_ pageWalks⟩
        exact next_of_unlinked (unlinked a List.mem_cons_self) fun i above below => by
          rw [agrees i above (by omega), frames i (.inl (by omega)), same i above]

end Page

/-! ## The flags of an entry -/

section Flags

variable {x : BitVec 16}

theorem multi_eq : ptrStartMulti = BitVec.twoPow 16 15 := by decide

theorem last_eq : ptrStartLast = BitVec.twoPow 16 15 := by decide

theorem getLsbD_of_small (small : x.toNat < 2 ^ 15) : x.getLsbD 15 = false :=
  Nat.testBit_lt_two_pow small

theorem toNat_ofNat_small {n : Nat} (small : n < 2 ^ 15) : (BitVec.ofNat 16 n).toNat = n := by
  rw [BitVec.toNat_ofNat, Nat.mod_eq_of_lt (by omega)]

theorem and_flag_of_small (small : x.toNat < 2 ^ 15) : x &&& BitVec.twoPow 16 15 = 0 := by
  rw [BitVec.and_twoPow, getLsbD_of_small small]
  rfl

theorem or_flag_and_flag : (x ||| BitVec.twoPow 16 15) &&& BitVec.twoPow 16 15 ≠ 0 := by
  rw [BitVec.and_twoPow, BitVec.getLsbD_or, BitVec.getLsbD_twoPow]
  simp

theorem clear_flag (small : x.toNat < 2 ^ 15) : x &&& ~~~ BitVec.twoPow 16 15 = x := by
  apply BitVec.eq_of_getLsbD_eq
  intro i inside
  rw [BitVec.getLsbD_and, BitVec.getLsbD_not, BitVec.getLsbD_twoPow]
  by_cases flag : i = 15
  · rw [flag, getLsbD_of_small small]
    rfl
  · simp [inside, Ne.symm flag]

theorem or_flag_clear_flag (small : x.toNat < 2 ^ 15) :
    (x ||| BitVec.twoPow 16 15) &&& ~~~ BitVec.twoPow 16 15 = x := by
  apply BitVec.eq_of_getLsbD_eq
  intro i inside
  rw [BitVec.getLsbD_and, BitVec.getLsbD_not, BitVec.getLsbD_or, BitVec.getLsbD_twoPow]
  by_cases flag : i = 15
  · rw [flag, getLsbD_of_small small]
    rfl
  · simp [inside, Ne.symm flag]

theorem lt_of_flag (clear : x.getLsbD 15 = false) : x.toNat < 2 ^ 15 := by
  refine Nat.lt_pow_two_of_testBit _ fun i high => ?_
  rw [BitVec.testBit_toNat]
  by_cases flag : i = 15
  · rw [flag, clear]
  · exact BitVec.getLsbD_of_ge x i (by omega)

theorem and_not_flag_lt : (x &&& ~~~ BitVec.twoPow 16 15).toNat < 2 ^ 15 := lt_of_flag (by simp)

theorem lt_of_and_flag (clear : x &&& BitVec.twoPow 16 15 = 0) : x.toNat < 2 ^ 15 :=
  lt_of_flag (by simpa using congrArg (BitVec.getLsbD · 15) clear)

end Flags

/-! ## The slots of a page -/

/-- The entries for the starts of a page. -/
def Entered (pageStart : StartsTable) (slot : Nat) (starts : List Nat) : Prop :=
  ∀ i start, starts[i]? = some start → pageStart (slot + i) =
    if i + 1 = starts.length then BitVec.ofNat 16 start ||| ptrStartLast else BitVec.ofNat 16 start

/-- What the table holds for a page with these starts. -/
def Tabled (pageStart : StartsTable) (pageIndex slot : Nat) : List Nat → Prop
  | [] => pageStart pageIndex = ptrStartNone
  | [first] => pageStart pageIndex = BitVec.ofNat 16 first
  | starts => pageStart pageIndex = ptrStartMulti ||| BitVec.ofNat 16 slot ∧
      Entered pageStart slot starts

section Slots

variable {pageStart : StartsTable} {pageIndex slot back : Nat}

theorem recordOverflows_marked {overflows : List Nat}
    (marked : pageStart pageIndex &&& ptrStartMulti ≠ 0) (own : pageIndex < slot) :
    (recordOverflows pageIndex back pageStart slot overflows).2 = slot + overflows.length ∧
      (∀ j, j < slot ∨ slot + overflows.length ≤ j →
        (recordOverflows pageIndex back pageStart slot overflows).1 j = pageStart j) ∧
      ∀ i start, overflows[i]? = some start →
        (recordOverflows pageIndex back pageStart slot overflows).1 (slot + i) =
          if start = back then BitVec.ofNat 16 start ||| ptrStartLast else BitVec.ofNat 16 start := by
  induction overflows generalizing pageStart slot with
  | nil => exact ⟨rfl, fun _ _ => rfl, by simp⟩
  | cons first rest ih =>
    rw [recordOverflows]
    simp only [if_neg marked]
    generalize entry : (if first = back then BitVec.ofNat 16 first ||| ptrStartLast
      else BitVec.ofNat 16 first) = value
    obtain ⟨next, frame, entries⟩ := @ih (Function.update pageStart slot value) (slot + 1)
      (by rwa [Function.update_of_ne (by omega)]) (by omega)
    refine ⟨by rw [next, List.length_cons]; omega, fun j apart => ?_, fun i start found => ?_⟩
    · rw [List.length_cons] at apart
      rw [frame j (by omega), Function.update_of_ne (by omega)]
    · cases i with
      | zero =>
        obtain rfl : first = start := by simpa using found
        rw [frame _ (by omega), Nat.add_zero, Function.update_self, entry]
      | succ i =>
        rw [← entries i start (by simpa using found), Nat.add_right_comm, Nat.add_assoc]

/-- **Recording the overflows of a page**: its own entry names the slot, the start it held is
moved there, and the others follow. -/
theorem recordOverflows_spec {first : Nat} {overflows : List Nat} (some_ : overflows ≠ [])
    (own : pageIndex < slot) (held : pageStart pageIndex = BitVec.ofNat 16 first)
    (small : first < 2 ^ 15) (distinct : (first :: overflows).Nodup)
    (isLast : overflows.getLast? = some back) :
    (recordOverflows pageIndex back pageStart slot overflows).2 = slot + (overflows.length + 1) ∧
      (∀ j, j ≠ pageIndex → j < slot ∨ slot + (overflows.length + 1) ≤ j →
        (recordOverflows pageIndex back pageStart slot overflows).1 j = pageStart j) ∧
      Tabled (recordOverflows pageIndex back pageStart slot overflows).1 pageIndex slot
        (first :: overflows) := by
  cases overflows with
  | nil => exact absurd rfl some_
  | cons second rest =>
    have fresh : pageStart pageIndex &&& ptrStartMulti = 0 := by
      rw [held, multi_eq]
      exact and_flag_of_small (by rwa [toNat_ofNat_small small])
    rw [recordOverflows]
    simp only [if_pos fresh]
    generalize entry : (if second = back then BitVec.ofNat 16 second ||| ptrStartLast
      else BitVec.ofNat 16 second) = value
    generalize moved : Function.update (Function.update pageStart pageIndex
      (ptrStartMulti ||| BitVec.ofNat 16 slot)) slot (pageStart pageIndex) = table
    have atOwn : (Function.update table (slot + 1) value) pageIndex
        = ptrStartMulti ||| BitVec.ofNat 16 slot := by
      rw [Function.update_of_ne (by omega), ← moved, Function.update_of_ne (by omega),
        Function.update_self]
    obtain ⟨next, frame, entries⟩ := @recordOverflows_marked (Function.update table (slot + 1) value)
      pageIndex (slot + 1 + 1) back rest (by
        rw [atOwn, multi_eq, BitVec.or_comm]
        exact or_flag_and_flag) (by omega)
    have unique : ∀ i start, (first :: second :: rest)[i]? = some start →
        (start = back ↔ i + 1 = (first :: second :: rest).length) := by
      intro i start found
      have last : (first :: second :: rest)[(first :: second :: rest).length - 1]? = some back := by
        rw [← List.getLast?_eq_getElem?, List.getLast?_cons_cons]
        exact isLast
      have below : i < (first :: second :: rest).length := (List.getElem?_eq_some_iff.mp found).1
      constructor
      · rintro rfl
        have := (List.getElem?_inj below distinct).mp (found.trans last.symm)
        rw [this, List.length_cons]
        rfl
      · intro isEnd
        rw [← isEnd, Nat.add_sub_cancel] at last
        exact Option.some.inj (found.symm.trans last)
    refine ⟨by rw [next]; simp only [List.length_cons]; omega, fun j other apart => ?_, ?_, ?_⟩
    · simp only [List.length_cons] at apart
      rw [frame j (by omega), Function.update_of_ne (by omega), ← moved,
        Function.update_of_ne (by omega), Function.update_of_ne other]
    · rw [frame _ (by omega), atOwn]
    · intro i start found
      have rule := unique i start found
      match i, found with
      | 0, found =>
        obtain rfl : first = start := by simpa using found
        refine (frame slot (by omega)).trans ?_
        rw [Function.update_of_ne (by omega), ← moved, Function.update_self, held,
          if_neg (by simp)]
      | 1, found =>
        obtain rfl : second = start := by simpa using found
        rw [frame _ (by omega), Function.update_self, ← entry]
        exact if_congr rule rfl rfl
      | i + 2, found =>
        have read := entries i start (by simpa using found)
        rw [show slot + (i + 2) = slot + 1 + 1 + i by omega, read]
        exact if_congr rule rfl rfl

variable {starts : List Nat}

theorem overflowStarts_of_entered (some_ : starts ≠ [])
    (small : ∀ start ∈ starts, start < 2 ^ 15) (entered : Entered pageStart slot starts) :
    overflowStarts pageStart starts.length slot = some starts := by
  induction starts generalizing slot with
  | nil => exact absurd rfl some_
  | cons first rest ih =>
    have here := entered 0 first rfl
    have fits := small first List.mem_cons_self
    have value := toNat_ofNat_small fits
    rw [Nat.add_zero] at here
    rw [List.length_cons, overflowStarts]
    cases rest with
    | nil =>
      have last : pageStart slot = BitVec.ofNat 16 first ||| BitVec.twoPow 16 15 := here
      rw [last, last_eq, if_pos or_flag_and_flag, or_flag_clear_flag (by rwa [value]), value]
    | cons second rest =>
      have more : pageStart slot = BitVec.ofNat 16 first := here.trans (if_neg (by simp))
      rw [more, last_eq, if_neg (not_not.mpr (and_flag_of_small (by rwa [value]))),
        clear_flag (by rwa [value]), value, ih (by simp)
          (fun start member => small start (List.mem_cons_of_mem _ member)) ?_]
      · rfl
      · intro i start found
        have later := entered (i + 1) start (by simpa using found)
        rw [show slot + 1 + i = slot + (i + 1) by omega, later]
        simp

/-- **Reading the starts of a page** whose slot is a number beside the flags, and not the mark of
a page without fixups. -/
theorem pageStarts_of_tabled (small : ∀ start ∈ starts, start < 2 ^ 15)
    (slots : 1 < starts.length → slot < 2 ^ 15 - 1) (tabled : Tabled pageStart pageIndex slot starts) :
    ∃ fuel, pageStarts pageStart fuel pageIndex = some starts := by
  match starts, tabled with
  | [], tabled => exact ⟨0, by rw [pageStarts, tabled]; rfl⟩
  | [first], tabled =>
    have fits := small first List.mem_cons_self
    have value := toNat_ofNat_small fits
    refine ⟨0, ?_⟩
    rw [pageStarts, tabled]
    rw [if_neg, multi_eq, if_neg (not_not.mpr (and_flag_of_small (by rwa [value]))), value]
    intro none_
    have := congrArg BitVec.toNat none_
    rw [value] at this
    simp [ptrStartNone] at this
    omega
  | first :: second :: rest, ⟨named, entered⟩ =>
    have fits := slots (by simp)
    have value : (BitVec.ofNat 16 slot).toNat = slot := toNat_ofNat_small (by omega)
    refine ⟨(first :: second :: rest).length, ?_⟩
    rw [pageStarts, named, multi_eq, BitVec.or_comm]
    rw [if_neg, if_pos or_flag_and_flag, or_flag_clear_flag (by rw [value]; omega), value,
      overflowStarts_of_entered (by simp) small entered]
    intro none_
    have cleared := @or_flag_clear_flag (BitVec.ofNat 16 slot) (by rw [value]; omega)
    rw [none_] at cleared
    have := congrArg BitVec.toNat cleared
    rw [value] at this
    simp [ptrStartNone] at this
    omega

theorem overflowStarts_small {fuel : Nat} (read : overflowStarts pageStart fuel slot = some starts) :
    ∀ start ∈ starts, start < 2 ^ 15 := by
  induction fuel generalizing slot starts with
  | zero => cases read
  | succ fuel ih =>
    have here : (pageStart slot &&& ~~~ ptrStartLast).toNat < 2 ^ 15 := by
      rw [last_eq]
      exact and_not_flag_lt
    rw [overflowStarts] at read
    split at read
    · obtain rfl := Option.some.inj read
      simpa using here
    · obtain ⟨rest, later, rfl⟩ := Option.map_eq_some_iff.mp read
      exact List.forall_mem_cons.mpr ⟨here, ih later⟩

theorem pageStarts_small {fuel : Nat} (read : pageStarts pageStart fuel pageIndex = some starts) :
    ∀ start ∈ starts, start < 2 ^ 15 := by
  rw [pageStarts] at read
  split at read
  · obtain rfl := Option.some.inj read
    nofun
  · split at read
    · exact overflowStarts_small read
    · rename_i clear
      obtain rfl := Option.some.inj read
      intro start member
      rw [List.mem_singleton.mp member]
      rw [not_not, multi_eq] at clear
      exact lt_of_and_flag clear

end Slots

/-! ## The chains of a segment -/

section Segment

variable (options : ChainOptions) (segment : FixupSegment) (bits : Bits)

def FixupSegment.locations {segment : FixupSegment} (pageIndex : Nat)
    (page : FixupPage segment.pointerFormat segment.pageSize) : List Nat :=
  page.fixupOffsets.map (pageIndex * segment.pageSize + ·)

/-- The fixups of a page that begin a chain. -/
def chainStarts (pageIndex : Nat) : List Nat :=
  match segment.pages[pageIndex]? with
  | none => []
  | some page => heads (joined options segment.pointerFormat bits (pageIndex * segment.pageSize))
      page.fixupOffsets

/-- The entries a page takes of the overflow area. -/
def slotsTaken (starts : List Nat) : Nat := if 1 < starts.length then starts.length else 0

/-- The first entry of the overflow area that is left for a page. -/
def overflowSlot (pageIndex : Nat) : Nat :=
  segment.pages.length +
    ((List.range pageIndex).map fun earlier => slotsTaken (chainStarts options segment bits earlier)).sum

/-- `setFixup64`, `setFixup64e` and `setFixup32` write every pointer with `next` 0. -/
def Unlinked : Prop :=
  ∀ pageIndex page, segment.pages[pageIndex]? = some page → ∀ offset ∈ page.fixupOffsets,
    get bits (8 * (pageIndex * segment.pageSize + offset) + segment.pointerFormat.nextStart)
      segment.pointerFormat.nextWidth = 0

/-- The offsets that are written into the table leave the flag of an entry clear. -/
def SmallStarts : Prop :=
  ∀ pageIndex < segment.pages.length, ∀ start ∈ chainStarts options segment bits pageIndex, start < 2 ^ 15

variable {options segment bits}

theorem overflowSlot_succ (pageIndex : Nat) : overflowSlot options segment bits (pageIndex + 1)
    = overflowSlot options segment bits pageIndex
      + slotsTaken (chainStarts options segment bits pageIndex) := by
  rw [overflowSlot, overflowSlot, List.range_succ, List.map_append, List.sum_append, Nat.add_assoc]
  simp

theorem length_le_overflowSlot (pageIndex : Nat) :
    segment.pages.length ≤ overflowSlot options segment bits pageIndex := Nat.le_add_right _ _

variable {page : FixupPage segment.pointerFormat segment.pageSize}

/-- One page: the links, the entries of the table, and what is left alone. -/
theorem page_spec {state linked : LinkState} {pageIndex : Nat} {links : Bits × List Nat}

    (found : segment.pages[pageIndex]? = some page) (small : SmallStarts options segment bits)
    (unlinked : Unlinked segment bits)
    (same : ∀ i, 8 * (pageIndex * segment.pageSize) + segment.pointerFormat.lead ≤ i →
      state.bits i = bits i)
    (held : state.pageStart pageIndex = segment.pageStart pageIndex)
    (slot : state.nextOverflowSlot = overflowSlot options segment bits pageIndex)
    (isLinked : linkPage options segment.pointerFormat (pageIndex * segment.pageSize) state.bits
      page.fixupOffsets = .ok links)
    (recorded : recordPage options segment state pageIndex links = .ok linked) :
    (∀ i, i < 8 * (pageIndex * segment.pageSize) + segment.pointerFormat.lead ∨
        8 * ((pageIndex + 1) * segment.pageSize) + segment.pointerFormat.lead ≤ i →
      linked.bits i = state.bits i) ∧
    (∀ j, j ≠ pageIndex → j < state.nextOverflowSlot ∨ linked.nextOverflowSlot ≤ j →
      linked.pageStart j = state.pageStart j) ∧
    linked.nextOverflowSlot = overflowSlot options segment bits (pageIndex + 1) ∧
    Tabled linked.pageStart pageIndex (overflowSlot options segment bits pageIndex)
      (chainStarts options segment bits pageIndex) ∧
    ∀ last : Bits, (∀ i, 8 * (pageIndex * segment.pageSize) + segment.pointerFormat.lead ≤ i →
        i < 8 * ((pageIndex + 1) * segment.pageSize) + segment.pointerFormat.lead →
        last i = linked.bits i) →
      ∃ walks, PageWalks options segment.pointerFormat bits last
        (fun loc => loc ∈ FixupSegment.locations pageIndex page)
        ((chainStarts options segment bits pageIndex).map (pageIndex * segment.pageSize + ·))
        (FixupSegment.locations pageIndex page) walks := by
  obtain ⟨mid, overflows⟩ := links
  have listed := List.mem_of_getElem? found
  have inTable : pageIndex < segment.pages.length := (List.getElem?_eq_some_iff.mp found).1
  have smallHere := small pageIndex inTable
  have atLeast := @length_le_overflowSlot options segment bits pageIndex
  have taken := @overflowSlot_succ options segment bits pageIndex
  have next : (pageIndex + 1) * segment.pageSize
      = pageIndex * segment.pageSize + segment.pageSize := Nat.succ_mul _ _
  rw [next]
  generalize startsAre : chainStarts options segment bits pageIndex = starts at taken smallHere ⊢
  rw [chainStarts, found] at startsAre
  rw [FixupSegment.pageStart, found] at held
  have unlinkedHere := unlinked pageIndex page found
  unfold FixupSegment.locations
  obtain ⟨offsets, sorted, aligned, inside⟩ := page
  dsimp only at startsAre held isLinked unlinkedHere ⊢
  have quarter : 4 ∣ segment.pointerFormat.stride := by
    cases segment.pointerFormat <;> decide
  cases offsets with
  | nil =>
    obtain ⟨rfl, rfl⟩ := Prod.mk.inj (Except.ok.inj isLinked)
    obtain rfl := Except.ok.inj recorded
    obtain rfl : [] = starts := startsAre
    refine ⟨fun _ _ => rfl, fun _ _ _ => rfl, by rw [slot, taken]; rfl, held, fun last _ => ⟨[], ?_⟩⟩
    exact ⟨.nil, rfl, by simp⟩
  | cons first rest =>
    have whole : ∀ offset ∈ first :: rest, 4 ∣ offset := fun offset member =>
      quarter.trans (aligned offset member)
    obtain ⟨frame, overflowsAre, walks⟩ := @linkPage_spec options segment.pointerFormat bits
      (pageIndex * segment.pageSize) segment.pageSize first rest overflows state.bits mid sorted whole
      (fun offset member => by
        have := whole offset member
        have := inside offset member
        have := segment.whole
        omega)
      (fun i above => same i (by omega)) unlinkedHere isLinked
    rw [heads, ← overflowsAre] at startsAre
    have walked := fun last agrees => walks last agrees
      (fun loc => loc ∈ (first :: rest).map (pageIndex * segment.pageSize + ·))
      (fun offset member => by simpa using member)
      (fun loc isOne => by
        obtain ⟨offset, member, rfl⟩ := List.mem_map.mp (of_decide_eq_true isOne)
        rcases List.mem_cons.mp member with rfl | member
        · exact .inl le_rfl
        · exact .inr ⟨offset, member, rfl⟩)
    rw [startsAre] at walked
    rw [recordPage] at recorded
    cases isLast : overflows.getLast? with
    | none =>
      simp only [isLast] at recorded
      obtain rfl := Except.ok.inj recorded
      obtain rfl : overflows = [] := List.getLast?_eq_none_iff.mp isLast
      obtain rfl : [first] = starts := startsAre
      refine ⟨fun i apart => frame i (by omega), fun _ _ _ => rfl, ?_, held, fun last agrees =>
        walked last fun i above below => agrees i (by omega) below⟩
      rw [slot, taken]
      rfl
    | some back =>
      simp only [isLast] at recorded
      split at recorded
      · obtain rfl := Except.ok.inj recorded
        have some_ : overflows ≠ [] := by
          rintro rfl
          cases isLast
        have sub : (first :: overflows).Sublist (first :: rest) := by
          rw [overflowsAre]
          exact (headsFrom_sublist _ _ _).cons_cons _
        obtain ⟨nextSlot, frames, tabled⟩ := @recordOverflows_spec state.pageStart
          pageIndex state.nextOverflowSlot back first overflows some_ (by omega) held
          (smallHere first (startsAre ▸ List.mem_cons_self))
          ((sorted.imp fun below => ne_of_lt below).sublist sub) isLast
        have count : slotsTaken starts = overflows.length + 1 := by
          rw [← startsAre, slotsTaken, if_pos]
          · rfl
          · rw [List.length_cons]
            have := List.length_pos_of_ne_nil some_
            omega
        refine ⟨fun i apart => frame i (by omega), fun j other apart => frames j other (by
          rw [nextSlot] at apart
          exact apart), ?_, ?_, fun last agrees =>
          walked last fun i above below => agrees i (by omega) below⟩
        · rw [nextSlot, taken, count, slot]
        · rw [← startsAre, ← slot]
          exact tabled
      · cases recorded

theorem Tabled.congr {pageStart other : StartsTable} {pageIndex slot : Nat} {starts : List Nat}
    (tabled : Tabled pageStart pageIndex slot starts) (own : other pageIndex = pageStart pageIndex)
    (slots : ∀ j, slot ≤ j → j < slot + slotsTaken starts → other j = pageStart j) :
    Tabled other pageIndex slot starts := by
  match starts, tabled with
  | [], tabled => exact own.trans tabled
  | [first], tabled => exact own.trans tabled
  | first :: second :: rest, ⟨named, entered⟩ =>
    refine ⟨own.trans named, fun i start found => ?_⟩
    have below := (List.getElem?_eq_some_iff.mp found).1
    rw [slots _ (by omega) (by rw [slotsTaken, if_pos (by simp)]; omega)]
    exact entered i start found

/-- **All pages**: each has its entries in the table and its walks, whatever the others do. -/
theorem linkPages_spec {state linked : LinkState} {pageIndex : Nat}
    {rest : List (FixupPage segment.pointerFormat segment.pageSize)}
    (left : segment.pages.drop pageIndex = rest) (small : SmallStarts options segment bits)
    (unlinked : Unlinked segment bits)
    (same : ∀ i, 8 * (pageIndex * segment.pageSize) + segment.pointerFormat.lead ≤ i →
      state.bits i = bits i)
    (held : ∀ j, pageIndex ≤ j → j < segment.pages.length → state.pageStart j = segment.pageStart j)
    (slot : state.nextOverflowSlot = overflowSlot options segment bits pageIndex)
    (links : linkPages options segment state pageIndex rest = .ok linked) :
    (∀ i, i < 8 * (pageIndex * segment.pageSize) + segment.pointerFormat.lead →
      linked.bits i = state.bits i) ∧
    (∀ j, j < segment.pages.length ∧ j < pageIndex ∨
        segment.pages.length ≤ j ∧ j < state.nextOverflowSlot →
      linked.pageStart j = state.pageStart j) ∧
    ∀ m page, pageIndex ≤ m → segment.pages[m]? = some page →
      Tabled linked.pageStart m (overflowSlot options segment bits m)
        (chainStarts options segment bits m) ∧
      ∃ walks, PageWalks options segment.pointerFormat bits linked.bits
        (fun loc => loc ∈ FixupSegment.locations m page)
        ((chainStarts options segment bits m).map (m * segment.pageSize + ·))
        (FixupSegment.locations m page) walks := by
  induction rest generalizing state pageIndex with
  | nil =>
    obtain rfl := Except.ok.inj links
    refine ⟨fun _ _ => rfl, fun _ _ => rfl, fun m page later found => ?_⟩
    have short := List.drop_eq_nil_iff.mp left
    have := (List.getElem?_eq_some_iff.mp found).1
    omega
  | cons page rest ih =>
    obtain ⟨pageLinks, isLinked, more⟩ := ok_of_bind links
    obtain ⟨middle, recorded, after⟩ := ok_of_bind more
    have found : segment.pages[pageIndex]? = some page := by
      rw [← List.head?_drop, left]
      rfl
    have below := (List.getElem?_eq_some_iff.mp found).1
    obtain ⟨frame, tableFrame, nextSlot, tabled, walked⟩ := page_spec found small unlinked same
      (held pageIndex le_rfl below) slot isLinked recorded
    have atLeast := @length_le_overflowSlot options segment bits pageIndex
    have taken := @overflowSlot_succ options segment bits pageIndex
    have grows : pageIndex * segment.pageSize ≤ (pageIndex + 1) * segment.pageSize :=
      Nat.mul_le_mul_right _ (Nat.le_succ _)
    obtain ⟨bitsKept, tableKept, others⟩ := @ih middle (pageIndex + 1)
      (by rw [← List.drop_drop, left]; rfl)
      (fun i above => (frame i (.inr above)).trans (same i (by omega)))
      (fun j later inside => by
        rw [tableFrame j (by omega) (.inl (by omega))]
        exact held j (by omega) inside)
      nextSlot after
    refine ⟨fun i low => ?_, fun j either => ?_, fun m other later foundOther => ?_⟩
    · rw [bitsKept i (by omega), frame i (.inl low)]
    · rw [tableKept j (by omega), tableFrame j (by omega) (.inl (by omega))]
    · rcases Nat.eq_or_lt_of_le later with rfl | later
      · obtain rfl : page = other := Option.some.inj (found.symm.trans foundOther)
        refine ⟨tabled.congr (tableKept _ (by omega)) fun j above inside => tableKept j (by omega), ?_⟩
        exact walked _ fun i above inside => bitsKept i inside
      · exact others m other later foundOther

variable (options segment bits)

/-- What a reader finds on a page: from the starts in the table the walks come to every fixup
once, and what else they come to is a non-pointer that can be told and restored.  A page of a
64-bit format has one start, and nothing but fixups is visited. -/
structure Visited (linked : LinkState) (pageIndex : Nat)
    (page : FixupPage segment.pointerFormat segment.pageSize) (starts : List Nat)
    (walks : List (List Nat)) : Prop where
  starts_ : ∃ fuel, pageStarts linked.pageStart fuel pageIndex = some starts
  follows : List.Forall₂ (Walk (segment.pointerFormat.next linked.bits))
    (starts.map (pageIndex * segment.pageSize + ·)) walks
  fixups : walks.flatten.filter (· ∈ FixupSegment.locations pageIndex page)
    = FixupSegment.locations pageIndex page
  extras : ∀ loc ∈ walks.flatten, loc ∉ FixupSegment.locations pageIndex page →
    segment.pointerFormat = .ptr32 ∧
      nonPointer (BitVec.ofNat 32 options.maxRebase) linked.bits loc = some (get bits (8 * loc) 32)
  straight : segment.pointerFormat ≠ .ptr32 → starts = page.fixupOffsets.take 1 ∧
    walks.flatten = FixupSegment.locations pageIndex page

/-- So it is on every page. -/
def AllVisited (linked : LinkState) : Prop :=
  ∀ pageIndex page, segment.pages[pageIndex]? = some page →
    ∃ starts walks, Visited options segment bits linked pageIndex page starts walks

/-- The slots of every page with several starts have a number that fits beside the flag of its
entry. -/
def SmallSlots : Prop :=
  ∀ pageIndex < segment.pages.length, 1 < (chainStarts options segment bits pageIndex).length →
    overflowSlot options segment bits pageIndex < 2 ^ 15 - 1

variable {options segment bits}

theorem headsFrom_of_joined {α : Type} {together : α → α → Bool} (always : ∀ x y, together x y = true)
    (a : α) (rest : List α) : headsFrom together a rest = [] := by
  induction rest generalizing a with
  | nil => rfl
  | cons b rest ih => rw [headsFrom, if_pos (always a b), ih b, List.append_nil]

theorem chainStarts_straight (wide : segment.pointerFormat ≠ .ptr32) {pageIndex : Nat}

    (found : segment.pages[pageIndex]? = some page) :
    chainStarts options segment bits pageIndex = page.fixupOffsets.take 1 := by
  have always : ∀ a b, joined options segment.pointerFormat bits (pageIndex * segment.pageSize) a b = true := by
    intro a b
    unfold joined
    split
    · rename_i is32
      exact absurd is32 wide
    · rfl
  rw [chainStarts, found]
  dsimp only
  cases page.fixupOffsets with
  | nil => rfl
  | cons first rest => rw [heads, headsFrom_of_joined always]; rfl

/-- **Chains are walked as they were planned**: a segment of any format that was linked gives a
reader the fixups of each of its pages, each of them once, if the starts and the numbers of the
overflow slots fit beside the flags of the table; and for a 64-bit format only if they do. -/
theorem linkSegment_visits {linked : LinkState} (unlinked : Unlinked segment bits)
    (links : linkSegment options segment bits = .ok linked) :
    (SmallStarts options segment bits ∧ SmallSlots options segment bits → AllVisited options segment bits linked) ∧
      (segment.pointerFormat ≠ .ptr32 → AllVisited options segment bits linked →
        SmallStarts options segment bits ∧ SmallSlots options segment bits) := by
  constructor
  · rintro ⟨small, slots⟩ pageIndex page found
    obtain ⟨-, -, pages⟩ := @linkPages_spec options segment bits ⟨bits, segment.pageStart, _⟩ linked 0 _ rfl
      small unlinked (fun _ _ => rfl) (fun _ _ _ => rfl) rfl links
    obtain ⟨tabled, walks, follows, fixups, extras⟩ := pages pageIndex page (Nat.zero_le _) found
    have below := (List.getElem?_eq_some_iff.mp found).1
    refine ⟨_, walks, pageStarts_of_tabled (small pageIndex below)
      (slots pageIndex below) tabled, follows, fixups, fun loc member extra => ?_, fun wide => ?_⟩
    · exact extras loc member (decide_eq_false extra)
    · refine ⟨chainStarts_straight wide found, ?_⟩
      rw [← fixups, List.filter_eq_self.mpr]
      intro loc member
      by_contra other
      exact wide (extras loc member (Bool.not_eq_true _ ▸ other)).1
  · intro wide visited
    have page {pageIndex : Nat} (below : pageIndex < segment.pages.length) :
        ∃ page, segment.pages[pageIndex]? = some page := ⟨_, List.getElem?_eq_getElem below⟩
    refine ⟨fun pageIndex below start member => ?_, fun pageIndex below several => ?_⟩
    · obtain ⟨page, found⟩ := page below
      obtain ⟨starts, walks, ⟨fuel, read⟩, -, -, -, straight⟩ := visited pageIndex page found
      rw [chainStarts_straight wide found, ← (straight wide).1] at member
      exact pageStarts_small read start member
    · obtain ⟨page, found⟩ := page below
      rw [chainStarts_straight wide found, List.length_take] at several
      omega

end Segment

theorem get_zero (start n : Nat) : get (fun _ => false) start n = 0 := by
  apply BitVec.eq_of_getLsbD_eq
  intro i inside
  rw [getLsbD_get _ inside]
  simp

/-- A page of a 32-bit image with two chains. -/
def twoChains : FixupSegment := ⟨.ptr32, 0x1000, [⟨[0, 8, 200], by decide, by decide, by decide⟩], by decide⟩

theorem linkSegment_visits_overflow : ∃ linked,
    linkSegment ⟨false, false, 0x500000⟩ twoChains (fun _ => false) = .ok linked ∧
      AllVisited ⟨false, false, 0x500000⟩ twoChains (fun _ => false) linked := by
  refine ⟨_, rfl, (linkSegment_visits (fun _ _ _ _ _ => get_zero _ _) rfl).1 ⟨?_, ?_⟩⟩
  · intro pageIndex below
    obtain rfl : pageIndex = 0 := by
      simp [twoChains] at below
      omega
    decide
  · intro pageIndex below _
    obtain rfl : pageIndex = 0 := by
      simp [twoChains] at below
      omega
    decide

/-! ## A segment with too many slots -/

/-- A pointer every 128 bytes, which is too far for `next`: 32 starts on every page. -/
def sparsePage : FixupPage .ptr32 0x1000 where
  fixupOffsets := (List.range 32).map (128 * ·)
  sorted := by decide
  aligned := by decide
  inside := by decide

def sparseSegment (pages : Nat) : FixupSegment :=
  ⟨.ptr32, 0x1000, List.replicate pages sparsePage, by decide⟩

def sparseOptions : ChainOptions := ⟨false, false, 0x500000⟩

section Sparse

theorem linkPage_succeeds {options : ChainOptions} (keeps : options.stealPointersFixupChains = false)
    (pageBufferStart : Nat) (bits : Bits) (offsets : List Nat) :
    ∃ linked, linkPage options .ptr32 pageBufferStart bits offsets = .ok linked ∧
      linked.2.length ≤ offsets.length := by
  induction offsets generalizing bits with
  | nil => exact ⟨_, rfl, le_rfl⟩
  | cons a rest ih =>
    cases rest with
    | nil => exact ⟨_, rfl, Nat.zero_le _⟩
    | cons b rest =>
      obtain ⟨pair, links⟩ : ∃ pair, linkPair options .ptr32 bits pageBufferStart a b = .ok pair := by
        simp only [linkPair, chain32bitPointers, keeps]
        split
        · exact ⟨_, rfl⟩
        · exact ⟨_, rfl⟩
      obtain ⟨others, later, few⟩ := ih pair.1
      refine ⟨(others.1, pair.2.toList ++ others.2), ?_, ?_⟩
      · rw [linkPage, links]
        simp only [Except.bind, later, Except.map]
      · rw [List.length_append, List.length_cons]
        have : pair.2.toList.length ≤ 1 := by cases pair.2 <;> simp
        omega

theorem recordOverflows_slot_le (pageIndex back : Nat) (pageStart : StartsTable) (slot : Nat)
    (overflows : List Nat) :
    (recordOverflows pageIndex back pageStart slot overflows).2 ≤ slot + 2 * overflows.length := by
  induction overflows generalizing pageStart slot with
  | nil => exact le_rfl
  | cons first rest ih =>
    rw [recordOverflows, List.length_cons]
    refine (ih _ _).trans ?_
    split <;> dsimp only <;> omega

theorem recordPage_succeeds {options : ChainOptions} {segment : FixupSegment} (state : LinkState)
    (pageIndex : Nat) (linked : Bits × List Nat)
    (room : state.nextOverflowSlot + 2 * linked.2.length ≤ maxOverFlowCount options segment) :
    ∃ next, recordPage options segment state pageIndex linked = .ok next ∧
      next.nextOverflowSlot ≤ state.nextOverflowSlot + 2 * linked.2.length := by
  rw [recordPage]
  split
  · exact ⟨_, rfl, Nat.le_add_right _ _⟩
  · rename_i back _
    have slot := recordOverflows_slot_le pageIndex back state.pageStart state.nextOverflowSlot linked.2
    exact ⟨_, if_pos (slot.trans room), slot⟩

variable {pages : Nat}

theorem sparse_room (most : pages ≤ 1000) :
    maxOverFlowCount sparseOptions (sparseSegment pages) = 127 * pages := by
  have count : (sparseSegment pages).pages.length = pages := List.length_replicate
  have bytes : sparseOptions.startBytesPerPage (sparseSegment pages).pointerFormat = 256 := rfl
  have size : (22 + pages * 256) % 2 ^ 32 = 22 + pages * 256 := Nat.mod_eq_of_lt (by omega)
  have pageCount : pages % 2 ^ 16 = pages := Nat.mod_eq_of_lt (by omega)
  have rest : 22 + pages * 256 + 2 ^ 64 - (22 + 2 * pages) = 254 * pages + 2 ^ 64 := by omega
  rw [maxOverFlowCount, count, bytes, size, pageCount, rest, Nat.add_mod_right,
    Nat.mod_eq_of_lt (show 254 * pages < 2 ^ 64 by omega), Nat.mod_eq_of_lt (by omega)]
  omega

theorem linkPages_sparse (most : pages ≤ 1000) (state : LinkState) (pageIndex n : Nat)
    (room : state.nextOverflowSlot + 64 * n ≤ 127 * pages) :
    ∃ linked, linkPages sparseOptions (sparseSegment pages) state pageIndex
      (List.replicate n (sparsePage : FixupPage .ptr32 0x1000)) = .ok linked := by
  induction n generalizing state pageIndex with
  | zero => exact ⟨_, rfl⟩
  | succ n ih =>
    have max := sparse_room most
    obtain ⟨links, isLinked, few⟩ := @linkPage_succeeds sparseOptions rfl
      (pageIndex * 0x1000) state.bits sparsePage.fixupOffsets
    have count : sparsePage.fixupOffsets.length = 32 := by decide
    obtain ⟨next, recorded, slot⟩ :=
      @recordPage_succeeds sparseOptions (sparseSegment pages) state pageIndex links (by omega)
    obtain ⟨linked, later⟩ := ih next (pageIndex + 1) (by omega)
    refine ⟨linked, ?_⟩
    have step : linkPages sparseOptions (sparseSegment pages) state pageIndex
        (List.replicate (n + 1) (sparsePage : FixupPage .ptr32 0x1000))
        = (linkPage sparseOptions .ptr32 (pageIndex * 0x1000) state.bits sparsePage.fixupOffsets).bind
          fun links => (recordPage sparseOptions (sparseSegment pages) state pageIndex links).bind
            fun state => linkPages sparseOptions (sparseSegment pages) state (pageIndex + 1)
              (List.replicate n (sparsePage : FixupPage .ptr32 0x1000)) := rfl
    rw [step, isLinked]
    change (recordPage sparseOptions (sparseSegment pages) state pageIndex links).bind _ = _
    rw [recorded]
    exact later

variable {pageIndex : Nat}

theorem sparse_page (below : pageIndex < pages) :
    (sparseSegment pages).pages[pageIndex]? = some sparsePage := by
  have listed : (List.replicate pages sparsePage)[pageIndex]? = some sparsePage := by
    rw [List.getElem?_replicate, if_pos below]
  exact listed

theorem sparse_starts (below : pageIndex < pages) :
    chainStarts sparseOptions (sparseSegment pages) (fun _ => false) pageIndex
      = sparsePage.fixupOffsets := by
  rw [chainStarts, sparse_page below]
  rfl

theorem sparse_slot (atMost : pageIndex ≤ pages) :
    overflowSlot sparseOptions (sparseSegment pages) (fun _ => false) pageIndex
      = pages + 32 * pageIndex := by
  induction pageIndex with
  | zero => exact List.length_replicate
  | succ pageIndex ih =>
    rw [overflowSlot_succ, ih (by omega), sparse_starts (by omega)]
    have taken : slotsTaken sparsePage.fixupOffsets = 32 := by decide
    omega

theorem sparsePage_small : ∀ offset ∈ sparsePage.fixupOffsets, offset < 2 ^ 15 := by decide

theorem sparse_entry {linked : LinkState} (below : pageIndex < pages)
    (links : linkSegment sparseOptions (sparseSegment pages) (fun _ => false) = .ok linked) :
    linked.pageStart pageIndex = ptrStartMulti ||| BitVec.ofNat 16 (pages + 32 * pageIndex) := by
  obtain ⟨-, -, all⟩ := @linkPages_spec sparseOptions (sparseSegment pages) (fun _ => false)
    ⟨fun _ => false, (sparseSegment pages).pageStart, _⟩ linked 0 _ rfl
    (fun page inside => by
      rw [sparse_starts (inside.trans_eq List.length_replicate)]
      exact sparsePage_small)
    (fun _ _ _ _ _ => get_zero _ _) (fun _ _ => rfl) (fun _ _ _ => rfl) rfl links
  have tabled := (all pageIndex sparsePage (Nat.zero_le _) (sparse_page below)).1
  rw [sparse_starts below, sparse_slot (by omega)] at tabled
  exact tabled.1

theorem walk_forward {format : PointerFormat} {bits : Bits} {start loc : Nat} {visited : List Nat}
    (walk : Walk (format.next bits) start visited) (member : loc ∈ visited) : start ≤ loc := by
  induction walk with
  | last _ => exact (List.mem_singleton.mp member).ge
  | step go _ ih =>
    rcases List.mem_cons.mp member with rfl | later
    · exact le_rfl
    · refine le_trans ?_ (ih later)
      rw [PointerFormat.next] at go
      split at go
      · cases go
      · rw [← Option.some.inj go]
        exact Nat.le_add_right _ _

/-- The slots of page 993 begin at 32776, which its entry cannot hold: it is read from entry 8,
the one of another page, as a chain from offset 1256. -/
theorem linkSegment_loses_slots :
    Unlinked (sparseSegment 1000) (fun _ => false) ∧ ∃ linked,
      linkSegment sparseOptions (sparseSegment 1000) (fun _ => false) = .ok linked ∧
      ¬ AllVisited sparseOptions (sparseSegment 1000) (fun _ => false) linked := by
  refine ⟨fun _ _ _ _ _ => get_zero _ _, ?_⟩
  obtain ⟨linked, links⟩ := linkPages_sparse (le_refl 1000)
    ⟨fun _ => false, (sparseSegment 1000).pageStart, 1000⟩ 0 1000 (by decide)
  have whole : linkSegment sparseOptions (sparseSegment 1000) (fun _ => false) = .ok linked := by
    rw [linkSegment]
    have count : (sparseSegment 1000).pages.length = 1000 := List.length_replicate
    rw [count]
    exact links
  refine ⟨linked, whole, fun all => ?_⟩
  obtain ⟨starts, walks, visited⟩ := all 993 sparsePage (sparse_page (by decide))
  have own : linked.pageStart 993 = 0x8008 := (sparse_entry (by decide) whole).trans (by decide)
  have other : linked.pageStart 8 = 0x84E8 := (sparse_entry (by decide) whole).trans (by decide)
  have read : starts = [1256] := by
    obtain ⟨fuel, read⟩ := visited.starts_
    rw [pageStarts, own] at read
    cases fuel with
    | zero => cases read
    | succ fuel =>
      have entry : overflowStarts linked.pageStart (fuel + 1) 8 = some [1256] := by
        rw [overflowStarts, other]
        rfl
      exact (Option.some.inj (entry.symm.trans read)).symm
  have first : 993 * 0x1000 ∈ walks.flatten := by
    have member : 993 * 0x1000 ∈ walks.flatten.filter
        (· ∈ @FixupSegment.locations (sparseSegment 1000) 993 sparsePage) := by
      rw [visited.fixups]
      decide
    exact (List.mem_filter.mp member).1
  have follows := visited.follows
  rw [read] at follows
  cases follows with
  | cons walk rest =>
    cases rest with
    | nil =>
      rw [List.flatten_singleton] at first
      have forward := walk_forward walk first
      exact absurd forward (by decide)

end Sparse

end Cctools.OutputFile
