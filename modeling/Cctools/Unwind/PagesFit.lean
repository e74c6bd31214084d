/-
# Cctools.Unwind.PagesFit -- all pages of the unwind info

Every run of the loop ends, with each entry on one page and in order (`Built`), and inside of the
buffer (`Room`): a page that leaves more than two entries takes less than eight bytes and a half for
each of its own.  `pagesFit_iff`: the pages have at most 4096 bytes exactly where no call of the run
overfills its page.
-/
import Cctools.Unwind.OnePage
import Mathlib.Logic.Relation

namespace Cctools.Unwind

set_option autoImplicit false

open Relation

variable {arch : Arch}

/-! ## Runs -/

section Run

variable (common : CommonEncodings arch) (uniqueEntries : List UnwindEntry) (ehFrameSize : Nat)

def Reached (building : Building) : Prop :=
  ReflTransGen (fun s t => buildPage arch common s = some t) (startBuilding uniqueEntries ehFrameSize) building

/-- Entries with their positions, in order. -/
def numbered : List (Nat × UnwindEntry) := (positioned uniqueEntries.reverse).reverse

/-- **The pages fit**: each call consumes an entry, each page has at most 4096 bytes, nothing is
written in front of the buffer or behind the arrays of pages, and the loop ends with every entry
shown once, in order. -/
structure PagesFit : Prop where
  consumes : ∀ s t, Reached common uniqueEntries ehFrameSize s → buildPage arch common s = some t →
    t.ahead.length < s.ahead.length
  small : ∀ s, Reached common uniqueEntries ehFrameSize s → ∀ page ∈ s.pages, page.size ≤ 4096
  inside : ∀ s, Reached common uniqueEntries ehFrameSize s → 0 ≤ s.pageEnd
  arrays : ∀ s, Reached common uniqueEntries ehFrameSize s → s.pages.length ≤ pageCount uniqueEntries.length * 3
  whole : ∃ s, Reached common uniqueEntries ehFrameSize s ∧ buildPage arch common s = none ∧
    List.Forall₂ (Shows arch) (numbered uniqueEntries) (s.pages.flatMap (Page.shown common))

/-- A call at this point overfills its page. -/
def Overfull (building : Building) : Prop :=
  match building.ahead with
  | [] => False
  | info :: before =>
    building.pageSize = 4096 ∧ Overfills common info.funcTentAddress 1021 (info :: before)

end Run

/-! ## One turn -/

section Turn

variable {common : CommonEncodings arch}

theorem buildPage_spec {s t : Building} (turn : buildPage arch common s = some t) (low : 128 ≤ s.pageSize)
    (high : s.pageSize ≤ 4096) :
    ∃ info before count page left, s.ahead = info :: before ∧
      PageResult common s.pageSize info before count page left ∧ t.ahead = left ∧ t.pages = page :: s.pages ∧
      ((s.pageSize ≠ 4096 ∧ left ≠ []) ∧ t.pageSize = 4096 ∧ t.pageEnd = (s.pageEnd - page.size) / 4096 * 4096 ∨
        (s.pageSize = 4096 ∨ left = []) ∧ t.pageSize = s.pageSize ∧ t.pageEnd = s.pageEnd - page.size) := by
  cases ahead : s.ahead with
  | nil => simp [buildPage, ahead] at turn
  | cons info before =>
    obtain ⟨count, result⟩ := @page_result _ common s.pageSize info before low high
    simp only [buildPage, ahead] at turn
    refine ⟨info, before, count, _, _, rfl, result, ?_⟩
    split at turn
    · rename_i odd
      obtain rfl := Option.some.inj turn
      exact ⟨rfl, rfl, .inl ⟨odd, rfl, rfl⟩⟩
    · rename_i even
      obtain rfl := Option.some.inj turn
      refine ⟨rfl, rfl, .inr ⟨?_, rfl, rfl⟩⟩
      by_cases whole : s.pageSize = 4096
      · exact .inl whole
      · exact .inr (by_contra fun some => even ⟨whole, some⟩)

theorem buildPage_none {s : Building} (ends : buildPage arch common s = none) : s.ahead = [] := by
  cases ahead : s.ahead with
  | nil => rfl
  | cons info before =>
    simp only [buildPage, ahead] at ends
    split at ends <;> cases ends

end Turn

/-! ## What every run keeps -/

section Invariant

variable {common : CommonEncodings arch} {uniqueEntries : List UnwindEntry} {ehFrameSize : Nat}

/-- The pages show what is consumed, and they are not for nothing. -/
structure Built (common : CommonEncodings arch) (uniqueEntries : List UnwindEntry) (ehFrameSize : Nat)
    (s : Building) : Prop where
  low : 128 ≤ s.pageSize
  high : s.pageSize ≤ 4096
  content : ∃ done ≤ uniqueEntries.length, s.ahead = uniqueEntries.reverse.drop done ∧
    List.Forall₂ (Shows arch) ((positioned uniqueEntries.reverse).take done).reverse
      (s.pages.flatMap (Page.shown common))
  used : 4100 * ((uniqueEntries.length : Int) - s.ahead.length) ≤
    1022 * ((startBuilding uniqueEntries ehFrameSize).pageEnd - s.pageEnd)

theorem maxLastPageSize_bounds (ehFrameSize : Nat) :
    128 ≤ maxLastPageSize ehFrameSize ∧ maxLastPageSize ehFrameSize ≤ 4096 := by
  unfold maxLastPageSize
  dsimp only
  split <;> omega

theorem built_start : Built common uniqueEntries ehFrameSize (startBuilding uniqueEntries ehFrameSize) where
  low := (maxLastPageSize_bounds ehFrameSize).1
  high := (maxLastPageSize_bounds ehFrameSize).2
  content := ⟨0, Nat.zero_le _, rfl, .nil⟩
  used := by simp [startBuilding]

theorem Built.step {s t : Building} (built : Built common uniqueEntries ehFrameSize s)
    (turn : buildPage arch common s = some t) : Built common uniqueEntries ehFrameSize t := by
  obtain ⟨info, before, count, page, left, ahead, result, rest, pages, moved⟩ :=
    buildPage_spec turn built.low built.high
  obtain ⟨done, within, drop, shows⟩ := built.content
  have fewer := result.within
  have length := congrArg List.length (ahead.symm.trans drop)
  rw [List.length_cons, List.length_drop, List.length_reverse] at length
  have left_length : left.length = before.length + 1 - count := by
    rw [result.left, List.length_drop, List.length_cons]
  have used := built.used
  have large := result.large
  rw [ahead, List.length_cons] at used
  constructor
  · rcases moved with ⟨-, size, -⟩ | ⟨-, size, -⟩
    · omega
    · exact size ▸ built.low
  · rcases moved with ⟨-, size, -⟩ | ⟨-, size, -⟩
    · omega
    · exact size ▸ built.high
  · refine ⟨done + count, by omega, ?_, ?_⟩
    · rw [rest, result.left, ← ahead, drop, List.drop_drop]
    · have here := result.shows
      rw [← ahead, drop, positioned_drop] at here
      rw [pages, List.flatMap_cons, List.take_add, List.reverse_append]
      exact List.rel_append here shows
  · rw [rest, left_length]
    rcases moved with ⟨-, -, size⟩ | ⟨-, -, size⟩ <;> omega

/-- **The buffer has room** for the entries that are left, with more than eight bytes for each; or at
most two are left. -/
def Room (uniqueEntries : List UnwindEntry) (s : Building) : Prop :=
  s.pageSize = 4096 ∧ 4096 * ((s.ahead.length : Int) + 13) ≤ 511 * s.pageEnd ∧
      511 * s.pages.length + s.ahead.length ≤ uniqueEntries.length + 511 ∨
    (s.ahead = [] ∨ s.pageSize = 4096) ∧ s.ahead.length ≤ 2 ∧ 32 * (s.ahead.length : Int) ≤ s.pageEnd ∧
      511 * (s.pages.length + s.ahead.length) ≤ uniqueEntries.length + 511 * 4

theorem start_pageEnd (few : pageCount uniqueEntries.length < 2 ^ 20) :
    (startBuilding uniqueEntries ehFrameSize).pageEnd = (((uniqueEntries.length - 1) / 511 + 2) * 4096 : Nat) := by
  have count : pageCount uniqueEntries.length = (uniqueEntries.length - 1) / 511 + 2 := rfl
  rw [startBuilding, Nat.mod_eq_of_lt (by omega), count]

theorem Room.step {s t : Building} (built : Built common uniqueEntries ehFrameSize s) (room : Room uniqueEntries s)
    (turn : buildPage arch common s = some t) : Room uniqueEntries t := by
  obtain ⟨info, before, count, page, left, ahead, result, rest, pages, moved⟩ :=
    buildPage_spec turn built.low built.high
  have left_length : left.length = before.length + 1 - count := by
    rw [result.left, List.length_drop, List.length_cons]
  have whole : s.pageSize = 4096 := by
    rcases room with ⟨whole, -⟩ | ⟨none | whole, -⟩
    · exact whole
    · rw [ahead] at none
      cases none
    · exact whole
  obtain ⟨size, pageEnd⟩ : t.pageSize = 4096 ∧ t.pageEnd = s.pageEnd - page.size := by
    rcases moved with ⟨⟨odd, -⟩, -⟩ | ⟨-, size, pageEnd⟩
    · exact absurd whole odd
    · exact ⟨size.trans whole, pageEnd⟩
  obtain ⟨positive, within, -, -, small, -, progress, -, -⟩ := result
  unfold Room at room ⊢
  rw [ahead, List.length_cons] at room
  rw [rest, pages, List.length_cons, left_length, pageEnd]
  rcases room with ⟨-, most, turns⟩ | ⟨-, two, some, turns⟩
  · rcases progress with last | ⟨-, more⟩
    · right
      refine ⟨.inr size, ?_, ?_, ?_⟩ <;> omega
    · obtain ⟨many, cheap⟩ := more whole
      left
      refine ⟨size, ?_, ?_⟩ <;> omega
  · right
    refine ⟨.inr size, ?_, ?_, ?_⟩ <;> omega

theorem room_start (few : pageCount uniqueEntries.length < 2 ^ 20)
    (whole : (startBuilding uniqueEntries ehFrameSize).pageSize = 4096) :
    Room uniqueEntries (startBuilding uniqueEntries ehFrameSize) := by
  have pageEnd : (startBuilding uniqueEntries ehFrameSize).pageEnd = _ := start_pageEnd few
  have ahead : (startBuilding uniqueEntries ehFrameSize).ahead.length = uniqueEntries.length := List.length_reverse
  have pages : (startBuilding uniqueEntries ehFrameSize).pages.length = 0 := rfl
  left
  refine ⟨whole, ?_, ?_⟩ <;> omega

/-- The first page may be smaller; behind it the next ends on a boundary. -/
theorem room_first (few : pageCount uniqueEntries.length < 2 ^ 20) {t : Building}
    (odd : (startBuilding uniqueEntries ehFrameSize).pageSize ≠ 4096)
    (turn : buildPage arch common (startBuilding uniqueEntries ehFrameSize) = some t) : Room uniqueEntries t := by
  have built : Built common uniqueEntries ehFrameSize _ := built_start
  obtain ⟨info, before, count, page, left, ahead, result, rest, pages, moved⟩ :=
    buildPage_spec turn built.low built.high
  have start : (startBuilding uniqueEntries ehFrameSize).pageEnd = _ := start_pageEnd few
  have left_length : left.length = before.length + 1 - count := by
    rw [result.left, List.length_drop, List.length_cons]
  have length : uniqueEntries.length = before.length + 1 := by
    have all := congrArg List.length ahead
    rwa [startBuilding, List.length_reverse, List.length_cons] at all
  have none : (startBuilding uniqueEntries ehFrameSize).pages = [] := rfl
  obtain ⟨positive, within, -, -, small, large, progress, ⟨-, bounded⟩, -⟩ := result
  have bounded := bounded odd
  unfold Room
  rw [rest, pages, none, List.length_singleton, left_length]
  rcases moved with ⟨-, size, pageEnd⟩ | ⟨last, -, pageEnd⟩
  · have aligned : t.pageEnd = ((uniqueEntries.length - 1) / 511 + 1 : Nat) * 4096 := by omega
    rcases progress with last | ⟨many, -⟩
    · right
      refine ⟨.inr size, ?_, ?_, ?_⟩ <;> omega
    · left
      refine ⟨size, ?_, ?_⟩ <;> omega
  · obtain rfl := last.resolve_left odd
    rw [List.length_nil] at left_length
    right
    refine ⟨.inl rfl, ?_, ?_, ?_⟩ <;> omega

variable {s : Building}

theorem reached_built (reached : Reached common uniqueEntries ehFrameSize s) :
    Built common uniqueEntries ehFrameSize s := by
  induction reached with
  | refl => exact built_start
  | tail _ turn built => exact built.step turn

theorem reached_room (few : pageCount uniqueEntries.length < 2 ^ 20)
    (reached : Reached common uniqueEntries ehFrameSize s) :
    s = startBuilding uniqueEntries ehFrameSize ∨ Room uniqueEntries s := by
  induction reached with
  | refl => exact .inl rfl
  | @tail s t before turn ih =>
    right
    have built : Built common uniqueEntries ehFrameSize s := reached_built before
    rcases ih with rfl | room
    · by_cases whole : (startBuilding uniqueEntries ehFrameSize).pageSize = 4096
      · exact (room_start few whole).step built turn
      · exact room_first few whole turn
    · exact room.step built turn

/-! ## Every run -/

theorem reached_consumes {s t : Building} (reached : Reached common uniqueEntries ehFrameSize s)
    (turn : buildPage arch common s = some t) : t.ahead.length < s.ahead.length := by
  have built := reached_built reached
  obtain ⟨info, before, count, page, left, ahead, result, rest, -, -⟩ := buildPage_spec turn built.low built.high
  have positive := result.positive
  rw [rest, result.left, ahead, List.length_drop, List.length_cons]
  omega

theorem reached_ends (reached : Reached common uniqueEntries ehFrameSize s) :
    ∃ t, Reached common uniqueEntries ehFrameSize t ∧ buildPage arch common t = none := by
  induction fuel : s.ahead.length using Nat.strong_induction_on generalizing s with
  | _ length ih =>
    subst fuel
    cases turn : buildPage arch common s with
    | none => exact ⟨s, reached, turn⟩
    | some t => exact ih _ (reached_consumes reached turn) (reached.tail turn) rfl

theorem whole_of_none (built : Built common uniqueEntries ehFrameSize s)
    (ends : buildPage arch common s = none) :
    List.Forall₂ (Shows arch) (numbered uniqueEntries) (s.pages.flatMap (Page.shown common)) := by
  obtain ⟨done, within, drop, shows⟩ := built.content
  have all : uniqueEntries.reverse.length ≤ done := by
    rw [buildPage_none ends] at drop
    exact List.drop_eq_nil_iff.mp drop.symm
  rwa [List.take_of_length_le (by rwa [length_positioned])] at shows

theorem buildPage_overfull (reached : Reached common uniqueEntries ehFrameSize s)
    (exceeds : Overfull common s) : ∃ t, buildPage arch common s = some t ∧ ∃ page ∈ t.pages, 4096 < page.size := by
  cases turn : buildPage arch common s with
  | none =>
    rw [Overfull, buildPage_none turn] at exceeds
    exact exceeds.elim
  | some t =>
    have built := reached_built reached
    obtain ⟨info, before, count, page, left, ahead, result, -, pages, -⟩ :=
      buildPage_spec turn built.low built.high
    rw [Overfull, ahead] at exceeds
    exact ⟨t, rfl, page, by simp [pages], result.overfull.mpr exceeds⟩

theorem reached_small (fits : ∀ s, Reached common uniqueEntries ehFrameSize s → ¬ Overfull common s)
    (reached : Reached common uniqueEntries ehFrameSize s) : ∀ page ∈ s.pages, page.size ≤ 4096 := by
  induction reached with
  | refl => simp [startBuilding]
  | @tail s t before turn ih =>
    have built : Built common uniqueEntries ehFrameSize s := reached_built before
    obtain ⟨info, rest, count, page, left, ahead, result, -, pages, -⟩ := buildPage_spec turn built.low built.high
    rw [pages, List.forall_mem_cons]
    refine ⟨Nat.le_of_not_lt fun large => fits s before ?_, ih⟩
    rw [Overfull, ahead]
    exact result.overfull.mp large

/-- A buffer whose size wraps is too small: every entry takes more than four bytes. -/
theorem few_of_inside (built : Built common uniqueEntries ehFrameSize s) (inside : 0 ≤ s.pageEnd)
    (ends : buildPage arch common s = none) : pageCount uniqueEntries.length < 2 ^ 20 := by
  have used := built.used
  have start : (startBuilding uniqueEntries ehFrameSize).pageEnd =
    (pageCount uniqueEntries.length * 4096 % 2 ^ 32 : Nat) := rfl
  have count : pageCount uniqueEntries.length = (uniqueEntries.length - 1) / 511 + 2 := rfl
  rw [buildPage_none ends, List.length_nil, start] at used
  omega

theorem not_pagesFit (exceeds : Overfull common (startBuilding uniqueEntries ehFrameSize)) :
    ¬ PagesFit common uniqueEntries ehFrameSize := by
  intro fit
  obtain ⟨t, turn, page, member, large⟩ := buildPage_overfull .refl exceeds
  exact absurd (fit.small t (.single turn) page member) (Nat.not_le.mpr large)

/-- **When all pages fit**: the size of the buffer does not wrap, and no call that the loop comes to
overfills its page. -/
theorem pagesFit_iff (common : CommonEncodings arch) (uniqueEntries : List UnwindEntry) (ehFrameSize : Nat) :
    PagesFit common uniqueEntries ehFrameSize ↔
      pageCount uniqueEntries.length < 2 ^ 20 ∧
        ∀ s, Reached common uniqueEntries ehFrameSize s → ¬ Overfull common s := by
  constructor
  · intro fit
    obtain ⟨s, reached, ends, -⟩ := fit.whole
    refine ⟨few_of_inside (reached_built reached) (fit.inside s reached) ends, fun s reached exceeds => ?_⟩
    obtain ⟨t, turn, page, member, large⟩ := buildPage_overfull reached exceeds
    have small := fit.small t (reached.tail turn) page member
    omega
  · rintro ⟨few, fits⟩
    refine ⟨fun s t => reached_consumes, fun s => reached_small fits, fun s reached => ?_, fun s reached => ?_, ?_⟩
    · rcases reached_room few reached with rfl | ⟨-, most, -⟩ | ⟨-, -, some, -⟩
      · exact Int.natCast_nonneg _
      · omega
      · omega
    · have count : pageCount uniqueEntries.length = (uniqueEntries.length - 1) / 511 + 2 := rfl
      rcases reached_room few reached with rfl | ⟨-, -, turns⟩ | ⟨-, -, -, turns⟩
      · simp [startBuilding]
      · omega
      · omega
    · obtain ⟨s, reached, ends⟩ : ∃ s, Reached common uniqueEntries ehFrameSize s ∧ buildPage arch common s = none :=
        reached_ends .refl
      exact ⟨s, reached, ends, whole_of_none (reached_built reached) ends⟩

end Invariant

/-! ## A page with one entry too many -/

def twoEncodings : CommonEncodings .x86_64 where
  table := [0x01000000, 0x01000001]
  few := by decide
  nodup := by decide
  noDwarf := List.forall_mem_cons.mpr ⟨by decide, List.forall_mem_singleton.mpr (by decide)⟩

/-- A function of 16 bytes; two encodings take turns. -/
def alternatingEntry (index : Nat) : UnwindEntry where
  func := index
  fde := none
  funcTentAddress := BitVec.ofNat 64 (16 * index)
  encoding := if index % 2 = 0 then 0x01000000 else 0x01000001

def alternating (count : Nat) : List UnwindEntry := (List.range count).map alternatingEntry

theorem alternating_common (index : Nat) : (alternatingEntry index).encoding ∈ twoEncodings.table := by
  unfold alternatingEntry
  dsimp only
  split <;> simp [twoEncodings]

theorem localKey_alternating {count position : Nat} {info : UnwindEntry}
    (member : (position, info) ∈ positioned (alternating count).reverse) :
    localKey twoEncodings (position, info) = none ∧ ∃ index < count, info = alternatingEntry index := by
  have inList : info ∈ (positioned (alternating count).reverse).map (·.2) := List.mem_map_of_mem member
  rw [map_positioned, List.mem_reverse, alternating, List.mem_map] at inList
  obtain ⟨index, less, rfl⟩ := inList
  exact ⟨if_pos (alternating_common index), index, List.mem_range.mp less, rfl⟩

theorem localEncodings_alternating (count taken : Nat) :
    localEncodings twoEncodings (alternating count).reverse taken = ∅ := by
  rw [localEncodings, List.toFinset_eq_empty_iff, List.filterMap_eq_nil_iff]
  rintro ⟨position, info⟩ member
  exact (localKey_alternating (List.mem_of_mem_take member)).1

theorem funcOffset_alternating {last index : Nat} (small : last < 1022) (earlier : index ≤ last) :
    (funcOffsetWithInPage (alternatingEntry last).funcTentAddress (alternatingEntry index)).toNat ≤ 0x00FFFF00 := by
  simp only [funcOffsetWithInPage, alternatingEntry, BitVec.toNat_setWidth, BitVec.toNat_sub, BitVec.toNat_ofNat]
  omega

theorem alternating_succ (count : Nat) :
    (alternating (count + 1)).reverse = alternatingEntry count :: (alternating count).reverse := by
  simp [alternating, List.range_succ]

theorem alternating_overfull {last count : Nat} (next : count = last + 1) (full : count = 1022) :
    Overfull twoEncodings (startBuilding (alternating count) 0) := by
  have ahead : (startBuilding (alternating count) 0).ahead = alternatingEntry last :: (alternating last).reverse := by
    rw [next]
    exact alternating_succ last
  have length : (alternating count).reverse.length = count := by
    rw [List.length_reverse, alternating, List.length_map, List.length_range]
  have exceeds : Overfills twoEncodings (alternatingEntry last).funcTentAddress 1021 (alternating count).reverse := by
    refine ⟨count, le_of_eq length.symm, fun earlier _ => ⟨?_, ?_⟩, ?_, .inl length.symm⟩
    · rintro ⟨position, info⟩ key here needed
      rw [(localKey_alternating (List.mem_of_getElem? here)).1] at needed
      cases needed
    · rintro ⟨position, info⟩ here
      obtain ⟨-, index, less, rfl⟩ := localKey_alternating (List.mem_of_getElem? here)
      exact funcOffset_alternating (by omega) (by omega)
    · rw [slots, localEncodings_alternating, Finset.card_empty]
      omega
  rw [Overfull, ahead]
  refine ⟨rfl, ?_⟩
  rwa [next, alternating_succ] at exceeds

theorem alternating_large {count : Nat} (full : count = 1022) :
    ¬ PagesFit twoEncodings (alternating count) 0 := by
  obtain ⟨last, next⟩ : ∃ last, count = last + 1 := ⟨1021, full⟩
  exact not_pagesFit (alternating_overfull next full)

/-- 1022 entries with common encodings take a page of 4100 bytes. -/
theorem alternating_tooLarge : ¬ PagesFit twoEncodings (alternating 1022) 0 :=
  alternating_large (by decide)

end Cctools.Unwind
