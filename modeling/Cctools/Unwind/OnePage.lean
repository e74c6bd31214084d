/-
# Cctools.Unwind.OnePage -- what a page contains

`page_result`: a call of `makeCompressedSecondLevelPage` consumes at least one entry, its page shows
those it consumes in order, and the page has more than 4096 bytes exactly where they overfill it.
-/
import Cctools.Unwind.PageRoom
import Mathlib.Data.List.Forall2

namespace Cctools.Unwind

set_option autoImplicit false

variable {arch : Arch}

/-! ## What a page shows -/

/-- What a reader of a page finds for an entry. -/
structure Shown where
  func : Nat
  encoding : Option Encoding
  fde : Option Nat
  deriving DecidableEq, Repr

/-- An encoding index is into the common table and then that of the page. -/
def Page.shown (common : CommonEncodings arch) : Page → List Shown
  | regular entries => entries.map fun entry => ⟨entry.func, some entry.encoding, entry.fde⟩
  | compressed entries encodings _ => entries.map fun entry =>
    ⟨entry.func, (common.table ++ encodings)[entry.encodingIndex]?, entry.fde⟩

/-- The entry at a position, by its encoding or the pseudo encoding that stands for it. -/
structure Shows (arch : Arch) (entry : Nat × UnwindEntry) (shown : Shown) : Prop where
  func : shown.func = entry.2.func
  encoding : shown.encoding = some entry.2.encoding ∨ shown.encoding = some (pageEncoding arch entry.1 entry.2)
  fde : shown.fde = fdeOf arch entry.2

theorem getElem?_idxOf {table : List Encoding} {enc : Encoding} (member : enc ∈ table) :
    table[table.idxOf enc]? = some enc := by
  rw [List.getElem?_eq_getElem (List.idxOf_lt_length_of_mem member), List.getElem_idxOf]

section Lookup

variable {common : CommonEncodings arch} {encodings : List Encoding}

theorem lookup_common {enc : Encoding} (member : enc ∈ common.table) :
    (common.table ++ encodings)[common.table.idxOf enc % 256]? = some enc := by
  have few := common.few
  have inside := List.idxOf_lt_length_of_mem member
  rw [Nat.mod_eq_of_lt (by omega), List.getElem?_append_left inside, getElem?_idxOf member]

theorem lookup_local {enc : Encoding} (indexed : common.table.length + encodings.length ≤ 256)
    (member : enc ∈ encodings) :
    (common.table ++ encodings)[(common.table.length + encodings.idxOf enc) % 256]? = some enc := by
  have inside := List.idxOf_lt_length_of_mem member
  rw [Nat.mod_eq_of_lt (by omega), List.getElem?_append_right (by omega), Nat.add_sub_cancel_left,
    getElem?_idxOf member]

/-- **The index of an entry** leads to its encoding. -/
theorem lookup_encodingIndex {ahead : List UnwindEntry} {count : Nat}
    (indexed : common.table.length + encodings.length ≤ 256)
    (covered : localEncodings common ahead count ⊆ encodings.toFinset) {entry : Nat × UnwindEntry}
    (member : entry ∈ (positioned ahead).take count) :
    (common.table ++ encodings)[encodingIndex arch common encodings entry]? =
      some (pageEncoding arch entry.1 entry.2) := by
  have placed : entry.2.encoding ∉ common.table → pageEncoding arch entry.1 entry.2 ∈ encodings := by
    intro notCommon
    refine List.mem_toFinset.mp (covered ?_)
    rw [localEncodings, List.mem_toFinset, List.mem_filterMap]
    exact ⟨entry, member, if_neg notCommon⟩
  unfold encodingIndex
  split
  · rename_i dwarf
    have notCommon : entry.2.encoding ∉ common.table := fun inCommon => by
      rw [common.noDwarf _ inCommon] at dwarf
      cases dwarf
    exact lookup_local indexed (placed notCommon)
  · rename_i plain
    have same : pageEncoding arch entry.1 entry.2 = entry.2.encoding := if_neg plain
    rw [same] at placed ⊢
    split
    · rename_i inCommon
      exact lookup_common inCommon
    · rename_i notCommon
      exact lookup_local indexed (placed notCommon)

end Lookup

theorem shows_regular (common : CommonEncodings arch) (entries : List (Nat × UnwindEntry)) :
    List.Forall₂ (Shows arch) entries
      ((Page.regular (entries.map fun entry => regularEntry arch entry.2)).shown common) := by
  rw [Page.shown, List.map_map, List.forall₂_map_right_iff]
  exact List.forall₂_same.mpr fun entry _ => ⟨rfl, .inl rfl, rfl⟩

theorem shows_compressed {common : CommonEncodings arch} {encodings : List Encoding} {ahead : List UnwindEntry}
    {count : Nat} (indexed : common.table.length + encodings.length ≤ 256)
    (covered : localEncodings common ahead count ⊆ encodings.toFinset) (pad : Nat) :
    List.Forall₂ (Shows arch) ((positioned ahead).take count).reverse
      ((Page.compressed (((positioned ahead).take count).reverse.map (compressedEntry arch common encodings))
        encodings pad).shown common) := by
  rw [Page.shown, List.map_map, List.forall₂_map_right_iff]
  refine List.forall₂_same.mpr fun entry member => ⟨rfl, .inr ?_, rfl⟩
  exact lookup_encodingIndex indexed covered (List.mem_reverse.mp member)

/-! ## One call -/

/-- What a call of `makeCompressedSecondLevelPage` comes to that consumes `count` entries. -/
structure PageResult (common : CommonEncodings arch) (pageSize : Nat) (info : UnwindEntry) (before : List UnwindEntry)
    (count : Nat) (page : Page) (left : List UnwindEntry) : Prop where
  positive : 1 ≤ count
  within : count ≤ before.length + 1
  left : left = (info :: before).drop count
  shows : List.Forall₂ (Shows arch) ((positioned (info :: before)).take count).reverse (page.shown common)
  small : page.size ≤ 8 * count + 24
  large : 4100 * count ≤ 1022 * page.size
  progress : before.length + 1 ≤ count + 2 ∨
    13 ≤ count ∧ (pageSize = 4096 → 511 ≤ count ∧ 511 * page.size ≤ 4096 * count)
  bounded : page.size ≤ 4100 ∧ (pageSize ≠ 4096 → page.size ≤ 4096)
  overfull : 4096 < page.size ↔ pageSize = 4096 ∧ Overfills common info.funcTentAddress 1021 (info :: before)

variable {common : CommonEncodings arch} {pageSize : Nat} {info : UnwindEntry} {before : List UnwindEntry}

/-- A regular page is made where more entries are left than it takes, or it takes them all. -/
theorem regular_result (low : 128 ≤ pageSize) (high : pageSize ≤ 4096)
    (fits : ¬ (pageSize = 4096 ∧ Overfills common info.funcTentAddress 1021 (info :: before))) :
    ∃ count, PageResult common pageSize info before count
      (makeRegularSecondLevelPage arch pageSize (info :: before)).1
      (makeRegularSecondLevelPage arch pageSize (info :: before)).2 := by
  generalize count_eq : (if maxEntriesPerPage pageSize < (info :: before).length then maxEntriesPerPage pageSize
    else (info :: before).length) = count
  have many : maxEntriesPerPage pageSize = (pageSize - 8) / 8 := rfl
  have made : makeRegularSecondLevelPage arch pageSize (info :: before) =
      (.regular (((info :: before).take count).reverse.map (regularEntry arch)), (info :: before).drop count) := by
    rw [makeRegularSecondLevelPage, count_eq]
  rw [List.length_cons] at count_eq
  have within : count ≤ before.length + 1 := by split at count_eq <;> omega
  have size :
      (Page.regular (((info :: before).take count).reverse.map (regularEntry arch))).size = 8 + count * 8 := by
    rw [Page.size, List.length_map, List.length_reverse, List.length_take, List.length_cons, Nat.min_eq_left within]
  have shown : ((info :: before).take count).reverse.map (regularEntry arch) =
      ((positioned (info :: before)).take count).reverse.map fun entry => regularEntry arch entry.2 := by
    conv_lhs => rw [← @map_positioned (info :: before)]
    rw [← List.map_take, ← List.map_reverse, List.map_map]
    rfl
  have bound : count ≤ (pageSize - 8) / 8 := by split at count_eq <;> omega
  refine ⟨count, ?_⟩
  rw [made]
  dsimp only
  constructor
  · split at count_eq <;> omega
  · exact within
  · rfl
  · rw [shown]
    exact shows_regular common _
  · omega
  · omega
  · split at count_eq <;> omega
  · omega
  · exact ⟨fun impossible => by omega, fun exceeds => absurd exceeds fits⟩

theorem compressed_size (entries : List CompressedEntry) (pass : FirstPass) (pad : Nat)
    (count : entries.length = pass.entryCount) :
    (Page.compressed entries pass.pageSpecificEncodings pad).size = pass.used + pad := by
  rw [Page.size, FirstPass.used, count]

/-- **One call** consumes entries, shows them, and overfills its page exactly where they do. -/
theorem page_result (low : 128 ≤ pageSize) (high : pageSize ≤ 4096) :
    ∃ count, PageResult common pageSize info before count
      (makeCompressedSecondLevelPage arch common pageSize info before).1
      (makeCompressedSecondLevelPage arch common pageSize info before).2 := by
  have result := @firstPass_result _ common ((pageSize - 12) / 4) info before (by omega)
  generalize found :
    firstPass arch common info.funcTentAddress ((pageSize - 12) / 4) (info :: before) {} = pair at result
  obtain ⟨pass, left⟩ := pair
  obtain ⟨positive, within, few, indexed, room, allButTwo, covered, overfills⟩ := result
  dsimp only at positive within few indexed room allButTwo covered overfills
  have full : pageSize = 4096 → (pageSize - 12) / 4 = 1021 := by omega
  have used : pass.used = 12 + pass.pageSpecificEncodings.length * 4 + pass.entryCount * 4 := rfl
  have many : maxEntriesPerPage pageSize = (pageSize - 8) / 8 := rfl
  rw [makeCompressedSecondLevelPage, found]
  dsimp only
  split
  · rename_i better
    refine regular_result low high ?_
    rintro ⟨whole, exceeds⟩
    rw [← full whole, ← overfills] at exceeds
    omega
  · rename_i compressed
    refine ⟨pass.entryCount, ?_⟩
    have last : left = [] ∨ left ≠ [] := em _
    have kept : left = [] ∨ pageSize - 4 ≤ pass.used ∨ maxEntriesPerPage pageSize ≤ pass.entryCount := by
      by_contra other
      exact compressed (by
        obtain ⟨some, other⟩ := not_or.mp other
        obtain ⟨short, fewer⟩ := not_or.mp other
        exact ⟨by omega, some, by omega⟩)
    have size := compressed_size (((positioned (info :: before)).take pass.entryCount).reverse.map
      (compressedEntry arch common pass.pageSpecificEncodings)) pass (if pass.used = pageSize - 4 then 4 else 0)
      (by simpa using within)
    constructor
    · exact positive
    · exact within
    · rfl
    · exact shows_compressed indexed covered _
    · rw [size]
      split <;> omega
    · rw [size]
      split <;> omega
    · rcases kept with none | enough
      · exact .inl (allButTwo none)
      · rw [size]
        right
        split <;> omega
    · rw [size]
      split <;> omega
    · rw [size]
      constructor
      · intro exceeds
        have whole : pageSize = 4096 := by split at exceeds <;> omega
        refine ⟨whole, ?_⟩
        rw [← full whole, ← overfills]
        split at exceeds <;> omega
      · rintro ⟨whole, exceeds⟩
        rw [← full whole, ← overfills] at exceeds
        split <;> omega

end Cctools.Unwind
