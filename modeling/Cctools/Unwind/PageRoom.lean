/-
# Cctools.Unwind.PageRoom -- how much a compressed page takes

The first pass gets through entries (`Passed`) up to one that does not enter: its encoding has no
index, its offset is too big, or the page is full.  The check for room comes after the encoding of an
entry got its slot, and before the entry itself has one, so a page can be one slot too large:
`Overfills` says in terms of the entries when it is.
-/
import Cctools.Unwind.Pages
import Mathlib.Data.Finset.Card
import Mathlib.Data.Finset.Option

namespace Cctools.Unwind

set_option autoImplicit false

variable {arch : Arch}

/-! ## The encodings of some entries -/

section Keys

variable (common : CommonEncodings arch) (ahead : List UnwindEntry)

local instance encodingLawful : LawfulBEq Encoding := inferInstance

/-- The encoding a page must have for an entry: none if it is a common one. -/
def localKey (entry : Nat × UnwindEntry) : Option Encoding :=
  if entry.2.encoding ∈ common.table then none else some (pageEncoding arch entry.1 entry.2)

/-- The encodings that a page needs for the last `count` entries. -/
def localEncodings (count : Nat) : Finset Encoding :=
  (((positioned ahead).take count).filterMap (localKey common)).toFinset

/-- An entry whose encoding has an index, after `count` others. -/
def FitsIndex (count : Nat) : Prop :=
  ∀ entry key, (positioned ahead)[count]? = some entry → localKey common entry = some key →
    key ∈ localEncodings common ahead count ∨ common.table.length + (localEncodings common ahead count).card ≤ 255

/-- An entry that is near enough to the last. -/
def FitsOffset (lastEntryAddress : BitVec 64) (count : Nat) : Prop :=
  ∀ entry, (positioned ahead)[count]? = some entry →
    (funcOffsetWithInPage lastEntryAddress entry.2).toNat ≤ 0x00FFFF00

/-- What the page takes with `count` entries, in words of four bytes. -/
def slots (count : Nat) : Nat := (localEncodings common ahead count).card + count

end Keys

section Lists

variable {common : CommonEncodings arch} {ahead : List UnwindEntry}

@[simp] theorem length_positioned : (positioned ahead).length = ahead.length := by
  induction ahead with
  | nil => rfl
  | cons info before ih => simp [positioned, ih]

theorem positioned_drop (count : Nat) : positioned (ahead.drop count) = (positioned ahead).drop count := by
  induction ahead generalizing count with
  | nil => simp [positioned]
  | cons info before ih =>
    cases count with
    | zero => rfl
    | succ count => exact ih count

theorem map_positioned : (positioned ahead).map (·.2) = ahead := by
  induction ahead with
  | nil => rfl
  | cons info before ih => simp [positioned, ih]

theorem positioned_of_drop {count : Nat} {info : UnwindEntry} {before : List UnwindEntry}
    (here : ahead.drop count = info :: before) : (positioned ahead)[count]? = some (before.length, info) := by
  have first : ((positioned ahead).drop count)[0]? = some (before.length, info) := by
    rw [← positioned_drop, here]
    rfl
  simpa using first

theorem localEncodings_succ {count : Nat} {entry : Nat × UnwindEntry}
    (here : (positioned ahead)[count]? = some entry) :
    localEncodings common ahead (count + 1) =
      localEncodings common ahead count ∪ (localKey common entry).toFinset := by
  rw [localEncodings, List.take_add_one, here, List.filterMap_append, List.toFinset_append]
  congr 1
  cases key : localKey common entry <;> simp [key]

theorem localEncodings_mono {short long : Nat} (le : short ≤ long) :
    localEncodings common ahead short ⊆ localEncodings common ahead long := by
  intro key member
  simp only [localEncodings, List.mem_toFinset, List.mem_filterMap] at member ⊢
  obtain ⟨entry, taken, is⟩ := member
  exact ⟨entry, (List.take_subset_take_left _ le) taken, is⟩

variable (common ahead) in
theorem card_localEncodings_le (count : Nat) : (localEncodings common ahead count).card ≤ count :=
  le_trans (List.toFinset_card_le _) (le_trans (List.length_filterMap_le _ _) (List.length_take_le _ _))

end Lists

/-! ## The first pass -/

section Pass

variable {common : CommonEncodings arch} {lastEntryAddress : BitVec 64} {space4 : Nat} {ahead : List UnwindEntry}

/-- An entry at which the first pass does not end. -/
structure Enters (common : CommonEncodings arch) (lastEntryAddress : BitVec 64) (space4 : Nat)
    (ahead : List UnwindEntry) (count : Nat) : Prop where
  index : FitsIndex common ahead count
  offset : FitsOffset ahead lastEntryAddress count
  room : (localEncodings common ahead (count + 1)).card + count ≤ space4

/-- What the first pass has after `count` entries, none of which ended it. -/
structure Passed (common : CommonEncodings arch) (lastEntryAddress : BitVec 64) (space4 : Nat)
    (ahead : List UnwindEntry) (count : Nat) (pass : FirstPass) : Prop where
  within : count ≤ ahead.length
  entered : ∀ earlier < count, Enters common lastEntryAddress space4 ahead earlier
  entryCount : pass.entryCount = count
  canDo : pass.canDo = true
  nodup : pass.pageSpecificEncodings.Nodup
  encodings : pass.pageSpecificEncodings.toFinset = localEncodings common ahead count
  indexed : common.table.length + pass.pageSpecificEncodings.length ≤ 256

variable {count : Nat} {pass : FirstPass}

theorem Passed.length (passed : Passed common lastEntryAddress space4 ahead count pass) :
    pass.pageSpecificEncodings.length = (localEncodings common ahead count).card := by
  rw [← passed.encodings, List.toFinset_card_of_nodup passed.nodup]

theorem passed_start : Passed common lastEntryAddress space4 ahead 0 {} where
  within := Nat.zero_le _
  entered := fun _ impossible => absurd impossible (Nat.not_lt_zero _)
  entryCount := rfl
  canDo := rfl
  nodup := List.nodup_nil
  encodings := rfl
  indexed := by
    have few := common.few
    simp only [List.length_nil]
    omega

variable {entry : Nat × UnwindEntry}

theorem placeEncoding_fits (passed : Passed common lastEntryAddress space4 ahead count pass)
    (here : (positioned ahead)[count]? = some entry) (fits : FitsIndex common ahead count) :
    ∃ encodings, placeEncoding arch common entry.1 entry.2 pass = { pass with pageSpecificEncodings := encodings } ∧
      encodings.Nodup ∧ encodings.toFinset = localEncodings common ahead (count + 1) ∧
      common.table.length + encodings.length ≤ 256 := by
  rw [localEncodings_succ here, ← passed.encodings]
  unfold placeEncoding
  split
  · rename_i inCommon
    refine ⟨pass.pageSpecificEncodings, rfl, passed.nodup, ?_, passed.indexed⟩
    simp [localKey, inCommon]
  · rename_i notCommon
    have key : localKey common entry = some (pageEncoding arch entry.1 entry.2) := if_neg notCommon
    split
    · rename_i known
      refine ⟨pass.pageSpecificEncodings, rfl, passed.nodup, ?_, passed.indexed⟩
      rw [key, Option.toFinset_some, Finset.union_eq_left.mpr]
      simpa using known
    · rename_i unknown
      have index : common.table.length + pass.pageSpecificEncodings.length ≤ 255 := by
        rcases fits entry _ here key with known | room
        · rw [← passed.encodings, List.mem_toFinset] at known
          exact absurd known unknown
        · rwa [passed.length]
      rw [if_pos index]
      refine ⟨_, rfl, ?_, ?_, by rw [List.length_append, List.length_singleton]; omega⟩
      · rw [List.nodup_append]
        refine ⟨passed.nodup, List.nodup_singleton _, ?_⟩
        rintro enc old _ new rfl
        exact unknown (List.mem_singleton.mp new ▸ old)
      · rw [key, List.toFinset_append]
        rfl

theorem placeEncoding_unfit (passed : Passed common lastEntryAddress space4 ahead count pass)
    (here : (positioned ahead)[count]? = some entry) (unfit : ¬ FitsIndex common ahead count) :
    placeEncoding arch common entry.1 entry.2 pass = { pass with canDo := false } := by
  simp only [FitsIndex, not_forall, not_or] at unfit
  obtain ⟨other, key, at', is, unknown, full⟩ := unfit
  obtain rfl := Option.some.inj (here.symm.trans at')
  have notCommon : entry.2.encoding ∉ common.table := by
    intro inCommon
    rw [localKey, if_pos inCommon] at is
    cases is
  rw [localKey, if_neg notCommon] at is
  obtain rfl := Option.some.inj is
  rw [← passed.encodings, List.mem_toFinset] at unknown
  rw [← passed.length] at full
  rw [placeEncoding, if_neg notCommon, if_neg unknown, if_neg full]

theorem checkOffset_fits (here : (positioned ahead)[count]? = some entry)
    (fits : FitsOffset ahead lastEntryAddress count) (pass : FirstPass) :
    checkOffset lastEntryAddress entry.2 pass = pass :=
  if_neg (Nat.not_lt.mpr (fits entry here))

theorem checkOffset_unfit (here : (positioned ahead)[count]? = some entry)
    (unfit : ¬ FitsOffset ahead lastEntryAddress count) (pass : FirstPass) :
    checkOffset lastEntryAddress entry.2 pass = { pass with canDo := false } := by
  simp only [FitsOffset, not_forall] at unfit
  obtain ⟨other, at', far⟩ := unfit
  obtain rfl := Option.some.inj (here.symm.trans at')
  exact if_pos (Nat.lt_of_not_le far)

/-- **One turn** that goes on. -/
theorem addEntry_enters (passed : Passed common lastEntryAddress space4 ahead count pass)
    (here : (positioned ahead)[count]? = some entry) (enters : Enters common lastEntryAddress space4 ahead count) :
    Passed common lastEntryAddress space4 ahead (count + 1)
      (addEntry arch common lastEntryAddress space4 entry.1 entry.2 pass) := by
  obtain ⟨encodings, placed, nodup, keys, indexed⟩ := placeEncoding_fits passed here enters.index
  have size : encodings.length = (localEncodings common ahead (count + 1)).card := by
    rw [← keys, List.toFinset_card_of_nodup nodup]
  have room : ¬ space4 < encodings.length + pass.entryCount := by
    rw [size, passed.entryCount]
    exact Nat.not_lt.mpr enters.room
  have inside := (List.getElem?_eq_some_iff.mp here).1
  rw [length_positioned] at inside
  rw [addEntry, placed, checkOffset_fits here enters.offset, checkRoom, if_neg room, countEntry, if_pos passed.canDo]
  refine ⟨inside, ?_, by rw [passed.entryCount], passed.canDo, nodup, keys, indexed⟩
  intro earlier before
  rcases Nat.lt_succ_iff_lt_or_eq.mp before with old | rfl
  · exact passed.entered earlier old
  · exact enters

/-- What the first pass leaves behind when an entry ended it. -/
structure Stopped (common : CommonEncodings arch) (space4 : Nat) (ahead : List UnwindEntry) (count : Nat)
    (pass : FirstPass) : Prop where
  canDo : pass.canDo = false
  entryCount : pass.entryCount = if space4 < pass.pageSpecificEncodings.length + count then count - 1 else count
  length : pass.pageSpecificEncodings.length = (localEncodings common ahead count).card ∨
    FitsIndex common ahead count ∧ pass.pageSpecificEncodings.length = (localEncodings common ahead (count + 1)).card
  fits : FitsIndex common ahead count →
    pass.pageSpecificEncodings.length = (localEncodings common ahead (count + 1)).card
  encodings : localEncodings common ahead count ⊆ pass.pageSpecificEncodings.toFinset
  indexed : common.table.length + pass.pageSpecificEncodings.length ≤ 256

/-- The check for room and the count, after something else has ended the pass or not. -/
theorem countEntry_stops (pass : FirstPass) (entryCount : pass.entryCount = count)
    (ends : pass.canDo = false ∨ space4 < pass.pageSpecificEncodings.length + count) :
    countEntry (checkRoom space4 pass) =
      { pass with
        canDo := false
        entryCount := if space4 < pass.pageSpecificEncodings.length + count then count - 1 else count } := by
  subst entryCount
  unfold checkRoom
  split
  · simp [countEntry]
  · rename_i room
    have canDo := ends.resolve_right room
    cases pass
    simp_all [countEntry]

/-- **One turn** that ends the pass. -/
theorem addEntry_stops (passed : Passed common lastEntryAddress space4 ahead count pass)
    (here : (positioned ahead)[count]? = some entry) (stops : ¬ Enters common lastEntryAddress space4 ahead count) :
    Stopped common space4 ahead count (addEntry arch common lastEntryAddress space4 entry.1 entry.2 pass) := by
  by_cases fits : FitsIndex common ahead count
  · obtain ⟨encodings, placed, nodup, keys, indexed⟩ := placeEncoding_fits passed here fits
    have size : encodings.length = (localEncodings common ahead (count + 1)).card := by
      rw [← keys, List.toFinset_card_of_nodup nodup]
    have more : localEncodings common ahead count ⊆ encodings.toFinset := by
      rw [keys]
      exact localEncodings_mono (Nat.le_succ _)
    rw [addEntry, placed]
    by_cases near : FitsOffset ahead lastEntryAddress count
    · have full : space4 < encodings.length + count := by
        rw [size]
        exact Nat.lt_of_not_le fun room => stops ⟨fits, near, room⟩
      rw [checkOffset_fits here near,
        countEntry_stops { pass with pageSpecificEncodings := encodings } passed.entryCount (.inr full)]
      exact ⟨rfl, rfl, .inr ⟨fits, size⟩, fun _ => size, more, indexed⟩
    · rw [checkOffset_unfit here near,
        countEntry_stops { pass with pageSpecificEncodings := encodings, canDo := false }
          passed.entryCount (.inl rfl)]
      exact ⟨rfl, rfl, .inr ⟨fits, size⟩, fun _ => size, more, indexed⟩
  · rw [addEntry, placeEncoding_unfit passed here fits]
    have ended :
        checkOffset lastEntryAddress entry.2 { pass with canDo := false } = { pass with canDo := false } := by
      unfold checkOffset
      split <;> rfl
    rw [ended, countEntry_stops { pass with canDo := false } passed.entryCount (.inl rfl)]
    exact ⟨rfl, rfl, .inl passed.length, fun impossible => absurd impossible fits,
      passed.encodings.symm.subset, passed.indexed⟩

/-- **The first pass** gets through entries up to one that ends it, or through all. -/
theorem firstPass_spec (passed : Passed common lastEntryAddress space4 ahead count pass) :
    ∃ last, count ≤ last ∧
      ((last = ahead.length ∧ ∃ full, Passed common lastEntryAddress space4 ahead last full ∧
        firstPass arch common lastEntryAddress space4 (ahead.drop count) pass = (full, [])) ∨
      last < ahead.length ∧ ¬ Enters common lastEntryAddress space4 ahead last ∧
        (∀ earlier < last, Enters common lastEntryAddress space4 ahead earlier) ∧
        ∃ stopped, Stopped common space4 ahead last stopped ∧
          firstPass arch common lastEntryAddress space4 (ahead.drop count) pass =
            (stopped, ahead.drop (last + 1))) := by
  generalize rest : ahead.drop count = left
  induction left generalizing count pass with
  | nil =>
    have all : ahead.length ≤ count := List.drop_eq_nil_iff.mp rest
    have whole : count = ahead.length := le_antisymm passed.within all
    exact ⟨count, le_rfl, .inl ⟨whole, pass, passed, rfl⟩⟩
  | cons info before ih =>
    have here := positioned_of_drop rest
    have inside : count < ahead.length := by
      by_contra beyond
      rw [List.drop_eq_nil_of_le (by omega)] at rest
      cases rest
    have next : ahead.drop (count + 1) = before := by
      rw [← List.tail_drop, rest]
      rfl
    rw [firstPass]
    by_cases enters : Enters common lastEntryAddress space4 ahead count
    · have onward := addEntry_enters passed here enters
      simp only [onward.canDo, if_true]
      obtain ⟨last, le, found⟩ := ih onward next
      exact ⟨last, by omega, found⟩
    · have stopped := addEntry_stops passed here enters
      simp only [stopped.canDo, Bool.false_eq_true, if_false]
      exact ⟨count, le_rfl, .inr ⟨inside, enters, passed.entered, _, stopped, by rw [next]⟩⟩

end Pass

/-! ## One slot too many -/

/-- The last entries take a slot more than there are, none of them ended the pass, and either there
are no others, or the next brings an encoding and there is an index for it. -/
def Overfills (common : CommonEncodings arch) (lastEntryAddress : BitVec 64) (space4 : Nat)
    (ahead : List UnwindEntry) : Prop :=
  ∃ count ≤ ahead.length,
    (∀ earlier < count, FitsIndex common ahead earlier ∧ FitsOffset ahead lastEntryAddress earlier) ∧
    slots common ahead count = space4 + 1 ∧
    (count = ahead.length ∨ FitsIndex common ahead count ∧
      (localEncodings common ahead count).card < (localEncodings common ahead (count + 1)).card)

section Result

variable {common : CommonEncodings arch} {space4 : Nat} {info : UnwindEntry} {before : List UnwindEntry}

theorem enters_first (space : 1 ≤ space4) : Enters common info.funcTentAddress space4 (info :: before) 0 where
  index := by
    intro entry key _ _
    have few := common.few
    exact .inr (by simp [localEncodings]; omega)
  offset := by
    intro entry here
    obtain rfl := Option.some.inj here
    simp [funcOffsetWithInPage]
  room := le_trans (Nat.add_le_add_right (card_localEncodings_le common _ 1) 0) space

/-- What the first pass of a page finds. -/
structure PassResult (common : CommonEncodings arch) (space4 : Nat) (info : UnwindEntry) (before : List UnwindEntry)
    (pass : FirstPass) (left : List UnwindEntry) : Prop where
  positive : 1 ≤ pass.entryCount
  within : pass.entryCount ≤ before.length + 1
  few : pass.pageSpecificEncodings.length ≤ pass.entryCount + 2
  indexed : common.table.length + pass.pageSpecificEncodings.length ≤ 256
  room : pass.pageSpecificEncodings.length + pass.entryCount ≤ space4 + 1
  allButTwo : left = [] → before.length + 1 ≤ pass.entryCount + 2
  encodings : localEncodings common (info :: before) pass.entryCount ⊆ pass.pageSpecificEncodings.toFinset
  overfills : pass.pageSpecificEncodings.length + pass.entryCount = space4 + 1 ↔
    Overfills common info.funcTentAddress space4 (info :: before)

variable {ahead : List UnwindEntry}

/-- Up to where the first pass comes, a page is not full; and it comes to where one is. -/
theorem slots_le_of_enters {lastEntryAddress : BitVec 64} {count : Nat}
    (entered : ∀ earlier < count, Enters common lastEntryAddress space4 ahead earlier) :
    slots common ahead count ≤ space4 + 1 := by
  cases count with
  | zero => simp [slots, localEncodings]
  | succ count =>
    have room := (entered count (Nat.lt_succ_self _)).room
    unfold slots
    omega

theorem slots_strictMono {short long : Nat} (less : short < long) :
    slots common ahead short + (long - short) ≤ slots common ahead long := by
  have grows : (localEncodings common ahead short).card ≤ (localEncodings common ahead long).card :=
    Finset.card_le_card (localEncodings_mono (le_of_lt less))
  unfold slots
  omega

variable (common) in
theorem card_succ_le (ahead : List UnwindEntry) (count : Nat) :
    (localEncodings common ahead (count + 1)).card ≤ (localEncodings common ahead count).card + 1 := by
  cases here : (positioned ahead)[count]? with
  | none =>
    have all : (positioned ahead).length ≤ count := List.getElem?_eq_none_iff.mp here
    rw [localEncodings, localEncodings, List.take_of_length_le (by omega), List.take_of_length_le all]
    omega
  | some entry =>
    rw [localEncodings_succ here]
    refine le_trans (Finset.card_union_le _ _) (Nat.add_le_add_left ?_ _)
    cases localKey common entry <;> simp

/-- Where entries overfill the page, the first pass comes to. -/
theorem eq_of_full {lastEntryAddress : BitVec 64} {count last : Nat} (within : count ≤ ahead.length)
    (fit : ∀ earlier < count, FitsIndex common ahead earlier ∧ FitsOffset ahead lastEntryAddress earlier)
    (full : slots common ahead count = space4 + 1)
    (entered : ∀ earlier < last, Enters common lastEntryAddress space4 ahead earlier)
    (ends : last = ahead.length ∨ ¬ Enters common lastEntryAddress space4 ahead last) : count = last := by
  rcases Nat.lt_trichotomy count last with less | same | more
  · have grows : slots common ahead count + (last - count) ≤ slots common ahead last := slots_strictMono less
    have bound := slots_le_of_enters entered
    omega
  · exact same
  · rcases ends with whole | stops
    · omega
    · refine absurd ⟨(fit last more).1, (fit last more).2, ?_⟩ stops
      have bound : slots common ahead (last + 1) ≤ slots common ahead count := by
        rcases Nat.lt_or_ge (last + 1) count with less | equal
        · exact le_trans (Nat.le_add_right _ _) (slots_strictMono less)
        · rw [show last + 1 = count by omega]
      rw [full] at bound
      unfold slots at bound
      omega

theorem passResult_full (is : ahead = info :: before) {full : FirstPass}
    (passed : Passed common info.funcTentAddress space4 ahead ahead.length full) :
    PassResult common space4 info before full [] := by
  subst is
  have count := passed.entryCount
  have length := passed.length
  have card := card_localEncodings_le common (info :: before) (info :: before).length
  have bound := slots_le_of_enters passed.entered
  simp only [List.length_cons] at count length card bound
  unfold slots at bound
  constructor
  · omega
  · omega
  · omega
  · exact passed.indexed
  · omega
  · omega
  · rw [count, passed.encodings]
    rfl
  · constructor
    · intro exceeds
      refine ⟨(info :: before).length, le_rfl, fun earlier less => ?_, ?_, .inl rfl⟩
      · exact ⟨(passed.entered earlier less).index, (passed.entered earlier less).offset⟩
      · simp only [slots, List.length_cons]
        omega
    · rintro ⟨other, within, fit, exceeds, -⟩
      have same := eq_of_full within fit exceeds passed.entered (.inl rfl)
      subst same
      simp only [slots, List.length_cons] at exceeds
      omega

theorem passResult_stopped {last : Nat} {stopped : FirstPass} (space : 20 ≤ space4)
    (inside : last < (info :: before).length)
    (ends : ¬ Enters common info.funcTentAddress space4 (info :: before) last)
    (entered : ∀ earlier < last, Enters common info.funcTentAddress space4 (info :: before) earlier)
    (found : Stopped common space4 (info :: before) last stopped) :
    PassResult common space4 info before stopped ((info :: before).drop (last + 1)) := by
  have notFirst : last ≠ 0 := by
    rintro rfl
    exact ends (enters_first (by omega))
  have count := found.entryCount
  have card := card_localEncodings_le common (info :: before) last
  have more := card_succ_le common (info :: before) last
  have bound := slots_le_of_enters entered
  have length : stopped.pageSpecificEncodings.length ≤ (localEncodings common (info :: before) last).card + 1 := by
    rcases found.length with same | ⟨-, same⟩ <;> omega
  have inside' : last < before.length + 1 := inside
  unfold slots at bound
  constructor
  · split at count <;> omega
  · split at count <;> omega
  · split at count <;> omega
  · exact found.indexed
  · split at count <;> omega
  · intro none
    have all := List.drop_eq_nil_iff.mp none
    rw [List.length_cons] at all
    split at count <;> omega
  · refine subset_trans (localEncodings_mono ?_) found.encodings
    split at count <;> omega
  · constructor
    · intro exceeds
      have full : space4 < stopped.pageSpecificEncodings.length + last := by
        by_contra room
        rw [if_neg room] at count
        omega
      rw [if_pos full] at count
      refine ⟨last, le_of_lt inside, fun earlier less => ?_, by unfold slots; omega, .inr ?_⟩
      · exact ⟨(entered earlier less).index, (entered earlier less).offset⟩
      · rcases found.length with same | ⟨fits, same⟩
        · omega
        · exact ⟨fits, by omega⟩
    · rintro ⟨other, within, fit, exceeds, after⟩
      have same := eq_of_full within fit exceeds entered (.inr ends)
      subst same
      obtain ⟨fits, larger⟩ := after.resolve_left (by omega)
      have length := found.fits fits
      unfold slots at exceeds
      rw [if_pos (by omega)] at count
      omega

/-- **What the first pass of a page finds.** -/
theorem firstPass_result (space : 20 ≤ space4) :
    PassResult common space4 info before
      (firstPass arch common info.funcTentAddress space4 (info :: before) {}).1
      (firstPass arch common info.funcTentAddress space4 (info :: before) {}).2 := by
  obtain ⟨last, -, ⟨rfl, full, passed, found⟩ | ⟨inside, ends, entered, stopped, found, is⟩⟩ :=
    @firstPass_spec _ common info.funcTentAddress space4 (info :: before) _ _ passed_start
  · rw [List.drop_zero] at found
    rw [found]
    exact passResult_full rfl passed
  · rw [List.drop_zero] at is
    rw [is]
    exact passResult_stopped space inside ends entered found

end Result

end Cctools.Unwind
