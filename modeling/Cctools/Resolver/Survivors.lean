/-
# Cctools.Resolver.Survivors -- one atom of each name is left

Whatever is added, every name has one atom in its slot and all others are coalesced away
with their groups (`addAll_keeps`).  The one in the slot is not coalesced away itself if
and only if every call is `Clean` (`addAll_oneSurvivor_iff`): a group can have members
that other slots hold, and two definitions that exclude each other leave `_chosen` as it
was in memory.
-/
import Cctools.Resolver.SymbolTable
import Mathlib.Data.List.Induction
import Mathlib.Algebra.GroupWithZero.Nat

namespace Cctools.Resolver

set_option autoImplicit false

open Cctools.Theory

section Survivors

variable {Address : Type} {link : Link Address} {mode : CommonsMode} {depth : Nat}
  {table after : SymbolTable Address} {call : Call Address} {calls : List (Call Address)} {replaced : Bool}

/-- One atom of each name is in use, and the others are gone with their groups. -/
structure OneSurvivor (link : Link Address) (added : List Address) (table : SymbolTable Address) : Prop where
  survivor : ∀ address ∈ added, ∃ survivor ∈ added, table.atomForName (link.atom address).name = some survivor ∧
    (link.atom survivor).name = (link.atom address).name ∧ table.coalescedAway survivor = false
  others : ∀ address ∈ added, table.atomForName (link.atom address).name ≠ some address →
    ∀ x, Group link address x → table.coalescedAway x = true

/-- A collision ends with one of the two atoms. -/
def Selects (link : Link Address) (mode : CommonsMode) (table : SymbolTable Address) (call : Call Address) : Prop :=
  ∀ existing picker, table.atomForName (call.name link) = some existing →
    pickAtom mode call.duplicates (link.atom call.atom) (link.atom existing) = .ok picker → picker.chosen ≠ .unset

/-- No two definitions exclude each other, the atom that is used is still there, and no slot
holds a member of the group that goes. -/
structure Clean (link : Link Address) (mode : CommonsMode) (table : SymbolTable Address) (call : Call Address) :
    Prop where
  first : table.atomForName (call.name link) = none → table.coalescedAway call.atom = false
  apart : ∀ existing, table.atomForName (call.name link) = some existing →
    ¬ Clash call.duplicates (link.atom call.atom) (link.atom existing)
  replaces : ∀ existing picker, table.atomForName (call.name link) = some existing →
    pickAtom mode call.duplicates (link.atom call.atom) (link.atom existing) = .ok picker →
    picker.chosen = .atomA → table.coalescedAway call.atom = false ∧ ¬ Group link existing call.atom ∧
      ∀ name kept, name ≠ call.name link → table.atomForName name = some kept → ¬ Group link existing kept
  keeps : ∀ existing picker, table.atomForName (call.name link) = some existing →
    pickAtom mode call.duplicates (link.atom call.atom) (link.atom existing) = .ok picker →
    picker.chosen = .atomB → ∀ name kept, table.atomForName name = some kept → ¬ Group link call.atom kept

/-! ## What holds whatever is added -/

structure Keeps (link : Link Address) (added : List Address) (table : SymbolTable Address) : Prop where
  named : ∀ name kept, table.atomForName name = some kept → kept ∈ added ∧ (link.atom kept).name = name
  filled : ∀ address ∈ added, ∃ kept, table.atomForName (link.atom address).name = some kept
  others : ∀ address ∈ added, table.atomForName (link.atom address).name ≠ some address →
    ∀ x, Group link address x → table.coalescedAway x = true

theorem keeps_empty : Keeps link [] (SymbolTable.empty Address) := ⟨nofun, nofun, nofun⟩

variable {added : List Address}

theorem AddsFirst.keeps (adds : AddsFirst link table after call)
    (keeps : Keeps link added table) : Keeps link (added ++ [call.atom]) after := by
  have elsewhere {name : String} (other : name ≠ call.name link) : after.atomForName name = table.atomForName name := by
    rw [adds.kept, Function.update_of_ne other]
  have here : after.atomForName (call.name link) = some call.atom := by rw [adds.kept, Function.update_self]
  have older {address : Address} (member : address ∈ added) : (link.atom address).name ≠ call.name link := by
    intro same
    obtain ⟨kept, found⟩ := keeps.filled address member
    rw [same, adds.fresh] at found
    cases found
  refine ⟨?_, ?_, ?_⟩
  · intro name kept found
    rw [List.mem_append, List.mem_singleton]
    by_cases same : name = call.name link
    · rw [same, here] at found
      obtain rfl := Option.some.inj found
      exact ⟨.inr rfl, same.symm⟩
    · rw [elsewhere same] at found
      obtain ⟨member, named⟩ := keeps.named name kept found
      exact ⟨.inl member, named⟩
  · intro address member
    rcases List.mem_append.mp member with old | new
    · obtain ⟨kept, found⟩ := keeps.filled address old
      exact ⟨kept, (elsewhere (older old)).trans found⟩
    · obtain rfl := List.mem_singleton.mp new
      exact ⟨call.atom, here⟩
  · intro address member lost x grouped
    rw [adds.marks]
    rcases List.mem_append.mp member with old | new
    · rw [elsewhere (older old)] at lost
      exact keeps.others address old lost x grouped
    · obtain rfl := List.mem_singleton.mp new
      exact absurd here lost

theorem AddsSecond.keeps {existing winner loser : Address} {picker : Resolution}
    (adds : AddsSecond link mode table after call existing winner loser picker)
    (keeps : Keeps link added table) : Keeps link (added ++ [call.atom]) after := by
  obtain ⟨existed, sameName⟩ := keeps.named _ _ adds.found
  have elsewhere {name : String} (other : name ≠ call.name link) : after.atomForName name = table.atomForName name := by
    rw [adds.kept, Function.update_of_ne other]
  have here : after.atomForName (call.name link) = some winner := by rw [adds.kept, Function.update_self]
  have isWinner : winner ∈ added ++ [call.atom] ∧ (link.atom winner).name = call.name link := by
    rcases adds.both with ⟨-, rfl, -⟩ | ⟨-, rfl, -⟩
    · exact ⟨List.mem_append_right _ (List.mem_singleton_self _), rfl⟩
    · exact ⟨List.mem_append_left _ existed, sameName⟩
  refine ⟨?_, ?_, ?_⟩
  · intro name kept found
    by_cases same : name = call.name link
    · rw [same, here] at found
      obtain rfl := Option.some.inj found
      rw [same]
      exact isWinner
    · rw [elsewhere same] at found
      obtain ⟨member, named⟩ := keeps.named name kept found
      exact ⟨List.mem_append_left _ member, named⟩
  · intro address member
    by_cases same : (link.atom address).name = call.name link
    · rw [same]
      exact ⟨winner, here⟩
    · rcases List.mem_append.mp member with old | new
      · obtain ⟨kept, found⟩ := keeps.filled address old
        exact ⟨kept, (elsewhere same).trans found⟩
      · obtain rfl := List.mem_singleton.mp new
        exact absurd rfl same
  · intro address member lost x grouped
    rw [adds.marks]
    by_cases same : (link.atom address).name = call.name link
    · rw [same, here] at lost
      by_cases goes : address = loser
      · exact .inr (goes ▸ grouped)
      · have neither : address ≠ call.atom ∧ address ≠ existing := by
          have notWinner : address ≠ winner := fun equal => lost (congrArg some equal.symm)
          rcases adds.both with ⟨-, rfl, rfl⟩ | ⟨-, rfl, rfl⟩
          · exact ⟨notWinner, goes⟩
          · exact ⟨goes, notWinner⟩
        have old : address ∈ added := by
          rcases List.mem_append.mp member with old | new
          · exact old
          · exact absurd (List.mem_singleton.mp new) neither.1
        refine .inl (keeps.others address old ?_ x grouped)
        rw [same, adds.found]
        exact fun equal => neither.2 (Option.some.inj equal).symm
    · have old : address ∈ added := by
        rcases List.mem_append.mp member with old | new
        · exact old
        · obtain rfl := List.mem_singleton.mp new
          exact absurd rfl same
      rw [elsewhere same] at lost
      exact .inl (keeps.others address old lost x grouped)

/-! ## The survivors themselves -/

/-- No slot holds an atom that is coalesced away. -/
def Unmarked (table : SymbolTable Address) : Prop :=
  ∀ name kept, table.atomForName name = some kept → table.coalescedAway kept = false

theorem Keeps.oneSurvivor_iff (keeps : Keeps link added table) :
    OneSurvivor link added table ↔ Unmarked table := by
  constructor
  · intro one name kept found
    obtain ⟨member, named⟩ := keeps.named name kept found
    obtain ⟨survivor, -, there, -, unmarked⟩ := one.survivor kept member
    rw [named, found] at there
    rwa [Option.some.inj there]
  · intro unmarked
    refine ⟨fun address member => ?_, keeps.others⟩
    obtain ⟨kept, found⟩ := keeps.filled address member
    obtain ⟨survives, named⟩ := keeps.named _ kept found
    exact ⟨kept, survives, found, named, unmarked _ kept found⟩

theorem AddsFirst.unmarked_iff (adds : AddsFirst link table after call) (before : Unmarked table) :
    (Unmarked after ∧ Selects link mode table call) ↔ Clean link mode table call := by
  have none_ {existing : Address} (found : table.atomForName (call.name link) = some existing) : False := by
    rw [adds.fresh] at found
    cases found
  constructor
  · rintro ⟨unmarked, -⟩
    refine ⟨fun _ => ?_, fun _ found => (none_ found).elim, fun _ _ found => (none_ found).elim,
      fun _ _ found => (none_ found).elim⟩
    rw [← adds.marks]
    exact unmarked (call.name link) call.atom (by rw [adds.kept, Function.update_self])
  · intro clean
    refine ⟨fun name kept found => ?_, fun _ _ found => (none_ found).elim⟩
    rw [adds.marks]
    rw [adds.kept] at found
    by_cases same : name = call.name link
    · rw [same, Function.update_self] at found
      obtain rfl := Option.some.inj found
      exact clean.first adds.fresh
    · rw [Function.update_of_ne same] at found
      exact before name kept found

theorem AddsSecond.unmarked_iff {existing winner loser : Address} {picker : Resolution}
    (adds : AddsSecond link mode table after call existing winner loser picker) (before : Unmarked table) :
    (Unmarked after ∧ Selects link mode table call) ↔ Clean link mode table call := by
  obtain ⟨found, -, picked, both, kept, marks⟩ := adds
  have same {other : Address} (there : table.atomForName (call.name link) = some other) : other = existing :=
    Option.some.inj (there.symm.trans found)
  have gone (x : Address) : after.coalescedAway x = false ↔ table.coalescedAway x = false ∧ ¬ Group link loser x := by
    rw [← Bool.not_eq_true, marks, not_or, Bool.not_eq_true]
  have stays (name : String) (address : Address) (other : name ≠ call.name link) :
      after.atomForName name = some address ↔ table.atomForName name = some address := by
    rw [kept, Function.update_of_ne other]
  have here : after.atomForName (call.name link) = some winner := by rw [kept, Function.update_self]
  have samePicker {resolution : Resolution}
      (again : pickAtom mode call.duplicates (link.atom call.atom) (link.atom existing) = .ok resolution) :
      resolution = picker := Except.ok.inj (again.symm.trans picked)
  constructor
  · rintro ⟨unmarked, selects⟩
    have set := selects existing picker found picked
    have won := (gone winner).mp (unmarked _ winner here)
    refine ⟨fun none_ => ?_, fun other there => ?_, fun other resolution there again useNew => ?_,
      fun other resolution there again useOld => ?_⟩
    · rw [found] at none_
      cases none_
    · obtain rfl := same there
      rwa [← pickAtom_unset_iff picked]
    · obtain rfl := same there
      obtain rfl := samePicker again
      rcases both with ⟨-, rfl, rfl⟩ | ⟨chose, -, -⟩
      · refine ⟨won.1, won.2, fun name address other there => ?_⟩
        exact ((gone address).mp (unmarked name address ((stays name address other).mpr there))).2
      · rw [useNew] at chose
        cases chose
    · obtain rfl := same there
      obtain rfl := samePicker again
      rcases both with ⟨chose, -, -⟩ | ⟨-, rfl, rfl⟩
      · rw [useOld] at chose
        cases chose
      · intro name address there'
        by_cases other : name = call.name link
        · rw [other, found] at there'
          obtain rfl := Option.some.inj there'
          exact won.2
        · exact ((gone address).mp (unmarked name address ((stays name address other).mpr there'))).2
  · intro clean
    have set : picker.chosen ≠ .unset := by
      rw [Ne, pickAtom_unset_iff picked]
      exact clean.apart existing found
    refine ⟨fun name address there => (gone address).mpr ?_, fun other resolution there again => ?_⟩
    · rcases both with ⟨chose, rfl, rfl⟩ | ⟨chose, rfl, rfl⟩
      · have useNew : picker.chosen = .atomA := by
          cases choice : picker.chosen with
          | atomA => rfl
          | atomB => rw [choice] at chose; cases chose
          | unset => exact absurd choice set
        obtain ⟨unmarked, apart, rest⟩ := clean.replaces loser picker found picked useNew
        by_cases other : name = call.name link
        · rw [other, here] at there
          obtain rfl := Option.some.inj there
          exact ⟨unmarked, apart⟩
        · rw [stays name address other] at there
          exact ⟨before name address there, rest name address other there⟩
      · have useOld : picker.chosen = .atomB := by
          cases choice : picker.chosen with
          | atomA => rw [choice] at chose; cases chose
          | atomB => rfl
          | unset => exact absurd choice set
        have rest := clean.keeps winner picker found picked useOld
        by_cases other : name = call.name link
        · rw [other, here] at there
          obtain rfl := Option.some.inj there
          exact ⟨before _ _ found, rest _ _ found⟩
        · rw [stays name address other] at there
          exact ⟨before name address there, rest name address there⟩
    · obtain rfl := same there
      obtain rfl := samePicker again
      exact set

/-! ## Runs -/

variable [DecidableEq Address]

theorem add_keeps (isOk : add link mode depth table call = .ok (after, replaced))
    (keeps : Keeps link added table) : Keeps link (added ++ [call.atom]) after := by
  rcases (add_ok isOk).2 with first | ⟨existing, winner, loser, picker, second⟩
  · exact first.keeps keeps
  · exact second.keeps keeps

/-- **Every name keeps one of its atoms, and all others are gone with their groups.** -/
theorem addAll_keeps (isOk : addAll link mode depth (.empty Address) calls = .ok table) :
    Keeps link (calls.map Call.atom) table := by
  induction calls using List.reverseRecOn generalizing table with
  | nil =>
    obtain rfl := Except.ok.inj isOk
    exact keeps_empty
  | append_singleton before call ih =>
    obtain ⟨middle, replaced, reached, added⟩ := addAll_last isOk
    rw [List.map_append]
    exact add_keeps added (ih reached)

theorem add_unmarked_iff (isOk : add link mode depth table call = .ok (after, replaced)) (before : Unmarked table) :
    (Unmarked after ∧ Selects link mode table call) ↔ Clean link mode table call := by
  rcases (add_ok isOk).2 with first | ⟨existing, winner, loser, picker, second⟩
  · exact first.unmarked_iff before
  · exact second.unmarked_iff before

/-- **One atom of each name survives every call if and only if every call is clean.** -/
theorem addAll_oneSurvivor_iff (isOk : addAll link mode depth (.empty Address) calls = .ok table) :
    (∀ before call rest, calls = before ++ call :: rest → ∀ middle after,
      addAll link mode depth (.empty Address) before = .ok middle →
      addAll link mode depth (.empty Address) (before ++ [call]) = .ok after →
      OneSurvivor link ((before ++ [call]).map Call.atom) after ∧ Selects link mode middle call) ↔
    ∀ before call rest, calls = before ++ call :: rest → ∀ middle,
      addAll link mode depth (.empty Address) before = .ok middle → Clean link mode middle call := by
  have goesOn : ∀ before call rest, calls = before ++ call :: rest →
      ∃ after, addAll link mode depth (.empty Address) (before ++ [call]) = .ok after := by
    rintro before call rest rfl
    rw [List.append_cons, addAll, List.foldlM_append] at isOk
    obtain ⟨after, reached, -⟩ := ok_of_bind isOk
    exact ⟨after, reached⟩
  constructor
  · intro holds before call rest parts middle reached
    obtain ⟨after, further⟩ := goesOn before call rest parts
    obtain ⟨one, selects⟩ := holds before call rest parts middle after reached further
    obtain ⟨same, replaced, again, added⟩ := addAll_last further
    obtain rfl := Except.ok.inj (again.symm.trans reached)
    have unmarked : Unmarked same := by
      rcases before.eq_nil_or_concat with rfl | ⟨earlier, last, rfl⟩
      · obtain rfl := Except.ok.inj reached
        intro name kept named
        cases named
      · rw [List.concat_eq_append] at parts reached
        rw [List.append_assoc, List.singleton_append] at parts
        obtain ⟨first, replaced', start, -⟩ := addAll_last reached
        exact (addAll_keeps reached).oneSurvivor_iff.mp
          (holds earlier last (call :: rest) parts first same start reached).1
    exact (add_unmarked_iff added unmarked).mp ⟨(addAll_keeps further).oneSurvivor_iff.mp one, selects⟩
  · intro clean
    have unmarked : ∀ before rest, calls = before ++ rest → ∀ middle,
        addAll link mode depth (.empty Address) before = .ok middle → Unmarked middle := by
      intro before
      induction before using List.reverseRecOn with
      | nil =>
        intro rest parts middle reached
        obtain rfl := Except.ok.inj reached
        intro name kept named
        cases named
      | append_singleton earlier last ih =>
        intro rest parts middle reached
        obtain ⟨first, replaced, start, added⟩ := addAll_last reached
        rw [List.append_assoc, List.singleton_append] at parts
        exact ((add_unmarked_iff added (ih _ parts first start)).mpr
          (clean earlier last rest parts first start)).1
    intro before call rest parts middle after reached further
    obtain ⟨same, replaced, again, added⟩ := addAll_last further
    obtain rfl := Except.ok.inj (again.symm.trans reached)
    obtain ⟨survives, selects⟩ := (add_unmarked_iff added (unmarked before _ parts same reached)).mpr
      (clean before call rest parts same reached)
    exact ⟨(addAll_keeps further).oneSurvivor_iff.mpr survives, selects⟩

end Survivors

/-! ## Two definitions -/

/-- A definition in a text section. -/
def textAtom (combine : Combine) (ordinal : Nat) : Atom :=
  ⟨"_f", .regular, combine, .global, .other, .other, false, ⟨2, 0⟩, 4, ordinal, "f.o"⟩

/-- A weak definition and one that is not. -/
def weakAndStrong : Link Bool := ⟨fun strong => textAtom (if strong then .never else .byName) 1, fun _ => []⟩

def bothStrong : Link Bool := ⟨fun second => textAtom .never (if second then 2 else 1), fun _ => []⟩

def twoCalls : List (Call Bool) := [⟨false, .error, false⟩, ⟨true, .error, false⟩]

theorem addAll_oneSurvivor_iff_two : ∃ table,
    addAll weakAndStrong .ignoreDylibs 1 (.empty Bool) twoCalls = .ok table ∧
      ((∀ before call rest, twoCalls = before ++ call :: rest → ∀ middle after,
        addAll weakAndStrong .ignoreDylibs 1 (.empty Bool) before = .ok middle →
        addAll weakAndStrong .ignoreDylibs 1 (.empty Bool) (before ++ [call]) = .ok after →
        OneSurvivor weakAndStrong ((before ++ [call]).map Call.atom) after ∧
          Selects weakAndStrong .ignoreDylibs middle call) ↔
      ∀ before call rest, twoCalls = before ++ call :: rest → ∀ middle,
        addAll weakAndStrong .ignoreDylibs 1 (.empty Bool) before = .ok middle →
        Clean weakAndStrong .ignoreDylibs middle call) :=
  ⟨_, rfl, addAll_oneSurvivor_iff rfl⟩

/-- **Two definitions that are not weak: neither is chosen.** -/
theorem addAll_selects_neither : ∃ middle table,
    addAll bothStrong .ignoreDylibs 1 (.empty Bool) [⟨false, .error, false⟩] = .ok middle ∧
      addAll bothStrong .ignoreDylibs 1 (.empty Bool) twoCalls = .ok table ∧
      ¬ Selects bothStrong .ignoreDylibs middle ⟨true, .error, false⟩ := by
  refine ⟨_, _, rfl, rfl, fun selects => ?_⟩
  exact selects false ⟨.unset, true⟩ rfl rfl rfl

end Cctools.Resolver
