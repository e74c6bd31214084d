/-
# Cctools.Archive.LoadedOnce -- every member is loaded once and has its number

Each step that makes or loads a member keeps the invariant of the map, and so do the loops over
all members and every request.  `requests_served` says what that means for the members that are
loaded.  The number that goes into an object file's ordinal has only sixteen bits.
-/
import Cctools.Archive.LoadInvariant
import Cctools.Theory.Transducer

namespace Cctools.Archive.Loading

set_option autoImplicit false

open Cctools.Theory

section Served

variable {Object : Type} {file : ArchiveFile Object} {hashTable : NameToOffsetMap}

/-! ## Steps -/

variable {member : Nat} {name : List UInt8}

theorem parseMember_ordinal {memberIndex : BitVec 32} {object : ObjectFile Object}
    (isOk : parseMember file memberIndex member name = .ok object) :
    object.ordinal = archiveOrdinalWithMemberIndex file.ordinal (memberIndex.setWidth 16) := by
  rw [parseMember] at isOk
  split at isOk
  · cases isOk
  · split at isOk
    · cases isOk
    · obtain ⟨parsed, -, isObject⟩ := ok_of_bind isOk
      cases isObject
      rfl

theorem makeWithIndex_reaches {state made : LoadState Object} (invariant : Invariant file hashTable state)
    {known : MemberState Object} (found : state.instantiatedEntries.get? member = some known) (noFile : known.file = none)
    (loadable : Loadable file hashTable member)
    (isOk : makeWithIndex file state member known.index = .ok made) :
    Reaches file hashTable state made ∧
      ∃ known, made.instantiatedEntries.get? member = some known ∧ known.file.isSome = true := by
  have isKnown := invariant.known member known found
  have notLoaded : known.loaded = false := by
    by_contra loaded
    have := isKnown.loaded (Bool.eq_true_of_not_eq_false loaded)
    rw [noFile] at this
    cases this
  have notHanded : member ∉ state.handed := by
    rw [invariant.handed, isLoaded_of_get? found, notLoaded]
    exact Bool.false_ne_true
  rw [makeWithIndex] at isOk
  split at isOk
  · cases isOk
  obtain ⟨name, -, isOk⟩ := ok_of_bind isOk
  cases parsed : parseMember file known.index member name with
  | error reason =>
    rw [parsed] at isOk
    cases isOk
  | ok object =>
    rw [parsed] at isOk
    cases isOk
    have right : Known file hashTable member ⟨some object, member, false, false, known.index⟩ := by
      refine ⟨rfl, isKnown.index, fun other same => ?_, nofun⟩
      obtain rfl := Option.some.inj same
      refine ⟨loadable, ?_⟩
      rw [parseMember_ordinal parsed, isKnown.index, BitVec.setWidth_ofNat_of_le (by decide)]
    exact ⟨invariant.update found right invariant.once ⟨fun handed => absurd handed notHanded, nofun⟩
      (fun _ _ => Iff.rfl) id, _, OrderedMap.get?_set_self _ _ _, rfl⟩

theorem makeObjectFileForMember_reaches {state made : LoadState Object} (invariant : Invariant file hashTable state)
    (isMember : member ∈ members file) (loadable : Loadable file hashTable member)
    (isOk : makeObjectFileForMember file state member = .ok made) :
    Reaches file hashTable state made ∧
      ∃ known, made.instantiatedEntries.get? member = some known ∧ known.file.isSome = true := by
  rw [makeObjectFileForMember] at isOk
  cases found : state.instantiatedEntries.get? member with
  | some known =>
    rw [found] at isOk
    dsimp only at isOk
    split at isOk
    · rename_i hasFile
      cases isOk
      exact ⟨.refl invariant, known, found, hasFile⟩
    · rename_i noFile
      rw [Option.not_isSome_iff_eq_none] at noFile
      exact makeWithIndex_reaches invariant found noFile loadable isOk
  | none =>
    rw [found] at isOk
    dsimp only at isOk
    obtain ⟨m, below, rfl⟩ := List.mem_iff_getElem.mp isMember
    obtain ⟨n, keys, few⟩ : ∃ n, OrderedMap.keys state.instantiatedEntries = (members file).take n ∧
        n = (OrderedMap.keys state.instantiatedEntries).length := ⟨_, invariant.keys_eq, rfl⟩
    have notYet : n ≤ m := by
      by_contra past
      have inKeys : (members file)[m] ∈ OrderedMap.keys state.instantiatedEntries := by
        rw [keys]
        exact List.mem_take_iff_getElem.mpr ⟨m, by omega, rfl⟩
      rw [← OrderedMap.get?_isSome_iff, found] at inKeys
      cases inKeys
    have notMany := members_length file
    have start := firstUnknown_eq invariant keys (by omega)
    rw [start] at isOk
    have enough : m + 2 ≤ file.fileContent.length + 2 + n := by omega
    obtain ⟨entries, added, invariant', found'⟩ := addEntriesTo_spec below invariant keys notYet enough 0
    obtain ⟨pair, isPair, isOk⟩ := ok_of_bind isOk
    rw [added] at isPair
    cases isPair
    obtain ⟨reaches, made⟩ := makeWithIndex_reaches invariant' found' rfl loadable isOk
    exact ⟨⟨reaches.invariant, reaches.handed, reaches.all⟩, made⟩

/-- Loading hands the atoms over, unless that was done before. -/
theorem loadMember_reaches {state after : LoadState Object} (invariant : Invariant file hashTable state)
    {didSomething : Bool} (isOk : loadMember file state member = .ok (after, didSomething)) :
    Reaches file hashTable state after ∧ member ∈ after.handed := by
  rw [loadMember] at isOk
  cases found : state.instantiatedEntries.get? member with
  | none =>
    rw [found] at isOk
    cases isOk
  | some known =>
    rw [found] at isOk
    dsimp only at isOk
    split at isOk
    · rename_i loaded
      cases isOk
      exact ⟨.refl invariant, (invariant.handed member).mpr ((isLoaded_of_get? found).trans loaded)⟩
    · rename_i notLoaded
      cases hasFile : known.file with
      | none =>
        rw [hasFile] at isOk
        cases isOk
      | some object =>
        rw [hasFile] at isOk
        cases isOk
        have isKnown := invariant.known member known found
        have notHanded : member ∉ state.handed := by
          rw [invariant.handed, isLoaded_of_get? found]
          exact notLoaded
        have right : Known file hashTable member ⟨some object, known.entry, known.logged || file.verboseLoad, true,
            known.index⟩ := ⟨isKnown.entry, isKnown.index, hasFile ▸ isKnown.made, fun _ => rfl⟩
        have once : (state.handed ++ [member]).Nodup := by
          rw [List.nodup_append]
          refine ⟨invariant.once, by simp, ?_⟩
          rintro a handed b isMember rfl
          exact notHanded (List.mem_singleton.mp isMember ▸ handed)
        have others (q : Nat) (other : q ≠ member) : q ∈ state.handed ++ [member] ↔ q ∈ state.handed := by
          simp [other]
        exact ⟨invariant.update found right once (by simp) others fun _ => by simp, by simp⟩

/-! ## Loops -/

theorem foldlM_preserves {σ ι : Type} {body : σ → ι → Except Failure σ} (P : σ → Prop)
    (step : ∀ x s s', P s → body s x = .ok s' → P s') {list : List ι} {s s' : σ} (holds : P s)
    (isOk : list.foldlM body s = .ok s') : P s' := by
  induction list generalizing s with
  | nil =>
    cases isOk
    exact holds
  | cons x rest ih =>
    rw [List.foldlM_cons] at isOk
    obtain ⟨middle, here, later⟩ := ok_of_bind isOk
    exact ih (step x s middle holds here) later

omit hashTable in
/-- What every turn keeps, and what is so from the turn of a member on. -/
theorem forMembers_done {σ : Type} {body : Nat → σ → Except Failure σ} (P : σ → Prop) (Q : Nat → σ → Prop)
    (step : ∀ q ∈ members file, q ≠ 8 → ∀ s s', P s → body q s = .ok s' → P s' ∧ Q q s' ∧ ∀ r, Q r s → Q r s')
    (starts : (tocForm file.fileContent).isSome = true) {fuel p : Nat} {s s' : σ}
    (visited : ∀ q ∈ headersFrom file.base file.fileContent fuel p, q ∈ members file) (holds : P s)
    (isOk : forMembers file body fuel p s = .ok s') :
    P s' ∧ (∀ q ∈ headersFrom file.base file.fileContent fuel p, q ≠ 8 → Q q s') ∧ ∀ r, Q r s → Q r s' := by
  induction fuel generalizing p s with
  | zero => cases isOk
  | succ fuel ih =>
    rw [forMembers] at isOk
    split at isOk
    · rename_i here
      rw [headersFrom_step here] at visited ⊢
      obtain ⟨_, -, isOk⟩ := ok_of_bind isOk
      obtain ⟨middle, turn, later⟩ := ok_of_bind isOk
      have inLater (q : Nat) (member : q ∈ headersFrom file.base file.fileContent fuel (next file.base file.fileContent p)) :
          q ∈ members file := visited q (List.mem_cons_of_mem _ member)
      split at turn
      · rename_i isToc
        cases turn
        obtain ⟨holds, done, kept⟩ := ih inLater holds later
        refine ⟨holds, fun q member notFirst => ?_, kept⟩
        obtain rfl | inRest := List.mem_cons.mp member
        · rw [isTableOfContents, starts, Bool.and_true, decide_eq_true_eq] at isToc
          exact absurd isToc notFirst
        · exact done q inRest notFirst
      · rename_i notToc
        have notFirst : p ≠ 8 := by
          rintro rfl
          exact notToc (by simp [isTableOfContents, starts])
        obtain ⟨holds, doneHere, keptHere⟩ := step p (visited p List.mem_cons_self) notFirst s middle holds turn
        obtain ⟨holds, done, kept⟩ := ih inLater holds later
        refine ⟨holds, fun q member notFirst => ?_, fun r before => kept r (keptHere r before)⟩
        obtain rfl | inRest := List.mem_cons.mp member
        · exact kept q doneHere
        · exact done q inRest notFirst
    · rename_i ended
      cases isOk
      rw [headersFrom_end (by omega)]
      exact ⟨holds, nofun, fun _ => id⟩

omit hashTable in
theorem forAllMembers_done {σ : Type} {body : Nat → σ → Except Failure σ} (P : σ → Prop) (Q : Nat → σ → Prop)
    (step : ∀ q ∈ members file, q ≠ 8 → ∀ s s', P s → body q s = .ok s' → P s' ∧ Q q s' ∧ ∀ r, Q r s → Q r s')
    (starts : (tocForm file.fileContent).isSome = true) {s s' : σ} (holds : P s)
    (isOk : forAllMembers file body s = .ok s') : P s' ∧ ∀ q ∈ members file, q ≠ 8 → Q q s' := by
  have all : headersFrom file.base file.fileContent (file.fileContent.length + 1) 8 = members file :=
    headersFrom_enough (by omega) (by omega)
  obtain ⟨holds, done, -⟩ := forMembers_done P Q step starts (fun q member => all ▸ member) holds isOk
  exact ⟨holds, fun q member => done q (all ▸ member)⟩

/-! ## Requests -/

variable {state after : LoadState Object × Bool}

theorem loadAlso_reaches
    (invariant : Invariant file hashTable state.1) (isOk : loadAlso file member state = .ok after) :
    Reaches file hashTable state.1 after.1 ∧ member ∈ after.1.handed := by
  rw [loadAlso] at isOk
  obtain ⟨⟨loaded, did⟩, load, isOk⟩ := ok_of_bind isOk
  cases isOk
  exact loadMember_reaches invariant load

theorem makeIfNone_reaches {state made : LoadState Object} (invariant : Invariant file hashTable state)
    (isMember : member ∈ members file) (loadable : Loadable file hashTable member)
    (isOk : makeIfNone file state member = .ok made) : Reaches file hashTable state made := by
  rw [makeIfNone] at isOk
  split at isOk
  · exact (makeObjectFileForMember_reaches invariant isMember loadable isOk).1
  · split at isOk
    · exact (makeObjectFileForMember_reaches invariant isMember loadable isOk).1
    · cases isOk
      exact .refl invariant

theorem forceMember_reaches (isMember : member ∈ members file)
    (loadable : Loadable file hashTable member) (invariant : Invariant file hashTable state.1)
    (isOk : forceMember file member state = .ok after) :
    Reaches file hashTable state.1 after.1 ∧ member ∈ after.1.handed := by
  rw [forceMember] at isOk
  obtain ⟨made, make, isOk⟩ := ok_of_bind isOk
  have first : Reaches file hashTable state.1 made := by
    split at make
    · exact (makeObjectFileForMember_reaches invariant isMember loadable make).1
    · cases make
      exact .refl invariant
  obtain ⟨second, handed⟩ := loadAlso_reaches first.invariant isOk
  exact ⟨first.trans second, handed⟩

theorem loadObjCName_reaches (listed : ListsMembers file hashTable)
    (invariant : Invariant file hashTable state.1) (isOk : loadObjCName file hashTable state name = .ok after) :
    Reaches file hashTable state.1 after.1 := by
  rw [loadObjCName] at isOk
  cases found : hashTable name with
  | none =>
    rw [found] at isOk
    cases isOk
    exact .refl invariant
  | some member =>
    rw [found] at isOk
    dsimp only at isOk
    split at isOk
    · obtain ⟨made, make, isOk⟩ := ok_of_bind isOk
      obtain ⟨_, -, isOk⟩ := ok_of_bind isOk
      have first := makeIfNone_reaches invariant (listed name member found).1 (fun _ => ⟨name, found⟩) make
      exact first.trans (loadAlso_reaches first.invariant isOk).1
    · cases isOk
      exact .refl invariant

theorem loadObjCMember_reaches (isMember : member ∈ members file)
    (loadable : Loadable file hashTable member) (invariant : Invariant file hashTable state.1)
    (isOk : loadObjCMember file member state = .ok after) : Reaches file hashTable state.1 after.1 := by
  rw [loadObjCMember] at isOk
  split at isOk
  · obtain ⟨made, make, isOk⟩ := ok_of_bind isOk
    have first := (makeObjectFileForMember_reaches invariant isMember loadable make).1
    split at isOk
    · exact first.trans (loadAlso_reaches first.invariant isOk).1
    · cases isOk
      exact first
  · split at isOk
    · cases isOk
      exact .refl invariant
    · split at isOk
      · obtain ⟨made, make, isOk⟩ := ok_of_bind isOk
        have first := makeIfNone_reaches invariant isMember loadable make
        split at isOk
        · cases isOk
          exact first
        · exact first.trans (loadAlso_reaches first.invariant isOk).1
      · cases isOk
        exact .refl invariant

variable {state : LoadState Object}

omit hashTable in
theorem somethingNotLoaded_false (starts : (tocForm file.fileContent).isSome = true)
    {fuel p : Nat} (isOk : somethingNotLoaded file state fuel p = .ok false) :
    ∀ q ∈ headersFrom file.base file.fileContent fuel p, q ≠ 8 → isLoaded state q = true := by
  induction fuel generalizing p with
  | zero => cases isOk
  | succ fuel ih =>
    rw [somethingNotLoaded] at isOk
    split at isOk
    · rename_i here
      rw [headersFrom_step here]
      obtain ⟨_, -, isOk⟩ := ok_of_bind isOk
      intro q member notFirst
      split at isOk
      · rename_i isToc
        rw [isTableOfContents, starts, Bool.and_true, decide_eq_true_eq] at isToc
        exact ih isOk q ((List.mem_cons.mp member).resolve_left fun same => notFirst (same.trans isToc)) notFirst
      · cases found : state.instantiatedEntries.get? p with
        | none =>
          rw [found] at isOk
          obtain ⟨_, -, isOk⟩ := ok_of_bind isOk
          cases isOk
        | some known =>
          rw [found] at isOk
          dsimp only at isOk
          split at isOk
          · rename_i loaded
            obtain rfl | inRest := List.mem_cons.mp member
            · exact (isLoaded_of_get? found).trans loaded
            · exact ih isOk q inRest notFirst
          · cases isOk
    · rename_i ended
      rw [headersFrom_end (by omega)]
      nofun

theorem Invariant.setAll (invariant : Invariant file hashTable state) {all : Bool}
    (loaded : all = true → ∀ p ∈ members file, p ≠ 8 → p ∈ state.handed) :
    Invariant file hashTable { state with alreadyLoadedAll := all } :=
  ⟨invariant.keys, invariant.known, invariant.handed, invariant.once, loaded⟩

variable {names : List (List UInt8)}

theorem forEachAtom_keeps {state after : LoadState Object} {didSome : Bool}
    (starts : (tocForm file.fileContent).isSome = true)
    (listed : ListsMembers file hashTable)
    (invariant : Invariant file hashTable state)
    (isOk : forEachAtom file hashTable names state = .ok (after, didSome)) :
    Invariant file hashTable after ∧ ∀ p ∈ state.handed, p ∈ after.handed := by
  rw [forEachAtom] at isOk
  split at isOk
  · cases isOk
    exact ⟨invariant, fun _ => id⟩
  · rename_i mode
    have loadable (p : Nat) : Loadable file hashTable p := fun lazy => absurd (mode.symm.trans lazy) (by simp)
    obtain ⟨⟨forced, did⟩, force, isOk⟩ := ok_of_bind isOk
    cases isOk
    obtain ⟨reaches, all⟩ := forAllMembers_done (fun s => Reaches file hashTable state s.1) (fun q s => q ∈ s.1.handed)
      (fun q member _ s s' holds turn => by
        obtain ⟨step, handed⟩ := forceMember_reaches member (loadable q) holds.invariant turn
        exact ⟨holds.trans step, handed, step.handed⟩) starts (Reaches.refl invariant) force
    exact ⟨reaches.invariant.setAll fun _ => all, reaches.handed⟩
  · rename_i mode
    have loadable (p : Nat) : Loadable file hashTable p := fun lazy => absurd (mode.symm.trans lazy) (by simp)
    obtain ⟨classes, load, isOk⟩ := ok_of_bind isOk
    obtain ⟨⟨looked, did⟩, look, isOk⟩ := ok_of_bind isOk
    obtain ⟨notLoaded, ask, isOk⟩ := ok_of_bind isOk
    cases isOk
    have first : Reaches file hashTable state classes.1 :=
      foldlM_preserves (fun s => Reaches file hashTable state s.1)
        (fun name s s' holds turn => holds.trans (loadObjCName_reaches listed holds.invariant turn))
        (Reaches.refl invariant) load
    obtain ⟨reaches, -⟩ := forAllMembers_done (fun s => Reaches file hashTable state s.1) (fun _ _ => True)
      (fun q member _ s s' holds turn =>
        ⟨holds.trans (loadObjCMember_reaches member (loadable q) holds.invariant turn), trivial, fun _ _ => trivial⟩)
      starts first look
    refine ⟨reaches.invariant.setAll fun all q member notFirst => ?_, reaches.handed⟩
    rw [Bool.or_eq_true] at all
    obtain before | nothing := all
    · exact reaches.invariant.all before q member notFirst
    · rw [Bool.not_eq_true'] at nothing
      rw [nothing] at ask
      have same : headersFrom file.base file.fileContent (file.fileContent.length + 1) 8 = members file :=
        headersFrom_enough (by omega) (by omega)
      exact (reaches.invariant.handed q).mpr (somethingNotLoaded_false starts ask q (same ▸ member) notFirst)

theorem request_keeps {state after : LoadState Object} {one : Request} {did : Bool}
    (starts : (tocForm file.fileContent).isSome = true) (listed : ListsMembers file hashTable)
    (invariant : Invariant file hashTable state) (isOk : request file hashTable names state one = .ok (after, did)) :
    Invariant file hashTable after ∧ ∀ p ∈ state.handed, p ∈ after.handed := by
  cases one with
  | forEachAtom => exact forEachAtom_keeps starts listed invariant isOk
  | justInTimeforEachAtom name =>
    rw [request, justInTimeforEachAtom] at isOk
    split at isOk
    · cases isOk
      exact ⟨invariant, fun _ => id⟩
    · cases found : hashTable name with
      | none =>
        rw [found] at isOk
        cases isOk
        exact ⟨invariant, fun _ => id⟩
      | some member =>
        rw [found] at isOk
        obtain ⟨made, make, isOk⟩ := ok_of_bind isOk
        obtain ⟨_, -, isOk⟩ := ok_of_bind isOk
        have first := (makeObjectFileForMember_reaches invariant (listed name member found).1
          (fun _ => ⟨name, found⟩) make).1
        have second := (loadMember_reaches first.invariant isOk).1
        exact ⟨second.invariant, (first.trans second).handed⟩
  | justInTimeDataOnlyforEachAtom name =>
    rw [request, justInTimeDataOnlyforEachAtom] at isOk
    split at isOk
    · cases isOk
      exact ⟨invariant, fun _ => id⟩
    · cases found : hashTable name with
      | none =>
        rw [found] at isOk
        cases isOk
        exact ⟨invariant, fun _ => id⟩
      | some member =>
        rw [found] at isOk
        obtain ⟨made, make, isOk⟩ := ok_of_bind isOk
        have first := (makeObjectFileForMember_reaches invariant (listed name member found).1
          (fun _ => ⟨name, found⟩) make).1
        split at isOk
        · cases isOk
          exact ⟨first.invariant, first.handed⟩
        · split at isOk
          · cases isOk
          · split at isOk
            · obtain ⟨_, -, isOk⟩ := ok_of_bind isOk
              have second := (loadMember_reaches first.invariant isOk).1
              exact ⟨second.invariant, (first.trans second).handed⟩
            · cases isOk
              exact ⟨first.invariant, first.handed⟩

theorem requests_keep {start state : LoadState Object} {list : List Request}
    (starts : (tocForm file.fileContent).isSome = true) (listed : ListsMembers file hashTable)
    (invariant : Invariant file hashTable start) (ran : requests file hashTable names start list = .ok state) :
    Invariant file hashTable state := by
  refine foldlM_preserves (Invariant file hashTable) (fun one s s' holds turn => ?_) invariant ran
  obtain ⟨⟨after, did⟩, isOk, same⟩ := ok_of_bind turn
  cases same
  exact (request_keeps starts listed holds isOk).1

theorem invariant_empty : Invariant file hashTable ⟨[], false, []⟩ :=
  ⟨⟨0, rfl⟩, nofun, fun _ => ⟨nofun, nofun⟩, .nil, nofun⟩

/-- The table of contents is opened, and what is made early keeps the invariant. -/
theorem openFile_invariant {start : LoadState Object} (opened : openFile file = .ok (hashTable, start)) :
    (∃ form, tocForm file.fileContent = some form ∧
      openTableOfContents form file.base file.fileContent = .ok hashTable) ∧ Invariant file hashTable start := by
  rw [openFile] at opened
  split at opened
  · cases opened
  obtain ⟨_, -, opened⟩ := ok_of_bind opened
  cases isForm : tocForm file.fileContent with
  | none =>
    rw [isForm] at opened
    cases opened
  | some form =>
    rw [isForm] at opened
    cases isTable : openTableOfContents form file.base file.fileContent with
    | error reason =>
      dsimp only at opened
      rw [isTable] at opened
      cases opened
    | ok table =>
      dsimp only at opened
      rw [isTable] at opened
      obtain ⟨state, early, same⟩ := ok_of_bind opened
      cases same
      refine ⟨⟨form, rfl, isTable⟩, ?_⟩
      split at early
      · cases early
        exact invariant_empty
      · rename_i mode
        refine (forAllMembers_done (Invariant file hashTable) (fun _ _ => True) (fun q member _ s s' holds turn => ?_)
          (by rw [isForm]; rfl) invariant_empty early).1
        rw [makeEarly] at turn
        split at turn
        · have := makeObjectFileForMember_reaches holds member (fun lazy => absurd lazy mode) turn
          exact ⟨this.1.invariant, trivial, fun _ _ => trivial⟩
        · cases turn
          exact ⟨holds, trivial, fun _ _ => trivial⟩

/-- What is found is the first entry of the table that has the name. -/
theorem found_first {form : TocForm} {base : Nat} {archive : List UInt8} {table : NameToOffsetMap}
    (isTable : openTableOfContents form base archive = .ok table)
    (found : table name = some member) :
    firstOffset form base archive (toc form base archive).tableOfContentCount name = some member := by
  rw [openTableOfContents] at isTable
  split at isTable
  · cases isTable
  split at isTable
  · cases isTable
  · rw [buildHashTable] at isTable
    split at isTable
    · cases isTable
      cases found
    · rw [addEntries_finds _ _ _ isTable, Option.or_none] at found
      exact found

/-! ## Runs -/

variable (file hashTable)

/-- **What holds after requests.** -/
structure Served (state : LoadState Object) : Prop where
  /-- No member's atoms are handed over twice. -/
  once : state.handed.Nodup
  /-- A request for a symbol that is found leaves the first member listed for it loaded. -/
  first : ∀ name after did, justInTimeforEachAtom file hashTable state name = .ok (after, did) →
    (did = true ∨ (hashTable name).isSome = true) →
      ∃ form member, tocForm file.fileContent = some form ∧
        firstOffset form file.base file.fileContent (toc form file.base file.fileContent).tableOfContentCount name =
          some member ∧ member ∈ after.handed
  /-- The counter of an ordinal is the position of the member. -/
  numbered : ∀ p known object, state.instantiatedEntries.get? p = some known → known.file = some object →
    (counter object.ordinal).toNat = position file p
  /-- Once that is noted, every member is loaded. -/
  all : state.alreadyLoadedAll = true → ∀ p ∈ members file, p ≠ 8 → p ∈ state.handed

variable {file hashTable}

theorem Invariant.first (invariant : Invariant file hashTable state) {form : TocForm}
    (isForm : tocForm file.fileContent = some form)
    (isTable : openTableOfContents form file.base file.fileContent = .ok hashTable)
    (listed : ListsMembers file hashTable) {after : LoadState Object} {did : Bool}
    (isOk : justInTimeforEachAtom file hashTable state name = .ok (after, did))
    (success : did = true ∨ (hashTable name).isSome = true) :
    ∃ form member, tocForm file.fileContent = some form ∧
      firstOffset form file.base file.fileContent (toc form file.base file.fileContent).tableOfContentCount name =
        some member ∧ member ∈ after.handed := by
  rw [justInTimeforEachAtom] at isOk
  cases found : hashTable name with
  | none =>
    rw [found] at isOk success
    have := success.resolve_right Bool.false_ne_true
    split at isOk <;> cases isOk <;> cases this
  | some member =>
    refine ⟨form, member, isForm, found_first isTable found, ?_⟩
    rw [found] at isOk
    split at isOk
    · rename_i all
      cases isOk
      exact invariant.all all member (listed name member found).1 (listed name member found).2
    · obtain ⟨made, make, isOk⟩ := ok_of_bind isOk
      obtain ⟨_, -, isOk⟩ := ok_of_bind isOk
      have first := (makeObjectFileForMember_reaches invariant (listed name member found).1
        (fun _ => ⟨name, found⟩) make).1
      exact (loadMember_reaches first.invariant isOk).2

/-- Sixteen bits hold the position exactly as long as it is below 2^16. -/
theorem Invariant.counter_iff (invariant : Invariant file hashTable state) {p : Nat}
    {known : MemberState Object} {object : ObjectFile Object} (found : state.instantiatedEntries.get? p = some known)
    (made : known.file = some object) :
    (counter object.ordinal).toNat = position file p ↔ position file p < 2 ^ 16 := by
  rw [((invariant.known p known found).made object made).2, counter_archiveOrdinal, BitVec.toNat_ofNat]
  constructor
  · intro same
    rw [← same]
    exact Nat.mod_lt _ (by decide)
  · exact Nat.mod_eq_of_lt

/-- **Archive members are loaded at most once and numbered by position**, when no member that may be loaded stands
at position 2^16 or behind it. -/
theorem requests_served {start state : LoadState Object} {names : List (List UInt8)} {list : List Request}
    (opened : openFile file = .ok (hashTable, start)) (listed : ListsMembers file hashTable)
    (below : ∀ p ∈ members file, Loadable file hashTable p → position file p < 2 ^ 16)
    (ran : requests file hashTable names start list = .ok state) : Served file hashTable state := by
  obtain ⟨⟨form, isForm, isTable⟩, initial⟩ := openFile_invariant opened
  have invariant := requests_keep (by rw [isForm]; rfl) listed initial ran
  refine ⟨invariant.once, fun name after did isOk success => invariant.first isForm isTable listed isOk success,
    fun p known object found made => ?_, invariant.all⟩
  have isMember : p ∈ members file := by
    obtain ⟨n, keys⟩ := invariant.keys
    have inKeys : p ∈ OrderedMap.keys state.instantiatedEntries := by
      rw [← OrderedMap.get?_isSome_iff, found]
      rfl
    exact List.mem_of_mem_take (keys ▸ inKeys)
  exact (invariant.counter_iff found made).mpr
    (below p isMember ((invariant.known p known found).made object made).1)

end Served

end Cctools.Archive.Loading
