/-
# Cctools.Archive.LoadInvariant -- what ld knows of the members of an archive

The map of ld's archive reader always holds the first entries of the archive, numbered as they
stand there (`Invariant`), whatever is asked for.  It changes in two ways: the next entry is added
(`Invariant.add`), or one that is there changes (`Invariant.update`).
-/
import Cctools.Archive.Loading
import Cctools.Lipo.Fat
import Mathlib.Data.List.Chain

namespace Cctools.Archive.Loading

set_option autoImplicit false

open Cctools.Theory
open Cctools.Lipo (rnd)

/-! ## The entries of an archive -/

section Members

variable {Object : Type} (file : ArchiveFile Object)

/-- Where the entries stand. -/
def members : List Nat := (ldEntries file.base file.fileContent).1.map Member.header

/-- Entries are numbered from one. -/
def position (p : Nat) : Nat := (members file).idxOf p + 1

theorem lt_next (base : Nat) (archive : List UInt8) (p : Nat) : p < next base archive p := by
  have behind : p + sizeofArHdr ≤ content archive p := by
    rw [content]
    split <;> omega
  rw [next]
  simp only [rnd, sizeofArHdr] at *
  omega

/-- Headers that a walk visits. -/
def headersFrom (base : Nat) (archive : List UInt8) (fuel p : Nat) : List Nat :=
  (entriesFrom base archive fuel p).1.map Member.header

variable {base : Nat} {archive : List UInt8}

theorem headersFrom_step {fuel p : Nat} (here : p < archive.length) :
    headersFrom base archive (fuel + 1) p = p :: headersFrom base archive fuel (next base archive p) := by
  rw [headersFrom, entriesFrom, if_pos here]
  rfl

theorem headersFrom_end {fuel p : Nat} (ended : archive.length ≤ p) : headersFrom base archive fuel p = [] := by
  cases fuel with
  | zero => rfl
  | succ fuel => rw [headersFrom, entriesFrom, if_neg (by omega)]; rfl

theorem headersFrom_enough {fuel more p : Nat} (enough : archive.length ≤ fuel + p) (less : fuel ≤ more) :
    headersFrom base archive more p = headersFrom base archive fuel p := by
  induction fuel generalizing more p with
  | zero => rw [headersFrom_end (by omega), headersFrom_end (by omega)]
  | succ fuel ih =>
    obtain ⟨more, rfl⟩ : ∃ m, more = m + 1 := ⟨more - 1, by omega⟩
    by_cases here : p < archive.length
    · have := lt_next base archive p
      rw [headersFrom_step here, headersFrom_step here, ih (by omega) (by omega)]
    · rw [headersFrom_end (by omega), headersFrom_end (by omega)]

theorem headersFrom_head? {fuel p h : Nat} (head : (headersFrom base archive fuel p).head? = some h) : h = p := by
  cases fuel with
  | zero => cases head
  | succ fuel =>
    by_cases here : p < archive.length
    · rw [headersFrom_step here] at head
      exact (Option.some.inj head).symm
    · rw [headersFrom_end (by omega)] at head
      cases head

theorem headersFrom_isChain (fuel p : Nat) :
    (headersFrom base archive fuel p).IsChain fun a b => b = next base archive a := by
  induction fuel generalizing p with
  | zero => exact .nil
  | succ fuel ih =>
    by_cases here : p < archive.length
    · rw [headersFrom_step here]
      refine List.isChain_cons.mpr ⟨fun h head => headersFrom_head? head, ih _⟩
    · rw [headersFrom_end (by omega)]
      exact .nil

theorem headersFrom_length (fuel p : Nat) : (headersFrom base archive fuel p).length ≤ fuel := by
  induction fuel generalizing p with
  | zero => exact Nat.le_refl _
  | succ fuel ih =>
    by_cases here : p < archive.length
    · rw [headersFrom_step here, List.length_cons]
      exact Nat.succ_le_succ (ih _)
    · rw [headersFrom_end (by omega)]
      exact Nat.zero_le _

theorem members_length : (members file).length ≤ file.fileContent.length := headersFrom_length _ _

theorem members_isChain : (members file).IsChain fun a b => b = next file.base file.fileContent a :=
  headersFrom_isChain _ _

theorem members_sorted : (members file).Pairwise (· < ·) := by
  have chain : (members file).IsChain (· < ·) :=
    (members_isChain file).imp fun a b follows => by rw [follows]; exact lt_next _ _ a
  exact chain.pairwise

theorem members_head {h : Nat} (head : (members file).head? = some h) : h = 8 := headersFrom_head? head

theorem members_next {i : Nat} (more : i + 1 < (members file).length) :
    (members file)[i + 1] = next file.base file.fileContent (members file)[i] :=
  (List.isChain_iff_getElem.mp (members_isChain file)) i more

theorem members_zero (some_ : 0 < (members file).length) : (members file)[0] = 8 :=
  members_head file (List.head?_eq_getElem? ▸ List.getElem?_eq_getElem some_)

theorem position_getElem {i : Nat} (below : i < (members file).length) : position file (members file)[i] = i + 1 := by
  rw [position, List.Nodup.idxOf_getElem ((members_sorted file).imp Nat.ne_of_lt)]

end Members

/-! ## The invariant -/

section Invariant

variable {Object : Type} (file : ArchiveFile Object) (hashTable : NameToOffsetMap)

/-- **Members that ld may make an object file of**: without `-ObjC` and `-force_load`, those that the table of
contents lists. -/
def Loadable (p : Nat) : Prop := file.loadMode = .lazy → ∃ name, hashTable name = some p

/-- What is known of an entry. -/
structure Known (p : Nat) (known : MemberState Object) : Prop where
  entry : known.entry = p
  index : known.index = BitVec.ofNat 32 (position file p)
  made : ∀ object, known.file = some object → Loadable file hashTable p ∧
    object.ordinal = archiveOrdinalWithMemberIndex file.ordinal (BitVec.ofNat 16 (position file p))
  loaded : known.loaded = true → known.file.isSome = true

/-- **The map holds the first entries of the archive**, and whose atoms were handed over is loaded. -/
structure Invariant (state : LoadState Object) : Prop where
  keys : ∃ n, OrderedMap.keys state.instantiatedEntries = (members file).take n
  known : ∀ p known, state.instantiatedEntries.get? p = some known → Known file hashTable p known
  handed : ∀ p, p ∈ state.handed ↔ isLoaded state p = true
  once : state.handed.Nodup
  all : state.alreadyLoadedAll = true → ∀ p ∈ members file, p ≠ 8 → p ∈ state.handed

/-- **A well-formed table of contents**: every name in it leads to a member. -/
def ListsMembers : Prop := ∀ name member, hashTable name = some member → member ∈ members file ∧ member ≠ 8

variable {file hashTable} {state : LoadState Object}

theorem Invariant.sorted (invariant : Invariant file hashTable state) :
    (OrderedMap.keys state.instantiatedEntries).Pairwise (· < ·) := by
  obtain ⟨n, keys⟩ := invariant.keys
  rw [keys]
  exact (members_sorted file).sublist (List.take_sublist _ _)

theorem Invariant.keys_eq (invariant : Invariant file hashTable state) :
    OrderedMap.keys state.instantiatedEntries = (members file).take (OrderedMap.keys state.instantiatedEntries).length := by
  obtain ⟨n, keys⟩ := invariant.keys
  rw [keys, List.length_take, ← List.take_take, List.take_length]

theorem Invariant.add (invariant : Invariant file hashTable state) {n : Nat}
    (keys : OrderedMap.keys state.instantiatedEntries = (members file).take n) (below : n < (members file).length) :
    let entries := state.instantiatedEntries.set (members file)[n] ⟨none, (members file)[n], false, false, BitVec.ofNat 32 (n + 1)⟩
    Invariant file hashTable { state with instantiatedEntries := entries } ∧
      OrderedMap.keys entries = (members file).take (n + 1) := by
  intro entries
  have sorted := members_sorted file
  have above (a : Nat) (member : a ∈ OrderedMap.keys state.instantiatedEntries) : a < (members file)[n] := by
    rw [keys] at member
    obtain ⟨i, small, rfl⟩ := List.mem_take_iff_getElem.mp member
    exact List.pairwise_iff_getElem.mp sorted i n (by omega) below (by omega)
  have isNew : state.instantiatedEntries.get? (members file)[n] = none := by
    rw [← Option.not_isSome_iff_eq_none, OrderedMap.get?_isSome_iff]
    exact fun member => Nat.lt_irrefl _ (above _ member)
  have allKeys : OrderedMap.keys entries = (members file).take (n + 1) := by
    show OrderedMap.keys (state.instantiatedEntries.set (members file)[n] _) = _
    rw [OrderedMap.set_of_lt _ above, OrderedMap.keys_append, keys, List.take_succ_eq_append_getElem below]
    rfl
  have sameLoaded (p : Nat) : isLoaded { state with instantiatedEntries := entries } p = isLoaded state p := by
    by_cases same : p = (members file)[n]
    · rw [same, isLoaded, isLoaded, isNew, OrderedMap.get?_set_self]
      rfl
    · rw [isLoaded, isLoaded, OrderedMap.get?_set_of_ne _ _ _ same]
  refine ⟨⟨⟨n + 1, allKeys⟩, fun p known found => ?_, fun p => ?_, invariant.once, invariant.all⟩, allKeys⟩
  · by_cases same : p = (members file)[n]
    · rw [same, OrderedMap.get?_set_self] at found
      obtain rfl := Option.some.inj found
      exact ⟨same.symm, by rw [same, position_getElem file below], nofun, nofun⟩
    · rw [OrderedMap.get?_set_of_ne _ _ _ same] at found
      exact invariant.known p known found
  · rw [sameLoaded]
    exact invariant.handed p

theorem firstUnknown_eq (invariant : Invariant file hashTable state) {n : Nat}
    (keys : OrderedMap.keys state.instantiatedEntries = (members file).take n) (below : n < (members file).length) :
    firstUnknown file state = ((members file)[n], BitVec.ofNat 32 (n + 1)) := by
  have length : state.instantiatedEntries.length = n := by
    have := congrArg List.length keys
    rw [OrderedMap.keys, List.length_map, List.length_take] at this
    omega
  rw [firstUnknown]
  cases last : state.instantiatedEntries.getLast? with
  | none =>
    rw [List.getLast?_eq_none_iff.mp last] at length
    obtain rfl : 0 = n := length
    rw [members_zero file below]
    rfl
  | some pair =>
    obtain ⟨p, lastKnown⟩ := pair
    obtain ⟨n, rfl⟩ : ∃ i, n = i + 1 := by
      cases n with
      | zero =>
        rw [List.length_eq_zero_iff.mp length] at last
        cases last
      | succ i => exact ⟨i, rfl⟩
    have isLast : p = (members file)[n] := by
      have := congrArg List.getLast? keys
      rw [OrderedMap.keys, List.getLast?_map, last, List.take_succ_eq_append_getElem (by omega),
        List.getLast?_concat] at this
      exact Option.some.inj this
    have known := invariant.known p lastKnown
      (OrderedMap.get?_of_mem _ invariant.sorted (List.mem_of_getLast? last))
    show (next file.base file.fileContent lastKnown.entry, lastKnown.index + BitVec.ofNat 32 1) = _
    rw [members_next file below, known.entry, known.index, isLast, position_getElem, ← BitVec.ofNat_add]

theorem addEntriesTo_spec {m : Nat} (below : m < (members file).length) {fuel n : Nat}
    (invariant : Invariant file hashTable state)
    (keys : OrderedMap.keys state.instantiatedEntries = (members file).take n) (notYet : n ≤ m)
    (enough : m + 2 ≤ fuel + n) (memberIndex : BitVec 32) :
    ∃ entries, addEntriesTo file (members file)[m] fuel (members file)[n] (BitVec.ofNat 32 (n + 1))
        state.instantiatedEntries memberIndex = .ok (entries, BitVec.ofNat 32 (m + 1)) ∧
      Invariant file hashTable { state with instantiatedEntries := entries } ∧
      entries.get? (members file)[m] = some ⟨none, (members file)[m], false, false, BitVec.ofNat 32 (m + 1)⟩ := by
  induction fuel generalizing n state memberIndex with
  | zero => omega
  | succ fuel ih =>
    obtain ⟨added, addedKeys⟩ := invariant.add keys (by omega)
    have upTo : (members file)[n] ≤ (members file)[m] := by
      obtain less | same := Nat.lt_or_eq_of_le notYet
      · exact Nat.le_of_lt (List.pairwise_iff_getElem.mp (members_sorted file) n m (by omega) below less)
      · simp [same]
    rw [addEntriesTo, if_pos upTo]
    obtain less | rfl := Nat.lt_or_eq_of_le notYet
    · rw [← members_next file (by omega)]
      have := ih added addedKeys (by omega) (by omega) (if (members file)[m] = (members file)[n] then BitVec.ofNat 32 (n + 1) else memberIndex)
      rw [BitVec.ofNat_add (n + 1) 1] at this
      exact this
    · obtain ⟨fuel, rfl⟩ : ∃ f, fuel = f + 1 := ⟨fuel - 1, by omega⟩
      rw [addEntriesTo, if_neg (Nat.not_le.mpr (lt_next _ _ _)), if_pos rfl]
      exact ⟨_, rfl, added, OrderedMap.get?_set_self _ _ _⟩

/-- What a step may do: more is loaded, and nothing is forgotten. -/
structure Reaches (file : ArchiveFile Object) (hashTable : NameToOffsetMap) (state after : LoadState Object) : Prop where
  invariant : Invariant file hashTable after
  handed : ∀ p ∈ state.handed, p ∈ after.handed
  all : after.alreadyLoadedAll = state.alreadyLoadedAll

theorem Reaches.refl (invariant : Invariant file hashTable state) :
    Reaches file hashTable state state := ⟨invariant, fun _ => id, rfl⟩

theorem Reaches.trans {state middle after : LoadState Object} (first : Reaches file hashTable state middle)
    (second : Reaches file hashTable middle after) : Reaches file hashTable state after :=
  ⟨second.invariant, fun p member => second.handed p (first.handed p member), second.all.trans first.all⟩

theorem Invariant.update (invariant : Invariant file hashTable state) {p : Nat}
    {known known' : MemberState Object} (found : state.instantiatedEntries.get? p = some known)
    (right : Known file hashTable p known') {handed : List Nat} (once : handed.Nodup)
    (here : p ∈ handed ↔ known'.loaded = true) (others : ∀ q, q ≠ p → (q ∈ handed ↔ q ∈ state.handed))
    (kept : p ∈ state.handed → p ∈ handed) :
    Reaches file hashTable state
      { state with instantiatedEntries := state.instantiatedEntries.set p known', handed := handed } := by
  have subset (q : Nat) (member : q ∈ state.handed) : q ∈ handed := by
    by_cases same : q = p
    · exact same ▸ kept (same ▸ member)
    · exact (others q same).mpr member
  have inKeys : p ∈ OrderedMap.keys state.instantiatedEntries := by
    rw [← OrderedMap.get?_isSome_iff, found]
    rfl
  refine ⟨⟨?_, fun q other foundOther => ?_, fun q => ?_, once, fun all q member notFirst => ?_⟩, subset, rfl⟩
  · obtain ⟨n, keys⟩ := invariant.keys
    exact ⟨n, (OrderedMap.keys_set_of_mem _ invariant.sorted inKeys).trans keys⟩
  · by_cases same : q = p
    · rw [same, OrderedMap.get?_set_self] at foundOther
      obtain rfl := Option.some.inj foundOther
      rw [same]
      exact right
    · rw [OrderedMap.get?_set_of_ne _ _ _ same] at foundOther
      exact invariant.known q other foundOther
  · by_cases same : q = p
    · rw [same, isLoaded, OrderedMap.get?_set_self]
      exact here
    · rw [isLoaded, OrderedMap.get?_set_of_ne _ _ _ same]
      exact (others q same).trans (invariant.handed q)
  · exact subset q (invariant.all all q member notFirst)

theorem isLoaded_of_get? {p : Nat} {known : MemberState Object}
    (found : state.instantiatedEntries.get? p = some known) : isLoaded state p = known.loaded := by
  rw [isLoaded, found]
  rfl

end Invariant

end Cctools.Archive.Loading
