/-
# Cctools.As.Hash -- the assembler's hash tables

hash.c: a table of buckets, and an entry found goes to the front of its own.
`HashControl` carries what every operation keeps, that an entry stands in the bucket of its
hash and that no string is there twice; by it `hashFind` is a finite map of the strings
(`find_hashInsert`, `find_hashJam`), and `hashTraverse` visits its entries once.

A key is a C string; `char` is signed.
-/
import Cctools.Read.Statements
import Mathlib.Data.List.Nodup

namespace Cctools.As

open Cctools.Read (Text)

set_option autoImplicit false

/-- A string without its terminator. -/
abbrev CString := { text : Text // (0 : UInt8) ∉ text }

structure HashEntry (α : Type) where
  string : CString
  hash : UInt32
  data : α

/-- One round of the loop in `hash_lookup`. -/
def hashStep (hash : UInt32) (c : UInt8) : UInt32 :=
  let c := c.toInt8.toInt32.toUInt32
  let hash := hash + (c + (c <<< 17))
  hash ^^^ (hash >>> 2)

def hashCode (key : CString) : UInt32 :=
  let len := key.val.length.toUInt32
  let hash := key.val.foldl hashStep 0 + (len + (len <<< 17))
  hash ^^^ (hash >>> 2)

structure HashControl (α : Type) where
  size : Nat
  table : Nat → List (HashEntry α)
  sized : 0 < size
  placed : ∀ index, ∀ entry ∈ table index, entry.hash = hashCode entry.string ∧ (hashCode entry.string).toNat % size = index
  distinct : ∀ index, ((table index).map HashEntry.string).Nodup

/-! ## Buckets -/

section Buckets

variable {α : Type}

/-- `p->hash == hash` and the strings are equal. -/
def HashEntry.is (key : CString) (entry : HashEntry α) : Bool := entry.hash = hashCode key && entry.string = key

/-- The entry found is moved to the front. -/
def toFront (key : CString) (bucket : List (HashEntry α)) : List (HashEntry α) :=
  match bucket.find? (HashEntry.is key) with
  | none => bucket
  | some entry => entry :: bucket.eraseP (HashEntry.is key)

theorem toFront_perm (key : CString) (bucket : List (HashEntry α)) : (toFront key bucket).Perm bucket := by
  unfold toFront
  split
  · exact .refl _
  · rename_i entry found
    induction bucket with
    | nil => cases found
    | cons first rest ih =>
      rw [List.find?_cons] at found
      rw [List.eraseP_cons]
      split at found
      · rename_i is
        rw [is, Option.some.inj found]
        exact .refl _
      · rename_i other
        rw [other]
        exact (List.Perm.swap first entry _).trans ((ih found).cons first)

theorem find_is_some {bucket : List (HashEntry α)} (hashed : ∀ entry ∈ bucket, entry.hash = hashCode entry.string)
    (distinct : (bucket.map HashEntry.string).Nodup) {entry : HashEntry α} {key : CString} :
    bucket.find? (HashEntry.is key) = some entry ↔ entry ∈ bucket ∧ entry.string = key := by
  constructor
  · intro found
    have is := List.find?_some found
    rw [HashEntry.is, Bool.and_eq_true] at is
    exact ⟨List.mem_of_find?_eq_some found, of_decide_eq_true is.2⟩
  · rintro ⟨member, rfl⟩
    induction bucket with
    | nil => cases member
    | cons first rest ih =>
      rw [List.map_cons, List.nodup_cons] at distinct
      rw [List.find?_cons]
      rcases List.mem_cons.mp member with rfl | later
      · have is : HashEntry.is entry.string entry = true := by simp [HashEntry.is, hashed entry]
        rw [is]
      · have other : HashEntry.is entry.string first = false := by
          have apart : first.string ≠ entry.string := by
            intro same
            exact distinct.1 (List.mem_map.mpr ⟨entry, later, same.symm⟩)
          simp [HashEntry.is, apart]
        rw [other]
        exact ih (fun e inside => hashed e (List.mem_cons_of_mem _ inside)) distinct.2 later

end Buckets

/-! ## The operations -/

namespace HashControl

variable {α : Type}

/-- The bucket of a key. -/
def index (control : HashControl α) (key : CString) : Nat := (hashCode key).toNat % control.size

/-- One bucket is exchanged for one of the same strings' places. -/
def withBucket (control : HashControl α) (at_ : Nat) (bucket : List (HashEntry α))
    (placed : ∀ entry ∈ bucket, entry.hash = hashCode entry.string ∧ (hashCode entry.string).toNat % control.size = at_)
    (distinct : (bucket.map HashEntry.string).Nodup) : HashControl α where
  size := control.size
  table index := if index = at_ then bucket else control.table index
  sized := control.sized
  placed index := by
    split
    · rename_i is
      rw [is]
      exact placed
    · exact control.placed index
  distinct index := by
    split
    · exact distinct
    · exact control.distinct index

/-- `DEFAULT_SIZE` -/
def new : HashControl α where
  size := 4051
  table _ := []
  sized := by decide
  placed := nofun
  distinct _ := .nil

/-- `hash_lookup`: the entry, and the table in which it is at the front. -/
def hashLookup (control : HashControl α) (key : CString) : Option (HashEntry α) × HashControl α :=
  let bucket := control.table (control.index key)
  (bucket.find? (HashEntry.is key),
    control.withBucket (control.index key) (toFront key bucket)
      (fun entry inside => control.placed _ entry ((toFront_perm key bucket).mem_iff.mp inside))
      (((toFront_perm key bucket).map _).nodup_iff.mpr (control.distinct _)))

def hashFind (control : HashControl α) (key : CString) : Option α × HashControl α :=
  ((control.hashLookup key).1.map HashEntry.data, (control.hashLookup key).2)

variable {control : HashControl α} {key : CString}

theorem lookup_mem {entry : HashEntry α} :
    (control.hashLookup key).1 = some entry ↔ entry ∈ control.table (control.index key) ∧ entry.string = key :=
  find_is_some (fun entry inside => (control.placed _ entry inside).1) (control.distinct _)

theorem lookup_none (none : (control.hashLookup key).1 = none) :
    key ∉ (control.table (control.index key)).map HashEntry.string := by
  intro inside
  obtain ⟨entry, member, is⟩ := List.mem_map.mp inside
  rw [lookup_mem.mpr ⟨member, is⟩] at none
  cases none

/-- The entry of a key that is not there. -/
def push (control : HashControl α) (key : CString) (value : α) (fresh : (control.hashLookup key).1 = none) : HashControl α :=
  control.withBucket (control.index key) (⟨key, hashCode key, value⟩ :: control.table (control.index key))
    (by
      intro entry inside
      rcases List.mem_cons.mp inside with rfl | inside
      · exact ⟨rfl, rfl⟩
      · exact control.placed _ entry inside)
    (List.nodup_cons.mpr ⟨lookup_none fresh, control.distinct _⟩)

/-- Whether it "exists", and the table. -/
def hashInsert (control : HashControl α) (key : CString) (value : α) : Bool × HashControl α :=
  if fresh : (control.hashLookup key).1 = none then (false, control.push key value fresh)
  else (true, (control.hashLookup key).2)

/-- The data of the entry found, or of a new one. -/
def hashJam (control : HashControl α) (key : CString) (value : α) : HashControl α :=
  if fresh : (control.hashLookup key).1 = none then control.push key value fresh
  else
    control.withBucket (control.index key)
      ((toFront key (control.table (control.index key))).map fun entry =>
        if entry.string = key then { entry with data := value } else entry)
      (by
        intro entry inside
        obtain ⟨before, member, rfl⟩ := List.mem_map.mp inside
        have placed := control.placed _ before ((toFront_perm key _).mem_iff.mp member)
        split <;> exact placed)
      (by
        have strings : ((toFront key (control.table (control.index key))).map fun entry =>
            if entry.string = key then { entry with data := value } else entry).map HashEntry.string
            = (toFront key (control.table (control.index key))).map HashEntry.string := by
          rw [List.map_map]
          refine List.map_congr_left ?_
          intro entry _
          dsimp only [Function.comp]
          split <;> rfl
        rw [strings]
        exact ((toFront_perm key _).map _).nodup_iff.mpr (control.distinct _))

/-- What `hash_traverse` visits, in its order. -/
def hashTraverse (control : HashControl α) : List (HashEntry α) := (List.range control.size).flatMap control.table

/-! ## The table as a finite map -/

/-- What a look up gives. -/
def find (control : HashControl α) (key : CString) : Option α := (control.hashFind key).1

theorem find_eq_some {value : α} :
    control.find key = some value
      ↔ ∃ entry ∈ control.table (control.index key), entry.string = key ∧ entry.data = value := by
  unfold find hashFind
  rw [Option.map_eq_some_iff]
  constructor
  · rintro ⟨entry, found, data⟩
    obtain ⟨member, is⟩ := lookup_mem.mp found
    exact ⟨entry, member, is, data⟩
  · rintro ⟨entry, member, is, data⟩
    exact ⟨entry, lookup_mem.mpr ⟨member, is⟩, data⟩

theorem find_new (key : CString) : (new : HashControl α).find key = none := rfl

theorem find_none : control.find key = none ↔ (control.hashLookup key).1 = none :=
  Option.map_eq_none_iff

theorem find_congr {first second : HashControl α} (same : ∀ entry : HashEntry α, entry.string = key →
      (entry ∈ first.table (first.index key) ↔ entry ∈ second.table (second.index key))) :
    first.find key = second.find key := by
  apply Option.ext
  intro value
  rw [find_eq_some, find_eq_some]
  constructor
  · rintro ⟨entry, member, is, data⟩
    exact ⟨entry, (same entry is).mp member, is, data⟩
  · rintro ⟨entry, member, is, data⟩
    exact ⟨entry, (same entry is).mpr member, is, data⟩

theorem find_hashLookup (control : HashControl α) (moved key : CString) :
    (control.hashLookup moved).2.find key = control.find key := by
  apply find_congr
  intro entry _
  show entry ∈ (if control.index key = control.index moved then _ else _) ↔ _
  split
  · rename_i same
    rw [same]
    exact (toFront_perm moved _).mem_iff
  · rfl

theorem find_push (control : HashControl α) {new : CString} {value : α} (fresh : (control.hashLookup new).1 = none)
    (key : CString) : (control.push new value fresh).find key = if key = new then some value else control.find key := by
  by_cases same : key = new
  · subst same
    rw [if_pos rfl, find_eq_some]
    refine ⟨⟨key, hashCode key, value⟩, ?_, rfl, rfl⟩
    show _ ∈ (if control.index key = control.index key then _ else _)
    rw [if_pos rfl]
    exact List.mem_cons_self
  · rw [if_neg same]
    apply find_congr
    intro entry is
    show entry ∈ (if control.index key = control.index new then _ else _) ↔ _
    split
    · rename_i one
      rw [List.mem_cons, one]
      refine or_iff_right ?_
      rintro rfl
      exact same is.symm
    · rfl

theorem find_hashInsert (control : HashControl α) {new : CString} (fresh : control.find new = none) (value : α) (key : CString) :
    (control.hashInsert new value).1 = false
      ∧ (control.hashInsert new value).2.find key = if key = new then some value else control.find key := by
  rw [hashInsert, dif_pos (find_none.mp fresh)]
  exact ⟨rfl, find_push control (find_none.mp fresh) key⟩

theorem find_hashInsert_other (control : HashControl α) {new key : CString} (other : key ≠ new) (value : α) :
    (control.hashInsert new value).2.find key = control.find key := by
  unfold hashInsert
  split
  · rename_i fresh
    exact (find_push control fresh key).trans (if_neg other)
  · exact find_hashLookup control new key

theorem find_hashJam (control : HashControl α) (old : CString) (value : α) (key : CString) :
    (control.hashJam old value).find key = if key = old then some value else control.find key := by
  unfold hashJam
  split
  · rename_i fresh
    exact find_push control fresh key
  · rename_i there
    obtain ⟨found, lookup⟩ := Option.ne_none_iff_exists'.mp there
    obtain ⟨member, is⟩ := lookup_mem.mp lookup
    by_cases same : key = old
    · subst same
      rw [if_pos rfl, find_eq_some]
      refine ⟨{ found with data := value }, ?_, is, rfl⟩
      show _ ∈ (if control.index key = control.index key then _ else _)
      rw [if_pos rfl, List.mem_map]
      exact ⟨found, (toFront_perm key _).mem_iff.mpr member, by rw [if_pos is]⟩
    · rw [if_neg same]
      apply find_congr
      intro entry entryIs
      show entry ∈ (if control.index key = control.index old then _ else _) ↔ _
      split
      · rename_i one
        rw [one, List.mem_map]
        constructor
        · rintro ⟨before, inside, rfl⟩
          split at entryIs
          · rename_i olds
            exact absurd (entryIs.symm.trans olds) same
          · rename_i other
            rw [if_neg other]
            exact (toFront_perm old _).mem_iff.mp inside
        · intro inside
          refine ⟨entry, (toFront_perm old _).mem_iff.mpr inside, ?_⟩
          rw [if_neg (fun olds => same (entryIs.symm.trans olds))]
      · rfl

theorem index_lt (control : HashControl α) (key : CString) : control.index key < control.size :=
  Nat.mod_lt _ control.sized

/-- **What is visited is what is found.** -/
theorem mem_hashTraverse {entry : HashEntry α} :
    entry ∈ control.hashTraverse ↔ entry ∈ control.table (control.index entry.string) := by
  rw [hashTraverse, List.mem_flatMap]
  constructor
  · rintro ⟨at_, _, member⟩
    have is : control.index entry.string = at_ := (control.placed at_ entry member).2
    rwa [is]
  · intro member
    exact ⟨_, List.mem_range.mpr (control.index_lt entry.string), member⟩

theorem find_iff_traverse {value : α} :
    control.find key = some value ↔ ∃ entry ∈ control.hashTraverse, entry.string = key ∧ entry.data = value := by
  rw [find_eq_some]
  constructor
  · rintro ⟨entry, member, rfl, data⟩
    exact ⟨entry, mem_hashTraverse.mpr member, rfl, data⟩
  · rintro ⟨entry, member, rfl, data⟩
    exact ⟨entry, mem_hashTraverse.mp member, rfl, data⟩

theorem hashTraverse_nodup (control : HashControl α) : (control.hashTraverse.map HashEntry.string).Nodup := by
  rw [hashTraverse, List.map_flatMap, List.nodup_flatMap]
  refine ⟨fun index _ => control.distinct index, ?_⟩
  refine List.nodup_range.imp ?_
  intro first second apart key inFirst inSecond
  obtain ⟨one, oneIn, rfl⟩ := List.mem_map.mp inFirst
  obtain ⟨two, twoIn, same⟩ := List.mem_map.mp inSecond
  have place := (control.placed first one oneIn).2
  rw [← same, (control.placed second two twoIn).2] at place
  exact apart place.symm

end HashControl

end Cctools.As
