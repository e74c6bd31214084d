/-
# Cctools.Theory.Counted -- items written one after the other

Every item is written in the state that the items before it leave, and a reader of one item finds
what is seen of it and the state behind it.  Read as often as there are items, or until the reader
says that no item is left, it finds them all (`readTimes_writeAll`, `readUntil_writeAll`).
-/
import Mathlib.Tactic.Common

namespace Cctools.Theory

set_option autoImplicit false

variable {σ α β γ : Type}

/-- The items from a state on. -/
def writeAll (write : σ → α → List β) (next : σ → α → σ) : σ → List α → List β
  | _, [] => []
  | state, item :: items => write state item ++ writeAll write next (next state item) items

/-- What a reader of one item finds: what is seen, and the state behind it. -/
abbrev ItemReader (σ β γ : Type) := σ → List β → Option ((γ × σ) × List β)

def readTimes (read : ItemReader σ β γ) : Nat → σ → List β → Option (List γ × List β)
  | 0, _, text => some ([], text)
  | count + 1, state, text =>
    match read state text with
    | none => none
    | some ((seen, after), rest) => (readTimes read count after rest).map fun found => (seen :: found.1, found.2)

/-- A reader that undoes what a writer wrote, whatever is behind it. -/
def Undoes (read : ItemReader σ β γ) (write : σ → α → List β) (next : σ → α → σ) (seen : α → γ) (item : α) : Prop :=
  ∀ state rest, read state (write state item ++ rest) = some ((seen item, next state item), rest)

variable {next : σ → α → σ} {write : σ → α → List β}

/-- **Counted items are read back.** -/
theorem readTimes_writeAll {read : ItemReader σ β γ} {seen : α → γ}
    {items : List α} (undoes : ∀ item ∈ items, Undoes read write next seen item) (state : σ) (rest : List β) :
    readTimes read items.length state (writeAll write next state items ++ rest) = some (items.map seen, rest) := by
  induction items generalizing state with
  | nil => rfl
  | cons item items ih =>
    rw [List.forall_mem_cons] at undoes
    rw [writeAll, List.append_assoc, List.length_cons, readTimes, undoes.1 state]
    dsimp only
    rw [ih undoes.2]
    rfl

/-! ## Up to a terminator -/

/-- A reader of one item that may find that there are no more. -/
abbrev EndReader (σ β γ : Type) := σ → List β → Option (Option (γ × σ) × List β)

/-- The fuel bounds the number of items. -/
def readUntil (read : EndReader σ β γ) : Nat → σ → List β → Option (List γ × List β)
  | 0, _, _ => none
  | fuel + 1, state, text =>
    match read state text with
    | none => none
    | some (none, rest) => some ([], rest)
    | some (some (seen, after), rest) =>
      (readUntil read fuel after rest).map fun found => (seen :: found.1, found.2)

/-- Every item is good for the state it is written in. -/
def Along (good : σ → α → Prop) (next : σ → α → σ) : σ → List α → Prop
  | _, [] => True
  | state, item :: items => good state item ∧ Along good next (next state item) items

theorem along_of_forall {good : σ → α → Prop} {items : List α}
    (each : ∀ item ∈ items, ∀ state, good state item) (state : σ) : Along good next state items := by
  induction items generalizing state with
  | nil => trivial
  | cons item items ih =>
    rw [List.forall_mem_cons] at each
    exact ⟨each.1 state, ih each.2 _⟩

/-- **Items up to a terminator are read back**, and what is behind it is left. -/
theorem readUntil_writeAll {read : EndReader σ β γ} {seen : α → γ} {good : σ → α → Prop} {terminator : List β}
    (undoes : ∀ state item rest, good state item →
      read state (write state item ++ rest) = some (some (seen item, next state item), rest))
    (stops : ∀ state rest, read state (terminator ++ rest) = some (none, rest)) {items : List α} {state : σ}
    (along : Along good next state items) {fuel : Nat} (enough : items.length < fuel) (rest : List β) :
    readUntil read fuel state (writeAll write next state items ++ (terminator ++ rest)) =
      some (items.map seen, rest) := by
  induction items generalizing state fuel with
  | nil =>
    obtain ⟨fuel, rfl⟩ : ∃ less, fuel = less + 1 := ⟨fuel - 1, by rw [List.length_nil] at enough; omega⟩
    rw [writeAll, List.nil_append, readUntil, stops]
    rfl
  | cons item items ih =>
    obtain ⟨fuel, rfl⟩ : ∃ less, fuel = less + 1 := ⟨fuel - 1, by omega⟩
    rw [writeAll, List.append_assoc, readUntil, undoes state item _ along.1]
    dsimp only
    rw [ih along.2 (Nat.lt_of_succ_lt_succ enough)]
    rfl

theorem length_writeAll (nonempty : ∀ state item, write state item ≠ [])
    (state : σ) (items : List α) : items.length ≤ (writeAll write next state items).length := by
  induction items generalizing state with
  | nil => exact Nat.zero_le _
  | cons item items ih =>
    have positive := List.length_pos_iff.mpr (nonempty state item)
    have later := ih (next state item)
    rw [writeAll, List.length_append, List.length_cons]
    omega

end Cctools.Theory
