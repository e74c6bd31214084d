/-
# Cctools.Symtab.Indexes -- the numbers of the atoms and the entries they are numbers of

`assignSymbolIndexes` gives the atoms of a list consecutive numbers, and `encode` makes an
entry for each of them in the same order, if no local is skipped.  The bytes of an array
of entries are read back one entry at a time (`nlistAt_arrayBytes`), and three copies that
follow each other fill the table (`copyRawContent_eq`).
-/
import Cctools.Symtab.Entries
import Cctools.Symtab.Lists
import Mathlib.Tactic.Ring

namespace Cctools.Symtab

set_option autoImplicit false

open Cctools.Theory

theorem uint32_of_lt {n : Nat} (small : n < 2 ^ 32) : uint32 n = n := Nat.mod_eq_of_lt small

section Numbers

variable {Ref : Type} [DecidableEq Ref]

/-! ## Numbering -/

/-- Atoms that differ in the symbol index alone. -/
def OnlyIndex (before after : Ref → Atom Ref) : Prop :=
  ∀ ref, after ref = { before ref with outputSymbolIndex := (after ref).outputSymbolIndex }

omit [DecidableEq Ref] in
theorem OnlyIndex.refl (atom : Ref → Atom Ref) : OnlyIndex atom atom := fun _ => rfl

omit [DecidableEq Ref] in
theorem OnlyIndex.trans {before between after : Ref → Atom Ref} (first : OnlyIndex before between)
    (second : OnlyIndex between after) : OnlyIndex before after := by
  intro ref
  rw [second ref, first ref]

theorem setOutputSymbolIndex_onlyIndex (atom : Ref → Atom Ref) (ref : Ref) (index : Nat) :
    OnlyIndex atom (setOutputSymbolIndex atom ref index) := by
  intro r
  unfold setOutputSymbolIndex
  by_cases same : r = ref
  · rw [same, Function.update_self]
  · rw [Function.update_of_ne same]

theorem setOutputSymbolIndex_self (atom : Ref → Atom Ref) (ref : Ref) (index : Nat) :
    (setOutputSymbolIndex atom ref index ref).outputSymbolIndex = index := by
  rw [setOutputSymbolIndex, Function.update_self]

theorem setOutputSymbolIndex_other (atom : Ref → Atom Ref) {ref r : Ref} (other : r ≠ ref)
    (index : Nat) : setOutputSymbolIndex atom ref index r = atom r := by
  rw [setOutputSymbolIndex, Function.update_of_ne other]

theorem numberAtoms_onlyIndex : ∀ (list : List Ref) (start : Nat) (atom : Ref → Atom Ref),
    OnlyIndex atom (numberAtoms list start atom).1
  | [], _, atom => OnlyIndex.refl atom
  | ref :: list, start, atom =>
    (setOutputSymbolIndex_onlyIndex atom ref start).trans (numberAtoms_onlyIndex list _ _)

theorem numberAtoms_other : ∀ (list : List Ref) (start : Nat) (atom : Ref → Atom Ref) {ref : Ref},
    ref ∉ list → (numberAtoms list start atom).1 ref = atom ref
  | [], _, _, _, _ => rfl
  | first :: list, start, atom, ref, absent => by
      rw [List.mem_cons, not_or] at absent
      rw [numberAtoms, numberAtoms_other list _ _ absent.2, setOutputSymbolIndex_other _ absent.1]

theorem numberAtoms_end : ∀ (list : List Ref) (start : Nat) (atom : Ref → Atom Ref),
    start + list.length < 2 ^ 32 → (numberAtoms list start atom).2 = start + list.length
  | [], _, _, _ => rfl
  | _ :: list, start, atom, fits => by
      rw [List.length_cons] at fits ⊢
      rw [numberAtoms, uint32_of_lt (by omega), numberAtoms_end list _ _ (by omega)]
      omega

/-- The atom at place `i` of a list has number `start + i`. -/
theorem numberAtoms_index : ∀ (list : List Ref) (start : Nat) (atom : Ref → Atom Ref),
    list.Nodup → start + list.length < 2 ^ 32 → ∀ (i : Nat) (inside : i < list.length),
      ((numberAtoms list start atom).1 list[i]).outputSymbolIndex = start + i
  | [], _, _, _, _, i, inside => absurd inside (Nat.not_lt_zero i)
  | ref :: list, start, atom, once, fits, i, inside => by
      rw [List.length_cons] at fits inside
      obtain ⟨fresh, once'⟩ := List.nodup_cons.mp once
      rw [numberAtoms, uint32_of_lt (by omega)]
      cases i with
      | zero =>
        rw [List.getElem_cons_zero, numberAtoms_other list _ _ fresh, setOutputSymbolIndex_self]
        rfl
      | succ i =>
        rw [List.getElem_cons_succ, numberAtoms_index list (start + 1) _ once' (by omega) i (by omega)]
        omega

/-- The locals that are not skipped are numbered as the other lists are. -/
theorem numberLocals_eq (options : Options) : ∀ (list : List Ref) (start : Nat) (atom : Ref → Atom Ref),
    numberLocals options list start atom
      = numberAtoms (list.filter fun ref => !skipsLocal options (atom ref)) start atom
  | [], _, _ => rfl
  | ref :: list, start, atom => by
      have same : ∀ index, (fun r => !skipsLocal options (setOutputSymbolIndex atom ref index r))
          = fun r => !skipsLocal options (atom r) := by
        intro index
        funext r
        rw [setOutputSymbolIndex_onlyIndex atom ref index r]
        rfl
      rw [numberLocals]
      cases skipped : skipsLocal options (atom ref) with
      | true => simp [numberLocals_eq options list, skipped]
      | false => simp [numberLocals_eq options list, skipped, numberAtoms, same]

/-! ## One entry for each atom -/

omit [DecidableEq Ref] in
theorem entriesOf_makers {Source : Type} (maker : Source → Maker Ref)
    (add : Source → Names → Nlist × Names) :
    ∀ (sources : List Source) (names : Names),
      (entriesOf maker add sources names).1.map Entry.maker = sources.map maker
  | [], _ => rfl
  | source :: sources, names => by
      simp only [entriesOf, List.map_cons, entriesOf_makers maker add sources]

omit [DecidableEq Ref] in
theorem localName_ne_none (options : Options) (a : Atom Ref) (anonNameIndex : Nat)
    (keeps : skipsLocal options a = false) : localName options a anonNameIndex ≠ none := by
  unfold localName
  split_ifs with _ _ _ frame removes
  all_goals first
    | exact Option.some_ne_none _
    | simp [skipsLocal, frame, removes] at keeps

theorem localEntries_makers (options : Options) (state : Internal Ref) (atom : Ref → Atom Ref) :
    ∀ (refs : List Ref) (names : Names), (∀ ref ∈ refs, skipsLocal options (atom ref) = false) →
      (localEntries options state atom refs names).1.map Entry.maker = refs.map Maker.atom
  | [], _, _ => rfl
  | ref :: refs, names, keeps => by
      have rest := localEntries_makers options state atom refs
        (addLocal options state atom ref names).2 (fun r member => keeps r (List.mem_cons_of_mem _ member))
      have named := localName_ne_none options (atom ref) names.anonNameIndex
        (keeps ref List.mem_cons_self)
      obtain ⟨⟨symbolName, next⟩, named⟩ := Option.ne_none_iff_exists'.mp named
      have made : ∃ nlist, (addLocal options state atom ref names).1 = some nlist := by
        simp only [addLocal, named]
        exact ⟨_, rfl⟩
      obtain ⟨nlist, made⟩ := made
      simp only [localEntries, made, List.map_cons, rest]

end Numbers

/-! ## The bytes of an array -/

namespace SymbolTableAtom

variable {Ref : Type}

theorem length_bytes (P : Pointer) (entry : Nlist) : (entry.bytes P).length = sizeofNlist P := by
  simp only [Nlist.bytes, sizeofNlist, List.length_append, List.length_reverse, length_beBytes]

theorem length_arrayBytes (P : Pointer) (entries : List (Entry Ref)) :
    (arrayBytes P entries).length = entries.length * sizeofNlist P := by
  induction entries with
  | nil => simp [arrayBytes]
  | cons entry entries ih =>
    have cons : arrayBytes P (entry :: entries) = entry.nlist.bytes P ++ arrayBytes P entries := rfl
    rw [cons, List.length_append, ih, length_bytes, List.length_cons, Nat.succ_mul, Nat.add_comm]

theorem arrayBytes_append (P : Pointer) (first second : List (Entry Ref)) :
    arrayBytes P (first ++ second) = arrayBytes P first ++ arrayBytes P second :=
  List.flatMap_append

/-- Entry `index` of a table. -/
def nlistAt (P : Pointer) (raw : List UInt8) (index : Nat) : List UInt8 :=
  (raw.drop (index * sizeofNlist P)).take (sizeofNlist P)

theorem nlistAt_arrayBytes (P : Pointer) : ∀ (entries : List (Entry Ref)) (index : Nat)
    (inside : index < entries.length),
      nlistAt P (arrayBytes P entries) index = (entries[index]).nlist.bytes P
  | [], index, inside => absurd inside (Nat.not_lt_zero index)
  | entry :: entries, index, inside => by
      have cons : arrayBytes P (entry :: entries) = entry.nlist.bytes P ++ arrayBytes P entries := rfl
      have width := length_bytes P entry.nlist
      cases index with
      | zero =>
        rw [nlistAt, cons, Nat.zero_mul, List.drop_zero, List.take_left' width]
        rfl
      | succ index =>
        have step : (index + 1) * sizeofNlist P = (entry.nlist.bytes P).length + index * sizeofNlist P := by
          rw [width]
          ring
        rw [List.getElem_cons_succ, ← nlistAt_arrayBytes P entries index (Nat.lt_of_succ_lt_succ inside),
          nlistAt, cons, step, ← List.drop_drop, List.drop_left]
        rfl

/-! ## Three copies -/

theorem memcpy_behind {buffer : List UInt8} (done src : List UInt8) {rest : List UInt8}
    (shape : buffer = done ++ rest) (enough : src.length ≤ rest.length) :
    memcpy buffer done.length src src.length = some (done ++ src ++ rest.drop src.length) := by
  rw [memcpy, if_pos ⟨by rw [shape, List.length_append]; omega, Nat.le_refl _⟩, shape,
    List.take_left, List.take_length, List.drop_append]
  simp

/-- **Arrays that follow each other without a gap fill the table.** -/
theorem copyRawContent_eq (P : Pointer) (table : SymbolTableAtom Ref) (ranges : SymbolRanges)
    {buffer : List UInt8} (whole : buffer.length = table.size P)
    (localStart : ranges.localSymbolsStartIndex = 0)
    (localCount : ranges.localSymbolsCount = table.locals.length)
    (globalStart : ranges.globalSymbolsStartIndex = table.locals.length)
    (globalCount : ranges.globalSymbolsCount = table.globals.length)
    (importStart : ranges.importSymbolsStartIndex = table.locals.length + table.globals.length)
    (importCount : ranges.importSymbolsCount = table.imports.length) :
    table.copyRawContent P ranges buffer
      = some (arrayBytes P (table.locals ++ table.globals ++ table.imports)) := by
  have room : buffer.length = table.locals.length * sizeofNlist P
      + (table.globals.length * sizeofNlist P + table.imports.length * sizeofNlist P) := by
    rw [whole, SymbolTableAtom.size]
    ring
  rw [arrayBytes_append, arrayBytes_append, copyRawContent, localStart, localCount, globalStart,
    globalCount, importStart, importCount, Nat.add_mul, Nat.zero_mul]
  rw [← length_arrayBytes, ← length_arrayBytes, ← length_arrayBytes] at room ⊢
  have first : memcpy buffer 0 (arrayBytes P table.locals) (arrayBytes P table.locals).length
      = some ([] ++ arrayBytes P table.locals ++ buffer.drop (arrayBytes P table.locals).length) :=
    memcpy_behind [] (arrayBytes P table.locals) rfl (by omega)
  rw [first, Option.bind_eq_bind, Option.bind_some, List.nil_append]
  rw [memcpy_behind _ (arrayBytes P table.globals) rfl (by rw [List.length_drop]; omega),
    Option.bind_some, ← List.length_append,
    memcpy_behind _ (arrayBytes P table.imports) rfl (by
      rw [List.length_drop, List.length_drop]; omega)]
  rw [List.drop_eq_nil_of_le (by rw [List.length_drop, List.length_drop]; omega), List.append_nil]

end SymbolTableAtom

end Cctools.Symtab
