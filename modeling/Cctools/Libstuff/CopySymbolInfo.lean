/-
# Cctools.Libstuff.CopySymbolInfo -- writing the link-edit tables back

`copy_new_symbol_info` of libstuff's writeout.c appends the tables that it is given.  Given
the ones of the file, at the places the load commands say, it restores the file that
`dyld_order` accepted (`copyNewSymbolInfo_unchanged`), if the tables fill the link-edit
segment and padding is zero (`Object.Rewritable`).

`dyld_order` does not ask where dyld info begins that has neither rebase nor bind
information (`gap_before_exports`).
-/
import Cctools.Libstuff.CheckObject
import Cctools.Theory.Transducer
import Mathlib.Data.List.TakeDrop
import Mathlib.Algebra.Order.BigOperators.Group.List
import Mathlib.Algebra.Order.Ring.Nat

namespace Cctools.Libstuff

set_option autoImplicit false

/-! ## Writing -/

/-- The `output_*` fields of `struct object`; a table has the bytes of its size. -/
structure Output where
  dyldInfo : List UInt8
  dyldChainedFixups : List UInt8
  dyldExportsTrie : List UInt8
  locRelocs : List UInt8
  splitInfo : List UInt8
  funcStartInfo : List UInt8
  dataInCodeInfo : List UInt8
  atomInfo : List UInt8
  codeSignDrsInfo : List UInt8
  linkOptHintInfo : List UInt8
  symbols : List UInt8
  hints : List UInt8
  extRelocs : List UInt8
  indirectSymtab : List UInt8
  tocs : List UInt8
  mods : List UInt8
  refs : List UInt8
  strings : List UInt8
  stringsSizePad : Nat
  codeSig : List UInt8

def zeros (count : Nat) : List UInt8 := List.replicate count 0

/-- The strings and the code signature. -/
def Output.copyStrings (output : Output) (p : List UInt8) : List UInt8 :=
  let p := p ++ output.strings ++ zeros output.stringsSizePad
  if output.codeSig.length ≠ 0 then p ++ zeros (rnd p.length 16 - p.length) ++ output.codeSig else p

/-- `copy_new_symbol_info`: `p` has what was written before.  The buffer has zeros where nothing is copied. -/
def copyNewSymbolInfo (p : List UInt8) (oldDyst : Option Dysymtab) (oldHintsCmd : Option TwolevelHints)
    (inputIndirectsymPad : Nat) (output : Output) : List UInt8 :=
  match oldDyst with
  | some dyst =>
    let outputIndirectsymPad := if dyst.nindirectsyms = 0 then 0 else inputIndirectsymPad
    let p := p ++ output.dyldInfo ++ output.dyldChainedFixups ++ output.dyldExportsTrie ++ output.locRelocs ++
      output.splitInfo ++ output.funcStartInfo ++ output.dataInCodeInfo ++ output.atomInfo ++
      output.codeSignDrsInfo ++ output.linkOptHintInfo ++ output.symbols
    let p := if oldHintsCmd.isSome then p ++ output.hints else p
    let p := p ++ output.extRelocs ++ output.indirectSymtab ++ zeros outputIndirectsymPad ++ output.tocs ++
      output.mods ++ output.refs
    output.copyStrings p
  | none =>
    output.copyStrings (p ++ output.funcStartInfo ++ output.dataInCodeInfo ++ output.atomInfo ++
      output.linkOptHintInfo ++ output.symbols)

/-! ## The tables of the file -/

def readBytes (file : List UInt8) (off size : Nat) : List UInt8 := (file.drop off).take size

def Table.read (file : List UInt8) (table : Table) : List UInt8 := readBytes file table.off.toNat table.bytes

def LinkeditData.read (file : List UInt8) (command : LinkeditData) : List UInt8 :=
  readBytes file command.dataoff.toNat command.datasize.toNat

/-- The offset of the first part of the dyld info. -/
def DyldInfo.first (info : DyldInfo) : BitVec 32 :=
  if info.rebaseOff ≠ 0 then info.rebaseOff
  else if info.bindOff ≠ 0 then info.bindOff
  else if info.weakBindOff ≠ 0 then info.weakBindOff
  else if info.lazyBindOff ≠ 0 then info.lazyBindOff
  else info.exportOff

/-- The range of dyld info from its first to its last part. -/
def DyldInfo.read (file : List UInt8) (info : DyldInfo) : List UInt8 :=
  match info.last with
  | none => []
  | some last => readBytes file info.first.toNat (last - info.first).toNat

namespace Object

/-- Every `output_*` field is the file's own data. -/
def unchanged (object : Object) (st : Symtab) (dyst : Dysymtab) (file : List UInt8) : Output where
  dyldInfo := (object.dyldInfo.map (·.read file)).getD []
  dyldChainedFixups := (object.dyldChainedFixups.map (·.read file)).getD []
  dyldExportsTrie := (object.dyldExportsTrie.map (·.read file)).getD []
  locRelocs := readBytes file dyst.locreloff.toNat (dyst.nlocrel.toNat * 8)
  splitInfo := (object.splitInfoCmd.map (·.read file)).getD []
  funcStartInfo := (object.funcStartsInfoCmd.map (·.read file)).getD []
  dataInCodeInfo := (object.dataInCodeCmd.map (·.read file)).getD []
  atomInfo := (object.atomInfoCmd.map (·.read file)).getD []
  codeSignDrsInfo := (object.codeSignDrsCmd.map (·.read file)).getD []
  linkOptHintInfo := (object.linkOptHintCmd.map (·.read file)).getD []
  symbols := readBytes file st.symoff.toNat (st.nsyms.toNat * if object.is64 then 16 else 12)
  hints := (object.hintsCmd.map fun hints => readBytes file hints.offset.toNat (hints.nhints.toNat * 4)).getD []
  extRelocs := readBytes file dyst.extreloff.toNat (dyst.nextrel.toNat * 8)
  indirectSymtab := readBytes file dyst.indirectsymoff.toNat (dyst.nindirectsyms.toNat * 4)
  tocs := readBytes file dyst.tocoff.toNat (dyst.ntoc.toNat * 8)
  mods := readBytes file dyst.modtaboff.toNat (dyst.nmodtab.toNat * if object.is64 then 56 else 52)
  refs := readBytes file dyst.extrefsymoff.toNat (dyst.nextrefsyms.toNat * 4)
  strings := readBytes file st.stroff.toNat st.strsize.toNat
  stringsSizePad := 0
  codeSig := (object.codeSigCmd.map (·.read file)).getD []

/-- The file cut before its link-edit data, with the unchanged tables behind it. -/
def rewrite (object : Object) (st : Symtab) (dyst : Dysymtab) (start pad : Nat) (file : List UInt8) : List UInt8 :=
  copyNewSymbolInfo (file.take start) (some dyst) object.hintsCmd pad (object.unchanged st dyst file)

end Object

/-! ## When nothing is lost -/

/-- The end of the last table that has entries, or what was before. -/
def tablesEnd (tables : List Table) (before : Nat) : Nat :=
  tables.foldl (fun end_ table => if table.count = 0 then end_ else table.off.toNat + table.bytes) before

/-- The offset of the first table that has entries. -/
def firstTable : List Table → Option Nat
  | [] => none
  | table :: tables => if table.count = 0 then firstTable tables else some table.off.toNat

/-- The file has zeros from one offset to another. -/
def ZerosBetween (file : List UInt8) (from_ upTo : Nat) : Prop := readBytes file from_ (upTo - from_) = zeros (upTo - from_)

instance (file : List UInt8) (from_ upTo : Nat) : Decidable (ZerosBetween file from_ upTo) :=
  inferInstanceAs (Decidable (_ = _))

namespace Object

/-- The `fileoff` of the link-edit segment. -/
def fileoff (object : Object) : Nat :=
  if object.is64 then (object.segLinkedit64.map (·.fileoff.toNat)).getD 0
  else (object.segLinkedit.map (·.fileoff.toNat)).getD 0

/-- Where the dyld info ends. -/
def dyldInfoEnd (object : Object) : Nat := ((object.dyldInfo.bind (·.last)).map (·.toNat)).getD object.fileoff

/-- Where the indirect symbols and what is before them end. -/
def indirectEnd (object : Object) (st : Symtab) (dyst : Dysymtab) : Nat :=
  tablesEnd (object.tablesToIndirect dyst) (tablesEnd (object.tablesToSymbols st dyst) object.dyldInfoEnd)

/-- Where the strings and what is before them end. -/
def stringsEnd (object : Object) (st : Symtab) (dyst : Dysymtab) : Nat :=
  tablesEnd (object.tablesToStrings st dyst) (object.indirectEnd st dyst)

/-- The data commands that `dyld_order` accepts without an offset. -/
def dataCommands (object : Object) : List (Option LinkeditData) :=
  [object.dyldChainedFixups, object.dyldExportsTrie, object.splitInfoCmd, object.funcStartsInfoCmd,
    object.dataInCodeCmd, object.atomInfoCmd, object.codeSignDrsCmd, object.linkOptHintCmd]

/-- The link-edit segment begins in the file, with the dyld info if there is some; data lies in the file at an
offset; the padding is zero, and it does not end the file. -/
structure Rewritable (object : Object) (st : Symtab) (dyst : Dysymtab) (file : List UInt8) : Prop where
  begins : object.fileoff ≤ file.length
  dyldInfo : ∀ info, object.dyldInfo = some info → ∀ last, info.last = some last →
    info.first.toNat = object.fileoff ∧ object.fileoff ≤ last.toNat
  data : ∀ command, some command ∈ object.dataCommands →
    command.datasize = 0 ∨ (command.dataoff ≠ 0 ∧ command.dataoff.toNat + command.datasize.toNat ≤ file.length)
  padding : ∀ first, firstTable (object.tablesToStrings st dyst) = some first →
    ZerosBetween file (object.indirectEnd st dyst) first
  signature : ∀ signature, object.codeSigCmd = some signature → signature.datasize ≠ 0 →
    ZerosBetween file (object.stringsEnd st dyst) signature.dataoff.toNat
  fills : (∃ signature, object.codeSigCmd = some signature ∧ signature.datasize ≠ 0) ∨
    object.stringsEnd st dyst = file.length

end Object

/-! ## Tables in a row -/

theorem take_append_read (file : List UInt8) (off size : Nat) :
    file.take off ++ readBytes file off size = file.take (off + size) := by
  rw [readBytes, List.take_add]

variable {file : List UInt8}

theorem ZerosBetween.take {from_ upTo : Nat} (zero : ZerosBetween file from_ upTo) (le : from_ ≤ upTo) :
    file.take from_ ++ zeros (upTo - from_) = file.take upTo := by
  rw [← zero, take_append_read, Nat.add_sub_cancel' le]

theorem readBytes_zero (file : List UInt8) (off : Nat) : readBytes file off 0 = [] := by
  simp [readBytes]

/-- What is wrong with data is wrong with a table. -/
def Table.Good (file : List UInt8) (table : Table) : Prop :=
  table.each ≤ 64 ∧
    (table.order ≠ .entries → table.each = 1 ∧
      (table.count = 0 ∨ (table.off ≠ 0 ∧ table.off.toNat + table.count.toNat ≤ file.length)))

variable {table : Table}

theorem Table.bytes_of_count (none_ : table.count = 0) : table.bytes = 0 := by
  simp [Table.bytes, none_]

theorem Table.bytes_le (each : table.each ≤ 64) : table.bytes ≤ 2 ^ 38 := by
  have entries := table.count.isLt
  calc table.bytes ≤ 2 ^ 32 * 64 := Nat.mul_le_mul (Nat.le_of_lt entries) each
    _ = 2 ^ 38 := rfl

def totalBytes (tables : List Table) : Nat := (tables.map Table.bytes).sum

variable {tables : List Table}

theorem totalBytes_le (each : ∀ table ∈ tables, table.each ≤ 64) :
    totalBytes tables ≤ tables.length * 2 ^ 38 := by
  have bound : ∀ bytes ∈ tables.map Table.bytes, bytes ≤ 2 ^ 38 := by
    intro bytes member
    obtain ⟨table, isTable, rfl⟩ := List.mem_map.mp member
    exact Table.bytes_le (each table isTable)
  simpa [totalBytes] using List.sum_le_card_nsmul _ _ bound

/-- A good table that is in its place begins where the running offset is. -/
theorem Table.check_spec {offset offset' : Nat} (good : table.Good file)
    (fileSmall : file.length < 2 ^ 32) (small : offset + table.bytes < 2 ^ 64) (checked : table.check offset = .ok offset') :
    offset' = offset + table.bytes ∧ (table.count ≠ 0 → table.off.toNat = offset) := by
  obtain ⟨-, data⟩ := good
  have advanced : advance offset table.bytes = offset + table.bytes := Nat.mod_eq_of_lt small
  unfold Table.check at checked
  cases order : table.order with
  | entries =>
    simp only [order] at checked
    split at checked
    · cases checked
    · rename_i inPlace
      cases checked
      exact ⟨advanced, fun some_ => Classical.not_not.mp fun other => inPlace ⟨some_, other⟩⟩
  | data =>
    obtain ⟨-, lies⟩ := data (by simp [order])
    simp only [order] at checked
    split at checked
    · cases checked
    · rename_i inPlace
      cases checked
      refine ⟨advanced, fun some_ => ?_⟩
      exact Classical.not_not.mp fun other => inPlace ⟨(lies.resolve_left some_).1, other⟩
  | dataOrNone =>
    obtain ⟨one, lies⟩ := data (by simp [order])
    have size : table.bytes = table.count.toNat := by rw [Table.bytes, one, Nat.mul_one]
    simp only [order] at checked
    split at checked
    · rename_i noOffset
      cases checked
      have none_ : table.count = 0 := by
        rcases lies with none_ | ⟨some_, -⟩
        · exact none_
        · exact absurd noOffset some_
      exact ⟨by rw [Table.bytes_of_count none_, Nat.add_zero], fun some_ => absurd none_ some_⟩
    · split at checked
      · cases checked
      · rename_i inPlace
        cases checked
        have same : table.off.toNat = offset := Classical.not_not.mp inPlace
        refine ⟨?_, fun _ => same⟩
        rw [size, ← same, BitVec.toNat_add, Nat.mod_eq_of_lt]
        rcases lies with none_ | ⟨-, inside⟩
        · rw [none_]
          exact table.off.isLt
        · omega

/-- Tables that are in their places are the file from one offset to another. -/
theorem checkTables_spec {offset offset' : Nat}
    (good : ∀ table ∈ tables, table.Good file) (fileSmall : file.length < 2 ^ 32)
    (small : offset + totalBytes tables < 2 ^ 64) (checked : checkTables tables offset = .ok offset') :
    file.take offset ++ (tables.map (Table.read file)).flatten = file.take offset' ∧
      offset' = offset + totalBytes tables ∧ offset' = tablesEnd tables offset ∧
      ∀ table ∈ tables, table.count ≠ 0 → table.off.toNat + table.bytes ≤ offset' := by
  induction tables generalizing offset with
  | nil =>
    cases checked
    simp [tablesEnd, totalBytes]
  | cons table tables ih =>
    have total : totalBytes (table :: tables) = table.bytes + totalBytes tables := by simp [totalBytes]
    rw [total] at small
    unfold checkTables at checked
    cases first : table.check offset with
    | error reason => rw [first] at checked; cases checked
    | ok next =>
      rw [first] at checked
      have stepSmall : offset + table.bytes < 2 ^ 64 := by omega
      obtain ⟨nextEq, place⟩ := Table.check_spec (good table (by simp)) fileSmall stepSmall first
      have nextSmall : next + totalBytes tables < 2 ^ 64 := by omega
      have rest : checkTables tables next = .ok offset' := checked
      obtain ⟨taken, sum, ends, inside⟩ := ih (fun t member => good t (by simp [member])) nextSmall rest
      have step : file.take offset ++ table.read file = file.take next := by
        by_cases none_ : table.count = 0
        · rw [Table.read, nextEq, Table.bytes_of_count none_, readBytes_zero, List.append_nil, Nat.add_zero]
        · rw [Table.read, place none_, take_append_read, nextEq]
      refine ⟨?_, by omega, ?_, ?_⟩
      · rw [List.map_cons, List.flatten_cons, ← List.append_assoc, step, taken]
      · rw [ends, tablesEnd, tablesEnd, List.foldl_cons]
        congr 1
        by_cases none_ : table.count = 0
        · rw [if_pos none_, nextEq, Table.bytes_of_count none_, Nat.add_zero]
        · rw [if_neg none_, place none_, nextEq]
      · intro t member some_
        rcases List.mem_cons.mp member with rfl | later
        · rw [place some_]
          omega
        · exact inside t later some_

/-! ## Tables behind the indirect symbols -/

/-- The state behind a table that has entries, whichever offset it has. -/
theorem Table.checkRounded_spec {at_ at' : Rounded} (small : at_.roundedOffset + table.bytes < 2 ^ 64)
    (le : at_.offset ≤ at_.roundedOffset) (some_ : table.count ≠ 0) (checked : table.checkRounded at_ = .ok at') :
    (table.off.toNat = at_.offset ∧ at' = ⟨at_.offset + table.bytes, at_.offset + table.bytes, at_.pad⟩) ∨
      (table.off.toNat = at_.roundedOffset ∧ at' =
        ⟨at_.roundedOffset + table.bytes, at_.roundedOffset + table.bytes, at_.roundedOffset - at_.offset⟩) := by
  have advanced : advance at_.offset table.bytes = at_.offset + table.bytes := Nat.mod_eq_of_lt (by omega)
  have advancedRounded : advance at_.roundedOffset table.bytes = at_.roundedOffset + table.bytes :=
    Nat.mod_eq_of_lt small
  unfold Table.checkRounded at checked
  rw [if_neg some_] at checked
  split at checked
  · rename_i same
    cases checked
    exact .inl ⟨same, by rw [advanced]⟩
  · split at checked
    · rename_i same
      cases checked
      exact .inr ⟨same, by rw [advancedRounded]⟩
    · cases checked

/-- Once a table with entries was found, the offset and the rounded one are the same. -/
theorem checkRoundedTables_settled (file : List UInt8) {offset pad : Nat} {at' : Rounded}
    (small : offset + totalBytes tables < 2 ^ 64)
    (checked : checkRoundedTables tables ⟨offset, offset, pad⟩ = .ok at') :
    at' = ⟨offset + totalBytes tables, offset + totalBytes tables, pad⟩ ∧
      file.take offset ++ (tables.map (Table.read file)).flatten = file.take at'.offset ∧
      at'.offset = tablesEnd tables offset ∧
      ∀ table ∈ tables, table.count ≠ 0 → table.off.toNat + table.bytes ≤ at'.offset := by
  induction tables generalizing offset pad with
  | nil =>
    cases checked
    simp [tablesEnd, totalBytes]
  | cons table tables ih =>
    have total : totalBytes (table :: tables) = table.bytes + totalBytes tables := by simp [totalBytes]
    rw [total] at small
    unfold checkRoundedTables at checked
    cases first : table.checkRounded ⟨offset, offset, pad⟩ with
    | error reason => rw [first] at checked; cases checked
    | ok next =>
      rw [first] at checked
      have rest : checkRoundedTables tables next = .ok at' := checked
      have step : (table.count ≠ 0 → table.off.toNat = offset) ∧
          ∃ pad', next = ⟨offset + table.bytes, offset + table.bytes, pad'⟩ ∧ pad' = pad := by
        by_cases none_ : table.count = 0
        · rw [Table.checkRounded, if_pos none_] at first
          cases first
          exact ⟨fun some_ => absurd none_ some_, pad, by rw [Table.bytes_of_count none_, Nat.add_zero], rfl⟩
        · rw [Table.checkRounded, if_neg none_] at first
          have advanced : advance offset table.bytes = offset + table.bytes := Nat.mod_eq_of_lt (by omega)
          simp only at first
          split at first
          · rename_i same
            cases first
            exact ⟨fun _ => same, pad, by rw [advanced], rfl⟩
          · cases first
      obtain ⟨place, pad', rfl, rfl⟩ := step
      have nextSmall : offset + table.bytes + totalBytes tables < 2 ^ 64 := by omega
      obtain ⟨state, taken, ends, inside⟩ := ih nextSmall rest
      have stepTaken : file.take offset ++ table.read file = file.take (offset + table.bytes) := by
        by_cases none_ : table.count = 0
        · rw [Table.read, Table.bytes_of_count none_, readBytes_zero, List.append_nil, Nat.add_zero]
        · rw [Table.read, place none_, take_append_read]
      refine ⟨?_, ?_, ?_, ?_⟩
      · rw [state, total, Nat.add_assoc]
      · rw [List.map_cons, List.flatten_cons, ← List.append_assoc, stepTaken, taken]
      · rw [ends, tablesEnd, tablesEnd, List.foldl_cons]
        congr 1
        by_cases none_ : table.count = 0
        · rw [if_pos none_, Table.bytes_of_count none_, Nat.add_zero]
        · rw [if_neg none_, place none_]
      · intro t member some_
        rcases List.mem_cons.mp member with rfl | later
        · rw [place some_, state]
          simp only
          omega
        · exact inside t later some_

/-- Tables behind the indirect symbols, with the padding in front of the first one. -/
theorem checkRoundedTables_spec {offset rounded : Nat} {at' : Rounded}
    (le : offset ≤ rounded) (small : rounded + totalBytes tables < 2 ^ 64)
    (zero : ∀ first, firstTable tables = some first → ZerosBetween file offset first)
    (checked : checkRoundedTables tables ⟨offset, rounded, 0⟩ = .ok at') :
    file.take offset ++ zeros at'.pad ++ (tables.map (Table.read file)).flatten = file.take at'.offset ∧
      at'.offset = tablesEnd tables offset ∧ (offset ≤ at'.offset ∧ at'.offset ≤ rounded + totalBytes tables) ∧
      (∀ table ∈ tables, table.count ≠ 0 → table.off.toNat + table.bytes ≤ at'.offset) ∧
      (at'.roundedOffset = at'.offset ∨ at' = ⟨offset, rounded, 0⟩) := by
  induction tables with
  | nil =>
    cases checked
    simpa [tablesEnd, zeros, totalBytes] using le
  | cons table tables ih =>
    have total : totalBytes (table :: tables) = table.bytes + totalBytes tables := by simp [totalBytes]
    rw [total] at small
    unfold checkRoundedTables at checked
    by_cases none_ : table.count = 0
    · have same : table.checkRounded ⟨offset, rounded, 0⟩ = .ok ⟨offset, rounded, 0⟩ := by
        rw [Table.checkRounded, if_pos none_]
      rw [same] at checked
      rw [firstTable, if_pos none_] at zero
      have rest : checkRoundedTables tables ⟨offset, rounded, 0⟩ = .ok at' := checked
      obtain ⟨taken, ends, grows, inside, settled⟩ := ih (by omega) zero rest
      refine ⟨?_, ?_, ⟨grows.1, by omega⟩, ?_, settled⟩
      · rw [List.map_cons, List.flatten_cons, Table.read, Table.bytes_of_count none_, readBytes_zero, List.nil_append,
          taken]
      · rw [ends, tablesEnd, tablesEnd, List.foldl_cons, if_pos none_]
      · intro t member some_
        rcases List.mem_cons.mp member with rfl | later
        · exact absurd none_ some_
        · exact inside t later some_
    · rw [firstTable, if_neg none_] at zero
      have zeros_ := zero _ rfl
      cases first : table.checkRounded ⟨offset, rounded, 0⟩ with
      | error reason => rw [first] at checked; cases checked
      | ok next =>
        rw [first] at checked
        have rest : checkRoundedTables tables next = .ok at' := checked
        -- the table begins at `start`, behind `pad` bytes
        obtain ⟨start, pad, starts, between, rfl, startLe⟩ : ∃ start pad, table.off.toNat = start ∧
            pad = start - offset ∧ next = ⟨start + table.bytes, start + table.bytes, pad⟩ ∧
            (offset ≤ start ∧ start ≤ rounded) := by
          rcases Table.checkRounded_spec (by simp only; omega) le none_ first with ⟨at_, state⟩ | ⟨at_, state⟩
          · exact ⟨offset, 0, at_, by omega, state, Nat.le_refl _, le⟩
          · exact ⟨rounded, rounded - offset, at_, rfl, state, le, Nat.le_refl _⟩
        have nextSmall : start + table.bytes + totalBytes tables < 2 ^ 64 := by omega
        obtain ⟨state, taken, ends, inside⟩ := checkRoundedTables_settled file nextSmall rest
        rw [starts] at zeros_
        have padded : file.take offset ++ zeros pad = file.take start := by rw [between, zeros_.take startLe.1]
        have stepTaken : file.take start ++ table.read file = file.take (start + table.bytes) := by
          rw [Table.read, starts, take_append_read]
        have samePad : at'.pad = pad := by rw [state]
        refine ⟨?_, ?_, ?_, ?_, .inl (by rw [state])⟩
        · rw [samePad, padded, List.map_cons, List.flatten_cons, ← List.append_assoc, stepTaken, taken]
        · rw [ends, tablesEnd, tablesEnd, List.foldl_cons, if_neg none_, starts]
        · rw [state]
          simp only
          constructor <;> omega
        · intro t member some_
          rcases List.mem_cons.mp member with rfl | later
          · rw [starts, state]
            simp only
            omega
          · exact inside t later some_

/-! ## The whole file -/

/-- The bytes in front of the code signature do not depend on the rounding behind the indirect symbols. -/
theorem rnd_of_rounded {offset rounded : Nat} (small : offset + 2 ^ 32 < 2 ^ 64)
    (either : rounded = offset ∨ rounded = rnd offset 8) : rnd rounded 16 = rnd offset 16 := by
  rcases either with rfl | rfl
  · rfl
  · simp only [rnd, advance]
    omega

theorem le_rnd {offset : Nat} (multiple : Nat) (positive : 0 < multiple) (small : offset + multiple < 2 ^ 64) :
    offset ≤ rnd offset multiple := by
  rw [rnd, advance, Nat.mod_eq_of_lt (by omega)]
  have split := Nat.mod_add_div (offset + (multiple - 1)) multiple
  have rest := Nat.mod_lt (offset + (multiple - 1)) positive
  rw [Nat.mul_comm] at split
  omega

theorem dataTable_read (file : List UInt8) (order : Order) (command : Option LinkeditData) (outOfPlace : String) :
    (dataTable order command outOfPlace).read file = (command.map (·.read file)).getD [] := by
  cases command with
  | none => simp [dataTable, Table.read, Table.bytes, readBytes]
  | some command => simp [dataTable, Table.read, Table.bytes, LinkeditData.read]

theorem dataTable_good (order : Order) {command : Option LinkeditData} (outOfPlace : String)
    (data : ∀ found, command = some found → found.datasize = 0 ∨
      (found.dataoff ≠ 0 ∧ found.dataoff.toNat + found.datasize.toNat ≤ file.length)) :
    (dataTable order command outOfPlace).Good file := by
  refine ⟨by simp [dataTable], fun _ => ⟨rfl, ?_⟩⟩
  cases command with
  | none => exact .inl rfl
  | some command => exact data command rfl

theorem entries_good {off count : BitVec 32} {each : Nat} (outOfPlace : String) (small : each ≤ 64) :
    (Table.mk .entries off count each outOfPlace).Good file :=
  ⟨small, fun other => absurd rfl other⟩

theorem entries_read (file : List UInt8) (off count : BitVec 32) (each : Nat) (outOfPlace : String) :
    (Table.mk .entries off count each outOfPlace).read file = readBytes file off.toNat (count.toNat * each) := rfl

namespace Object

theorem tablesToIndirect_good (object : Object) (dyst : Dysymtab) (file : List UInt8) :
    ∀ table ∈ object.tablesToIndirect dyst, table.Good file := by
  intro table member
  simp only [tablesToIndirect, List.mem_cons, List.not_mem_nil, or_false] at member
  rcases member with rfl | rfl | rfl <;> exact entries_good _ (by decide)

variable {object : Object} {st : Symtab} {dyst : Dysymtab} {file : List UInt8}

theorem tablesToSymbols_good (rewritable : object.Rewritable st dyst file) :
    ∀ table ∈ object.tablesToSymbols st dyst, table.Good file := by
  have data := rewritable.data
  simp only [dataCommands, List.mem_cons, List.not_mem_nil, or_false] at data
  intro table member
  simp only [tablesToSymbols, List.mem_cons, List.not_mem_nil, or_false] at member
  rcases member with rfl | rfl | rfl | rfl | rfl | rfl | rfl | rfl | rfl | rfl
  · exact dataTable_good _ _ fun found is => data found (by simp [is])
  · exact dataTable_good _ _ fun found is => data found (by simp [is])
  · exact entries_good _ (by decide)
  · exact dataTable_good _ _ fun found is => data found (by simp [is])
  · exact dataTable_good _ _ fun found is => data found (by simp [is])
  · exact dataTable_good _ _ fun found is => data found (by simp [is])
  · exact dataTable_good _ _ fun found is => data found (by simp [is])
  · exact dataTable_good _ _ fun found is => data found (by simp [is])
  · exact dataTable_good _ _ fun found is => data found (by simp [is])
  · exact entries_good _ (by split <;> decide)

theorem tablesToStrings_each : ∀ table ∈ object.tablesToStrings st dyst, table.each ≤ 64 := by
  intro table member
  simp only [tablesToStrings, List.mem_cons, List.not_mem_nil, or_false] at member
  rcases member with rfl | rfl | rfl | rfl <;> simp only <;> (try split) <;> decide

/-- The bytes that are appended, in the groups that `dyld_order` walks through. -/
theorem rewrite_eq (object : Object) (st : Symtab) (dyst : Dysymtab) (start pad : Nat) (file : List UInt8)
    (noPad : dyst.nindirectsyms = 0 → pad = 0) :
    object.rewrite st dyst start pad file =
      let p := file.take start ++ (object.dyldInfo.map (·.read file)).getD [] ++
        ((object.tablesToSymbols st dyst).map (Table.read file)).flatten ++
        ((object.tablesToIndirect dyst).map (Table.read file)).flatten ++ zeros pad ++
        ((object.tablesToStrings st dyst).map (Table.read file)).flatten
      let sig := (object.codeSigCmd.map (·.read file)).getD []
      if sig.length ≠ 0 then p ++ zeros (rnd p.length 16 - p.length) ++ sig else p := by
  have padEq : (if dyst.nindirectsyms = 0 then 0 else pad) = pad := by
    split
    · rename_i none_
      rw [noPad none_]
    · rfl
  cases found : object.hintsCmd with
  | none =>
    have noHints : readBytes file (0 : BitVec 32).toNat ((0 : BitVec 32).toNat * 4) = [] := readBytes_zero file 0
    simp only [rewrite, copyNewSymbolInfo, Output.copyStrings, unchanged, padEq, found, tablesToSymbols, tablesToIndirect,
      tablesToStrings, List.map_cons, List.map_nil, List.flatten_cons, List.flatten_nil, dataTable_read, entries_read,
      Option.isSome_none, Option.map_none, Option.getD_none, Bool.false_eq_true, if_false, noHints, List.nil_append,
      List.append_nil, zeros, List.replicate_zero, List.append_assoc, Nat.mul_one]
  | some hints =>
    simp only [rewrite, copyNewSymbolInfo, Output.copyStrings, unchanged, padEq, found, tablesToSymbols, tablesToIndirect,
      tablesToStrings, List.map_cons, List.map_nil, List.flatten_cons, List.flatten_nil, dataTable_read, entries_read,
      Option.isSome_some, Option.map_some, Option.getD_some, if_true, List.append_nil, zeros, List.replicate_zero,
      List.append_assoc, Nat.mul_one]

/-! ## What was accepted -/

theorem linkeditStart_eq {start : Nat} (ok : object.linkeditStart = .ok start) : start = object.fileoff := by
  have segment {bits : Nat} {linkedit bitcode : Option (Segment bits)} {objectSize : BitVec 32}
      (checked : checkLinkedit linkedit bitcode objectSize = .ok start) :
      start = (linkedit.map (·.fileoff.toNat)).getD 0 := by
    unfold checkLinkedit at checked
    cases linkedit with
    | none => cases checked
    | some linkedit =>
      simp only at checked
      split at checked
      · cases checked
      · cases bitcode with
        | none =>
          cases checked
          rfl
        | some bitcode =>
          simp only at checked
          split_ifs at checked
          cases checked
          rfl
  unfold linkeditStart at ok
  unfold fileoff
  split at ok
  · rename_i wide
    rw [if_pos wide]
    exact segment ok
  · rename_i narrow
    rw [if_neg narrow]
    exact segment ok

theorem dyldOrder_ok {pad : Nat} (ok : object.dyldOrder st dyst = .ok pad) :
    ∃ start symbols indirect strings end_, object.linkeditStart = .ok object.fileoff ∧
      (object.dyldInfo.map (·.check object.fileoff)).getD (.ok object.fileoff) = .ok start ∧
      checkTables (object.tablesToSymbols st dyst) start = .ok symbols ∧
      checkTables (object.tablesToIndirect dyst) symbols = .ok indirect ∧
      checkRoundedTables (object.tablesToStrings st dyst) (object.behindIndirect dyst indirect) = .ok strings ∧
      checkSignature object.codeSigCmd strings = .ok end_ ∧
      (end_.offset = object.objectSize.toNat ∨ end_.roundedOffset = object.objectSize.toNat) ∧ end_.pad = pad := by
  obtain ⟨fileoff, isStart, ok⟩ := Theory.ok_of_bind ok
  obtain rfl := linkeditStart_eq isStart
  obtain ⟨start, info, ok⟩ := Theory.ok_of_bind ok
  obtain ⟨symbols, toSymbols, ok⟩ := Theory.ok_of_bind ok
  obtain ⟨-, -, ok⟩ := Theory.ok_of_bind ok
  obtain ⟨indirect, toIndirect, ok⟩ := Theory.ok_of_bind ok
  obtain ⟨strings, toStrings, ok⟩ := Theory.ok_of_bind ok
  obtain ⟨end_, signature, ok⟩ := Theory.ok_of_bind ok
  refine ⟨start, symbols, indirect, strings, end_, isStart, info, toSymbols, toIndirect, toStrings, signature, ?_⟩
  split at ok
  · cases ok
  · rename_i fills
    cases ok
    refine ⟨?_, rfl⟩
    by_contra neither
    exact fills (not_or.mp neither)

theorem dyldInfo_read (rewritable : object.Rewritable st dyst file) (fileSmall : file.length < 2 ^ 32) {start : Nat}
    (info : (object.dyldInfo.map (·.check object.fileoff)).getD (.ok object.fileoff) = .ok start) :
    file.take object.fileoff ++ (object.dyldInfo.map (·.read file)).getD [] = file.take start ∧
      start = object.dyldInfoEnd ∧ start < 2 ^ 32 := by
  have begins := rewritable.begins
  unfold dyldInfoEnd
  cases found : object.dyldInfo with
  | none =>
    rw [found] at info
    cases info
    simp only [Option.map_none, Option.getD_none, List.append_nil, Option.bind_none, true_and]
    omega
  | some dyldInfo =>
    rw [found] at info
    simp only [Option.map_some, Option.getD_some, DyldInfo.check] at info
    split at info
    · cases info
    · cases info
      cases last : dyldInfo.last with
      | none =>
        simp only [Option.map_some, Option.getD_some, DyldInfo.read, last, List.append_nil, Option.map_none,
          Option.getD_none, Option.bind_some, true_and]
        omega
      | some last' =>
        obtain ⟨first, le⟩ := rewritable.dyldInfo dyldInfo found last' last
        have size : (last' - dyldInfo.first).toNat = last'.toNat - object.fileoff := by
          rw [BitVec.toNat_sub_of_le (by rw [BitVec.le_def, first]; exact le), first]
        simp only [Option.map_some, Option.getD_some, DyldInfo.read, last, Option.bind_some, first, size,
          take_append_read, Nat.add_sub_cancel' le, true_and]
        exact last'.isLt

/-- `input_indirectsym_pad` is zero without indirect symbols. -/
theorem strings_pad {indirect : Nat} {strings : Rounded} (none_ : dyst.nindirectsyms = 0)
    (small : indirect + totalBytes (object.tablesToStrings st dyst) < 2 ^ 64)
    (checked : checkRoundedTables (object.tablesToStrings st dyst) (object.behindIndirect dyst indirect) = .ok strings) :
    strings.pad = 0 := by
  have even : object.behindIndirect dyst indirect = ⟨indirect, indirect, 0⟩ := by
    simp [behindIndirect, none_]
  rw [even] at checked
  rw [(checkRoundedTables_settled [] small checked).1]

/-- The code signature, if the tables in front of it end where they should. -/
theorem signature_rewrite (rewritable : object.Rewritable st dyst file)
    {strings end_ : Rounded} (ends : strings.offset = object.stringsEnd st dyst) (small : strings.offset < 2 ^ 48)
    (either : strings.roundedOffset = strings.offset ∨ strings.roundedOffset = rnd strings.offset 8)
    (signature : checkSignature object.codeSigCmd strings = .ok end_)
    (fills : end_.offset = file.length ∨ end_.roundedOffset = file.length) :
    (let p := file.take strings.offset
     let sig := (object.codeSigCmd.map (·.read file)).getD []
     (if sig.length ≠ 0 then p ++ zeros (rnd p.length 16 - p.length) ++ sig else p) = file) ∧
      strings.offset ≤ file.length ∧ end_.pad = strings.pad := by
  have whole : file.take file.length = file := List.take_length
  cases found : object.codeSigCmd with
  | none =>
    rw [found] at signature
    cases signature
    have filled : strings.offset = file.length := by
      rcases rewritable.fills with ⟨_, other, _⟩ | filled
      · rw [found] at other
        cases other
      · exact ends.trans filled
    simp only [Option.map_none, Option.getD_none, List.length_nil, ne_eq, not_true, if_false]
    exact ⟨by rw [filled, whole], by omega, trivial⟩
  | some command =>
    rw [found] at signature
    simp only [checkSignature] at signature
    split at signature
    · cases signature
    · rename_i inPlace
      have dataoff : command.dataoff.toNat = rnd strings.offset 16 := by
        rw [Classical.not_not.mp inPlace, rnd_of_rounded (by omega) either]
      have before : strings.offset ≤ command.dataoff.toNat := by
        rw [dataoff]
        exact le_rnd 16 (by decide) (by omega)
      have advanced : advance (rnd strings.roundedOffset 16) command.datasize.toNat =
          command.dataoff.toNat + command.datasize.toNat := by
        have sizes := command.dataoff.isLt
        have sizes' := command.datasize.isLt
        rw [← Classical.not_not.mp inPlace]
        exact Nat.mod_eq_of_lt (by omega)
      rw [advanced] at signature
      cases signature
      have filled : command.dataoff.toNat + command.datasize.toNat = file.length := by
        rcases fills with filled | filled <;> exact filled
      refine ⟨?_, by omega, rfl⟩
      simp only [Option.map_some, Option.getD_some]
      by_cases none_ : command.datasize = 0
      · have empty : command.read file = [] := by simp [LinkeditData.read, readBytes, none_]
        rw [empty, if_neg (by simp)]
        rcases rewritable.fills with ⟨other, isOther, some_⟩ | all
        · rw [found] at isOther
          cases isOther
          exact absurd none_ some_
        · rw [ends, all, whole]
      · have length : (command.read file).length = command.datasize.toNat := by
          rw [LinkeditData.read, readBytes, List.length_take, List.length_drop]
          omega
        have some_ : command.datasize.toNat ≠ 0 := fun zero => none_ (BitVec.eq_of_toNat_eq zero)
        have zero := rewritable.signature command found none_
        rw [← ends] at zero
        rw [if_pos (by rw [length]; exact some_), List.length_take, Nat.min_eq_left (by omega), ← dataoff,
          zero.take before, LinkeditData.read, take_append_read, filled, whole]

/-- **The tables of the file, written back, are the file.** -/
theorem dyldOrder_rewrite {pad : Nat} (ok : object.dyldOrder st dyst = .ok pad)
    (size : file.length = object.objectSize.toNat) (rewritable : object.Rewritable st dyst file) :
    object.rewrite st dyst object.fileoff pad file = file ∧
      ∀ table ∈ object.tablesToSymbols st dyst ++ object.tablesToIndirect dyst ++ object.tablesToStrings st dyst,
        table.count ≠ 0 → table.off.toNat + table.bytes ≤ file.length := by
  have fileSmall : file.length < 2 ^ 32 := by
    rw [size]
    exact object.objectSize.isLt
  obtain ⟨start, symbols, indirect, strings, end_, -, info, toSymbols, toIndirect, toStrings, signature, fills, isPad⟩ :=
    dyldOrder_ok ok
  obtain ⟨takenInfo, startEnds, startSmall⟩ := dyldInfo_read rewritable fileSmall info
  have symbolsBytes : totalBytes (object.tablesToSymbols st dyst) ≤ 10 * 2 ^ 38 :=
    totalBytes_le fun table member => (tablesToSymbols_good rewritable table member).1
  have indirectBytes : totalBytes (object.tablesToIndirect dyst) ≤ 3 * 2 ^ 38 :=
    totalBytes_le fun table member => (tablesToIndirect_good object dyst file table member).1
  have stringsBytes : totalBytes (object.tablesToStrings st dyst) ≤ 4 * 2 ^ 38 := totalBytes_le tablesToStrings_each
  obtain ⟨takenSymbols, symbolsSum, symbolsEnds, symbolsInside⟩ :=
    checkTables_spec (tablesToSymbols_good rewritable) fileSmall (by omega) toSymbols
  obtain ⟨takenIndirect, indirectSum, indirectEnds, indirectInside⟩ :=
    checkTables_spec (tablesToIndirect_good object dyst file) fileSmall (by omega) toIndirect
  have indirectEnd_ : indirect = object.indirectEnd st dyst := by
    rw [indirectEnds, symbolsEnds, startEnds]
    rfl
  -- behind the indirect symbols there may be padding
  have roundedEq : rnd indirect 8 ≤ indirect + 7 := by
    simp only [rnd, advance]
    omega
  have le : indirect ≤ (object.behindIndirect dyst indirect).roundedOffset := by
    simp only [behindIndirect]
    split
    · exact le_rnd 8 (by decide) (by omega)
    · exact Nat.le_refl _
  have near : (object.behindIndirect dyst indirect).roundedOffset ≤ indirect + 7 := by
    simp only [behindIndirect]
    split <;> omega
  have padding := rewritable.padding
  rw [← indirectEnd_] at padding
  obtain ⟨takenStrings, stringsEnds, ⟨grows, bound⟩, stringsInside, settled⟩ :=
    checkRoundedTables_spec le (by omega) padding toStrings
  have either : strings.roundedOffset = strings.offset ∨ strings.roundedOffset = rnd strings.offset 8 := by
    rcases settled with same | rfl
    · exact .inl same
    · simp only [behindIndirect]
      split
      · exact .inr rfl
      · exact .inl rfl
  have stringsEnd_ : strings.offset = object.stringsEnd st dyst := by
    rw [stringsEnds, indirectEnd_]
    rfl
  rw [← size] at fills
  obtain ⟨signed, inside, samePad⟩ := signature_rewrite rewritable stringsEnd_ (by omega) either signature fills
  have noPad : dyst.nindirectsyms = 0 → pad = 0 := by
    intro none_
    rw [← isPad, samePad]
    exact strings_pad none_ (by omega) toStrings
  refine ⟨?_, ?_⟩
  · rw [rewrite_eq _ _ _ _ _ _ noPad]
    simp only [takenInfo, takenSymbols, takenIndirect, ← isPad, samePad, takenStrings]
    exact signed
  · intro table member some_
    simp only [List.mem_append] at member
    rcases member with (toSymbol | toIndirect) | toString
    · have le := symbolsInside table toSymbol some_
      omega
    · have le := indirectInside table toIndirect some_
      omega
    · exact Nat.le_trans (stringsInside table toString some_) inside

end Object

/-- **What `check_object` accepts for the dynamic linker is restored by `copy_new_symbol_info`**, if the link-edit
segment begins in the file and with its dyld info, data lies in the file, and padding is zero and does not end it. -/
theorem copyNewSymbolInfo_unchanged (symbolStringAtEnd : Object → Except String Nat) (is64 : Bool)
    (filetype flags objectSize : BitVec 32) (commands : List LoadCommand) (object : Object) (pad : Nat)
    (accepted : checkObject symbolStringAtEnd is64 filetype flags objectSize commands = .ok (object, pad))
    (linked : object.isDyldLinked = true) (st : Symtab) (hasSt : object.st = some st) (dyst : Dysymtab)
    (hasDyst : object.dyst = some dyst) (file : List UInt8) (size : file.length = object.objectSize.toNat)
    (rewritable : object.Rewritable st dyst file) :
    object.rewrite st dyst object.fileoff pad file = file ∧
      ∀ table ∈ object.tablesToSymbols st dyst ++ object.tablesToIndirect dyst ++ object.tablesToStrings st dyst,
        table.count ≠ 0 → table.off.toNat + table.bytes ≤ file.length := by
  obtain ⟨found, -, accepted⟩ := Theory.ok_of_bind accepted
  obtain ⟨found', checked, accepted⟩ := Theory.ok_of_bind accepted
  cases accepted
  refine Object.dyldOrder_rewrite ?_ size rewritable
  unfold Object.checkCommands at checked
  simp only [hasDyst, linked, if_true, hasSt] at checked
  split_ifs at checked
  exact checked

/-! ## Two objects -/

def noDysymtab : Dysymtab := ⟨0, 0, 0, 0, 0, 0, 0, 0, 0, 0, 0, 0, 0, 0, 0, 0, 0, 0⟩

/-- A program of 36 bytes: from 16 on rebase information, strings and a code signature. -/
def signedObject : Object :=
  { Object.start true 2 4 36 with
    st := some ⟨0, 0, 20, 4⟩
    dyst := some noDysymtab
    dyldInfo := some ⟨16, 4, 0, 0, 0, 0, 0, 0, 0, 0⟩
    codeSigCmd := some ⟨32, 4⟩
    segLinkedit64 := some ⟨16, 20, 0, 0⟩ }

def signedCommands : List LoadCommand :=
  [.segment64 "__LINKEDIT" ⟨16, 20, 0, 0⟩, .dyldInfo ⟨16, 4, 0, 0, 0, 0, 0, 0, 0, 0⟩, .symtab ⟨0, 0, 20, 4⟩,
    .dysymtab noDysymtab, .codeSignature ⟨32, 4⟩]

def signedFile : List UInt8 :=
  List.replicate 16 7 ++ [17, 0, 81, 0] ++ [95, 109, 0, 0] ++ zeros 8 ++ [250, 222, 12, 192]

theorem copyNewSymbolInfo_unchanged_signed :
    signedObject.rewrite ⟨0, 0, 20, 4⟩ noDysymtab 16 0 signedFile = signedFile := by
  have rewritable : signedObject.Rewritable ⟨0, 0, 20, 4⟩ noDysymtab signedFile := by
    refine ⟨by decide, ?_, by simp [Object.dataCommands, signedObject, Object.start], ?_, ?_, .inl ⟨⟨32, 4⟩, rfl, by decide⟩⟩
    · rintro info ⟨⟩ last ⟨⟩
      decide
    · rintro first ⟨⟩
      decide
    · rintro signature ⟨⟩ -
      decide
  exact (copyNewSymbolInfo_unchanged (fun _ => .ok 0) true 2 4 36 signedCommands signedObject 0 rfl rfl ⟨0, 0, 20, 4⟩ rfl
    noDysymtab rfl signedFile rfl rewritable).1

/-- A program whose exports begin 8 bytes behind the beginning of its link-edit segment. -/
def gapObject : Object :=
  { Object.start true 2 4 4112 with
    st := some ⟨0, 0, 0, 0⟩
    dyst := some noDysymtab
    dyldInfo := some ⟨0, 0, 0, 0, 0, 0, 0, 0, 4104, 8⟩
    segLinkedit64 := some ⟨4096, 16, 0, 0⟩ }

def gapCommands : List LoadCommand :=
  [.segment64 "__LINKEDIT" ⟨4096, 16, 0, 0⟩, .dyldInfo ⟨0, 0, 0, 0, 0, 0, 0, 0, 4104, 8⟩, .symtab ⟨0, 0, 0, 0⟩,
    .dysymtab noDysymtab]

def gapFile : List UInt8 := zeros 4104 ++ [0, 1, 95, 0, 5, 0, 0, 0]

/-- **Exports behind a gap are accepted, and written where the gap was.** -/
theorem gap_before_exports :
    checkObject (fun _ => .ok 0) true 2 4 4112 gapCommands = .ok (gapObject, 0) ∧
      gapObject.rewrite ⟨0, 0, 0, 0⟩ noDysymtab 4096 0 gapFile = zeros 4096 ++ [0, 1, 95, 0, 5, 0, 0, 0] ∧
      gapObject.rewrite ⟨0, 0, 0, 0⟩ noDysymtab 4096 0 gapFile ≠ gapFile := by
  have tables : gapObject.rewrite ⟨0, 0, 0, 0⟩ noDysymtab 4096 0 gapFile =
      gapFile.take 4096 ++ readBytes gapFile 4104 8 := by
    rw [Object.rewrite_eq _ _ _ _ _ _ fun _ => rfl]
    simp [gapObject, Object.start, DyldInfo.read, DyldInfo.last, DyldInfo.first, Object.tablesToSymbols,
      Object.tablesToIndirect, Object.tablesToStrings, dataTable, noDysymtab, Table.read, Table.bytes, readBytes, zeros]
  have length (count : Nat) : (zeros count).length = count := List.length_replicate
  have cut : (zeros 4104).take 4096 = zeros 4096 := by
    rw [zeros, List.take_replicate]
    rfl
  have written : gapObject.rewrite ⟨0, 0, 0, 0⟩ noDysymtab 4096 0 gapFile = zeros 4096 ++ [0, 1, 95, 0, 5, 0, 0, 0] := by
    rw [tables, gapFile, List.take_append_of_le_length (by rw [length]; decide), cut, readBytes,
      List.drop_left' (length 4104)]
    rfl
  refine ⟨rfl, written, fun same => ?_⟩
  have lengths := congrArg List.length (written.symm.trans same)
  rw [gapFile, List.length_append, List.length_append, length, length] at lengths
  exact absurd lengths (by decide)

end Cctools.Libstuff
