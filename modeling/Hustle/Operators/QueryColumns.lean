import Hustle.Operators.AggInput
import Hustle.Operators.QueryTable

/-!
This module contains the columns of the tables that a query reads, with the types that their schemas give them.
-/

namespace Hustle.Operators

open Resolver (TableName)
open Storage (Cell FieldType Row)

def Value.ofCell : Cell → Value
  | .int64 value => .int64 value
  | .string value => .string value

namespace QueryTable

/--
`get_column_by_name` of all blocks.
-/
def cells (t : QueryTable) (name : String) : Option (Chunked Cell) :=
  (List.range t.table.blocks.entries.length).mapM fun (i : Nat) => do
    let b ← t.table.getBlock (i : Int)
    let array ← Select.columnByName t.names b name
    (List.range array.length).mapM array.cell

def ofCells (type : FieldType) (chunks : Chunked Cell) : Column :=
  match type with
  | .int64 => .int64 (chunks.map (List.map Cell.toInt64))
  | .string => .string (chunks.map (List.map Cell.toBytes))

def typedColumn (t : QueryTable) (name : String) : Option Column := do
  let c ← Select.fieldIndex t.names name
  let type ← t.table.schema.fields[c]?
  let chunks ← t.cells name
  return ofCells type chunks

def HasColumn (t : QueryTable) (name : String) (type : FieldType) : Prop :=
  ∃ c, Select.fieldIndex t.names name = some c ∧ t.table.schema.fields[c]? = some type

variable {t : QueryTable} {name : String} {type : FieldType}

theorem lengths_ofCells (type : FieldType) (chunks : Chunked Cell)
    : (ofCells type chunks).lengths = chunks.map List.length := by
  cases type <;> simp [ofCells, Column.lengths, Column.arrays, Values.length, Function.comp_def]

theorem columnByName_eq {b : Storage.Block} {id : Int} {schema : Storage.Schema} {capacity : Int} {rows : List Row}
    (hrepr : b.Repr id schema capacity rows) {c : Nat} (hc : Select.fieldIndex t.names name = some c)
    (htype : schema.fields[c]? = some type)
    : Select.columnByName t.names b name
        = some (Storage.Column.ofCells type (rows.map fun row => row.getD c default)).array := by
  rw [Select.columnByName, hc, hrepr.columns_eq]
  simp [Storage.Column.ofRows_getElem? htype]

theorem length_array_ofCells (type : FieldType) (cells : List Cell)
    : (Storage.Column.ofCells type cells).array.length = cells.length := by
  cases type <;> simp [Storage.Column.ofCells, Storage.Column.ofInts, Storage.Column.ofStrings]

theorem fieldType_getD {fields : List FieldType} {row : Row} (hrow : Row.HasType fields row) {c : Nat}
    (htype : fields[c]? = some type)
    : row[c]? = some (row.getD c default) ∧ (row.getD c default).fieldType = type := by
  rw [Row.HasType] at hrow
  rw [← hrow, List.getElem?_map] at htype
  obtain ⟨cell, hcell, hfield⟩ := Option.map_eq_some_iff.mp htype
  rw [List.getD_eq_getElem?_getD, hcell]
  exact ⟨rfl, hfield⟩

theorem cells_eq {c : Nat} (hc : Select.fieldIndex t.names name = some c)
    (htype : t.table.schema.fields[c]? = some type)
    : t.cells name = some (t.contents.map fun rows => rows.map fun row => row.getD c default) := by
  have hrange : t.contents.map (fun rows => rows.map fun row => row.getD c default)
      = (List.range t.contents.length).map fun i => (t.contents.getD i []).map fun row => row.getD c default := by
    apply List.ext_getElem
    . simp
    . intro i hi hi'
      have hlt : i < t.contents.length := by simpa using hi
      simp [List.getD_eq_getElem?_getD, List.getElem?_eq_getElem hlt]
  rw [cells, t.repr.numBlocks_eq, hrange]
  apply Run.mapM_eq_some
  intro i hi
  rw [List.mem_range] at hi
  obtain ⟨b, hb, hrepr⟩ := t.repr.getBlock_eq (List.getElem?_eq_getElem hi)
  rw [hb, List.getD_eq_getElem?_getD, List.getElem?_eq_getElem hi]
  simp only [Option.bind_eq_bind, Option.bind_some, Option.getD_some, columnByName_eq hrepr hc htype]
  have hcells : ∀ cell ∈ t.contents[i].map (fun row => row.getD c default), cell.fieldType = type := by
    intro cell hcell
    obtain ⟨row, hrow, rfl⟩ := List.mem_map.mp hcell
    exact (fieldType_getD (hasType_of_mem (List.getElem_mem hi) hrow) htype).2
  generalize t.contents[i].map (fun row => row.getD c default) = cells at hcells
  have hmap : cells = (List.range cells.length).map fun r => cells.getD r default := by
    apply List.ext_getElem
    . simp
    . intro r hr _
      simp [List.getD_eq_getElem?_getD, List.getElem?_eq_getElem hr]
  rw [length_array_ofCells]
  conv_rhs => rw [hmap]
  apply Run.mapM_eq_some
  intro r hr
  rw [List.mem_range] at hr
  rw [Storage.Column.cell_ofCells type cells r hcells, List.getD_eq_getElem?_getD, List.getElem?_eq_getElem hr]
  rfl

theorem typedColumn_eq {c : Nat} (hc : Select.fieldIndex t.names name = some c)
    (htype : t.table.schema.fields[c]? = some type)
    : t.typedColumn name
        = some (ofCells type (t.contents.map fun rows => rows.map fun row => row.getD c default)) := by
  simp [typedColumn, hc, htype, cells_eq hc htype]

theorem exists_typedColumn (h : t.HasColumn name type)
    : ∃ chunks, t.typedColumn name = some (ofCells type chunks) := by
  obtain ⟨c, hc, htype⟩ := h
  exact ⟨_, typedColumn_eq hc htype⟩

theorem typedColumn_aligned {col : Column} (h : t.typedColumn name = some col) : col.lengths = t.chunkLengths := by
  obtain ⟨c, hc, h'⟩ := Option.bind_eq_some_iff.mp h
  obtain ⟨type, htype, -⟩ := Option.bind_eq_some_iff.mp h'
  cases (typedColumn_eq hc htype).symm.trans h
  rw [lengths_ofCells, List.map_map, chunkLengths]
  apply List.map_congr_left
  intro rows _
  simp

theorem length_toBytes_le (row : Row) (c : Nat)
    : ((row.getD c default).toBytes.length : Int) ≤ Storage.rowSize row := by
  induction row generalizing c with
  | nil => exact Int.le_refl 0
  | cons cell row ih =>
    have hpos := ih row.length
    have hzero : (row.getD row.length default).toBytes = [] := by simp [List.getD_eq_getElem?_getD]; rfl
    rw [hzero] at hpos
    have hsize : Storage.rowSize (cell :: row)
        = Storage.rowSize [cell] + Storage.rowSize row := by simp [Storage.rowSize]
    cases c with
    | zero =>
      have hcell : (cell.toBytes.length : Int) ≤ Storage.rowSize [cell] := by
        cases cell <;> simp [Cell.toBytes, Storage.rowSize]
      rw [List.getD_cons_zero, hsize]
      simp only [List.length_nil] at hpos
      omega
    | succ c =>
      have hcell : 0 ≤ Storage.rowSize [cell] := by
        cases cell <;> simp [Storage.rowSize]
      have := ih c
      rw [List.getD_cons_succ, hsize]
      omega

theorem typedColumn_hasOffsets {col : Column} (h : t.typedColumn name = some col) : col.HasOffsets := by
  obtain ⟨c, hc, h'⟩ := Option.bind_eq_some_iff.mp h
  obtain ⟨type, htype, -⟩ := Option.bind_eq_some_iff.mp h'
  cases (typedColumn_eq hc htype).symm.trans h
  cases type with
  | int64 => trivial
  | string =>
    intro strings hstrings
    simp only [List.map_map, List.mem_map] at hstrings
    obtain ⟨rows, hrows, rfl⟩ := hstrings
    have hbytes := t.numBytes_lt rows hrows
    have hle : ∀ rows : List Row, (((rows.map fun row => (row.getD c default).toBytes).flatten.length : Nat) : Int)
        ≤ (rows.map Storage.rowSize).sum := by
      intro rows
      induction rows with
      | nil => exact Int.le_refl 0
      | cons row rows ih =>
        have := length_toBytes_le row c
        rw [List.map_cons, List.flatten_cons, List.length_append, List.map_cons, List.sum_cons]
        omega
    have := hle rows
    have hmax : maxInt = 2147483647 := rfl
    simp only [Function.comp_apply, List.map_map]
    change (rows.map fun row => (row.getD c default).toBytes).flatten.length ≤ maxInt
    omega

theorem value_typedColumn (h : t.HasColumn name type) {r : Nat} (hr : r < t.chunkLengths.sum)
    : ∃ col cell, t.typedColumn name = some col ∧ t.cell name r = some cell ∧ cell.fieldType = type ∧
        col.value r = Value.ofCell cell := by
  obtain ⟨c, hc, htype⟩ := h
  rw [sum_chunkLengths] at hr
  obtain ⟨rows, hrows, hmem⟩ := List.mem_flatten.mp (List.getElem_mem hr)
  obtain ⟨hcell, hfield⟩ := fieldType_getD (hasType_of_mem hrows hmem) htype
  refine ⟨_, _, typedColumn_eq hc htype, ?_, hfield, ?_⟩
  . rw [cell, row, List.getElem?_eq_getElem hr, hc]
    exact hcell
  . cases hget : t.contents.flatten[r].getD c default with
    | int64 value =>
      rw [hget] at hfield
      rw [← hfield]
      simp [ofCells, Column.value, Value.ofCell, ← List.map_flatten, Function.comp_def, List.getElem?_eq_getElem hr,
        -List.getD_eq_getElem?_getD, hget, Cell.toInt64, Cell.fieldType]
    | string value =>
      rw [hget] at hfield
      rw [← hfield]
      simp [ofCells, Column.value, Value.ofCell, ← List.map_flatten, Function.comp_def, List.getElem?_eq_getElem hr,
        -List.getD_eq_getElem?_getD, hget, Cell.toBytes, Cell.fieldType]

end QueryTable

namespace QueryDatabase

theorem typedColumn_aligned (db : QueryDatabase) (t : Nat) (name : String) (col : Column)
    (h : (db[t]?.bind fun table => table.typedColumn name) = some col)
    : col.lengths = db.tables.chunkLengths t := by
  obtain ⟨table, htable, hcol⟩ := Option.bind_eq_some_iff.mp h
  rw [chunkLengths_eq htable]
  exact QueryTable.typedColumn_aligned hcol

theorem typedColumn_hasOffsets (db : QueryDatabase) (t : Nat) (name : String) (col : Column)
    (h : (db[t]?.bind fun table => table.typedColumn name) = some col)
    : col.HasOffsets := by
  obtain ⟨table, -, hcol⟩ := Option.bind_eq_some_iff.mp h
  exact QueryTable.typedColumn_hasOffsets hcol

theorem sum_chunkLengths_lt (db : QueryDatabase) (t : Nat) : (db.tables.chunkLengths t).sum < 2 ^ 32 := by
  cases hget : db[t]? with
  | none => simp [tables, hget]
  | some table =>
    rw [chunkLengths_eq hget, QueryTable.sum_chunkLengths]
    exact table.numRows_lt

def typedTables (db : QueryDatabase) (tableId : Option TableName → Nat) : TypedTables where
  tableId := tableId
  chunkLengths := db.tables.chunkLengths
  column t name := db[t]?.bind fun table => table.typedColumn name
  column_aligned := db.typedColumn_aligned
  numRows_lt := db.sum_chunkLengths_lt
  hasOffsets := db.typedColumn_hasOffsets

end QueryDatabase

end Hustle.Operators
