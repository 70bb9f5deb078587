import Hustle.Operators.MaterializeCalls
import Hustle.Storage.ColumnLoad
import Hustle.Storage.TableFile

/-!
This module contains `OperatorResult::materialize`, which materializes the columns of a result one by one and puts them
side by side into a new table.
-/

namespace Hustle.Operators

open Storage (Cell ChunkedColumn FieldType Row Schema SizedTable blockSize)

def Value.toCell : Value → Cell
  | .int64 value => .int64 value
  | .string value => .string value

/--
A lazy table of a result and the table it belongs to, with the names and types of the columns.
-/
structure ResultTable where
  fields : List (String × FieldType)
  stored : StoredTable
  lazy : LazyTable

/--
A `ColumnReference`. Without a table it refers to the first one of the result.
-/
structure ColumnRef where
  table : Option Nat
  colName : String
  deriving DecidableEq

/--
`materialized_cols_` of all lazy tables, by the pointer of the table and the number of the column.
-/
abbrev MaterializedCols := Nat × Nat → Option (Chunked Value)

namespace OperatorResult

def getResultTable (result : List ResultTable) : Option Nat → Option ResultTable
  | none => result.head?
  | some table => result.find? fun t => t.lazy.table = table

section

variable (kernels : Kernels)

/--
`get_table(table)->MaterializeColumn(col_name)`. The name must be that of one column.
-/
def materializeColumn (result : List ResultTable) (materializedCols : MaterializedCols) (ref : ColumnRef)
    : Option (ChunkedColumn × MaterializedCols) := do
  let t ← getResultTable result ref.table
  if (t.fields.map Prod.fst).count ref.colName = 1 then
    let i := t.fields.findIdx fun field => field.1 = ref.colName
    let field ← t.fields[i]?
    let (col, materializedCols) ← Memo.call (fun i => (t.lazy.table, i)) (t.lazy.materializeActive kernels t.stored)
      materializedCols i
    return (⟨field.2, col.map (List.map Value.toCell)⟩, materializedCols)
  else
    none

def materializeColumns (result : List ResultTable) (materializedCols : MaterializedCols)
    : List ColumnRef → Option (List ChunkedColumn × MaterializedCols)
  | [] => some ([], materializedCols)
  | ref :: refs => do
    let (col, materializedCols) ← materializeColumn kernels result materializedCols ref
    let (cols, materializedCols) ← materializeColumns result materializedCols refs
    return (col :: cols, materializedCols)

def schemaOf (fields : List FieldType) : Option Schema :=
  if h : fields ≠ [] then some ⟨fields, h⟩ else none

/--
`OperatorResult::materialize`. `BuildMetadata` does not change the rows.
-/
def materialize (roundUp : Nat → Nat) (pick : List Int → Nat) (result : List ResultTable)
    (materializedCols : MaterializedCols) (refs : List ColumnRef) (metadataEnabled : Bool) : Option SizedTable := do
  let (cols, _) ← materializeColumns kernels result materializedCols refs
  let outSchema ← schemaOf (cols.map ChunkedColumn.type)
  (SizedTable.new outSchema blockSize metadataEnabled).insertColumns roundUp pick (SizedTable.columnArrays cols)

end

/--
The table has `n` rows, and row `k` holds the `k`-th value of every column.
-/
def MaterializesTo (roundUp : Nat → Nat) (pick : List Int → Nat) (kernels : Kernels) (result : List ResultTable)
    (materializedCols : MaterializedCols) (refs : List ColumnRef) (metadataEnabled : Bool) (cols : List ChunkedColumn)
    (n : Nat) : Prop :=
  ∃ t contents, materialize kernels roundUp pick result materializedCols refs metadataEnabled = some t ∧
    t.table.Repr contents ∧ t.table.numRows = n ∧ t.table.numRows ≤ Storage.maxInt ∧
    (List.range n).mapM (fun k => cols.mapM fun c => c.cells[k]?) = some contents.flatten

/--
There is a column, and the columns can be put side by side in a table of blocks of the usual size.
-/
def Zippable (roundUp : Nat → Nat) (pick : List Int → Nat) (metadataEnabled : Bool) (cols : List ChunkedColumn)
    (n : Nat) : Prop :=
  ∃ outSchema ∈ schemaOf (cols.map ChunkedColumn.type),
    SizedTable.Zippable roundUp pick (SizedTable.new outSchema blockSize metadataEnabled) cols n

variable {roundUp : Nat → Nat} {pick : List Int → Nat} {kernels : Kernels} {result : List ResultTable}
  {materializedCols materializedCols' : MaterializedCols} {refs : List ColumnRef} {cols : List ChunkedColumn} {n : Nat}

theorem schemaOf_eq_some {fields : List FieldType} {outSchema : Schema} (h : schemaOf fields = some outSchema)
    : outSchema.fields = fields := by
  unfold schemaOf at h
  split at h
  . cases h
    rfl
  . cases h

theorem materialize_eq (hcols : materializeColumns kernels result materializedCols refs = some (cols, materializedCols'))
    (metadataEnabled : Bool)
    : materialize kernels roundUp pick result materializedCols refs metadataEnabled
        =
      (schemaOf (cols.map ChunkedColumn.type)).bind fun outSchema =>
        (SizedTable.new outSchema blockSize metadataEnabled).insertColumns roundUp pick
          (SizedTable.columnArrays cols) := by
  rw [materialize, hcols]
  rfl

theorem zips_iff (hround : ∀ n, n ≤ roundUp n) (hzero : roundUp 0 = 0) (htype : ∀ c ∈ cols, c.HasType)
    (hlen : ∀ c ∈ cols, c.cells.length = n) (metadataEnabled : Bool) {outSchema : Schema}
    (hschema : schemaOf (cols.map ChunkedColumn.type) = some outSchema)
    : SizedTable.Zips roundUp pick (SizedTable.new outSchema blockSize metadataEnabled) cols n ↔
        SizedTable.Zippable roundUp pick (SizedTable.new outSchema blockSize metadataEnabled) cols n :=
  SizedTable.zips_iff hround hzero (by decide) (by decide) (schemaOf_eq_some hschema) htype hlen metadataEnabled

theorem zippable_of_materializesTo (hround : ∀ n, n ≤ roundUp n) (hzero : roundUp 0 = 0)
    (hcols : materializeColumns kernels result materializedCols refs = some (cols, materializedCols'))
    (htype : ∀ c ∈ cols, c.HasType) (hlen : ∀ c ∈ cols, c.cells.length = n) {metadataEnabled : Bool}
    (h : MaterializesTo roundUp pick kernels result materializedCols refs metadataEnabled cols n)
    : Zippable roundUp pick metadataEnabled cols n := by
  obtain ⟨t, contents, hrun, hrest⟩ := h
  rw [materialize_eq hcols] at hrun
  obtain ⟨outSchema, hschema, hrun⟩ := Option.bind_eq_some_iff.mp hrun
  exact ⟨outSchema, hschema, (zips_iff hround hzero htype hlen metadataEnabled hschema).mp ⟨t, contents, hrun, hrest⟩⟩

/--
The columns of a result become a table exactly if they can be put side by side.
-/
theorem materializesTo_iff (hround : ∀ n, n ≤ roundUp n) (hzero : roundUp 0 = 0)
    (hcols : materializeColumns kernels result materializedCols refs = some (cols, materializedCols'))
    (htype : ∀ c ∈ cols, c.HasType) (hlen : ∀ c ∈ cols, c.cells.length = n) (metadataEnabled : Bool)
    : MaterializesTo roundUp pick kernels result materializedCols refs metadataEnabled cols n ↔
        Zippable roundUp pick metadataEnabled cols n := by
  constructor
  . exact zippable_of_materializesTo hround hzero hcols htype hlen
  . rintro ⟨outSchema, hschema, hzip⟩
    obtain ⟨t, contents, hrun, hrest⟩ := (zips_iff hround hzero htype hlen metadataEnabled hschema).mpr hzip
    refine ⟨t, contents, ?_, hrest⟩
    rw [materialize_eq hcols, hschema]
    exact hrun

def filteredResult : List ResultTable :=
  [⟨[("k", .int64), ("n", .int64)], pairTable, LazyTable.filteredPairs⟩]

def filteredCols : List ChunkedColumn :=
  [⟨.int64, [[.int64 10, .int64 30]]⟩, ⟨.int64, [[.int64 3, .int64 5]]⟩]

theorem exists_filteredCols
    : ∃ materializedCols', materializeColumns oneChunkKernels filteredResult (fun _ => none) [⟨some 0, "n"⟩, ⟨none, "k"⟩]
        = some (filteredCols, materializedCols') :=
  ⟨_, rfl⟩

instance (cols : List ChunkedColumn) (t : SizedTable) (i : Nat)
    : Decidable (SizedTable.ChunkFits roundUp pick cols t i) :=
  inferInstanceAs (Decidable (∀ _ ∈ _, _))

theorem materializesTo_iff_filteredResult
    : MaterializesTo Storage.roundUpToMultipleOf64 (fun _ => 0) oneChunkKernels filteredResult (fun _ => none)
        [⟨some 0, "n"⟩, ⟨none, "k"⟩] false filteredCols 2 := by
  obtain ⟨materializedCols', hcols⟩ := exists_filteredCols
  refine (materializesTo_iff Storage.SizedTable.le_roundUpToMultipleOf64 rfl hcols (by decide) (by decide) false).mpr
    ⟨⟨[.int64, .int64], by decide⟩, rfl, ?_, .inr ⟨by decide, by decide⟩, by decide, ?_⟩
  . intro first hfirst
    cases hfirst
    decide
  . intro first hfirst
    cases hfirst
    decide +kernel

/--
A table in two blocks beside one whose rows are gathered into one chunk.
-/
def joinedResult : List ResultTable :=
  [⟨[("k", .int64)], pairTable, ⟨0, none, none, none, none⟩⟩,
    ⟨[("k", .int64)], pairTable, { LazyTable.joinedPairs with table := 1 }⟩]

def joinedCols : List ChunkedColumn :=
  [⟨.int64, [[.int64 3, .int64 9], [.int64 5]]⟩, ⟨.int64, [[.int64 5, .int64 3, .int64 5]]⟩]

theorem not_materializesTo
    : (∃ materializedCols', materializeColumns oneChunkKernels joinedResult (fun _ => none)
          [⟨some 0, "k"⟩, ⟨some 1, "k"⟩] = some (joinedCols, materializedCols')) ∧
        (∀ c ∈ joinedCols, c.HasType ∧ c.cells.length = 3) ∧
        ¬MaterializesTo Storage.roundUpToMultipleOf64 (fun _ => 0) oneChunkKernels joinedResult (fun _ => none)
          [⟨some 0, "k"⟩, ⟨some 1, "k"⟩] false joinedCols 3 := by
  have hcols : ∃ materializedCols', materializeColumns oneChunkKernels joinedResult (fun _ => none)
      [⟨some 0, "k"⟩, ⟨some 1, "k"⟩] = some (joinedCols, materializedCols') := ⟨_, rfl⟩
  refine ⟨hcols, by decide, ?_⟩
  intro h
  obtain ⟨materializedCols', hcols⟩ := hcols
  obtain ⟨outSchema, hschema, hzip⟩ := zippable_of_materializesTo Storage.SizedTable.le_roundUpToMultipleOf64 rfl hcols
    (by decide) (by decide) h
  exact absurd (hzip.aligned _ rfl ⟨.int64, [[.int64 5, .int64 3, .int64 5]]⟩ (by decide)) (by decide)

end OperatorResult

end Hustle.Operators
