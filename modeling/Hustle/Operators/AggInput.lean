import Hustle.Operators.ApplyIndices
import Hustle.Operators.Expression
import Hustle.Operators.JoinTuples

/-!
This module contains what an aggregate reads: the columns of the lazy tables of the previous operator. A lazy
table keeps a column that it has materialized, so that all uses of the column share its arrays. The columns have
the two types that a schema can give them.
-/

namespace Hustle.Operators

open Resolver (ColumnReference TableName)

namespace Values

def length : Values → Nat
  | int64 values => values.length
  | string values => values.length

def get? (i : Nat) : Values → Option Value
  | int64 values => values[i]?.map .int64
  | string values => values[i]?.map .string

end Values

/--
An `arrow::ChunkedArray` with its type.
-/
inductive Column where
  | int64 (chunks : Chunked (BitVec 64))
  | string (chunks : Chunked (List UInt8))
  deriving DecidableEq, Repr

namespace Column

def arrays : Column → List Values
  | int64 chunks => chunks.map .int64
  | string chunks => chunks.map .string

def lengths (col : Column) : List Nat :=
  col.arrays.map Values.length

/--
The arrays as `apply_indices` takes them.
-/
def chunkedArray : Column → Context.ChunkedArray
  | int64 chunks => .int64 chunks
  | string chunks => .string (chunks.map Context.stringArray)

def values : Column → Chunked Value
  | int64 chunks => chunks.map (List.map .int64)
  | string chunks => chunks.map (List.map .string)

/--
The offsets of the strings are of type `int32_t`.
-/
def HasOffsets : Column → Prop
  | int64 _ => True
  | string chunks => ∀ strings ∈ chunks, strings.flatten.length ≤ maxInt

def value (row : Nat) : Column → Value
  | int64 chunks => .int64 (chunks.flatten[row]?.getD 0)
  | string chunks => .string (chunks.flatten[row]?.getD [])

def select (rows : List Nat) : Column → Values
  | int64 chunks => .int64 (rows.map fun row => chunks.flatten[row]?.getD 0)
  | string chunks => .string (rows.map fun row => chunks.flatten[row]?.getD [])

end Column

/--
The tables of a database by their pointers. All columns of a table have the chunks of its blocks.
-/
structure TypedTables where
  tableId : Option TableName → Nat
  chunkLengths : Nat → List Nat
  column : Nat → String → Option Column
  column_aligned : ∀ t name col, column t name = some col → col.lengths = chunkLengths t
  numRows_lt : ∀ t, (chunkLengths t).sum < 2 ^ 32
  hasOffsets : ∀ t name col, column t name = some col → col.HasOffsets

def Context.OutArray.array : Context.OutArray → Option Values
  | .int64 values => some (.int64 values)
  | .string array => array.values.map .string

/--
The arrays of the rows of a column that are left. `capacity` is the room in a builder of offsets.
-/
def LazyTable.gather (capacity : Nat → Nat) (t : LazyTable) (col : Column) : Option (List Values) :=
  match t.indices with
  | none => some col.arrays
  | some indices => do
    let indexChunks := t.indexChunks.map (List.map (BitVec.ofNat 16))
    let out ← Context.applyIndices capacity col.chunkedArray indices indexChunks
    out.mapM Context.OutArray.array

structure Memory where
  heap : Heap
  materializedCols : List (ColumnReference × List ArrayPtr)
  deriving DecidableEq

namespace Memory

def empty : Memory where
  heap := []
  materializedCols := []

def materializeColumn (capacity : Nat → Nat) (db : TypedTables) (result : OperatorResult) (m : Memory)
    (ref : ColumnReference) : Option (List ArrayPtr × Memory) :=
  match m.materializedCols.lookup ref with
  | some chunks => some (chunks, m)
  | none => do
    let t ← result.getTable (db.tableId ref.table)
    let col ← db.column t.table ref.colName
    let arrays ← t.gather capacity col
    let chunks := List.range' m.heap.length arrays.length
    return (chunks, ⟨m.heap ++ arrays, (ref, chunks) :: m.materializedCols⟩)

def materializeColumns (capacity : Nat → Nat) (db : TypedTables) (result : OperatorResult) (m : Memory)
    : List ColumnReference → Option (List (List ArrayPtr) × Memory)
  | [] => some ([], m)
  | ref :: refs => do
    let (chunks, m) ← m.materializeColumn capacity db result ref
    let (cols, m) ← m.materializeColumns capacity db result refs
    return (chunks :: cols, m)

end Memory

/-! The tuples that a result describes. -/

/--
Tuples in chunks, as the rows of all tables, and which of them are active.
-/
structure TupleList where
  lengths : List Nat
  tuple : Nat → Nat → Nat
  active : Nat → Bool

namespace TupleList

def size (src : TupleList) : Nat :=
  src.lengths.sum

def chunk (src : TupleList) (c : Nat) : List Nat :=
  List.range' (src.lengths.take c).sum (src.lengths.getD c 0)

def activeTuples (src : TupleList) : List (Nat → Nat) :=
  ((List.range src.size).filter src.active).map src.tuple

end TupleList

namespace TypedTables

def numRows (db : TypedTables) (table : Nat) : Nat :=
  (db.chunkLengths table).sum

def value (db : TypedTables) (ref : ColumnReference) (ρ : Nat → Nat) : Value :=
  let t := db.tableId ref.table
  match db.column t ref.colName with
  | some col => col.value (ρ t)
  | none => .int64 0

end TypedTables

/--
The result is one table whose filter belongs to its chunks, or tables whose index arrays are the columns of the
list of tuples.
-/
inductive Describes (db : TypedTables) : OperatorResult → TupleList → Prop
  | single {t : LazyTable} (hindices : t.indices = none)
      (hfilter : ∀ filter, t.filter = some filter → filter.map List.length = db.chunkLengths t.table)
      : Describes db [t]
          { lengths := db.chunkLengths t.table, tuple := fun row _ => row
            active := fun row => decide (Passes t.filter row) }
  | joined {result : OperatorResult} {tuples : List (Nat → Nat)}
      (htables : ∀ t ∈ result, t.filter = none ∧ t.indices = some (tuples.map fun ρ => ρ t.table) ∧
        db.chunkLengths t.table ≠ [] ∧ (∀ ρ ∈ tuples, ρ t.table < db.numRows t.table) ∧
        LazyTable.ChunksFound (db.chunkLengths t.table) (tuples.map fun ρ => ρ t.table) t.indexChunks ∧
        ∀ chunks, t.indexChunks = some chunks → ∀ c ∈ chunks, c < 2 ^ 16)
      : Describes db result
          { lengths := (slices tuples).map List.length, tuple := fun k => tuples.getD k fun _ => 0
            active := fun _ => true }

/-! Materialized columns. -/

theorem getElem?_chunk_eq_map {α : Type} {col : Chunked α} {f : Nat → α} {c : Nat} (hc : c < col.length)
    (hf : ∀ k < col.flatten.length, col.flatten[k]? = some (f k))
    : col[c]?
        =
      some ((List.range' ((col.map List.length).take c).sum ((col.map List.length).getD c 0)).map f) := by
  rw [List.getElem?_eq_getElem hc, Option.some.injEq]
  have hlen : (col.map List.length).getD c 0 = col[c].length := by
    simp [List.getD_eq_getElem?_getD, List.getElem?_eq_getElem hc]
  rw [hlen]
  apply List.ext_getElem
  . simp
  . intro k hk hk'
    have hflat := getElem?_flatten_offset (List.getElem?_eq_getElem hc) hk
    rw [length_flatten_take, List.getElem?_eq_getElem hk] at hflat
    have hlt := (List.getElem?_eq_some_iff.mp hflat).1
    rw [hf _ hlt, Option.some.injEq] at hflat
    simp [← hflat]

theorem chunked_eq_map {α : Type} {col : Chunked α} {f : Nat → α}
    (hf : ∀ k < col.flatten.length, col.flatten[k]? = some (f k))
    : col
        =
      (List.range col.length).map fun c =>
        (List.range' ((col.map List.length).take c).sum ((col.map List.length).getD c 0)).map f := by
  apply List.ext_getElem?
  intro c
  by_cases hc : c < col.length
  . rw [getElem?_chunk_eq_map hc hf, List.getElem?_map, List.getElem?_range hc]
    rfl
  . rw [List.getElem?_eq_none (by omega), List.getElem?_eq_none (by simpa using Nat.le_of_not_lt hc)]

theorem Column.select_length (col : Column) (rows : List Nat) : (col.select rows).length = rows.length := by
  cases col <;> simp [Column.select, Values.length]

theorem Column.select_get? (col : Column) (rows : List Nat) (i : Nat)
    : (col.select rows).get? i = rows[i]?.map fun row => col.value row := by
  cases col <;> simp [Column.select, Values.get?, Column.value, Function.comp_def]

theorem Column.lengths_chunkedArray (col : Column) : col.chunkedArray.lengths = col.lengths := by
  cases col with
  | int64 chunks => simp [chunkedArray, Context.ChunkedArray.lengths, lengths, arrays, Values.length, Function.comp_def]
  | string chunks =>
    simp [chunkedArray, Context.ChunkedArray.lengths, lengths, arrays, Values.length, Context.stringArray,
      Function.comp_def]

theorem Column.getElem?_values {col : Column} {row : Nat} (hrow : row < col.lengths.sum)
    : col.values.flatten[row]? = some (col.value row) := by
  cases col with
  | int64 chunks =>
    have hlt : row < chunks.flatten.length := by
      simpa [lengths, arrays, Values.length, Function.comp_def, List.length_flatten] using hrow
    rw [values, ← List.map_flatten, List.getElem?_map, List.getElem?_eq_getElem hlt]
    simp [value, List.getElem?_eq_getElem hlt]
  | string chunks =>
    have hlt : row < chunks.flatten.length := by
      simpa [lengths, arrays, Values.length, Function.comp_def, List.length_flatten] using hrow
    rw [values, ← List.map_flatten, List.getElem?_map, List.getElem?_eq_getElem hlt]
    simp [value, List.getElem?_eq_getElem hlt]

theorem gather_single {capacity : Nat → Nat} {t : LazyTable} (col : Column) (hindices : t.indices = none)
    : t.gather capacity col = some col.arrays ∧
      col.arrays = (List.range col.lengths.length).map fun c =>
        col.select (List.range' (col.lengths.take c).sum (col.lengths.getD c 0)) := by
  refine ⟨by rw [LazyTable.gather, hindices], ?_⟩
  cases col with
  | int64 chunks =>
    have hlen : (Column.int64 chunks).lengths = chunks.map List.length := by
      simp [Column.lengths, Column.arrays, Function.comp_def, Values.length]
    have := @chunked_eq_map _ chunks (fun row => chunks.flatten[row]?.getD 0)
      (fun k hk => by simp [List.getElem?_eq_getElem hk])
    rw [hlen, List.length_map]
    conv_lhs => rw [Column.arrays, this]
    simp only [List.map_map]
    rfl
  | string chunks =>
    have hlen : (Column.string chunks).lengths = chunks.map List.length := by
      simp [Column.lengths, Column.arrays, Function.comp_def, Values.length]
    have := @chunked_eq_map _ chunks (fun row => chunks.flatten[row]?.getD [])
      (fun k hk => by simp [List.getElem?_eq_getElem hk])
    rw [hlen, List.length_map]
    conv_lhs => rw [Column.arrays, this]
    simp only [List.map_map]
    rfl

theorem slices_eq_map {α : Type} (tuples : List (Nat → Nat)) (table : Nat) (g : Nat → α)
    : (slices (tuples.map fun ρ => ρ table)).map (fun slice => slice.map g)
        =
      (List.range ((slices tuples).map List.length).length).map fun c =>
        ((List.range' (((slices tuples).map List.length).take c).sum
          (((slices tuples).map List.length).getD c 0)).map
            fun k => tuples.getD k (fun _ => 0) table).map g := by
  have hflat : ((slices tuples).map (List.map fun ρ => g (ρ table))).flatten
      = tuples.map fun ρ => g (ρ table) := by
    rw [← List.map_flatten, flatten_slices]
  have := @chunked_eq_map _ ((slices tuples).map (List.map fun ρ => g (ρ table)))
    (fun k => g (tuples.getD k (fun _ => 0) table)) (by
      intro k hk
      rw [hflat, List.length_map] at hk
      rw [hflat, List.getElem?_map, List.getElem?_eq_getElem hk, List.getD_eq_getElem?_getD,
        List.getElem?_eq_getElem hk]
      rfl)
  rw [slices_map, List.map_map]
  have hcomp : ((fun slice => List.map g slice) ∘ List.map fun ρ : Nat → Nat => ρ table)
      = List.map fun ρ : Nat → Nat => g (ρ table) := by
    funext slice
    simp
  rw [hcomp, this]
  simp [Function.comp_def]

theorem gather_joined {capacity : Nat → Nat} (hcapacity : ∀ n, n ≤ capacity n) {t : LazyTable}
    {tuples : List (Nat → Nat)} {col : Column} (hindices : t.indices = some (tuples.map fun ρ => ρ t.table))
    (hrows : ∀ ρ ∈ tuples, ρ t.table < col.lengths.sum) (hnumRows : col.lengths.sum < 2 ^ 32)
    (hfound : LazyTable.ChunksFound col.lengths (tuples.map fun ρ => ρ t.table) t.indexChunks)
    (hchunks : ∀ chunks, t.indexChunks = some chunks → ∀ c ∈ chunks, c < 2 ^ 16) (hoffsets : col.HasOffsets)
    (hfits : Context.Fits capacity col.chunkedArray col.values (tuples.map fun ρ => ρ t.table))
    : t.gather capacity col = some ((List.range ((slices tuples).map List.length).length).map fun c =>
        col.select ((List.range' (((slices tuples).map List.length).take c).sum
          (((slices tuples).map List.length).getD c 0)).map fun k => tuples.getD k (fun _ => 0) t.table)) := by
  obtain ⟨hne, hint, hstrings⟩ := hfits
  have hlt : ∀ i ∈ tuples.map fun ρ => ρ t.table, i < col.lengths.sum := by
    intro i hi
    obtain ⟨ρ, hρ, rfl⟩ := List.mem_map.mp hi
    exact hrows ρ hρ
  rw [LazyTable.gather, hindices]
  cases col with
  | int64 chunks =>
    have hlen : (Column.int64 chunks).lengths = chunks.map List.length := by
      simp [Column.lengths, Column.arrays, Function.comp_def, Values.length]
    rw [hlen] at hlt hnumRows hfound
    have hcol : chunks ≠ [] := fun hnil => hne (by rw [hnil]; rfl)
    have hslices := @applyIndices_slices _ chunks _ _ (fun row => chunks.flatten[row]?.getD 0) hcol
      (fun i hi => by
        have hi := hlt i hi
        rw [← List.length_flatten] at hi
        simp [List.getElem?_eq_getElem hi]) hfound
    have hgather := @Context.applyIndices_int64 capacity chunks hcol hnumRows _ hlt hint _ hfound hchunks
    rw [hslices, Option.map_some] at hgather
    simp only [Column.chunkedArray, hgather, Option.bind_eq_bind, Option.bind_some]
    have harrays : ∀ values ∈ (slices (tuples.map fun ρ => ρ t.table)).map
        (List.map fun row => chunks.flatten[row]?.getD 0),
        (Context.OutArray.array ∘ Context.OutArray.int64) values = some (Values.int64 values) := fun _ _ => rfl
    rw [List.mapM_map, Run.mapM_eq_some harrays, slices_eq_map]
    simp [Column.select, Function.comp_def]
  | string chunks =>
    have hlen : (Column.string chunks).lengths = chunks.map List.length := by
      simp [Column.lengths, Column.arrays, Function.comp_def, Values.length]
    rw [hlen] at hlt hnumRows
    have hcol : List.Forall₂ StringArray.Holds (chunks.map Context.stringArray) chunks := by
      rw [List.forall₂_map_left_iff, List.forall₂_same]
      exact fun strings hstrings => Context.stringArray_holds (hoffsets strings hstrings)
    have hchunks : chunks.map List.length ≠ [] := by
      rwa [← Context.lengths_of_holds hcol]
    have hstrings := hstrings trivial
    have hgather := Context.applyIndices_stringArray hcol hcapacity hnumRows hlt hchunks hint
      (fun slice hslice hnil => (hstrings slice hslice hnil).2) (t.indexChunks.map (List.map (BitVec.ofNat 16)))
    simp only [Column.chunkedArray, hgather, Option.bind_eq_bind, Option.bind_some]
    have harrays : ∀ slice ∈ slices (tuples.map fun ρ => ρ t.table),
        (Context.OutArray.array ∘ fun slice => Context.OutArray.string
          (Context.stringArray (slice.map fun i => chunks.flatten.getD i []))) slice
          = some (Values.string (slice.map fun i => chunks.flatten.getD i [])) := by
      intro slice hslice
      rw [Function.comp_apply, Context.OutArray.array,
        Context.values_gathered hlt hslice fun hnil => (hstrings slice hslice hnil).1]
      rfl
    have hslices := congrArg (List.map Values.string) (slices_eq_map tuples t.table fun i => chunks.flatten.getD i [])
    rw [List.mapM_map, Run.mapM_eq_some harrays]
    simpa [Column.select, Function.comp_def] using hslices

/-! The memory. -/

def Represents (heap : Heap) (src : TupleList) (table : Nat) (col : Column) (chunks : List ArrayPtr) : Prop :=
  chunks.length = src.lengths.length ∧
  ∀ c < src.lengths.length, ∃ ptr, chunks[c]? = some ptr ∧ ptr < heap.length ∧
    heap[ptr]? = some (col.select ((src.chunk c).map fun k => src.tuple k table))

def Refers (db : TypedTables) (result : OperatorResult) (ref : ColumnReference) (col : Column) : Prop :=
  (∃ t, result.getTable (db.tableId ref.table) = some t) ∧ db.column (db.tableId ref.table) ref.colName = some col

/--
What is gathered from the column fits.
-/
def FitsGather (capacity : Nat → Nat) (db : TypedTables) (result : OperatorResult) (ref : ColumnReference) : Prop :=
  ∀ t, result.getTable (db.tableId ref.table) = some t → ∀ indices, t.indices = some indices →
    ∀ col, db.column t.table ref.colName = some col → Context.Fits capacity col.chunkedArray col.values indices

theorem gather_arrays {capacity : Nat → Nat} (hcapacity : ∀ n, n ≤ capacity n) {db : TypedTables}
    {result : OperatorResult} {src : TupleList} {t : LazyTable} {col : Column} {table : Nat} {name : String}
    (h : Describes db result src) (ht : result.getTable table = some t) (hcol : db.column table name = some col)
    (hfits : ∀ indices, t.indices = some indices → Context.Fits capacity col.chunkedArray col.values indices)
    : t.gather capacity col = some ((List.range src.lengths.length).map fun c =>
        col.select ((src.chunk c).map fun k => src.tuple k table)) := by
  have htable := OperatorResult.table_of_getTable ht
  have hmem : t ∈ result := List.mem_of_find?_eq_some ht
  have hlen := db.column_aligned table name col hcol
  cases h with
  | single hindices hfilter =>
    rw [List.mem_singleton] at hmem
    subst hmem
    obtain ⟨hgather, harrays⟩ := @gather_single capacity _ col hindices
    rw [hgather, harrays, hlen, htable]
    simp [TupleList.chunk]
  | @joined _ tuples htables =>
    obtain ⟨-, hindices, -, hrows, hfound, hchunks⟩ := htables t hmem
    have hnumRows := db.numRows_lt table
    rw [htable, ← hlen] at hfound
    rw [← htable] at hfound
    rw [← hlen] at hnumRows
    have hlt : ∀ ρ ∈ tuples, ρ t.table < col.lengths.sum := by
      intro ρ hρ
      have := hrows ρ hρ
      rwa [TypedTables.numRows, htable, ← hlen, ← htable] at this
    rw [gather_joined hcapacity hindices hlt hnumRows hfound hchunks (db.hasOffsets table name col hcol)
      (hfits _ hindices), htable]
    rfl

theorem Represents.mono {heap heap' : Heap} {src : TupleList} {table : Nat} {col : Column} {chunks : List ArrayPtr}
    (h : Represents heap src table col chunks) (hheap : ∀ i < heap.length, heap'[i]? = heap[i]?)
    : Represents heap' src table col chunks := by
  refine ⟨h.1, ?_⟩
  intro c hc
  obtain ⟨ptr, hptr, hlt, harr⟩ := h.2 c hc
  have harr' := (hheap ptr hlt).trans harr
  exact ⟨ptr, hptr, (List.getElem?_eq_some_iff.mp harr').1, harr'⟩

namespace Memory

variable {capacity : Nat → Nat} {db : TypedTables} {result : OperatorResult} {src : TupleList} {m : Memory}
  {ref : ColumnReference} {col : Column}

def Ok (db : TypedTables) (result : OperatorResult) (src : TupleList) (m : Memory) : Prop :=
  ∀ ref chunks col, m.materializedCols.lookup ref = some chunks → Refers db result ref col →
    Represents m.heap src (db.tableId ref.table) col chunks

theorem empty_ok : empty.Ok db result src := by
  intro ref chunks col h
  cases h

/--
The memory has grown: all arrays are still there, and columns that were materialized still are.
-/
def Grows (m m' : Memory) : Prop :=
  (∀ i < m.heap.length, m'.heap[i]? = m.heap[i]?) ∧
  ∀ ref chunks, m.materializedCols.lookup ref = some chunks → m'.materializedCols.lookup ref = some chunks

theorem Grows.refl (m : Memory) : m.Grows m :=
  ⟨fun _ _ => rfl, fun _ _ h => h⟩

theorem Grows.trans {m₁ m₂ m₃ : Memory} (h : m₁.Grows m₂) (h' : m₂.Grows m₃) : m₁.Grows m₃ := by
  refine ⟨?_, fun ref chunks hlookup => h'.2 ref chunks (h.2 ref chunks hlookup)⟩
  intro i hi
  have hi' : i < m₂.heap.length := by
    have := h.1 i hi
    rw [List.getElem?_eq_getElem hi] at this
    exact (List.getElem?_eq_some_iff.mp this).1
  rw [h'.1 i hi', h.1 i hi]

theorem materializeColumn_represents (hcapacity : ∀ n, n ≤ capacity n) (hdesc : Describes db result src)
    (hm : m.Ok db result src) (href : Refers db result ref col) (hfits : FitsGather capacity db result ref)
    : ∃ chunks m', m.materializeColumn capacity db result ref = some (chunks, m') ∧ m'.Ok db result src ∧ m.Grows m' ∧
        m'.materializedCols.lookup ref = some chunks := by
  rw [materializeColumn]
  cases hlookup : m.materializedCols.lookup ref with
  | some chunks => exact ⟨chunks, m, rfl, hm, .refl m, hlookup⟩
  | none =>
    obtain ⟨⟨t, ht⟩, hcol⟩ := href
    have hcol' : db.column t.table ref.colName = some col := by
      rw [OperatorResult.table_of_getTable ht]
      exact hcol
    have hgather := gather_arrays hcapacity hdesc ht hcol fun indices hindices => hfits t ht indices hindices col hcol'
    generalize harrays : (List.range src.lengths.length).map (fun c =>
      col.select ((src.chunk c).map fun k => src.tuple k (db.tableId ref.table))) = arrays at hgather
    have hold : ∀ i < m.heap.length, (m.heap ++ arrays)[i]? = m.heap[i]? := by
      intro i hi
      rw [List.getElem?_append_left hi]
    have hlen : arrays.length = src.lengths.length := by rw [← harrays, List.length_map, List.length_range]
    let chunks := List.range' m.heap.length arrays.length
    refine ⟨chunks, ⟨m.heap ++ arrays, (ref, chunks) :: m.materializedCols⟩, ?_, ?_, ⟨hold, ?_⟩, ?_⟩
    . simp only [ht, hcol', hgather, Option.bind_eq_bind, Option.bind_some]
      rfl
    . intro ref' chunks' col' hlookup' href'
      by_cases heq : ref' = ref
      . subst heq
        rw [List.lookup_cons_self, Option.some.injEq] at hlookup'
        subst hlookup'
        have hsame : col' = col := Option.some.inj (href'.2.symm.trans hcol)
        subst hsame
        refine ⟨by simp [chunks, hlen], ?_⟩
        intro c hc
        refine ⟨m.heap.length + c, ?_, ?_, ?_⟩
        . simp [chunks, hlen, hc]
        . show m.heap.length + c < (m.heap ++ arrays).length
          rw [List.length_append, hlen]
          omega
        . simp only
          rw [List.getElem?_append_right (by omega), Nat.add_sub_cancel_left, ← harrays, List.getElem?_map,
            List.getElem?_range hc]
          rfl
      . rw [List.lookup_cons, show (ref' == ref) = false by simpa using heq] at hlookup'
        exact (hm ref' chunks' col' hlookup' href').mono hold
    . intro ref' chunks' hlookup'
      have hne : ref' ≠ ref := by
        rintro rfl
        rw [hlookup] at hlookup'
        cases hlookup'
      rw [List.lookup_cons, show (ref' == ref) = false by simpa using hne]
      exact hlookup'
    . rw [List.lookup_cons_self]

theorem materializeColumns_represents {refs : List ColumnReference} (hcapacity : ∀ n, n ≤ capacity n)
    (hdesc : Describes db result src) (hm : m.Ok db result src)
    (hrefs : ∀ ref ∈ refs, ∃ col, Refers db result ref col)
    (hfits : ∀ ref ∈ refs, FitsGather capacity db result ref)
    : ∃ cols m', m.materializeColumns capacity db result refs = some (cols, m') ∧ m'.Ok db result src ∧ m.Grows m' ∧
        List.Forall₂ (fun ref chunks => m'.materializedCols.lookup ref = some chunks) refs cols := by
  induction refs generalizing m with
  | nil => exact ⟨[], m, rfl, hm, .refl m, .nil⟩
  | cons ref refs ih =>
    obtain ⟨col, href⟩ := hrefs ref (by simp)
    obtain ⟨chunks, m₁, hmat, hm₁, hgrows, hlookup⟩ :=
      materializeColumn_represents hcapacity hdesc hm href (hfits ref (by simp))
    obtain ⟨cols, m', hmats, hm', hgrows', hall⟩ :=
      ih hm₁ (fun r hr => hrefs r (by simp [hr])) fun r hr => hfits r (by simp [hr])
    refine ⟨chunks :: cols, m', ?_, hm', hgrows.trans hgrows', .cons (hgrows'.2 ref chunks hlookup) hall⟩
    simp only [materializeColumns, hmat, hmats, Option.bind_eq_bind, Option.bind_some]
    rfl

end Memory

end Hustle.Operators
