import Hustle.Operators.ProbeFilters

/-!
This module contains the lazy tables that operators pass on. A lazy table is a table together with the rows of
it that are left: those that pass a filter, or those in an array of row numbers. The cache of materialized
columns is left out, every join makes new lazy tables.
-/

namespace Hustle.Operators

/--
The tables of a database by their pointers. All columns of a table have the chunks of its blocks.
-/
structure Tables where
  chunkLengths : Nat → List Nat
  column : Nat → String → Option (Chunked (BitVec 64))
  column_aligned : ∀ t name col, column t name = some col → col.map List.length = chunkLengths t

structure LazyTable where
  table : Nat
  filter : Option (Chunked Bool)
  indices : Option (List Nat)
  indexChunks : Option (List Nat)
  hashTable : Option HashTable
  deriving DecidableEq

abbrev OperatorResult := List LazyTable

/--
`get_table`, the first lazy table of a table.
-/
def OperatorResult.getTable (result : OperatorResult) (table : Nat) : Option LazyTable :=
  result.find? fun t => t.table = table

def Tables.value (db : Tables) (table : Nat) (name : String) (row : Nat) : Option (BitVec 64) := do
  let col ← db.column table name
  col.flatten[row]?

/-! Gathering rows. -/

def sliceLength : Nat := 30000

/--
The slices of an array of indices, the last one is shorter than the other ones and may be empty.
-/
def slices (indices : List α) : Chunked α :=
  (List.range (indices.length / sliceLength + 1)).map fun i => (indices.drop (i * sliceLength)).take sliceLength

/--
`apply_indices`. The chunk of an index is searched in the offsets unless it is given.
-/
def applyIndices (col : Chunked α) (indices : List Nat) (indexChunks : Option (List Nat)) : Option (Chunked α) :=
  if col = [] then
    none
  else
    match indexChunks with
    | none => (slices indices).mapM fun slice => slice.mapM fun index => col.flatten[index]?
    | some chunks =>
      (slices (indices.zip chunks)).mapM fun slice => slice.mapM fun x => do
        let chunk ← col[x.2]?
        chunkValue chunk (col.take x.2).flatten.length x.1

/--
`MaterializeColumn` with a task. It does not apply the filter.
-/
def LazyTable.materializeColumn (db : Tables) (t : LazyTable) (name : String) : Option (Chunked (BitVec 64)) := do
  let col ← db.column t.table name
  match t.indices with
  | none => return col
  | some indices => applyIndices col indices t.indexChunks

/--
`arrow::compute::Take` with a check of the bounds.
-/
def take (arr : List α) (indices : List Nat) : Option (List α) :=
  indices.mapM fun i => arr[i]?

theorem take_map {α β : Type} {f : α → β} {rows : List α} {indices : List Nat} {g : Nat → α}
    (h : ∀ i ∈ indices, rows[i]? = some (g i))
    : take (rows.map f) indices = some (indices.map fun i => f (g i)) := by
  apply Run.mapM_eq_some
  intro i hi
  rw [List.getElem?_map, h i hi, Option.map_some]

theorem flatten_slices (indices : List α) : (slices indices).flatten = indices := by
  unfold slices
  suffices h : ∀ n, ((List.range n).map fun i => (indices.drop (i * sliceLength)).take sliceLength).flatten
      = indices.take (n * sliceLength) by
    rw [h, List.take_of_length_le]
    have := Nat.lt_mul_div_succ indices.length (show 0 < sliceLength by decide)
    rw [Nat.mul_comm]
    omega
  intro n
  induction n with
  | zero => simp
  | succ n ih =>
    rw [List.range_succ, List.map_append, List.flatten_append, ih, List.map_singleton, List.flatten_singleton,
      Nat.add_mul, Nat.one_mul, List.take_add]

theorem slices_ne_nil (indices : List α) : slices indices ≠ [] := by
  simp [slices]

theorem applyIndices_eq_some {α : Type} {col : Chunked α} {indices : List Nat} {g : Nat → α} (hcol : col ≠ [])
    (h : ∀ i ∈ indices, col.flatten[i]? = some (g i))
    : ∃ out, applyIndices col indices none = some out ∧ out ≠ [] ∧ out.flatten = indices.map g := by
  refine ⟨(slices indices).map fun slice => slice.map g, ?_, by simp [slices_ne_nil], ?_⟩
  . rw [applyIndices, if_neg hcol]
    apply Run.mapM_eq_some
    intro slice hslice
    apply Run.mapM_eq_some
    intro i hi
    apply h
    rw [← flatten_slices indices]
    exact List.mem_flatten_of_mem hslice hi
  . rw [← List.map_flatten, flatten_slices]

theorem slices_map {α β : Type} (f : α → β) (l : List α) : slices (l.map f) = (slices l).map (List.map f) := by
  simp [slices, List.map_take, List.map_drop]

/--
The given chunks are those that the indices are in.
-/
def LazyTable.ChunksFound (lengths indices : List Nat) (indexChunks : Option (List Nat)) : Prop :=
  ∀ chunks, indexChunks = some chunks →
    List.Forall₂ (fun index c => (lengths.take c).sum ≤ index ∧ index < (lengths.take (c + 1)).sum) indices chunks

theorem applyIndices_slices {α : Type} {col : Chunked α} {indices : List Nat} {indexChunks : Option (List Nat)}
    {g : Nat → α} (hcol : col ≠ []) (h : ∀ i ∈ indices, col.flatten[i]? = some (g i))
    (hchunks : LazyTable.ChunksFound (col.map List.length) indices indexChunks)
    : applyIndices col indices indexChunks = some ((slices indices).map fun slice => slice.map g) := by
  cases indexChunks with
  | none =>
    rw [applyIndices, if_neg hcol]
    apply Run.mapM_eq_some
    intro slice hslice
    apply Run.mapM_eq_some
    intro i hi
    apply h
    rw [← flatten_slices indices]
    exact List.mem_flatten_of_mem hslice hi
  | some chunks =>
    rw [applyIndices, if_neg hcol]
    have hfound := hchunks chunks rfl
    have hzip : (indices.zip chunks).map Prod.fst = indices :=
      List.map_fst_zip (by rw [hfound.length_eq])
    have hpair : ∀ x ∈ indices.zip chunks, (do
        let chunk ← col[x.2]?
        chunkValue chunk (col.take x.2).flatten.length x.1) = some (g x.1) := by
      intro x hx
      obtain ⟨hle, hlt⟩ := List.forall₂_zip hfound hx
      have hc : x.2 < col.length := by
        by_contra hge
        rw [List.take_of_length_le (by simpa using Nat.le_of_not_lt hge)] at hle
        rw [List.take_of_length_le (by rw [List.length_map]; omega)] at hlt
        omega
      have htake : ((col.map List.length).take (x.2 + 1)).sum
          = ((col.map List.length).take x.2).sum + col[x.2].length := by
        rw [List.take_add_one]
        simp [List.getElem?_eq_getElem hc]
      have hk : x.1 - ((col.map List.length).take x.2).sum < col[x.2].length := by omega
      have hflat := getElem?_flatten_offset (List.getElem?_eq_getElem hc) hk
      rw [length_flatten_take, Nat.add_sub_cancel' hle, h x.1 (List.of_mem_zip hx).1] at hflat
      simp only [List.getElem?_eq_getElem hc, Option.bind_eq_bind, Option.bind_some, chunkValue]
      rw [length_flatten_take, if_pos hle, hflat]
    have : (slices (indices.zip chunks)).mapM (fun slice => slice.mapM fun x => do
        let chunk ← col[x.2]?
        chunkValue chunk (col.take x.2).flatten.length x.1)
        = some ((slices (indices.zip chunks)).map fun slice => slice.map fun x => g x.1) := by
      apply Run.mapM_eq_some
      intro slice hslice
      apply Run.mapM_eq_some
      intro x hx
      apply hpair
      rw [← flatten_slices (indices.zip chunks)]
      exact List.mem_flatten_of_mem hslice hx
    refine this.trans ?_
    rw [← hzip, slices_map, hzip]
    simp [List.map_map, Function.comp_def]

/-! Results. -/

namespace OperatorResult

theorem getTable_append (result result' : OperatorResult) (table : Nat)
    : getTable (result ++ result') table = (getTable result table).or (getTable result' table) := by
  unfold getTable
  rw [List.find?_append]

theorem getTable_cons (t : LazyTable) (result : OperatorResult) (table : Nat)
    : getTable (t :: result) table = if t.table = table then some t else getTable result table := by
  unfold getTable
  rw [List.find?_cons]
  by_cases h : t.table = table
  . simp [h]
  . simp [h]

theorem table_of_getTable {result : OperatorResult} {table : Nat} {t : LazyTable}
    (h : getTable result table = some t)
    : t.table = table := by
  have := List.find?_some h
  simpa using this

end OperatorResult

end Hustle.Operators
