import Hustle.Operators.BuildFilters
import Hustle.Util.Retain
import Hustle.Util.Run

/-!
This module contains what `LIP` and `FilterJoin` share when they probe the filters of the dimension tables: the
foreign key columns of the fact table, the row offsets of its chunks, and the batches of chunks between which
the filters are sorted.
-/

namespace Hustle.Operators

/--
The fact table. All of its columns, and its filter, have the chunks of its blocks.
-/
structure FactTable where
  chunkLengths : List Nat
  /-- what `MaterializeColumn` returns for a name, it does not apply the filter -/
  columns : Map String (Chunked (BitVec 64))
  filter : Option (Chunked Bool)
  columns_aligned : ∀ name col, columns.lookup name = some col → col.map List.length = chunkLengths
  filter_aligned : ∀ f, filter = some f → f.map List.length = chunkLengths

/--
`chunk_row_offsets_` of a column whose first chunk starts with the row `offset`.
-/
def rowOffsetsFrom (offset : Nat) : Chunked α → List Nat
  | [] => []
  | c :: cs => offset :: rowOffsetsFrom (offset + c.length) cs

/--
The first offset is written even if there is no chunk.
-/
def chunkRowOffsets (col : Chunked α) : Option (List Nat) :=
  if col = [] then none else some (rowOffsetsFrom 0 col)

/--
`chunk_data[row - offset]`
-/
def chunkValue (chunk : List α) (offset row : Nat) : Option α :=
  if offset ≤ row then chunk[row - offset]? else none

def batchSize (hardwareConcurrency numChunks : Nat) : Nat :=
  if hardwareConcurrency = 0 then numChunks else hardwareConcurrency

def numBatches (batchSize numChunks : Nat) : Nat :=
  numChunks / batchSize + 1

def batchChunks (batchSize numChunks batch : Nat) : List Nat :=
  let base := batch * batchSize
  if base + batchSize - 1 < numChunks then
    List.range' base batchSize
  else
    List.range' base (numChunks - base)

def FactTable.chunkRows (fact : FactTable) (chunk : Nat) : List Nat :=
  List.range' (fact.chunkLengths.take chunk).sum (fact.chunkLengths.getD chunk 0)

def FactTable.numRows (fact : FactTable) : Nat :=
  fact.chunkLengths.sum

def FactTable.key (fact : FactTable) (fkName : String) (row : Nat) : Option (BitVec 64) := do
  let col ← fact.columns.lookup fkName
  col.flatten[row]?

/--
A fact table with the foreign key columns `a` and `b`.
-/
def FactTable.ofKeys (a b : Chunked (BitVec 64)) (filter : Option (Chunked Bool))
    (hb : b.map List.length = a.map List.length) (hfilter : Aligned a filter)
    : FactTable where
  chunkLengths := a.map List.length
  columns := ((∅ : Map _ _).insert "a" a).insert "b" b
  filter := filter
  columns_aligned := by
    intro name col h
    rw [Map.lookup_insert_eq, Map.lookup_insert_eq] at h
    split at h
    . cases h
      exact hb
    . split at h
      . cases h
        rfl
      . cases h
  filter_aligned := hfilter

/--
A fact table and its dimension tables. The key columns have different names.
-/
structure Star where
  fact : FactTable
  dims : List Dimension
  fkCol_mem : ∀ d ∈ dims, ∃ col, fact.columns.lookup d.fkColName = some col
  pkColNames_nodup : (dims.map Dimension.pkColName).Nodup
  filters_aligned : ∀ d ∈ dims, Aligned d.pkCol d.filter

/--
The foreign keys of the row all occur among the filtered keys of their dimension tables.
-/
def Star.Joins (q : Star) (row : Nat) : Prop :=
  row < q.fact.numRows ∧ ∀ d ∈ q.dims, ∃ key ∈ d.keys, q.fact.key d.fkColName row = some key

/-! Offsets of chunks. -/

theorem getElem?_rowOffsetsFrom {col : Chunked α} {offset i : Nat} (hi : i < col.length)
    : (rowOffsetsFrom offset col)[i]? = some (offset + (col.take i).flatten.length) := by
  induction col generalizing offset i with
  | nil => simp at hi
  | cons c cs ih =>
    cases i with
    | zero => simp [rowOffsetsFrom]
    | succ i =>
      simp only [List.length_cons] at hi
      simp only [rowOffsetsFrom, List.getElem?_cons_succ, List.take_succ_cons, List.flatten_cons,
        List.length_append]
      rw [ih (by omega)]
      congr 1
      omega

theorem length_flatten_take (col : Chunked α) (i : Nat)
    : (col.take i).flatten.length = ((col.map List.length).take i).sum := by
  rw [List.length_flatten, List.map_take]

theorem getElem?_flatten_offset {col : Chunked α} {chunk : List α} {i k : Nat} (hi : col[i]? = some chunk)
    (hk : k < chunk.length)
    : col.flatten[(col.take i).flatten.length + k]? = chunk[k]? := by
  obtain ⟨hlt, rfl⟩ := List.getElem?_eq_some_iff.mp hi
  have hsplit : col = col.take i ++ col[i] :: col.drop (i + 1) := by
    rw [← List.drop_eq_getElem_cons hlt, List.take_append_drop]
  have hflat : col.flatten = (col.take i).flatten ++ (col[i] ++ (col.drop (i + 1)).flatten) := by
    conv => lhs; rw [hsplit]
    rw [List.flatten_append, List.flatten_cons]
  rw [hflat, List.getElem?_append_right (by omega), Nat.add_sub_cancel_left, List.getElem?_append_left hk]

namespace FactTable

variable {fact : FactTable} {col : Chunked (BitVec 64)} {name : String}

theorem length_eq_of_lookup (h : fact.columns.lookup name = some col)
    : col.length = fact.chunkLengths.length := by
  rw [← fact.columns_aligned name col h, List.length_map]

theorem offset_eq_of_lookup (h : fact.columns.lookup name = some col) (i : Nat)
    : (col.take i).flatten.length = (fact.chunkLengths.take i).sum := by
  rw [length_flatten_take, fact.columns_aligned name col h]

theorem getElem?_chunk (h : fact.columns.lookup name = some col) {i : Nat}
    (hi : i < fact.chunkLengths.length)
    : ∃ chunk, col[i]? = some chunk ∧ chunk.length = fact.chunkLengths.getD i 0 := by
  have hi' : i < col.length := by rw [length_eq_of_lookup h]; exact hi
  refine ⟨col[i], List.getElem?_eq_getElem hi', ?_⟩
  simp [← fact.columns_aligned name col h, List.getD_eq_getElem?_getD, List.getElem?_eq_getElem hi']

theorem chunkValue_eq_key (h : fact.columns.lookup name = some col) {i row : Nat} {chunk : List (BitVec 64)}
    (hchunk : col[i]? = some chunk) (hlen : chunk.length = fact.chunkLengths.getD i 0)
    (hrow : row ∈ fact.chunkRows i)
    : chunkValue chunk (fact.chunkLengths.take i).sum row = fact.key name row ∧
        ∃ key, fact.key name row = some key := by
  simp only [chunkRows, List.mem_range'_1] at hrow
  have hk : row - (fact.chunkLengths.take i).sum < chunk.length := by omega
  have hget := getElem?_flatten_offset hchunk hk
  rw [offset_eq_of_lookup h, Nat.add_sub_cancel' hrow.1] at hget
  have hkey : fact.key name row = chunk[row - (fact.chunkLengths.take i).sum]? := by
    simp [key, h, hget]
  rw [chunkValue, if_pos hrow.1, hkey]
  exact ⟨rfl, _, List.getElem?_eq_getElem hk⟩

theorem flatMap_chunkRows (fact : FactTable)
    : (List.range fact.chunkLengths.length).flatMap fact.chunkRows = List.range fact.numRows := by
  suffices h : ∀ n ≤ fact.chunkLengths.length,
      (List.range n).flatMap fact.chunkRows = List.range (fact.chunkLengths.take n).sum by
    rw [h _ (Nat.le_refl _), List.take_length]
    rfl
  intro n hn
  induction n with
  | zero => simp
  | succ n ih =>
    have hget := List.getElem?_eq_getElem (show n < fact.chunkLengths.length by omega)
    rw [List.range_succ, List.flatMap_append, ih (by omega), List.take_succ_eq_append_getElem (by omega),
      List.sum_append, List.sum_singleton, List.range_add]
    simp [chunkRows, hget, List.range'_eq_map_range]

/--
Row lists of all chunks that have the rows of their chunk with the property `p`.
-/
theorem flatten_perm {lipIndices : List (List Nat)} {p : Nat → Bool}
    (hlength : lipIndices.length = fact.chunkLengths.length)
    (h : ∀ i < fact.chunkLengths.length, ∃ rows, lipIndices[i]? = some rows ∧
      rows.Perm ((fact.chunkRows i).filter p))
    : lipIndices.flatten.Perm ((List.range fact.numRows).filter p) := by
  have hmap : lipIndices = (List.range fact.chunkLengths.length).map fun i => lipIndices.getD i [] := by
    apply List.ext_getElem
    . simp [hlength]
    . intro i hi _
      simp [List.getD_eq_getElem?_getD, List.getElem?_eq_getElem hi]
  rw [hmap, ← List.flatMap_def, ← flatMap_chunkRows, List.filter_flatMap]
  apply List.Perm.flatMap_left
  intro i hi
  obtain ⟨rows, hget, hperm⟩ := h i (List.mem_range.mp hi)
  simp only [List.getD_eq_getElem?_getD, hget, Option.getD_some]
  exact hperm

end FactTable

/-! Batches. -/

theorem mem_batchChunks {size numChunks batch i : Nat} (hsize : 0 < size)
    : i ∈ batchChunks size numChunks batch ↔
        batch * size ≤ i ∧ i < (batch + 1) * size ∧ i < numChunks := by
  have hmul : (batch + 1) * size = batch * size + size := by rw [Nat.add_mul, Nat.one_mul]
  simp only [batchChunks]
  split
  . rw [List.mem_range'_1]
    omega
  . rw [List.mem_range'_1]
    omega

theorem batchChunks_nodup (size numChunks batch : Nat) : (batchChunks size numChunks batch).Nodup := by
  simp only [batchChunks]
  split
  . exact List.nodup_range'
  . exact List.nodup_range'

theorem foldlM_batches {σ : Type} {step : σ → Nat → Option σ} {inv : σ → Prop} {P : Nat → σ → Prop}
    {size numChunks : Nat} (hsize : 0 < size)
    (hstep : ∀ s batch, inv s → ∃ s', step s batch = some s' ∧ inv s' ∧
      (∀ i ∈ batchChunks size numChunks batch, P i s') ∧
      ∀ i, i ∉ batchChunks size numChunks batch → P i s → P i s')
    {s : σ} (hinv : inv s)
    : ∃ s', (List.range (numBatches size numChunks)).foldlM step s = some s' ∧ inv s' ∧
        ∀ i < numChunks, P i s' := by
  suffices h : ∀ n, ∃ s', (List.range n).foldlM step s = some s' ∧ inv s' ∧
      ∀ i < numChunks, i < n * size → P i s' by
    obtain ⟨s', hs', hinv', hP⟩ := h (numBatches size numChunks)
    refine ⟨s', hs', hinv', ?_⟩
    intro i hi
    apply hP i hi
    have := Nat.lt_mul_div_succ numChunks hsize
    rw [numBatches, Nat.mul_comm]
    omega
  intro n
  induction n with
  | zero => exact ⟨s, rfl, hinv, by simp⟩
  | succ n ih =>
    obtain ⟨s₁, hs₁, hinv₁, hP₁⟩ := ih
    obtain ⟨s', hs', hinv', hnew, hkeep⟩ := hstep s₁ n hinv₁
    refine ⟨s', ?_, hinv', ?_⟩
    . rw [List.range_succ, List.foldlM_append, hs₁]
      simp [hs']
    . intro i hi hlt
      by_cases hmem : i ∈ batchChunks size numChunks n
      . exact hnew i hmem
      . apply hkeep i hmem
        apply hP₁ i hi
        rw [mem_batchChunks hsize] at hmem
        omega

theorem batchSize_pos {numChunks : Nat} (h : 0 < numChunks) (hardwareConcurrency : Nat)
    : 0 < batchSize hardwareConcurrency numChunks := by
  unfold batchSize
  split
  . exact h
  . omega

end Hustle.Operators
