import Hustle.Storage.OrderedLoad

/-!
This module contains `DBTable::InsertRecords` of whole columns, each of which is cut into chunks. The chunks of the
first column say how many chunks there are and how many rows each of them has.
-/

namespace Hustle.Storage

/--
A column of a result. Its chunks are arrays of their own, which start with the first element of their buffers.
-/
structure ChunkedColumn where
  type : FieldType
  chunks : List (List Cell)
  deriving DecidableEq

namespace ChunkedColumn

def cells (c : ChunkedColumn) : List Cell :=
  c.chunks.flatten

def lengths (c : ChunkedColumn) : List Nat :=
  c.chunks.map List.length

def arrays (c : ChunkedColumn) : List ArrayData :=
  c.chunks.map fun cells => (Column.ofCells c.type cells).array

def HasType (c : ChunkedColumn) : Prop :=
  ∀ cell ∈ c.cells, cell.fieldType = c.type

instance (c : ChunkedColumn) : Decidable c.HasType :=
  inferInstanceAs (Decidable (∀ _ ∈ _, _))

end ChunkedColumn

namespace SizedTable

section

variable (roundUp : Nat → Nat) (pick : List Int → Nat)

/--
One iteration of the loop over the chunks. There is no chunk behind the last one of a column.
-/
def insertChunk (colArrays : List (List ArrayData)) (t : SizedTable) (i : Nat) : Option SizedTable := do
  let blockData ← colArrays.mapM fun col => col[i]?
  t.insertRecords roundUp pick blockData

/--
`DBTable::InsertRecords(arrow::ChunkedArrayVector)`.
-/
def insertColumns (t : SizedTable) (colArrays : List (List ArrayData)) : Option SizedTable := do
  let first ← colArrays.head?
  (List.range first.length).foldlM (insertChunk roundUp pick colArrays) t

end

end SizedTable

/-! Rows of columns. -/

theorem take_drop_eq_map_range' {α : Type} (xs : List α) (d : α) {off n : Nat} (h : off + n ≤ xs.length)
    : (xs.drop off).take n = (List.range' off n).map fun k => xs.getD k d := by
  apply List.ext_getElem
  . simp
    omega
  . intro k hk hk'
    have hlt : off + k < xs.length := by
      simp at hk'
      omega
    simp [List.getElem?_eq_getElem hlt]

namespace ChunkedColumn

theorem array_holds {type : FieldType} {cells : List Cell} (h : ∀ cell ∈ cells, cell.fieldType = type)
    : (Column.ofCells type cells).array.Holds type cells := by
  refine ⟨by cases type <;> simp [Column.ofCells, Column.ofInts, Column.ofStrings], h, ?_⟩
  cases type with
  | int64 =>
    simp only [Column.ofCells, Column.ofInts]
    rw [Buffer.readAt_eq_some_iff]
    simp
  | string =>
    refine ⟨?_, 0, ?_, ?_⟩
    . cases cells <;> rfl
    . rw [Buffer.readAt_eq_some_iff, Column.length_offsetsFrom]
      refine ⟨by simp [Column.ofCells, Column.ofStrings], ?_⟩
      rw [List.take_of_length_le (by simp [Column.ofCells, Column.ofStrings, Column.length_offsetsFrom])]
      rfl
    . rw [Buffer.readAt_eq_some_iff]
      simp

theorem bufferLength_array (type : FieldType) (cells : List Cell)
    : (Column.ofCells type cells).array.bufferLength = cells.length := by
  cases type with
  | int64 => simp [Column.ofCells, Column.ofInts, ArrayData.bufferLength]
  | string => simp [Column.ofCells, Column.ofStrings, ArrayData.bufferLength, Column.length_offsetsFrom]

theorem length_array (type : FieldType) (cells : List Cell)
    : (Column.ofCells type cells).array.length = cells.length := by
  cases type <;> simp [Column.ofCells, Column.ofInts, Column.ofStrings]

theorem offset_array (type : FieldType) (cells : List Cell)
    : (Column.ofCells type cells).array.offset = 0 := by
  cases type <;> rfl

theorem exists_chunk {c : ChunkedColumn} {i : Nat} {a : ArrayData} (h : c.arrays[i]? = some a)
    : ∃ cells, c.chunks[i]? = some cells ∧ (Column.ofCells c.type cells).array = a := by
  rw [arrays, List.getElem?_map, Option.map_eq_some_iff] at h
  exact h

theorem chunk_eq {c : ChunkedColumn} {i : Nat} {cells : List Cell} (h : c.chunks[i]? = some cells)
    : (c.lengths.take i).sum + cells.length ≤ c.cells.length ∧
        cells = (c.cells.drop (c.lengths.take i).sum).take cells.length := by
  obtain ⟨hi, hget⟩ := List.getElem?_eq_some_iff.mp h
  have hsplit : c.cells = (c.chunks.take i).flatten ++ (cells ++ (c.chunks.drop (i + 1)).flatten) := by
    rw [ChunkedColumn.cells, ← List.flatten_cons, ← hget, ← List.drop_eq_getElem_cons hi, ← List.flatten_append,
      List.take_append_drop]
  have hlen : (c.chunks.take i).flatten.length = (c.lengths.take i).sum := by
    rw [List.length_flatten, lengths, List.map_take]
  rw [hsplit, List.drop_left' hlen, List.take_left' rfl, List.length_append, List.length_append, hlen]
  exact ⟨by omega, rfl⟩

theorem sum_lengths (c : ChunkedColumn) : c.lengths.sum = c.cells.length :=
  List.length_flatten.symm

def rowsAt (cols : List ChunkedColumn) (ks : List Nat) : List Row :=
  ks.map fun k => cols.map fun c => c.cells.getD k default

theorem rowsAt_range_append (cols : List ChunkedColumn) (off n : Nat)
    : rowsAt cols (List.range off) ++ rowsAt cols (List.range' off n) = rowsAt cols (List.range (off + n)) := by
  have happend : List.range off ++ List.range' off n = List.range (off + n) := by
    have h := @List.range'_append_1 0 off n
    rw [Nat.zero_add] at h
    rw [List.range_eq_range', List.range_eq_range', h]
  rw [rowsAt, rowsAt, ← List.map_append, happend, rowsAt]

/--
The next chunks of all columns start at the same row and have the same number of rows.
-/
def ChunksAt (cols : List ChunkedColumn) (i off n : Nat) : Prop :=
  ∀ c ∈ cols, (c.lengths.take i).sum = off ∧ c.lengths[i]? = some n

theorem holdRows {cols : List ChunkedColumn} {i off n : Nat} (htype : ∀ c ∈ cols, c.HasType)
    (hat : ChunksAt cols i off n)
    : ∃ columnData, cols.mapM (fun c => c.arrays[i]?) = some columnData ∧
        ArrayData.HoldRows (cols.map type) columnData (rowsAt cols (List.range' off n)) ∧
        ∀ a ∈ columnData, a.offset = 0 := by
  induction cols with
  | nil => exact ⟨[], rfl, trivial, by simp⟩
  | cons c cols ih =>
    obtain ⟨columnData, hdata, hrows, hoffset⟩ := ih (fun c hc => htype c (List.mem_cons_of_mem _ hc))
      fun c hc => hat c (List.mem_cons_of_mem _ hc)
    obtain ⟨hoff, hn⟩ := hat c List.mem_cons_self
    rw [lengths, List.getElem?_map, Option.map_eq_some_iff] at hn
    obtain ⟨cells, hcells, rfl⟩ := hn
    obtain ⟨hle, hwindow⟩ := chunk_eq hcells
    rw [hoff] at hle hwindow
    have hhead : (rowsAt (c :: cols) (List.range' off cells.length)).map (fun row => row.headD default) = cells := by
      rw [hwindow, List.length_take, List.length_drop, Nat.min_eq_left (by omega), take_drop_eq_map_range' _ default hle]
      simp [rowsAt]
    have htail : (rowsAt (c :: cols) (List.range' off cells.length)).map List.tail
        = rowsAt cols (List.range' off cells.length) := by
      simp [rowsAt]
    refine ⟨(Column.ofCells c.type cells).array :: columnData, ?_, ⟨?_, ?_⟩, ?_⟩
    . rw [List.mapM_cons, hdata, arrays, List.getElem?_map, hcells]
      rfl
    . rw [hhead]
      apply array_holds
      intro cell hcell
      exact htype c List.mem_cons_self cell (List.mem_flatten_of_mem (List.mem_of_getElem? hcells) hcell)
    . rw [htail]
      exact hrows
    . intro a ha
      rcases List.mem_cons.mp ha with rfl | ha
      . exact offset_array c.type cells
      . exact hoffset a ha

theorem hasType_rowsAt {cols : List ChunkedColumn} (htype : ∀ c ∈ cols, c.HasType) {ks : List Nat}
    (hks : ∀ c ∈ cols, ∀ k ∈ ks, k < c.cells.length)
    : ∀ row ∈ rowsAt cols ks, Row.HasType (cols.map type) row := by
  intro row hrow
  obtain ⟨k, hk, rfl⟩ := List.mem_map.mp hrow
  rw [Row.HasType, List.map_map]
  apply List.map_congr_left
  intro c hc
  have hlt := hks c hc k hk
  rw [Function.comp_apply, List.getD_eq_getElem?_getD, List.getElem?_eq_getElem hlt]
  exact htype c hc _ (List.getElem_mem hlt)

end ChunkedColumn

/-! Chunks of the same length. -/

theorem sum_le_of_forall {ls ks : List Nat} (h : ∀ i l : Nat, ls[i]? = some l → ∃ k, ks[i]? = some k ∧ l ≤ k)
    : ls.sum ≤ ks.sum := by
  induction ls generalizing ks with
  | nil => exact Nat.zero_le _
  | cons l ls ih =>
    obtain ⟨k, hk, hle⟩ := h 0 l rfl
    cases ks with
    | nil => cases hk
    | cons k' ks =>
      cases hk
      have := ih fun i l hl => h (i + 1) l hl
      rw [List.sum_cons, List.sum_cons]
      omega

/--
Parts that are as long as those of the first list and have no larger sum are the same parts, with empty ones behind
them.
-/
theorem isPrefix_of_forall {ls ks : List Nat} (h : ∀ i l : Nat, ls[i]? = some l → ∃ k, ks[i]? = some k ∧ l ≤ k)
    (hsum : ks.sum ≤ ls.sum)
    : ls <+: ks := by
  induction ls generalizing ks with
  | nil => exact List.nil_prefix
  | cons l ls ih =>
    obtain ⟨k, hk, hle⟩ := h 0 l rfl
    cases ks with
    | nil => cases hk
    | cons k' ks =>
      cases hk
      have hrest : ∀ i l : Nat, ls[i]? = some l → ∃ k, ks[i]? = some k ∧ l ≤ k := fun i l hl => h (i + 1) l hl
      have := sum_le_of_forall hrest
      rw [List.sum_cons, List.sum_cons] at hsum
      have heq : l = k := by omega
      rw [heq, List.prefix_cons_inj]
      exact ih hrest (by omega)

namespace ChunkedColumn

/--
All columns have the chunks of the first one; what they have behind them is empty if they are of the same length.
-/
def Aligned (cols : List ChunkedColumn) : Prop :=
  ∀ first ∈ cols.head?, ∀ c ∈ cols, first.lengths <+: c.lengths

theorem Aligned.chunksAt {first : ChunkedColumn} {cols : List ChunkedColumn} (h : Aligned (first :: cols)) {i n : Nat}
    (hn : first.lengths[i]? = some n)
    : ChunksAt (first :: cols) i (first.lengths.take i).sum n := by
  intro c hc
  obtain ⟨rest, hrest⟩ := h first rfl c hc
  have hi := (List.getElem?_eq_some_iff.mp hn).1
  rw [← hrest, List.take_append_of_le_length (by omega), List.getElem?_append_left hi]
  exact ⟨rfl, hn⟩

end ChunkedColumn

namespace SizedTable

open ChunkedColumn

section

variable {roundUp : Nat → Nat} {pick : List Int → Nat} {schema : Schema} {blockCapacity : Int}

def columnArrays (cols : List ChunkedColumn) : List (List ArrayData) :=
  cols.map ChunkedColumn.arrays

/--
The loads of an iteration fit.
-/
def ChunkFits (roundUp : Nat → Nat) (pick : List Int → Nat) (cols : List ChunkedColumn) (t : SizedTable) (i : Nat)
    : Prop :=
  ∀ blockData ∈ (columnArrays cols).mapM fun col => col[i]?, LoadFits roundUp pick t blockData

/--
Row `k` of the table holds the `k`-th value of every column.
-/
def Zips (roundUp : Nat → Nat) (pick : List Int → Nat) (start : SizedTable) (cols : List ChunkedColumn) (n : Nat)
    : Prop :=
  ∃ t contents, start.insertColumns roundUp pick (columnArrays cols) = some t ∧ t.table.Repr contents ∧
    t.table.numRows = n ∧ t.table.numRows ≤ maxInt ∧
    (List.range n).mapM (fun k => cols.mapM fun c => c.cells[k]?) = some contents.flatten

/--
The columns are cut at the same rows. There is nothing to insert or the constructor of a block has memory for a row, and
the number of rows and the sums of their sizes are `int`s.
-/
structure Zippable (roundUp : Nat → Nat) (pick : List Int → Nat) (start : SizedTable) (cols : List ChunkedColumn)
    (n : Nat) : Prop where
  aligned : Aligned cols
  roomy : (∀ first ∈ cols.head?, first.chunks = []) ∨ Roomy start.table.schema start.table.blockCapacity
  rows : (n : Int) ≤ maxInt
  loads : ∀ first ∈ cols.head?, Run.Meets (insertChunk roundUp pick (columnArrays cols))
    (ChunkFits roundUp pick cols) start (List.range first.chunks.length)

/-! The loop over the chunks. -/

theorem mapM_columnArrays (cols : List ChunkedColumn) (i : Nat)
    : (columnArrays cols).mapM (fun col => col[i]?) = cols.mapM fun c => c.arrays[i]? := by
  rw [columnArrays, List.mapM_map]
  rfl

theorem exists_batch {cols : List ChunkedColumn} (hfields : schema.fields = cols.map ChunkedColumn.type)
    (htype : ∀ c ∈ cols, c.HasType) {i off l : Nat} (hat : ChunksAt cols i off l)
    : ∃ blockData, (columnArrays cols).mapM (fun col => col[i]?) = some blockData ∧
        IsBatch schema blockData (rowsAt cols (List.range' off l)) := by
  obtain ⟨blockData, hdata, hrows, hoffset⟩ := holdRows htype hat
  rw [← hfields] at hrows
  refine ⟨blockData, by rw [mapM_columnArrays]; exact hdata, hrows, ?_, hoffset⟩
  rw [hfields]
  apply hasType_rowsAt htype
  intro c hc k hk
  rw [List.mem_range'_1] at hk
  obtain ⟨hoff, hl⟩ := hat c hc
  rw [ChunkedColumn.lengths, List.getElem?_map, Option.map_eq_some_iff] at hl
  obtain ⟨cells, hcells, rfl⟩ := hl
  have hle := (chunk_eq hcells).1
  omega

def chunkRows (cols : List ChunkedColumn) (first : ChunkedColumn) (i : Nat) : List Row :=
  rowsAt cols (List.range' (first.lengths.take i).sum (first.lengths.getD i 0))

def blocksAfter (width capacity : Int) (cols : List ChunkedColumn) (first : ChunkedColumn) (n : Nat)
    : List (List Row) :=
  (List.range n).foldl (fun contents i => fillBlocks width capacity contents (chunkRows cols first i)) []

theorem blocksAfter_succ (width capacity : Int) (cols : List ChunkedColumn) (first : ChunkedColumn) (n : Nat)
    : blocksAfter width capacity cols first (n + 1)
        =
      fillBlocks width capacity (blocksAfter width capacity cols first n) (chunkRows cols first n) := by
  rw [blocksAfter, List.range_succ, List.foldl_append]
  rfl

theorem flatten_blocksAfter (width capacity : Int) (cols : List ChunkedColumn) (first : ChunkedColumn) (n : Nat)
    : (blocksAfter width capacity cols first n).flatten = rowsAt cols (List.range (first.lengths.take n).sum) := by
  induction n with
  | zero => rfl
  | succ n ih =>
    rw [blocksAfter_succ, flatten_fillBlocks, ih, chunkRows, rowsAt_range_append, List.take_add_one, List.sum_append,
      List.getD_eq_getElem?_getD]
    cases first.lengths[n]? <;> simp

/--
The rows in front of chunk `i` are in the table.
-/
def HoldsChunks (schema : Schema) (blockCapacity : Int) (cols : List ChunkedColumn) (first : ChunkedColumn) (i : Nat)
    (t : SizedTable) : Prop :=
  HoldsBlocks schema blockCapacity t (blocksAfter (computeFixedRecordWidth schema) blockCapacity cols first i)

section

variable {first : ChunkedColumn} {rest : List ChunkedColumn}

theorem HoldsChunks.step (hround : ∀ n, n ≤ roundUp n) (hroomy : Roomy schema blockCapacity)
    (hcapacity : blockCapacity ≤ maxInt) (hfields : schema.fields = (first :: rest).map ChunkedColumn.type)
    (htype : ∀ c ∈ first :: rest, c.HasType) (haligned : Aligned (first :: rest)) {i : Nat}
    (hi : i < first.chunks.length) {t : SizedTable} (h : HoldsChunks schema blockCapacity (first :: rest) first i t)
    (hfits : ChunkFits roundUp pick (first :: rest) t i)
    : ∃ t', insertChunk roundUp pick (columnArrays (first :: rest)) t i = some t' ∧
        HoldsChunks schema blockCapacity (first :: rest) first (i + 1) t' := by
  obtain ⟨l, hl⟩ : ∃ l, first.lengths[i]? = some l :=
    ⟨_, List.getElem?_eq_getElem (by rw [ChunkedColumn.lengths, List.length_map]; exact hi)⟩
  obtain ⟨blockData, hdata, hbatch⟩ := exists_batch hfields htype (haligned.chunksAt hl)
  obtain ⟨t', hload, hholds⟩ := HoldsBlocks.insertRecords hround hroomy hcapacity hbatch h (hfits blockData hdata)
  refine ⟨t', ?_, ?_⟩
  . rw [insertChunk, hdata]
    exact hload
  . rw [HoldsChunks, blocksAfter_succ, chunkRows, List.getD_eq_getElem?_getD, hl]
    exact hholds

theorem HoldsChunks.foldlM (hround : ∀ n, n ≤ roundUp n) (hroomy : Roomy schema blockCapacity)
    (hcapacity : blockCapacity ≤ maxInt) (hfields : schema.fields = (first :: rest).map ChunkedColumn.type)
    (htype : ∀ c ∈ first :: rest, c.HasType) (haligned : Aligned (first :: rest)) {i k : Nat}
    (hi : i + k = first.chunks.length) {t : SizedTable} (h : HoldsChunks schema blockCapacity (first :: rest) first i t)
    (hfits : Run.Meets (insertChunk roundUp pick (columnArrays (first :: rest)))
      (ChunkFits roundUp pick (first :: rest)) t (List.range' i k))
    : ∃ t', (List.range' i k).foldlM (insertChunk roundUp pick (columnArrays (first :: rest))) t = some t' ∧
        HoldsChunks schema blockCapacity (first :: rest) first (i + k) t' := by
  induction k generalizing i t with
  | zero => exact ⟨t, rfl, h⟩
  | succ k ih =>
    rw [List.range'_succ] at hfits ⊢
    obtain ⟨t₁, ht₁, h₁⟩ := h.step hround hroomy hcapacity hfields htype haligned (by omega) hfits.1
    obtain ⟨t', ht', h'⟩ := ih (by omega) h₁ (hfits.2 t₁ ht₁)
    refine ⟨t', ?_, ?_⟩
    . rw [List.foldlM_cons, ht₁]
      exact ht'
    . rw [show i + (k + 1) = i + 1 + k by omega]
      exact h'

theorem HoldsChunks.meets (hround : ∀ n, n ≤ roundUp n) (hroomy : Roomy schema blockCapacity)
    (hcapacity : blockCapacity ≤ maxInt) (hfields : schema.fields = (first :: rest).map ChunkedColumn.type)
    (htype : ∀ c ∈ first :: rest, c.HasType) (haligned : Aligned (first :: rest))
    (hcount : (first.cells.length : Int) ≤ maxInt) {i k : Nat} (hi : i + k = first.chunks.length) {t t' : SizedTable}
    (h : HoldsChunks schema blockCapacity (first :: rest) first i t)
    (hrun : (List.range' i k).foldlM (insertChunk roundUp pick (columnArrays (first :: rest))) t = some t')
    : Run.Meets (insertChunk roundUp pick (columnArrays (first :: rest))) (ChunkFits roundUp pick (first :: rest)) t
        (List.range' i k) := by
  induction k generalizing i t with
  | zero => trivial
  | succ k ih =>
    rw [List.range'_succ, List.foldlM_cons] at hrun
    obtain ⟨t₁, ht₁, hrun⟩ := Option.bind_eq_some_iff.mp hrun
    have hfits : ChunkFits roundUp pick (first :: rest) t i := by
      obtain ⟨l, hl⟩ : ∃ l, first.lengths[i]? = some l :=
        ⟨_, List.getElem?_eq_getElem (by rw [ChunkedColumn.lengths, List.length_map]; omega)⟩
      obtain ⟨blockData, hdata, hbatch⟩ := exists_batch hfields htype (haligned.chunksAt hl)
      intro blockData' hdata'
      rw [hdata, Option.mem_some_iff] at hdata'
      subst hdata'
      rw [insertChunk, hdata] at ht₁
      apply h.1.loadFits hround hroomy hcapacity hbatch _ ht₁
      have hsum := congrArg List.sum (List.take_append_drop (i + 1) first.lengths)
      rw [List.take_add_one, hl, Option.toList_some, List.sum_append, List.sum_append, List.sum_singleton, sum_lengths]
        at hsum
      rw [flatten_blocksAfter]
      simp only [rowsAt, List.length_map, List.length_range, List.length_range']
      omega
    rw [List.range'_succ]
    refine ⟨hfits, ?_⟩
    intro t₂ ht₂
    rw [ht₁, Option.some.injEq] at ht₂
    subst ht₂
    obtain ⟨t₂, ht₂, h₂⟩ := h.step hround hroomy hcapacity hfields htype haligned (by omega) hfits
    rw [ht₁, Option.some.injEq] at ht₂
    subst ht₂
    exact ih (by omega) h₂ hrun

end

/-! What an insert that succeeds says of the columns. -/

theorem le_of_foldlM {first : ChunkedColumn} {rest : List ChunkedColumn} {is : List Nat} {t t' : SizedTable}
    (hmatch : t.ColumnsMatch (first :: rest).length)
    (hrun : is.foldlM (insertChunk roundUp pick (columnArrays (first :: rest))) t = some t')
    : ∀ i ∈ is, ∀ l, first.lengths[i]? = some l → ∀ c ∈ first :: rest, ∃ k, c.lengths[i]? = some k ∧ l ≤ k := by
  induction is generalizing t with
  | nil => simp
  | cons i is ih =>
    rw [List.foldlM_cons] at hrun
    obtain ⟨t₁, ht₁, hrun⟩ := Option.bind_eq_some_iff.mp hrun
    obtain ⟨blockData, hdata, hload⟩ := Option.bind_eq_some_iff.mp ht₁
    rw [mapM_columnArrays] at hdata
    have hlen := Run.length_mapM hdata
    have harray : ∀ c ∈ first :: rest, ∃ a, c.arrays[i]? = some a ∧ a ∈ blockData := by
      intro c hc
      obtain ⟨j, hj, rfl⟩ := List.getElem_of_mem hc
      obtain ⟨a, ha, hmem⟩ := Run.getElem?_mapM hdata (List.getElem?_eq_getElem hj)
      exact ⟨a, ha, List.mem_of_getElem? hmem⟩
    obtain ⟨head, hhead, -⟩ := harray first List.mem_cons_self
    have hfirst : blockData.head? = some head := by
      obtain ⟨a, ha, hget⟩ := Run.getElem?_mapM hdata (show (first :: rest)[0]? = some first from rfl)
      rw [hhead] at ha
      cases ha
      rw [List.head?_eq_getElem?]
      exact hget
    obtain ⟨headCells, hheadCells, rfl⟩ := exists_chunk hhead
    obtain ⟨hmatch', hle⟩ := hmatch.insertRecords hfirst (offset_array _ _) hlen hload
    intro j hj l hl c hc
    rcases List.mem_cons.mp hj with rfl | hj
    . obtain ⟨a, ha, hmem⟩ := harray c hc
      obtain ⟨cells, hcells, rfl⟩ := exists_chunk ha
      have hle := hle _ hmem
      rw [bufferLength_array, length_array] at hle
      rw [ChunkedColumn.lengths, List.getElem?_map, hheadCells, Option.map_some, Option.some.injEq] at hl
      refine ⟨cells.length, by rw [ChunkedColumn.lengths, List.getElem?_map, hcells]; rfl, ?_⟩
      omega
    . exact ih hmatch' hrun j hj l hl c hc

theorem roomy_of_new (hzero : roundUp 0 = 0) (hnonneg : 0 ≤ blockCapacity) {id : Int} {metadataEnabled : Bool}
    {s : SizedBlock} (h : SizedBlock.new roundUp id schema blockCapacity metadataEnabled = some s)
    : Roomy schema blockCapacity := by
  refine ⟨hnonneg, ?_⟩
  intro hmem
  unfold SizedBlock.new at h
  split at h
  . cases h
  . next hinit =>
    obtain ⟨memory, hmemory, -⟩ := Option.bind_eq_some_iff.mp h
    obtain ⟨i, hi, heq⟩ := List.getElem_of_mem hmem
    obtain ⟨m, hm, -⟩ := Run.getElem?_mapM hmemory (List.getElem?_eq_getElem hi)
    rw [heq] at hm
    -- without memory for a row the first offset of the column is written behind the buffer
    by_contra hnot
    have hrows : (SizedBlock.initRows schema blockCapacity).toNat = 0 := by omega
    rw [hrows, ColumnMemory.allocate, Allocation.allocate, Nat.mul_zero, hzero] at hm
    cases hm

theorem roomy_of_insertRecords (hzero : roundUp 0 = 0) (hnonneg : 0 ≤ blockCapacity) {metadataEnabled : Bool}
    {columnData : List ArrayData} {t : SizedTable}
    (h : (new schema blockCapacity metadataEnabled).insertRecords roundUp pick columnData = some t)
    : Roomy schema blockCapacity := by
  obtain ⟨first, -, h⟩ := Option.bind_eq_some_iff.mp h
  obtain ⟨x, hget, -⟩ := Option.bind_eq_some_iff.mp h
  obtain ⟨s, hs, -⟩ := Option.bind_eq_some_iff.mp hget
  exact roomy_of_new hzero hnonneg hs

/-! All columns. -/

theorem mapM_rowsAt {cols : List ChunkedColumn} {n : Nat} (hlen : ∀ c ∈ cols, c.cells.length = n)
    : (List.range n).mapM (fun k => cols.mapM fun c => c.cells[k]?) = some (rowsAt cols (List.range n)) := by
  apply Run.mapM_eq_some
  intro k hk
  apply Run.mapM_eq_some
  intro c hc
  have hlt : k < c.cells.length := by
    rw [hlen c hc]
    exact List.mem_range.mp hk
  rw [List.getD_eq_getElem?_getD, List.getElem?_eq_getElem hlt]
  rfl

theorem Inv.zips {cols : List ChunkedColumn} {n : Nat} (hlen : ∀ c ∈ cols, c.cells.length = n)
    (hcount : (n : Int) ≤ maxInt) {start t : SizedTable} {contents : List (List Row)}
    (hrun : start.insertColumns roundUp pick (columnArrays cols) = some t)
    (hinv : Inv schema blockCapacity t contents) (hflat : contents.flatten = rowsAt cols (List.range n))
    : Zips roundUp pick start cols n := by
  have hnum : t.table.numRows = n := by
    rw [hinv.numRows_eq, hflat, rowsAt, List.length_map, List.length_range]
  refine ⟨t, contents, hrun, hinv.ok.repr, hnum, by omega, ?_⟩
  rw [hflat, mapM_rowsAt hlen]

/--
The blocks that the rows of the columns fill.
-/
def filledBlocks (width capacity : Int) (cols : List ChunkedColumn) : List (List Row) :=
  (cols.head?.map fun first => blocksAfter width capacity cols first first.chunks.length).getD []

section

variable {cols : List ChunkedColumn} {n : Nat}

theorem insertColumns_cons (first : ChunkedColumn) (rest : List ChunkedColumn) (start : SizedTable)
    : start.insertColumns roundUp pick (columnArrays (first :: rest))
        = (List.range' 0 first.chunks.length).foldlM (insertChunk roundUp pick (columnArrays (first :: rest)))
          start := by
  have hchunks : first.arrays.length = first.chunks.length := by rw [ChunkedColumn.arrays, List.length_map]
  rw [← List.range_eq_range', ← hchunks]
  rfl

theorem flatten_filledBlocks (width capacity : Int) (hne : cols ≠ []) (hlen : ∀ c ∈ cols, c.cells.length = n)
    : (filledBlocks width capacity cols).flatten = rowsAt cols (List.range n) := by
  obtain ⟨first, rest, rfl⟩ := List.exists_cons_of_ne_nil hne
  have hsum : (first.lengths.take first.chunks.length).sum = n := by
    rw [List.take_of_length_le (by rw [ChunkedColumn.lengths, List.length_map]), sum_lengths,
      hlen first List.mem_cons_self]
  rw [← hsum]
  exact flatten_blocksAfter width capacity (first :: rest) first first.chunks.length

theorem Zippable.exists_table (hround : ∀ n, n ≤ roundUp n) (hcapacity : blockCapacity ≤ maxInt)
    (hfields : schema.fields = cols.map ChunkedColumn.type) (htype : ∀ c ∈ cols, c.HasType) {metadataEnabled : Bool}
    (h : Zippable roundUp pick (new schema blockCapacity metadataEnabled) cols n)
    : ∃ t, (new schema blockCapacity metadataEnabled).insertColumns roundUp pick (columnArrays cols) = some t ∧
        Inv schema blockCapacity t (filledBlocks (computeFixedRecordWidth schema) blockCapacity cols) := by
  have hstart : ∀ first, HoldsChunks schema blockCapacity cols first 0 (new schema blockCapacity metadataEnabled) :=
    fun _ => new_holdsBlocks schema blockCapacity metadataEnabled
  cases cols with
  | nil => exact absurd hfields schema.fields_ne_nil
  | cons first rest =>
    rw [insertColumns_cons]
    rcases h.roomy with hnil | hroomy
    . refine ⟨new schema blockCapacity metadataEnabled, ?_, ?_⟩
      . rw [hnil first rfl]
        rfl
      . rw [filledBlocks, List.head?_cons, Option.map_some, hnil first rfl]
        exact (hstart first).1
    . have hmeets := h.loads first rfl
      rw [List.range_eq_range'] at hmeets
      obtain ⟨t, hrun, hholds⟩ := (hstart first).foldlM hround hroomy hcapacity hfields htype h.aligned (Nat.zero_add _)
        hmeets
      rw [Nat.zero_add] at hholds
      exact ⟨t, hrun, hholds.1⟩

theorem zippable_of_insertColumns (hround : ∀ n, n ≤ roundUp n) (hzero : roundUp 0 = 0) (hnonneg : 0 ≤ blockCapacity)
    (hcapacity : blockCapacity ≤ maxInt) (hfields : schema.fields = cols.map ChunkedColumn.type)
    (htype : ∀ c ∈ cols, c.HasType) (hlen : ∀ c ∈ cols, c.cells.length = n) (hcount : (n : Int) ≤ maxInt)
    {metadataEnabled : Bool} {t : SizedTable}
    (hrun : (new schema blockCapacity metadataEnabled).insertColumns roundUp pick (columnArrays cols) = some t)
    : Zippable roundUp pick (new schema blockCapacity metadataEnabled) cols n := by
  cases cols with
  | nil => exact absurd hfields schema.fields_ne_nil
  | cons first rest =>
    rw [insertColumns_cons] at hrun
    have hmatch : (new schema blockCapacity metadataEnabled).ColumnsMatch (first :: rest).length :=
      ⟨(congrArg List.length hfields).trans (List.length_map _), by intro b hb; cases hb⟩
    have hfirst := hlen first List.mem_cons_self
    have haligned : Aligned (first :: rest) := by
      intro head hhead c hc
      cases hhead
      apply isPrefix_of_forall
      . intro i l hl
        have hi := (List.getElem?_eq_some_iff.mp hl).1
        rw [ChunkedColumn.lengths, List.length_map] at hi
        exact le_of_foldlM hmatch hrun i (by simpa using hi) l hl c hc
      . rw [sum_lengths, sum_lengths, hlen c hc, hfirst]
    have hroomy : first.chunks = [] ∨ Roomy schema blockCapacity := by
      rcases Nat.eq_zero_or_pos first.chunks.length with hnone | hpos
      . exact .inl (List.length_eq_zero_iff.mp hnone)
      . obtain ⟨m, hm⟩ := Nat.exists_eq_add_of_lt hpos
        rw [hm, List.range'_succ, List.foldlM_cons] at hrun
        obtain ⟨t₁, ht₁, -⟩ := Option.bind_eq_some_iff.mp hrun
        obtain ⟨blockData, -, hload⟩ := Option.bind_eq_some_iff.mp ht₁
        exact .inr (roomy_of_insertRecords hzero hnonneg hload)
    refine ⟨haligned, ?_, hcount, ?_⟩
    . exact hroomy.imp_left fun hnil head hhead => by cases hhead; exact hnil
    . intro head hhead
      cases hhead
      rcases hroomy with hnil | hroomy
      . rw [hnil]
        trivial
      . rw [List.range_eq_range']
        have hstart : HoldsChunks schema blockCapacity (first :: rest) first 0
            (new schema blockCapacity metadataEnabled) := new_holdsBlocks schema blockCapacity metadataEnabled
        exact hstart.meets hround hroomy hcapacity hfields htype haligned (by omega) (Nat.zero_add _) hrun

theorem zips_iff (hround : ∀ n, n ≤ roundUp n) (hzero : roundUp 0 = 0) (hnonneg : 0 ≤ blockCapacity)
    (hcapacity : blockCapacity ≤ maxInt) (hfields : schema.fields = cols.map ChunkedColumn.type)
    (htype : ∀ c ∈ cols, c.HasType) (hlen : ∀ c ∈ cols, c.cells.length = n) (metadataEnabled : Bool)
    : Zips roundUp pick (new schema blockCapacity metadataEnabled) cols n ↔
        Zippable roundUp pick (new schema blockCapacity metadataEnabled) cols n := by
  constructor
  . rintro ⟨t, contents, hrun, -, hnum, hcount, -⟩
    exact zippable_of_insertColumns hround hzero hnonneg hcapacity hfields htype hlen (by omega) hrun
  . intro h
    have hne : cols ≠ [] := by
      rintro rfl
      exact schema.fields_ne_nil hfields
    obtain ⟨t, hrun, hinv⟩ := h.exists_table hround hcapacity hfields htype
    exact hinv.zips hlen h.rows hrun (flatten_filledBlocks _ _ hne hlen)

end

end

end SizedTable

end Hustle.Storage
