import Hustle.Operators.MaterializeResult
import Hustle.Storage.TableCalls
import Hustle.Util.Reorder

/-!
This module contains how a result leaves the program: it is materialized into a table, and `out_table` passes the rows of
the table to a callback, block by block in the order in which a hash map lists them.
-/

namespace Hustle.Operators

open Storage (Block Cell ChunkedColumn DBTable Row Schema SizedTable blockSize computeFixedRecordWidth)

/--
The row that the callback gets, one text for every column.
-/
abbrev TextRow := List (List UInt8)

/--
`std::to_string`.
-/
def decimal (value : Int) : List UInt8 :=
  (if value < 0 then [45] else []) ++ (Nat.toDigits 10 value.natAbs).map fun digit => digit.toNat.toUInt8

def toText : Cell → List UInt8
  | .int64 value => decimal value.toInt
  | .string bytes => bytes

section

-- The bytes that are found behind the pointer into a string that has been destroyed, for the text of a block, a row and a
-- column. `col_txt` points into a temporary string, which does not exist any more when its bytes are copied.
variable (stale : Int → Nat → Nat → List UInt8 → List UInt8)

def outRow (key : Int) (r : Nat) (row : Row) : TextRow :=
  row.zipIdx.map fun x => stale key r x.2 (toText x.1)

def outBlock (key : Int) (b : Block) : Option (List TextRow) :=
  (List.range b.numRows).mapM fun r => (b.row r).map (outRow stale key r)

/--
`DBTable::out_table`, where `order` is the order in which the map lists its keys.
-/
def outTable (order : List Int) (t : DBTable) : Option (List TextRow) := do
  let blocks ← order.mapM fun key => do
    let block ← t.getBlock key
    outBlock stale key block
  return blocks.flatten

/--
What the callback gets of a block with these rows.
-/
def outRows (key : Int) (rows : List Row) : List TextRow :=
  rows.zipIdx.map fun x => outRow stale key x.2 x.1

end

def textRows (rows : List Row) : List TextRow :=
  rows.map fun row => row.map toText

/-! Blocks. -/

variable {stale : Int → Nat → Nat → List UInt8 → List UInt8}

theorem map_zipIdx_eq_map_iff {α β : Type} {l : List α} {g : Nat → α → β} {h : α → β}
    : (l.zipIdx.map fun x => g x.2 x.1) = l.map h ↔ ∀ i x, l[i]? = some x → g i x = h x := by
  rw [List.ext_getElem?_iff]
  apply forall_congr'
  intro i
  rw [List.getElem?_map, List.getElem?_map, List.getElem?_zipIdx]
  cases l[i]? with
  | none => simp
  | some x => simp

theorem outRows_eq_iff {key : Int} {rows : List Row}
    : outRows stale key rows = textRows rows ↔
        ∀ r row, rows[r]? = some row → ∀ i cell, row[i]? = some cell → stale key r i (toText cell) = toText cell := by
  rw [outRows, textRows, @map_zipIdx_eq_map_iff _ _ rows (outRow stale key) (List.map toText)]
  apply forall_congr'
  intro r
  apply forall_congr'
  intro row
  rw [outRow, @map_zipIdx_eq_map_iff _ _ row (fun i cell => stale key r i (toText cell)) toText]

theorem outBlock_eq {b : Block} {id : Int} {schema : Schema} {capacity : Int} {rows : List Row}
    (h : b.Repr id schema capacity rows) (key : Int)
    : outBlock stale key b = some (outRows stale key rows) := by
  have hrow : ∀ r ∈ List.range rows.length, (b.row r).map (outRow stale key r)
      = some (outRow stale key r (rows.getD r [])) := by
    intro r hr
    rw [h.row_eq, List.getD_eq_getElem?_getD, List.getElem?_eq_getElem (List.mem_range.mp hr)]
    rfl
  rw [outBlock, h.numRows_eq, Run.mapM_eq_some hrow, outRows, Option.some.injEq]
  apply List.ext_getElem?
  intro r
  rw [List.getElem?_map, List.getElem?_map, List.getElem?_zipIdx]
  by_cases hr : r < rows.length
  . rw [List.getElem?_range hr]
    simp [List.getElem?_eq_getElem hr]
  . rw [List.getElem?_eq_none (by simpa using hr), List.getElem?_eq_none (Nat.le_of_not_lt hr)]
    rfl

/-! Tables. -/

section

variable {t : DBTable} {contents : List (List Row)}

def outContents (stale : Int → Nat → Nat → List UInt8 → List UInt8) (contents : List (List Row)) (key : Int)
    : List TextRow :=
  outRows stale key (contents.getD key.toNat [])

def blockKeys (contents : List (List Row)) : List Int :=
  (List.range contents.length).map fun (i : Nat) => (i : Int)

theorem keys_perm (h : t.Repr contents) : t.blocks.keys.Perm (blockKeys contents) := by
  rw [List.perm_ext_iff_of_nodup t.blocks.keys_nodup]
  . intro key
    have hkeys := h.indexed.keys key
    rw [h.counter_eq, AList.lookup_isSome] at hkeys
    rw [← AList.mem_keys, hkeys, blockKeys, List.mem_map]
    constructor
    . rintro ⟨hnonneg, hlt⟩
      exact ⟨key.toNat, List.mem_range.mpr (by omega), by omega⟩
    . rintro ⟨i, hi, rfl⟩
      have := List.mem_range.mp hi
      omega
  . apply List.Nodup.map Int.ofNat_injective
    exact List.nodup_range

theorem outTable_eq (h : t.Repr contents) {order : List Int} (horder : order.Perm (blockKeys contents))
    : outTable stale order t = some (order.flatMap (outContents stale contents)) := by
  have hblock : ∀ key ∈ order, (do
      let block ← t.getBlock key
      outBlock stale key block) = some (outContents stale contents key) := by
    intro key hkey
    rw [horder.mem_iff, blockKeys, List.mem_map] at hkey
    obtain ⟨i, hi, rfl⟩ := hkey
    have hrows := List.getElem?_eq_getElem (List.mem_range.mp hi)
    obtain ⟨ptr, b, hptr, hb, hrepr⟩ := h.block i _ hrows
    rw [DBTable.getBlock, hptr, outContents, Int.toNat_natCast, List.getD_eq_getElem?_getD, hrows]
    simp only [Option.bind_eq_bind, Option.bind_some, DBTable.block, hb]
    exact outBlock_eq hrepr i
  rw [outTable, Run.mapM_eq_some hblock]
  simp [List.flatMap]

theorem map_blockKeys (contents : List (List Row))
    : (blockKeys contents).map (outContents stale contents) = contents.zipIdx.map fun x => outRows stale x.2 x.1 := by
  apply List.ext_getElem?
  intro i
  rw [blockKeys, List.map_map, List.getElem?_map, List.getElem?_map, List.getElem?_zipIdx]
  by_cases hi : i < contents.length
  . rw [List.getElem?_range hi]
    simp [outContents, List.getElem?_eq_getElem hi]
  . rw [List.getElem?_eq_none (by simpa using hi), List.getElem?_eq_none (Nat.le_of_not_lt hi)]
    rfl

theorem textRows_flatten (contents : List (List Row)) : textRows contents.flatten = (contents.map textRows).flatten :=
  List.map_flatten

/--
The texts of all blocks are read right, and any two blocks can be exchanged.
-/
structure Exchangeable (stale : Int → Nat → Nat → List UInt8 → List UInt8) (contents : List (List Row)) : Prop where
  texts : ∀ (i : Nat) rows, contents[i]? = some rows → ∀ r row, rows[r]? = some row → ∀ k cell, row[k]? = some cell →
    stale i r k (toText cell) = toText cell
  commute : contents.Pairwise (Reorder.Commute textRows)

theorem pairwise_commute_iff (h : (blockKeys contents).map (outContents stale contents) = contents.map textRows)
    : (blockKeys contents).Pairwise (Reorder.Commute (outContents stale contents)) ↔
        contents.Pairwise (Reorder.Commute textRows) := by
  have hkeys := @List.pairwise_map _ _ (outContents stale contents) (fun a b => a ++ b = b ++ a) (blockKeys contents)
  have hcontents := @List.pairwise_map _ _ textRows (fun a b => a ++ b = b ++ a) contents
  rw [h] at hkeys
  exact hkeys.symm.trans hcontents

theorem map_eq_iff
    : (blockKeys contents).map (outContents stale contents) = contents.map textRows ↔
        ∀ (i : Nat) rows, contents[i]? = some rows → ∀ r row, rows[r]? = some row → ∀ k cell, row[k]? = some cell →
          stale i r k (toText cell) = toText cell := by
  rw [map_blockKeys, @map_zipIdx_eq_map_iff _ _ contents (fun i rows => outRows stale i rows) textRows]
  apply forall_congr'
  intro i
  apply forall_congr'
  intro rows
  rw [outRows_eq_iff]

theorem map_eq_of_flatMap_eq (h : (blockKeys contents).flatMap (outContents stale contents) = textRows contents.flatten)
    : (blockKeys contents).map (outContents stale contents) = contents.map textRows := by
  rw [List.eq_iff_flatten_eq]
  constructor
  . rw [← textRows_flatten, ← h]
    rfl
  . rw [map_blockKeys, List.map_map, List.map_map]
    apply List.ext_getElem?
    intro i
    rw [List.getElem?_map, List.getElem?_map, List.getElem?_zipIdx]
    cases contents[i]? with
    | none => rfl
    | some rows => simp [outRows, textRows]

theorem outTable_iff (h : t.Repr contents)
    : (∀ order : List Int, order.Perm t.blocks.keys → outTable stale order t = some (textRows contents.flatten)) ↔
        Exchangeable stale contents := by
  have hkeys := keys_perm h
  constructor
  . intro hout
    have hflat : ∀ order : List Int, order.Perm (blockKeys contents) →
        order.flatMap (outContents stale contents) = textRows contents.flatten := by
      intro order horder
      have := hout order (horder.trans hkeys.symm)
      rw [outTable_eq h horder] at this
      exact Option.some.inj this
    have hmap := map_eq_of_flatMap_eq (hflat _ (List.Perm.refl _))
    refine ⟨map_eq_iff.mp hmap, (pairwise_commute_iff hmap).mp (Reorder.forall_perm_iff.mp ?_)⟩
    intro order horder
    rw [hflat order horder, hflat _ (List.Perm.refl _)]
  . intro hex order horder
    have horder := horder.trans hkeys
    have hmap := map_eq_iff.mpr hex.texts
    rw [outTable_eq h horder, Reorder.flatMap_of_pairwise horder ((pairwise_commute_iff hmap).mpr hex.commute),
      List.flatMap, hmap, textRows_flatten]

end

namespace OperatorResult

/--
The table has `n` rows, and in whatever order the map lists its blocks, the callback gets the `k`-th values of the columns
as row `k`.
-/
def PassesRows (stale : Int → Nat → Nat → List UInt8 → List UInt8) (roundUp : Nat → Nat) (pick : List Int → Nat)
    (kernels : Kernels) (result : List ResultTable) (materializedCols : MaterializedCols) (refs : List ColumnRef)
    (metadataEnabled : Bool) (cols : List ChunkedColumn) (n : Nat) : Prop :=
  ∃ t rows, materialize kernels roundUp pick result materializedCols refs metadataEnabled = some t ∧
    t.table.numRows = n ∧ t.table.numRows ≤ Storage.maxInt ∧
    (List.range n).mapM (fun k => cols.mapM fun c => c.cells[k]?) = some rows ∧
    ∀ order : List Int, order.Perm t.table.blocks.keys → outTable stale order t.table = some (textRows rows)

/--
The columns can be put side by side, and the blocks that their rows fill can be exchanged.
-/
def PassableColumns (stale : Int → Nat → Nat → List UInt8 → List UInt8) (roundUp : Nat → Nat) (pick : List Int → Nat)
    (metadataEnabled : Bool) (cols : List ChunkedColumn) (n : Nat) : Prop :=
  ∃ outSchema ∈ schemaOf (cols.map ChunkedColumn.type),
    SizedTable.Zippable roundUp pick (SizedTable.new outSchema blockSize metadataEnabled) cols n ∧
      Exchangeable stale (SizedTable.filledBlocks (computeFixedRecordWidth outSchema) blockSize cols)

variable {roundUp : Nat → Nat} {pick : List Int → Nat} {kernels : Kernels} {result : List ResultTable}
  {materializedCols materializedCols' : MaterializedCols} {refs : List ColumnRef} {cols : List ChunkedColumn} {n : Nat}

theorem cols_ne_nil {outSchema : Schema} (hschema : schemaOf (cols.map ChunkedColumn.type) = some outSchema)
    : cols ≠ [] := by
  rintro rfl
  cases hschema

theorem passableColumns_of_passesRows (hround : ∀ n, n ≤ roundUp n) (hzero : roundUp 0 = 0)
    (hcols : materializeColumns kernels result materializedCols refs = some (cols, materializedCols'))
    (htype : ∀ c ∈ cols, c.HasType) (hlen : ∀ c ∈ cols, c.cells.length = n) {metadataEnabled : Bool}
    (h : PassesRows stale roundUp pick kernels result materializedCols refs metadataEnabled cols n)
    : PassableColumns stale roundUp pick metadataEnabled cols n := by
  obtain ⟨t, rows, hrun, hnum, hcount, hrows, hout⟩ := h
  rw [materialize_eq hcols] at hrun
  obtain ⟨outSchema, hschema, hrun⟩ := Option.bind_eq_some_iff.mp hrun
  have hfields := schemaOf_eq_some hschema
  have hzip := SizedTable.zippable_of_insertColumns hround hzero (by decide) (by decide) hfields htype hlen (by omega) hrun
  obtain ⟨t', hrun', hinv⟩ := hzip.exists_table hround (by decide) hfields htype
  rw [hrun] at hrun'
  cases hrun'
  refine ⟨outSchema, hschema, hzip, (outTable_iff hinv.ok.repr).mp ?_⟩
  intro order horder
  rw [SizedTable.mapM_rowsAt hlen] at hrows
  rw [hout order horder, SizedTable.flatten_filledBlocks _ _ (cols_ne_nil hschema) hlen, Option.some.inj hrows]

/--
The callback gets the rows of a result in their order exactly if the columns become a table whose blocks can be exchanged
and whose texts are read right.
-/
theorem passesRows_iff (hround : ∀ n, n ≤ roundUp n) (hzero : roundUp 0 = 0)
    (hcols : materializeColumns kernels result materializedCols refs = some (cols, materializedCols'))
    (htype : ∀ c ∈ cols, c.HasType) (hlen : ∀ c ∈ cols, c.cells.length = n) (metadataEnabled : Bool)
    : PassesRows stale roundUp pick kernels result materializedCols refs metadataEnabled cols n ↔
        PassableColumns stale roundUp pick metadataEnabled cols n := by
  constructor
  . exact passableColumns_of_passesRows hround hzero hcols htype hlen
  . rintro ⟨outSchema, hschema, hzip, hex⟩
    obtain ⟨t, hrun, hinv⟩ := hzip.exists_table hround (by decide) (schemaOf_eq_some hschema) htype
    have hflat := @SizedTable.flatten_filledBlocks _ n (computeFixedRecordWidth outSchema) blockSize
      (cols_ne_nil hschema) hlen
    have hnum : t.table.numRows = n := by
      rw [hinv.numRows_eq, hflat, ChunkedColumn.rowsAt, List.length_map, List.length_range]
    have hrows := hzip.rows
    refine ⟨t, _, ?_, hnum, by omega, SizedTable.mapM_rowsAt hlen, ?_⟩
    . rw [materialize_eq hcols, hschema]
      exact hrun
    . intro order horder
      rw [(outTable_iff hinv.ok.repr).mpr hex order horder, hflat]

theorem passesRows_filteredResult
    : PassesRows (fun _ _ _ text => text) Storage.roundUpToMultipleOf64 (fun _ => 0) oneChunkKernels filteredResult
        (fun _ => none) [⟨some 0, "n"⟩, ⟨none, "k"⟩] false filteredCols 2 := by
  obtain ⟨materializedCols', hcols⟩ := exists_filteredCols
  have hblocks : SizedTable.filledBlocks 16 blockSize filteredCols
      = [[[.int64 10, .int64 3], [.int64 30, .int64 5]]] := by decide +kernel
  refine (passesRows_iff Storage.SizedTable.le_roundUpToMultipleOf64 rfl hcols (by decide) (by decide) false).mpr
    ⟨⟨[.int64, .int64], by decide⟩, rfl, ⟨?_, .inr ⟨by decide, by decide⟩, by decide, ?_⟩, fun _ _ _ _ _ _ _ _ _ => rfl, ?_⟩
  . intro first hfirst
    cases hfirst
    decide
  . intro first hfirst
    cases hfirst
    decide +kernel
  . exact hblocks ▸ List.pairwise_singleton _ _

def longString (letter : UInt8) : List UInt8 :=
  List.replicate 600000 letter

theorem length_longString (letter : UInt8) : (longString letter).length = 600000 :=
  List.length_replicate

theorem longStrings_hold
    : StringArray.Holds ⟨2, [0, 600000, 1200000], longString 97 ++ longString 98⟩ [longString 97, longString 98] where
  length_eq := rfl
  values_eq := by
    have htake : ∀ letter, (longString letter).take 600000 = longString letter :=
      fun letter => List.take_of_length_le (length_longString letter).le
    have hdrop : (longString 97).drop 600000 = [] := List.drop_of_length_le (length_longString 97).le
    have hmax : 1200000 ≤ maxInt := by decide
    simp [StringArray.values, StringArray.value, List.range_succ, length_longString, List.take_append,
      List.drop_append, htake, hdrop, hmax, Nat.le_trans (show 600000 ≤ 1200000 by decide) hmax]
  offsets := by decide

def longTable : StoredTable where
  chunkLengths := [2]
  columns := [.string [⟨2, [0, 600000, 1200000], longString 97 ++ longString 98⟩]]
  values := [[[.string (longString 97), .string (longString 98)]]]
  holds := .cons (.cons ⟨_, longStrings_hold, rfl⟩ .nil) .nil
  aligned := by
    intro col hcol
    rw [List.mem_singleton.mp hcol]
    rfl
  rows := by decide

def longResult : List ResultTable :=
  [⟨[("s", .string)], longTable, ⟨0, none, none, none, none⟩⟩]

def longCols : List ChunkedColumn :=
  [⟨.string, [[.string (longString 97), .string (longString 98)]]⟩]

theorem filledBlocks_longCols
    : SizedTable.filledBlocks 0 blockSize longCols = [[[.string (longString 97)]], [[.string (longString 98)]]] := by
  have hrows : SizedTable.filledBlocks 0 blockSize longCols
      = SizedTable.fillBlocks 0 blockSize [] [[.string (longString 97)], [.string (longString 98)]] := rfl
  have hroom : ¬SizedTable.LastHasRoom 0 blockSize [] := by decide
  rw [hrows, SizedTable.fillBlocks, if_neg hroom]
  simp [Fill.pieces, Storage.rowSize, length_longString, blockSize]

theorem longCols_valid : ∀ c ∈ longCols, c.HasType ∧ c.cells.length = 2 := by
  intro c hc
  rw [List.mem_singleton.mp hc]
  refine ⟨?_, rfl⟩
  intro cell hcell
  rcases List.mem_pair.mp hcell with rfl | rfl <;> rfl

theorem zippable_longCols : Zippable Storage.roundUpToMultipleOf64 (fun _ => 0) false longCols 2 := by
  refine ⟨⟨[.string], by decide⟩, rfl, ?_, .inr ⟨by decide, by decide⟩, by decide, ?_⟩
  . intro first hfirst c hc
    cases hfirst
    rw [List.mem_singleton.mp hc]
  . intro first hfirst
    cases hfirst
    refine ⟨?_, fun _ _ => trivial⟩
    intro blockData hdata input hinput
    have hat : ChunkedColumn.ChunksAt longCols 0 0 2 := by
      intro c hc
      rw [List.mem_singleton.mp hc]
      exact ⟨rfl, rfl⟩
    obtain ⟨blockData', hdata', hbatch⟩ := @SizedTable.exists_batch ⟨[.string], by decide⟩ longCols rfl
      (fun c hc => (longCols_valid c hc).1) 0 0 2 hat
    rw [hdata', Option.mem_some_iff] at hdata
    subst hdata
    rw [(Storage.ArrayData.sliceRows_eq hbatch.holdRows hbatch.hasType).2, Option.mem_some_iff] at hinput
    subst hinput
    have hrows : ChunkedColumn.rowsAt longCols (List.range' 0 2)
        = [[.string (longString 97)], [.string (longString 98)]] := rfl
    rw [hrows]
    refine ⟨by decide, ?_⟩
    intro x hx s hs
    have hmax : (1200000 : Int) ≤ Storage.maxInt := by decide
    simp only [Fill.Bounded, Storage.rowSize, List.map_cons, List.map_nil, List.sum_cons, List.sum_nil,
      length_longString, List.nil_append]
    split <;> simp <;> omega

theorem not_passesRows
    : (∃ materializedCols', materializeColumns oneChunkKernels longResult (fun _ => none) [⟨some 0, "s"⟩]
          = some (longCols, materializedCols')) ∧
        (∀ c ∈ longCols, c.HasType ∧ c.cells.length = 2) ∧
        Zippable Storage.roundUpToMultipleOf64 (fun _ => 0) false longCols 2 ∧
        ¬PassesRows (fun _ _ _ text => text) Storage.roundUpToMultipleOf64 (fun _ => 0) oneChunkKernels longResult
          (fun _ => none) [⟨some 0, "s"⟩] false longCols 2 := by
  have hcols : ∃ materializedCols', materializeColumns oneChunkKernels longResult (fun _ => none) [⟨some 0, "s"⟩]
      = some (longCols, materializedCols') := ⟨_, rfl⟩
  refine ⟨hcols, longCols_valid, zippable_longCols, ?_⟩
  intro h
  obtain ⟨materializedCols', hcols⟩ := hcols
  obtain ⟨outSchema, hschema, -, hex⟩ := passableColumns_of_passesRows Storage.SizedTable.le_roundUpToMultipleOf64 rfl
    hcols (fun c hc => (longCols_valid c hc).1) (fun c hc => (longCols_valid c hc).2) h
  have hwidth : computeFixedRecordWidth outSchema = 0 := by
    rw [computeFixedRecordWidth, schemaOf_eq_some hschema]
    rfl
  have hcommute := hex.commute
  rw [hwidth, filledBlocks_longCols] at hcommute
  have hswap : Reorder.Commute textRows [[.string (longString 97)]] [[.string (longString 98)]] :=
    (List.pairwise_cons.mp hcommute).1 _ List.mem_cons_self
  obtain ⟨hsame, -⟩ : longString 97 = longString 98 ∧ longString 98 = longString 97 := by
    simpa [Reorder.Commute, textRows, toText] using hswap
  exact absurd (List.replicate_inj.mp hsame).2 (by decide)

end OperatorResult

end Hustle.Operators
