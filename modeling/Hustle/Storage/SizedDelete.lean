import Hustle.Storage.FilledTable
import Hustle.Storage.TableCalls

/-!
This module contains the inserts and deletes of rows by their row id together with the memory of the blocks. A delete
rebuilds a block row by row, which makes room in its buffers without making them larger for the next record.
-/

namespace Hustle.Storage

namespace SizedBlock

/--
The calls of `InsertRecords` in `Block::InsertRecords(block_map, row_map, ...)`, one for every valid row.
-/
def insertRecordsFrom (roundUp : Nat → Nat) (s : SizedBlock) (validColumn : List Bool) (columnData : List ArrayData)
    : Option SizedBlock := do
  let first ← columnData.head?
  (Block.validRows validColumn first.length).foldlM (fun s row => do
    let (_, s) ← s.insertRecords roundUp (sliceAll columnData row 1)
    return s) s

end SizedBlock

namespace SizedTable

section

variable (roundUp : Nat → Nat) (pick : List Int → Nat)

/--
`DBTable::InsertRecordTable`. The integers of the record are reversed in place.
-/
def insertRecordTable (t : SizedTable) (rowId : UInt32) (record : List UInt8) (byteWidths : List Int)
    : Option (SizedTable × List UInt8) := do
  let (_, _, reversed) ← t.table.insertRecord pick record byteWidths
  let (info, t) ← t.insertRecord roundUp pick record byteWidths
  return ({ t with table := { t.table with blockMap := t.table.blockMap.insert (rowKey rowId) info } }, reversed)

/--
`DBTable::DeleteRecordTable`. The table is the one of `DBTable.deleteRecordTable`, and the new block has the memory that
its rows have been inserted into.
-/
def deleteRecordTable (t : SizedTable) (rowId : UInt32) : Option SizedTable :=
  match t.table.blockMap.lookup (rowKey rowId) with
  | none => some t
  | some info => do
    let ptr ← t.table.blocks.lookup info.blockId
    let s ← t.block ptr
    if info.rowNum < 0 then
      none
    else
      let _ ← s.valid.write (info.rowNum.toNat / 8 + 1)
      let block := s.block.setValid info.rowNum.toNat false
      let updatedBlock ← SizedBlock.new roundUp info.blockId t.table.schema block.capacity false
      let updatedBlock ← updatedBlock.insertRecordsFrom roundUp block.valid block.getColumns
      let table ← t.table.deleteRecordTable rowId
      return ⟨table, t.memory ++ [(updatedBlock.valid, updatedBlock.memory)]⟩

end

end SizedTable

/-! Rebuilding a block. -/

namespace ArrayData

theorem readAt_self {α : Type} (xs : List α) : Buffer.readAt xs 0 xs.length = some xs := by
  rw [Buffer.readAt_eq_some_iff]
  simp

theorem holds_ofCells {type : FieldType} {cells : List Cell} (htype : ∀ c ∈ cells, c.fieldType = type)
    : (Column.ofCells type cells).array.Holds type cells := by
  cases type with
  | int64 =>
    refine ⟨by simp [Column.ofCells, Column.ofInts], htype, ?_⟩
    exact readAt_self _
  | string =>
    have hlen := Column.length_offsetsFrom 0 (cells.map Cell.toBytes)
    refine ⟨by simp [Column.ofCells, Column.ofStrings], htype, ?_, 0, ?_, ?_⟩
    . exact Column.head_offsetsFrom 0 _
    . simp only [Column.ofCells, Column.ofStrings, Nat.cast_zero, ← hlen]
      exact readAt_self _
    . exact readAt_self _

theorem holdRows_ofRows {fields : List FieldType} {rows : List Row} (htype : ∀ row ∈ rows, Row.HasType fields row)
    : HoldRows fields ((Column.ofRows fields rows).map Column.array) rows := by
  induction fields generalizing rows with
  | nil => trivial
  | cons type fields ih =>
    refine ⟨holds_ofCells ?_, ih ?_⟩
    . intro c hc
      obtain ⟨row, hrow, rfl⟩ := List.mem_map.mp hc
      obtain ⟨c, row', rfl, hc, -⟩ := (htype row hrow).cons
      exact hc
    . intro tail htail
      obtain ⟨row, hrow, rfl⟩ := List.mem_map.mp htail
      obtain ⟨c, row', rfl, -, hrow'⟩ := (htype row hrow).cons
      exact hrow'

theorem oneRow {schema : Schema} {columnData : List ArrayData} {src : List Row}
    (hdata : HoldRows schema.fields columnData src) (htype : ∀ row ∈ src, Row.HasType schema.fields row)
    (hoffset : ∀ a ∈ columnData, a.offset = 0) {k : Nat} (hk : k < src.length)
    : ∃ first, (sliceAll columnData k 1).head? = some first ∧ first.length = 1 ∧ first.offset = k ∧
        HoldRows schema.fields (sliceAll columnData k 1) [src[k]] ∧
        ∀ a ∈ sliceAll columnData k 1, a.offset = k := by
  have hslice : HoldRows schema.fields (sliceAll columnData k 1) [src[k]] := by
    have := hdata.slice (Nat.le_of_lt hk) 1
    rw [List.take_one_drop_eq_of_lt_length hk] at this
    exact this
  have hoffsets : ∀ a ∈ sliceAll columnData k 1, a.offset = k := by
    unfold sliceAll
    simp only [List.forall_mem_map, ArrayData.slice]
    intro a ha
    rw [hoffset a ha, Nat.zero_add]
  obtain ⟨⟨first, hfirst, hlength⟩, -⟩ :=
    sliceRows_eq hslice (by simpa using htype _ (List.getElem_mem hk))
  exact ⟨first, hfirst, by simpa using hlength, hoffsets first (List.mem_of_mem_head? hfirst), hslice, hoffsets⟩

end ArrayData

theorem Column.offset_ofRows {fields : List FieldType} {rows : List Row} {c : Column} (hc : c ∈ Column.ofRows fields rows)
    : c.array.offset = 0 := by
  induction fields generalizing rows with
  | nil => cases hc
  | cons type fields ih =>
    rcases List.mem_cons.mp hc with rfl | hc
    . cases type <;> rfl
    . exact ih hc

namespace SizedBlock.Ok

variable {roundUp : Nat → Nat} {s : SizedBlock} {id : Int} {schema : Schema} {capacity : Int} {rows src : List Row}

theorem sum_rowSize_nonneg (rows : List Row) : 0 ≤ (rows.map rowSize).sum := by
  apply List.sum_nonneg
  intro size hsize
  obtain ⟨row, -, rfl⟩ := List.mem_map.mp hsize
  exact Block.rowSize_nonneg row

theorem insertRow (hround : ∀ n, n ≤ roundUp n) (h : s.Ok id schema capacity rows) {columnData : List ArrayData}
    (hdata : ArrayData.HoldRows schema.fields columnData src) (htype : ∀ row ∈ src, Row.HasType schema.fields row)
    (hoffset : ∀ a ∈ columnData, a.offset = 0) {k : Nat} (hk : k < src.length)
    (hrows : (rows.length + 1 : Int) ≤ maxInt) {rest : List Row}
    (hbytes : ((rows ++ [src[k]] ++ rest).map rowSize).sum ≤ maxInt)
    : ∃ res s', s.insertRecords roundUp (sliceAll columnData k 1) = some (res, s') ∧
        s'.Ok id schema capacity (rows ++ [src[k]]) := by
  obtain ⟨-, -, -, -, hslice, hoffsets⟩ := ArrayData.oneRow hdata htype hoffset hk
  have hrest := sum_rowSize_nonneg rest
  have hold : s.block.numBytes = (rows.map rowSize).sum := by
    rw [h.repr.numBytes_eq, h.repr.columns_eq, Column.totalSize_ofRows h.repr.hasType]
  rw [List.map_append, List.sum_append, List.map_append, List.sum_append, ← hold] at hbytes
  rcases h.insertRecords hround hslice (by simpa using htype _ (List.getElem_mem hk))
      (fun a ha a' ha' => by rw [hoffsets a ha, hoffsets a' ha'])
      (by rw [h.repr.numRows_eq, List.length_singleton]; exact hrows) (by omega) with
    ⟨-, hnone⟩ | ⟨res, s', -, hinsert, hok⟩
  . cases hnone
  . exact ⟨res, s', hinsert, hok⟩

theorem insertRows (hround : ∀ n, n ≤ roundUp n) (h : s.Ok id schema capacity rows) {columnData : List ArrayData}
    (hdata : ArrayData.HoldRows schema.fields columnData src) (htype : ∀ row ∈ src, Row.HasType schema.fields row)
    (hoffset : ∀ a ∈ columnData, a.offset = 0) (ks : List Nat)
    (hks : ∀ k ∈ ks, k < src.length) (hrows : ((rows.length + ks.length : Nat) : Int) ≤ maxInt)
    (hbytes : ((rows ++ ks.filterMap (src[·]?)).map rowSize).sum ≤ maxInt)
    : ∃ s', ks.foldlM (fun s row => do
          let (_, s) ← s.insertRecords roundUp (sliceAll columnData row 1)
          return s) s = some s' ∧
        s'.Ok id schema capacity (rows ++ ks.filterMap (src[·]?)) := by
  induction ks generalizing s rows with
  | nil => exact ⟨s, rfl, by simpa using h⟩
  | cons k ks ih =>
    simp only [List.forall_mem_cons, List.length_cons] at hks hrows
    obtain ⟨hk, hks⟩ := hks
    rw [List.filterMap_cons_some (List.getElem?_eq_getElem hk), List.append_cons] at hbytes ⊢
    obtain ⟨res, s', hinsert, hok⟩ := h.insertRow hround hdata htype hoffset hk (by omega) hbytes
    obtain ⟨s'', hrun, hok'⟩ := ih hok hks (by simp; omega) hbytes
    refine ⟨s'', ?_, hok'⟩
    rw [List.foldlM_cons, hinsert]
    exact hrun

theorem insertRecordsFrom_eq (s : SizedBlock) (htype : ∀ row ∈ src, Row.HasType schema.fields row)
    (validColumn : List Bool)
    : s.insertRecordsFrom roundUp validColumn ((Column.ofRows schema.fields src).map Column.array)
        = (Block.validRows validColumn src.length).foldlM (fun s row => do
          let (_, s) ← s.insertRecords roundUp (sliceAll ((Column.ofRows schema.fields src).map Column.array) row 1)
          return s) s := by
  obtain ⟨⟨first, hfirst, hlength⟩, -⟩ := ArrayData.sliceRows_eq (ArrayData.holdRows_ofRows htype) htype
  unfold SizedBlock.insertRecordsFrom
  rw [hfirst]
  simp only [Option.bind_eq_bind, Option.bind_some, hlength]

theorem offset_columns (src : List Row) : ∀ a ∈ (Column.ofRows schema.fields src).map Column.array, a.offset = 0 := by
  intro a ha
  obtain ⟨c, hc, rfl⟩ := List.mem_map.mp ha
  exact Column.offset_ofRows hc

theorem insertRecordsFrom (hround : ∀ n, n ≤ roundUp n) (h : s.Ok id schema capacity [])
    (htype : ∀ row ∈ src, Row.HasType schema.fields row) (hlength : (src.length : Int) ≤ maxInt)
    (hbytes : (src.map rowSize).sum ≤ maxInt) (validColumn : List Bool)
    : ∃ s', s.insertRecordsFrom roundUp validColumn ((Column.ofRows schema.fields src).map Column.array) = some s' ∧
        s'.Ok id schema capacity ((Block.validRows validColumn src.length).filterMap (src[·]?)) := by
  have hkept := List.length_filter_le (fun row => Block.getValid validColumn row) (List.range src.length)
  rw [List.length_range] at hkept
  have hsum := Block.sum_validRows_le validColumn src
  obtain ⟨s', hrun, hok⟩ := h.insertRows hround (ArrayData.holdRows_ofRows htype) htype (offset_columns src)
    (Block.validRows validColumn src.length) (fun k hk => List.mem_range.mp (List.mem_of_mem_filter hk))
    (by rw [List.length_nil, Block.validRows]; omega) (by rw [List.nil_append]; omega)
  rw [insertRecordsFrom_eq s htype]
  exact ⟨s', hrun, by simpa using hok⟩

end SizedBlock.Ok

/-! What the memory does not change. -/

theorem Block.insertRecord_rejected {b b' : Block} {record reversed : List UInt8} {byteWidths : List Int}
    (h : b.insertRecord record byteWidths = some (-1, b', reversed)) : b' = b := by
  unfold Block.insertRecord at h
  split at h
  . cases h
  . split at h
    . cases h
      rfl
    . obtain ⟨x, -, h⟩ := Option.bind_eq_some_iff.mp h
      simp only [Option.pure_def, Option.some.injEq, Prod.mk.injEq] at h
      omega

theorem SizedBlock.insertRecord_block {roundUp : Nat → Nat} {s s' : SizedBlock} {record : List UInt8}
    {byteWidths : List Int} {res : Int} (h : s.insertRecord roundUp record byteWidths = some (res, s'))
    : ∃ reversed, s.block.insertRecord record byteWidths = some (res, s'.block, reversed) := by
  unfold SizedBlock.insertRecord at h
  split at h
  . cases h
  . obtain ⟨⟨res', block, reversed⟩, hinsert, h⟩ := Option.bind_eq_some_iff.mp h
    dsimp only at h
    split at h
    . next hres =>
      subst hres
      cases h
      rw [hinsert, Block.insertRecord_rejected hinsert]
      exact ⟨reversed, rfl⟩
    . obtain ⟨valid, -, h⟩ := Option.bind_eq_some_iff.mp h
      obtain ⟨memory, -, h⟩ := Option.bind_eq_some_iff.mp h
      obtain ⟨s'', hcheck, h⟩ := Option.bind_eq_some_iff.mp h
      cases h
      unfold SizedBlock.check at hcheck
      split at hcheck
      . cases hcheck
        exact ⟨reversed, hinsert⟩
      . cases hcheck

theorem SizedBlock.insertRecord_memory {roundUp : Nat → Nat} {s s₁ : SizedBlock} {record : List UInt8}
    {byteWidths : List Int} {res : Int}
    (hres : res ≠ -1) (hinsert : s.insertRecord roundUp record byteWidths = some (res, s₁))
    : s₁.valid = s.valid.resize roundUp (s.valid.size + 1) ∧
        (s₁.block.numRows : Int) ≤ maxInt ∧ s₁.block.numBytes ≤ maxInt ∧
        ColumnMemory.insertAll roundUp s.block.numRows s.memory s.block.columns byteWidths = some s₁.memory := by
  unfold SizedBlock.insertRecord at hinsert
  split at hinsert
  . cases hinsert
  . obtain ⟨⟨res', block, reversed⟩, -, hinsert⟩ := Option.bind_eq_some_iff.mp hinsert
    dsimp only at hinsert
    split at hinsert
    . cases hinsert
      exact absurd rfl hres
    . obtain ⟨valid, hvalid, hinsert⟩ := Option.bind_eq_some_iff.mp hinsert
      obtain ⟨memory, hmemory, hinsert⟩ := Option.bind_eq_some_iff.mp hinsert
      obtain ⟨s₂, hcheck, hinsert⟩ := Option.bind_eq_some_iff.mp hinsert
      cases hinsert
      unfold SizedBlock.check at hcheck
      split at hcheck
      . next hint =>
        cases hcheck
        refine ⟨?_, hint.1, hint.2, hmemory⟩
        unfold Allocation.write at hvalid
        split at hvalid
        . exact (Option.some.inj hvalid).symm
        . cases hvalid
      . cases hcheck

namespace SizedTable

variable {roundUp : Nat → Nat} {pick : List Int → Nat} {t t' : SizedTable} {ptr : BlockPtr}

theorem createBlock_table (h : t.createBlock roundUp = some (ptr, t')) : t.table.createBlock = (ptr, t'.table) := by
  obtain ⟨s, -, h⟩ := Option.bind_eq_some_iff.mp h
  cases h
  rfl

theorem getBlockForInsert_table (h : t.getBlockForInsert roundUp pick = some (ptr, t'))
    : t.table.getBlockForInsert pick = (ptr, t'.table) := by
  unfold SizedTable.getBlockForInsert at h
  unfold DBTable.getBlockForInsert
  cases hentry : t.table.insertPool.entries[pick t.table.insertPool.keys % t.table.insertPool.keys.length]? with
  | none =>
    simp only [hentry] at h ⊢
    exact createBlock_table h
  | some entry =>
    simp only [hentry] at h ⊢
    cases h
    rfl

theorem block_table {s : SizedBlock} (h : t.block ptr = some s) : t.table.block ptr = some s.block := by
  obtain ⟨b, hb, h⟩ := Option.bind_eq_some_iff.mp h
  obtain ⟨m, -, h⟩ := Option.bind_eq_some_iff.mp h
  cases h
  exact hb

theorem blockForRecord_table {byteWidths : List Int}
    (h : t.blockForRecord roundUp pick (t.table.getRecordSize byteWidths) = some (ptr, t'))
    : t.table.blockForRecord pick byteWidths = some (ptr, t'.table) := by
  obtain ⟨⟨ptr₁, t₁⟩, hget, h⟩ := Option.bind_eq_some_iff.mp h
  obtain ⟨s, hs, h⟩ := Option.bind_eq_some_iff.mp h
  have hget' := getBlockForInsert_table hget
  have hsize : t₁.table.getRecordSize byteWidths = t.table.getRecordSize byteWidths := by
    have hschema := DBTable.getBlockForInsert_schema t.table pick
    rw [hget'] at hschema
    unfold DBTable.getRecordSize
    rw [hschema]
  unfold DBTable.blockForRecord
  simp only [hget', block_table hs, hsize, Option.bind_eq_bind, Option.bind_some]
  split at h
  . next hlt => rw [if_pos hlt, createBlock_table h, Option.pure_def]
  . next hlt =>
    cases h
    rw [if_neg hlt, Option.pure_def]

theorem insertRecord_table {record : List UInt8} {byteWidths : List Int} {info : BlockInfo}
    (h : t.insertRecord roundUp pick record byteWidths = some (info, t'))
    : ∃ reversed, t.table.insertRecord pick record byteWidths = some (info, t'.table, reversed) := by
  obtain ⟨⟨ptr, t₁⟩, hblock, h⟩ := Option.bind_eq_some_iff.mp h
  obtain ⟨s, hs, h⟩ := Option.bind_eq_some_iff.mp h
  obtain ⟨⟨rowNum, s'⟩, hinsert, h⟩ := Option.bind_eq_some_iff.mp h
  cases h
  obtain ⟨reversed, hreversed⟩ := SizedBlock.insertRecord_block hinsert
  refine ⟨reversed, ?_⟩
  unfold DBTable.insertRecord
  simp only [blockForRecord_table hblock, block_table hs, hreversed, Option.bind_eq_bind, Option.bind_some]
  rfl

theorem insertRecordTable_table {rowId : UInt32} {record reversed : List UInt8} {byteWidths : List Int}
    (h : t.insertRecordTable roundUp pick rowId record byteWidths = some (t', reversed))
    : t.table.insertRecordTable pick rowId record byteWidths = some (t'.table, reversed) := by
  obtain ⟨⟨info, table, reversed'⟩, htable, h⟩ := Option.bind_eq_some_iff.mp h
  obtain ⟨⟨info', t₁⟩, hsized, h⟩ := Option.bind_eq_some_iff.mp h
  cases h
  obtain ⟨reversed', hsame⟩ := insertRecord_table hsized
  rw [htable] at hsame
  cases hsame
  unfold DBTable.insertRecordTable
  simp only [htable, Option.bind_eq_bind, Option.bind_some]
  rfl

theorem deleteRecordTable_table {rowId : UInt32} (h : t.deleteRecordTable roundUp rowId = some t')
    : t.table.deleteRecordTable rowId = some t'.table := by
  unfold SizedTable.deleteRecordTable at h
  split at h
  . next hnone =>
    cases h
    unfold DBTable.deleteRecordTable
    rw [hnone]
  . obtain ⟨ptr, -, h⟩ := Option.bind_eq_some_iff.mp h
    obtain ⟨s, -, h⟩ := Option.bind_eq_some_iff.mp h
    split at h
    . cases h
    . obtain ⟨valid, -, h⟩ := Option.bind_eq_some_iff.mp h
      obtain ⟨new, -, h⟩ := Option.bind_eq_some_iff.mp h
      obtain ⟨filled, -, h⟩ := Option.bind_eq_some_iff.mp h
      obtain ⟨table, htable, h⟩ := Option.bind_eq_some_iff.mp h
      cases h
      exact htable

/-! Inserts and deletes that find room. -/

/--
The record can be counted, and the block that it goes to and its buffers have room for its bytes.
-/
def FindsRoom (roundUp : Nat → Nat) (pick : List Int → Nat) (t : SizedTable) (xs : List Field) : Prop :=
  t.table.numRows + 1 ≤ maxInt ∧
  ∀ x ∈ t.blockForRecord roundUp pick (t.table.getRecordSize (recordWidths xs)), ∀ s ∈ x.2.block x.1,
    s.block.numBytes + storedRowSize t.table.schema.fields xs ≤ maxInt ∧
    ColumnMemory.RoomAll roundUp s.block.numRows s.memory s.block.columns (recordWidths xs)

instance (xs : List Field) : Decidable (FindsRoom roundUp pick t xs) :=
  inferInstanceAs (Decidable (_ ∧ ∀ _ ∈ _, ∀ _ ∈ _, _))

variable {schema : Schema} {blockCapacity : Int} {contents : List (List Row)}

theorem Filled.insertRecordTable (hround : ∀ n, n ≤ roundUp n) (hroomy : Roomy schema blockCapacity)
    (hcapacity : blockCapacity ≤ maxInt) (h : Filled schema blockCapacity maxInt t contents) {xs : List Field}
    (hrec : IsRecord schema.fields xs) (hsize : (recordWidths xs).sum ≤ blockCapacity)
    (hroom : t.FindsRoom roundUp pick xs) (rowId : UInt32)
    : ∃ t' reversed contents',
        t.insertRecordTable roundUp pick rowId (recordBytes xs) (recordWidths xs) = some (t', reversed) ∧
        Filled schema blockCapacity maxInt t' contents' := by
  obtain ⟨hcount, hroom⟩ := hroom
  have hrecord := h.getRecordSize_eq hrec
  have hwidths := recordWidths_sum_le_storedRowSize hrec
  have hinsert : ∃ t' rows, ∃ (k i : Nat),
      t.insertRecord roundUp pick (recordBytes xs) (recordWidths xs) = some (⟨i, rows.length⟩, t') ∧
      (contents ++ List.replicate k [])[i]? = some rows ∧ t'.table.numRows = t.table.numRows + 1 ∧
      Filled schema blockCapacity maxInt t'
        ((contents ++ List.replicate k []).set i (rows ++ [storedRow schema.fields xs])) ∧
      (PoolIs t.table contents → i + 1 = (contents ++ List.replicate k []).length ∧
        PoolIs t'.table ((contents ++ List.replicate k []).set i (rows ++ [storedRow schema.fields xs]))) := by
    apply h.insertWith hround hroomy hcapacity hcount
    intro ptr t' s i rows hblock hs hsok hleft hrows
    obtain ⟨hbytes, hbuffers⟩ := hroom (ptr, t') hblock s hs
    rw [h.schema_eq] at hbytes
    rw [← storedRowSize_eq_rowSize hrec]
    exact ⟨hbytes, hsok.insertRecord_stored hround hrec (by omega) (by omega) hrows hbytes hbuffers⟩
  obtain ⟨t₁, rows, k, i, hinsert, -, -, hfilled, -⟩ := hinsert
  obtain ⟨reversed, htable⟩ := insertRecord_table hinsert
  have hsame : DBTable.SameBlocks t₁.table
      { t₁.table with blockMap := t₁.table.blockMap.insert (rowKey rowId) ⟨i, rows.length⟩ } :=
    ⟨rfl, rfl, rfl, rfl, rfl, hfilled.ok.repr.pool⟩
  have hmapped : Filled schema blockCapacity maxInt
      ⟨{ t₁.table with blockMap := t₁.table.blockMap.insert (rowKey rowId) ⟨i, rows.length⟩ }, t₁.memory⟩ _ :=
    ⟨hfilled.ok.of_sameBlocks hsame, hfilled.schema_eq, hfilled.blockCapacity_eq, hfilled.numRows_eq,
      hfilled.numRows_le, hfilled.fits⟩
  refine ⟨_, reversed, _, ?_, hmapped⟩
  unfold SizedTable.insertRecordTable
  simp only [htable, hinsert, Option.bind_eq_bind, Option.bind_some]
  rfl

/--
Only a record that finds room is inserted without a write behind a buffer.
-/
theorem Filled.findsRoom_of_insert (hround : ∀ n, n ≤ roundUp n) (hroomy : Roomy schema blockCapacity)
    (h : Filled schema blockCapacity maxInt t contents) {xs : List Field} (hrec : IsRecord schema.fields xs)
    (hsize : (recordWidths xs).sum ≤ blockCapacity) {rowId : UInt32} {reversed : List UInt8}
    (hinsert : t.insertRecordTable roundUp pick rowId (recordBytes xs) (recordWidths xs) = some (t', reversed))
    (hcount : t'.table.numRows ≤ maxInt)
    : t.FindsRoom roundUp pick xs := by
  have hroomy' := h.roomy hroomy
  have hrecord := h.getRecordSize_eq hrec
  have hwidths := recordWidths_sum_le_storedRowSize hrec
  have hnum : t'.table.numRows = t.table.numRows + 1 := by
    rw [← h.schema_eq] at hrec
    rw [← h.blockCapacity_eq] at hsize
    obtain ⟨table, -, -, -, htable, -, -, -, -, hnum, -⟩ := h.ok.repr.insertRecordTable pick rowId hrec hsize
    rw [insertRecordTable_table hinsert] at htable
    cases htable
    exact hnum
  obtain ⟨ptr, t₁, s, rows, k, i, hblock, hloading, hs, hrows, hsok, hleft, -⟩ :=
    h.ok.blockForRecord hround hroomy' pick (t.table.getRecordSize (recordWidths xs))
  rw [h.schema_eq, h.blockCapacity_eq] at hsok
  rw [hrecord, h.blockCapacity_eq] at hleft
  obtain ⟨b, hb, hbrepr⟩ := hsok.repr.insertRecord hrec (by omega)
  obtain ⟨⟨_, _, _⟩, -, hinsert⟩ := Option.bind_eq_some_iff.mp hinsert
  obtain ⟨⟨info, t₂⟩, hsized, -⟩ := Option.bind_eq_some_iff.mp hinsert
  unfold SizedTable.insertRecord SizedTable.insertWith at hsized
  simp only [hblock, hs, Option.bind_eq_bind, Option.bind_some] at hsized
  obtain ⟨⟨rowNum, s'⟩, hs', -⟩ := Option.bind_eq_some_iff.mp hsized
  obtain ⟨reversed', hblock'⟩ := SizedBlock.insertRecord_block hs'
  rw [hb, Option.some.injEq, Prod.mk.injEq, Prod.mk.injEq] at hblock'
  obtain ⟨hrowNum, rfl, -⟩ := hblock'
  obtain ⟨-, hint, hbytes, hmemory⟩ := SizedBlock.insertRecord_memory (by omega) hs'
  refine ⟨by omega, ?_⟩
  rintro ⟨ptr', t₁'⟩ hblock' s'' hs''
  rw [Option.mem_def, hblock] at hblock'
  cases hblock'
  rw [Option.mem_def, hs] at hs''
  cases hs''
  rw [h.schema_eq]
  constructor
  . have := hsok.numBytes_append hbrepr
    rw [List.map_singleton, List.sum_singleton, ← storedRowSize_eq_rowSize hrec] at this
    omega
  . rw [hsok.repr.numRows_eq, hsok.repr.columns_eq] at hmemory ⊢
    exact ColumnMemory.roomAll_of_insertAll rows hmemory

/--
The block of a row can be rebuilt without it, and the other blocks keep their memory.
-/
theorem Ok.deleteRecordTable (hround : ∀ n, n ≤ roundUp n) (hroomy : Roomy t.table.schema t.table.blockCapacity)
    (h : t.Ok contents) {rowId : UInt32} {i r : Nat} {rows : List Row}
    (hmap : t.table.blockMap.lookup (rowKey rowId) = some ⟨i, r⟩) (hrows : contents[i]? = some rows)
    (hr : r < rows.length) (hsmall : Small rows)
    : ∃ t', t.deleteRecordTable roundUp rowId = some t' ∧ t'.Ok (contents.set i (rows.eraseIdx r)) := by
  obtain ⟨table, htable, hrepr, hschema, hcap, -, -⟩ := h.repr.deleteRecordTable hmap hrows
  obtain ⟨ptr, b, hptr, hb, hbrepr⟩ := h.repr.block i rows hrows
  obtain ⟨s, hs, hok⟩ := h.block hrows hptr
  have hlt := h.repr.ptr_lt hptr
  have hcols : (s.block.setValid r false).getColumns = (Column.ofRows t.table.schema.fields rows).map Column.array := by
    rw [← hok.repr.columns_eq]
    rfl
  have hblockCap : (s.block.setValid r false).capacity = t.table.blockCapacity := hok.repr.capacity_eq
  obtain ⟨new, hnew, hnewOk⟩ := SizedBlock.new_ok hround i false hroomy.initRows_nonneg hroomy.string
  obtain ⟨filled, hfilled, hfilledOk⟩ := hnewOk.insertRecordsFrom hround hok.repr.hasType hsmall.1 hsmall.2
    (s.block.setValid r false).valid
  rw [Block.validRows_filterMap _ _ _ (hok.repr.getValid_setValid r)] at hfilledOk
  have hwrite : s.valid.write (r / 8 + 1) = some s.valid := by
    apply Allocation.write_eq
    have := hok.valid
    have := hok.capacity
    omega
  have hneg : ¬((r : Int) < 0) := by omega
  refine ⟨⟨table, t.memory ++ [(filled.valid, filled.memory)]⟩, ?_, ?_⟩
  . unfold SizedTable.deleteRecordTable
    rw [hmap]
    simp only [hptr, hs, hneg, hcols, hblockCap, hnew, hfilled, htable, hwrite, Option.bind_eq_bind, Option.bind_some,
      ↓reduceIte, Int.toNat_natCast, Option.pure_def]
  . obtain ⟨hnone, -⟩ | ⟨info, ptr', b', s', hinfo, hdeleted⟩ := DBTable.deleteRecordTable_cases htable
    . rw [hmap] at hnone
      cases hnone
    . rw [hmap] at hinfo
      cases hinfo
      have hptr' := hdeleted.lookup_eq
      rw [hptr] at hptr'
      cases hptr'
      refine ⟨hrepr, ?_, ?_⟩
      . simp [hdeleted.heap_eq, h.length_eq]
      . intro j rows' p hj hp
        obtain ⟨p', b'', hp', hb'', hbrepr'⟩ := hrepr.block j rows' hj
        dsimp only at hp
        rw [hp] at hp'
        cases hp'
        rw [hdeleted.blocks_eq, Map.lookup_insert_eq] at hp
        split at hp
        . next hji =>
          cases hp
          cases Int.natCast_inj.mp hji
          rw [List.getElem?_set_self (List.getElem?_eq_some_iff.mp hrows).1] at hj
          cases hj
          have hmemory : (t.memory ++ [(filled.valid, filled.memory)])[t.table.heap.length]?
              = some (filled.valid, filled.memory) := by
            rw [← h.length_eq, List.getElem?_concat_length]
          refine ⟨⟨b'', filled.valid, filled.memory⟩, ?_, ?_⟩
          . simp [SizedTable.block, DBTable.block, hb'', hmemory]
          . rw [hschema, hcap] at hbrepr' ⊢
            exact ⟨hbrepr', hfilledOk.memory, hfilledOk.valid, hfilledOk.capacity⟩
        . next hji =>
          dsimp only at hji
          rw [List.getElem?_set_ne (by omega)] at hj
          obtain ⟨s'', hs'', hok''⟩ := h.block hj hp
          have hplt := h.repr.ptr_lt hp
          have hne : ptr ≠ p := by
            rintro rfl
            exact hji (h.repr.inj _ _ _ hp hptr)
          refine ⟨s'', ?_, ?_⟩
          . rw [← hs'', SizedTable.block, SizedTable.block, DBTable.block, DBTable.block, hdeleted.heap_eq,
              List.getElem?_append_left (by simpa using hplt), List.getElem?_set_ne hne,
              List.getElem?_append_left (by rw [h.length_eq]; exact hplt)]
          . rw [hschema, hcap]
            exact hok''

theorem Filled.deleteRecordTable (hround : ∀ n, n ≤ roundUp n) (hroomy : Roomy schema blockCapacity)
    (h : Filled schema blockCapacity maxInt t contents) {rowId : UInt32} {info : BlockInfo} {row : Row}
    (hmap : t.table.blockMap.lookup (rowKey rowId) = some info) (hrow : t.table.row info = some row)
    : ∃ t' contents', t.deleteRecordTable roundUp rowId = some t' ∧ Filled schema blockCapacity maxInt t' contents' := by
  obtain ⟨i, r, rows, rfl, hrows, hr⟩ := h.ok.repr.exists_of_row hrow
  have hlt : r < rows.length := (List.getElem?_eq_some_iff.mp hr).1
  have hroomy' := h.roomy hroomy
  obtain ⟨t', hdelete, hok⟩ := h.ok.deleteRecordTable hround hroomy' hmap hrows hlt
    (h.small le_rfl rows (List.mem_of_getElem? hrows))
  obtain ⟨table, htable, -, hschema, hcap, -, hnum⟩ := h.ok.repr.deleteRecordTable hmap hrows
  rw [deleteRecordTable_table hdelete] at htable
  cases htable
  have hlen := DBTable.length_flatten_set hrows (rows.eraseIdx r)
  rw [List.length_eraseIdx_of_lt hlt] at hlen
  have hold := h.numRows_eq
  have hle := h.numRows_le
  refine ⟨t', _, hdelete, hok, hschema.trans h.schema_eq, hcap.trans h.blockCapacity_eq, by omega, by omega, ?_⟩
  intro rows' hrows'
  rcases List.mem_or_eq_of_mem_set hrows' with hrows' | rfl
  . exact h.fits rows' hrows'
  . apply le_trans _ (h.fits rows (List.mem_of_getElem? hrows))
    apply ((List.eraseIdx_sublist rows r).map rowSize).sum_le_sum
    intro size hsize
    obtain ⟨row', -, rfl⟩ := List.mem_map.mp hsize
    exact Block.rowSize_nonneg row'

end SizedTable

end Hustle.Storage
