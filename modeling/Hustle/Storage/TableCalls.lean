import Hustle.Storage.TableFile

/-!
This module contains the functions of a table that add and remove rows, as calls that can be made one after the other.
Whatever the calls are, the blocks of a table are numbered from zero and every one of them is an object of its own.
-/

namespace Hustle.Storage

namespace DBTable

section

variable (pick : List Int → Nat) (simpleAtoi : List UInt8 → Option (BitVec 64))

/--
A block from the insert pool if the record fits, or else a new one.
-/
def blockForSize (t : DBTable) (recordSize : Int) : Option (BlockPtr × DBTable) := do
  let (ptr, t) := t.getBlockForInsert pick
  let block ← t.block ptr
  return if block.getBytesLeft < recordSize then t.createBlock else (ptr, t)

/--
`DBTable::InsertRecord(std::vector<std::string_view>, int32_t*)`.
-/
def insertCsvRecord (t : DBTable) (values : List (List UInt8)) (byteWidths : List Int) : Option DBTable := do
  let (ptr, t) ← t.blockForSize pick (byteWidths.take t.schema.fields.length).sum
  let block ← t.block ptr
  let (_, block) ← block.insertCsvRecord simpleAtoi values byteWidths
  let t := { t.setBlock ptr block with numRows := t.numRows + 1 }
  return t.offerBlock ptr block

def loader : Loader DBTable where
  bytesLeft t ptr := (t.block ptr).map Block.getBytesLeft
  insertRecords t ptr columnData := do
    let block ← t.block ptr
    let (_, block) ← block.insertRecords columnData
    return t.setBlock ptr block
  createBlock t := some t.createBlock

/--
`DBTable::InsertRecords(std::vector<std::shared_ptr<arrow::ArrayData>>)`.
-/
def insertRecords (t : DBTable) (columnData : List ArrayData) : Option DBTable := do
  let first ← columnData.head?
  let (ptr, t) := t.getBlockForInsert pick
  let (ptr, t) ← loader.load columnData first.length ptr t
  let block ← t.block ptr
  let t := t.offerBlock ptr block
  return { t with numRows := t.numRows + first.length }

/--
`DBTable::InsertRecords(arrow::ChunkedArrayVector)`, the chunks of all columns.
-/
def insertChunks (t : DBTable) (chunks : List (List ArrayData)) : Option DBTable :=
  chunks.foldlM (fun t columnData => t.insertRecords pick columnData) t

/--
The blocks become blocks of the table under the next keys, whatever their ids are. If the last one is not full, the
entry behind the end of `block_row_offsets` is written to.
-/
def insertBlocks (t : DBTable) (inputBlocks : List Block) : Option DBTable :=
  if inputBlocks = [] then
    some t
  else do
    let t := inputBlocks.foldl addBlock t
    let ptr ← t.blocks.lookup (t.blocks.entries.length - 1 : Int)
    let block ← t.block ptr
    if t.fixedRecordWidth < block.getBytesLeft then none else return t

inductive Call where
  | createBlock
  | insertBlocks (inputBlocks : List Block)
  | insertRecords (columnData : List ArrayData)
  | insertChunks (chunks : List (List ArrayData))
  | insertRecord (record : List UInt8) (byteWidths : List Int)
  | insertCsvRecord (values : List (List UInt8)) (byteWidths : List Int)
  | insertRecordTable (rowId : UInt32) (record : List UInt8) (byteWidths : List Int)
  | deleteRecordTable (rowId : UInt32)

/--
A call returns none where it throws an exception or leaves a buffer.
-/
def step (t : DBTable) : Call → Option DBTable
  | .createBlock => some t.createBlock.2
  | .insertBlocks inputBlocks => t.insertBlocks inputBlocks
  | .insertRecords columnData => t.insertRecords pick columnData
  | .insertChunks chunks => t.insertChunks pick chunks
  | .insertRecord record byteWidths => do
    let (_, t, _) ← t.insertRecord pick record byteWidths
    return t
  | .insertCsvRecord values byteWidths => t.insertCsvRecord pick simpleAtoi values byteWidths
  | .insertRecordTable rowId record byteWidths => do
    let (t, _) ← t.insertRecordTable pick rowId record byteWidths
    return t
  | .deleteRecordTable rowId => t.deleteRecordTable rowId

end

/--
The keys of `blocks` are the numbers below `block_counter`, and they refer to different objects.
-/
structure Indexed (t : DBTable) : Prop where
  counter_nonneg : 0 ≤ t.blockCounter
  keys : ∀ k, (t.blocks.lookup k).isSome ↔ 0 ≤ k ∧ k < t.blockCounter
  ptr_lt : ∀ k ptr, t.blocks.lookup k = some ptr → ptr < t.heap.length
  inj : ∀ k k' ptr, t.blocks.lookup k = some ptr → t.blocks.lookup k' = some ptr → k = k'

/--
The directory of the second table is the one of the first, while its heap may have grown.
-/
structure SameDirectory (t t' : DBTable) : Prop where
  blocks_eq : t'.blocks = t.blocks
  blockCounter_eq : t'.blockCounter = t.blockCounter
  length_heap_le : t.heap.length ≤ t'.heap.length

variable {t t' : DBTable} {pick : List Int → Nat} {simpleAtoi : List UInt8 → Option (BitVec 64)}

theorem Indexed.of_sameDirectory (h : t.Indexed) (hsame : SameDirectory t t') : t'.Indexed where
  counter_nonneg := by
    rw [hsame.blockCounter_eq]
    exact h.counter_nonneg
  keys := by
    rw [hsame.blocks_eq, hsame.blockCounter_eq]
    exact h.keys
  ptr_lt := by
    rw [hsame.blocks_eq]
    intro k ptr hptr
    exact (h.ptr_lt k ptr hptr).trans_le hsame.length_heap_le
  inj := by
    rw [hsame.blocks_eq]
    exact h.inj

theorem new_indexed (schema : Schema) (blockCapacity : Int) (metadataEnabled : Bool)
    : (new schema blockCapacity metadataEnabled).Indexed where
  counter_nonneg := le_rfl
  keys k := by
    simp only [new, AList.lookup_empty, Option.isSome_none, Bool.false_eq_true, false_iff]
    omega
  ptr_lt k ptr hptr := by simp [new] at hptr
  inj k k' ptr hptr := by simp [new] at hptr

theorem Indexed.numBlocks_eq (h : t.Indexed) : (t.blocks.entries.length : Int) = t.blockCounter := by
  have hnonneg := h.counter_nonneg
  have hlen := Map.length_entries (m := t.blocks) (n := t.blockCounter.toNat) (by
    intro k
    rw [h.keys]
    omega)
  omega

theorem Indexed.getBlock (h : t.Indexed) {i : Nat} (hi : i < t.blocks.entries.length)
    : ∃ b, t.getBlock i = some b := by
  have hlen := h.numBlocks_eq
  obtain ⟨ptr, hptr⟩ := Option.isSome_iff_exists.mp ((h.keys i).mpr (by omega))
  refine ⟨t.heap.get ⟨ptr, h.ptr_lt i ptr hptr⟩, ?_⟩
  simp [DBTable.getBlock, hptr, DBTable.block, h.ptr_lt i ptr hptr]

theorem Indexed.lt_of_getBlock (h : t.Indexed) {i : Nat} {b : Block} (hb : t.getBlock i = some b)
    : i < t.blocks.entries.length := by
  have hlen := h.numBlocks_eq
  obtain ⟨ptr, hptr, -⟩ := Option.bind_eq_some_iff.mp hb
  have := (h.keys i).mp (by simp [hptr])
  omega

/--
The number of rows in the blocks before block `i`.
-/
def rowsBefore (t : DBTable) (i : Nat) : Nat :=
  ((List.range i).map fun (j : Nat) => ((t.getBlock (j : Int)).map Block.numRows).getD 0).sum

theorem rowsBefore_succ {i : Nat} {b : Block} (hb : t.getBlock i = some b)
    : t.rowsBefore (i + 1) = t.rowsBefore i + b.numRows := by
  simp [rowsBefore, List.range_succ, hb]

theorem rowsBefore_congr {i : Nat} (h : ∀ j < i, t'.getBlock (j : Int) = t.getBlock (j : Int))
    : t'.rowsBefore i = t.rowsBefore i := by
  unfold rowsBefore
  congr 1
  apply List.map_congr_left
  intro j hj
  rw [h j (List.mem_range.mp hj)]

theorem Repr.indexed {contents : List (List Row)} (h : t.Repr contents) : t.Indexed where
  counter_nonneg := by
    rw [h.counter_eq]
    omega
  keys k := by
    rw [Option.isSome_iff_exists, h.counter_eq]
    constructor
    . rintro ⟨ptr, hptr⟩
      obtain ⟨i, hi, hlt⟩ := h.keys k ptr hptr
      omega
    . rintro ⟨hk, hlt⟩
      obtain ⟨i, rfl⟩ := Int.eq_ofNat_of_zero_le hk
      obtain ⟨ptr, -, hptr, -⟩ := h.block i _ (List.getElem?_eq_getElem (by omega))
      exact ⟨ptr, hptr⟩
  ptr_lt k ptr hptr := h.ptr_lt hptr
  inj := h.inj

/-! New blocks. -/

theorem Indexed.lookup_counter (h : t.Indexed) : t.blocks.lookup t.blockCounter = none := by
  cases hlookup : t.blocks.lookup t.blockCounter with
  | none => rfl
  | some ptr =>
    have := (h.keys t.blockCounter).mp (by simp [hlookup])
    omega

theorem NewBlock.lookup_indexed {b : Block} (hnew : NewBlock t b t') (h : t.Indexed) (k : Int)
    : t'.blocks.lookup k = if k = t.blockCounter then some t.heap.length else t.blocks.lookup k := by
  rw [hnew.blocks_eq, Map.lookup_emplace _ _ _ _ h.lookup_counter]

theorem Indexed.of_lookup (h : t.Indexed) {j : Int} (hnonneg : 0 ≤ t'.blockCounter)
    (hkeys : ∀ k, 0 ≤ k ∧ k < t'.blockCounter ↔ k = j ∨ 0 ≤ k ∧ k < t.blockCounter)
    (hlookup : ∀ k, t'.blocks.lookup k = if k = j then some t.heap.length else t.blocks.lookup k)
    (hheap : t.heap.length < t'.heap.length)
    : t'.Indexed where
  counter_nonneg := hnonneg
  keys k := by
    rw [hlookup, hkeys]
    split
    . next hk => simp [hk]
    . next hk => rw [h.keys, or_iff_right hk]
  ptr_lt k ptr hptr := by
    rw [hlookup] at hptr
    split at hptr
    . cases hptr
      exact hheap
    . exact (h.ptr_lt k ptr hptr).trans hheap
  inj k k' ptr hk hk' := by
    rw [hlookup] at hk hk'
    split at hk
    . next hkey =>
      cases hk
      split at hk'
      . next hkey' => rw [hkey, hkey']
      . exact absurd (h.ptr_lt k' _ hk') (Nat.lt_irrefl _)
    . split at hk'
      . cases hk'
        exact absurd (h.ptr_lt k _ hk) (Nat.lt_irrefl _)
      . exact h.inj k k' ptr hk hk'

theorem Indexed.newBlock {b : Block} (h : t.Indexed) (hnew : NewBlock t b t') : t'.Indexed := by
  have hnonneg := h.counter_nonneg
  apply h.of_lookup (j := t.blockCounter)
  . rw [hnew.blockCounter_eq]
    omega
  . intro k
    rw [hnew.blockCounter_eq]
    omega
  . exact hnew.lookup_indexed h
  . rw [hnew.heap_eq, List.length_append, List.length_singleton]
    exact Nat.lt_succ_self _

theorem Indexed.createBlock (h : t.Indexed) : t.createBlock.2.Indexed :=
  h.newBlock t.createBlock_newBlock

def IsNew (t : DBTable) : Prop :=
  (∃ schema blockCapacity metadataEnabled, t = new schema blockCapacity metadataEnabled) ∨
    ∃ batches blockCapacity metadataEnabled, ofBatches batches blockCapacity metadataEnabled = some t

theorem IsNew.indexed (h : t.IsNew) : t.Indexed := by
  rcases h with ⟨schema, blockCapacity, metadataEnabled, rfl⟩ | ⟨batches, blockCapacity, metadataEnabled, h⟩
  . exact new_indexed schema blockCapacity metadataEnabled
  . unfold ofBatches at h
    obtain ⟨first, -, h⟩ := Option.bind_eq_some_iff.mp h
    obtain ⟨t₁, hfold, h⟩ := Option.bind_eq_some_iff.mp h
    obtain ⟨ptr, -, h⟩ := Option.bind_eq_some_iff.mp h
    obtain ⟨b, -, h⟩ := Option.bind_eq_some_iff.mp h
    have hnew : ({ new first.schema blockCapacity metadataEnabled with blockRowOffsets := [0] } : DBTable).Indexed :=
      (new_indexed first.schema blockCapacity metadataEnabled).of_sameDirectory ⟨rfl, rfl, le_rfl⟩
    have hadd : ∀ (t : DBTable) batch t', t.Indexed → True → (do
        let block ← Block.ofBatch t.blockCounter batch blockSize metadataEnabled
        return t.addBlock block) = some t' → t'.Indexed := by
      intro t batch t' h _ hadd
      obtain ⟨b, -, hadd⟩ := Option.bind_eq_some_iff.mp hadd
      cases hadd
      exact h.newBlock (t.addBlock_newBlock b)
    have h₁ := (Run.meets_true _ _ batches).invariant hadd hnew hfold
    split at h
    . cases h
      exact h₁.of_sameDirectory ⟨rfl, rfl, le_rfl⟩
    . cases h
      exact h₁

/-! Inserts. -/

theorem Indexed.getBlockForInsert (h : t.Indexed) (pick : List Int → Nat) : (t.getBlockForInsert pick).2.Indexed := by
  obtain ⟨-, heq⟩ | ⟨key, ptr, -, heq⟩ := t.getBlockForInsert_cases pick
  . rw [heq]
    exact h.createBlock
  . rw [heq]
    exact h.of_sameDirectory ⟨rfl, rfl, le_rfl⟩

theorem Indexed.setBlock (h : t.Indexed) (ptr : BlockPtr) (b : Block) : (t.setBlock ptr b).Indexed :=
  h.of_sameDirectory ⟨rfl, rfl, by simp [DBTable.setBlock]⟩

theorem Indexed.offerBlock (h : t.Indexed) (ptr : BlockPtr) (b : Block) : (t.offerBlock ptr b).Indexed := by
  unfold DBTable.offerBlock
  split
  . exact h.of_sameDirectory ⟨rfl, rfl, le_rfl⟩
  . exact h

theorem getBlockForInsert_schema (t : DBTable) (pick : List Int → Nat)
    : (t.getBlockForInsert pick).2.schema = t.schema := by
  unfold DBTable.getBlockForInsert
  dsimp only
  split
  . rfl
  . rfl

theorem blockForRecord_eq (t : DBTable) (pick : List Int → Nat) (byteWidths : List Int)
    : t.blockForRecord pick byteWidths = t.blockForSize pick (t.getRecordSize byteWidths) := by
  have hschema := t.getBlockForInsert_schema pick
  unfold DBTable.blockForRecord DBTable.blockForSize DBTable.getRecordSize
  rw [← hschema]

theorem blockForSize_cases {recordSize : Int} {x : BlockPtr × DBTable}
    (hblock : t.blockForSize pick recordSize = some x)
    : ∃ b, (t.getBlockForInsert pick).2.block (t.getBlockForInsert pick).1 = some b ∧
        (b.getBytesLeft < recordSize ∧ x = (t.getBlockForInsert pick).2.createBlock ∨
          recordSize ≤ b.getBytesLeft ∧ x = t.getBlockForInsert pick) := by
  unfold DBTable.blockForSize at hblock
  generalize t.getBlockForInsert pick = y at hblock ⊢
  obtain ⟨b, hb, hblock⟩ := Option.bind_eq_some_iff.mp hblock
  rw [Option.pure_def, Option.some.injEq] at hblock
  refine ⟨b, hb, ?_⟩
  by_cases hfull : b.getBytesLeft < recordSize
  . rw [if_pos hfull] at hblock
    exact .inl ⟨hfull, hblock.symm⟩
  . rw [if_neg hfull] at hblock
    exact .inr ⟨by omega, hblock.symm⟩

theorem Indexed.blockForSize (h : t.Indexed) {recordSize : Int} {x : BlockPtr × DBTable}
    (hblock : t.blockForSize pick recordSize = some x) : x.2.Indexed := by
  have hget := h.getBlockForInsert pick
  obtain ⟨b, -, ⟨-, rfl⟩ | ⟨-, rfl⟩⟩ := blockForSize_cases hblock
  . exact hget.createBlock
  . exact hget

/--
What both functions that insert one record do: `b'` is the block after the insert.
-/
structure RecordInserted (t : DBTable) (pick : List Int → Nat) (recordSize : Int) (ptr : BlockPtr) (t₁ : DBTable)
    (b b' : Block) (t' : DBTable) : Prop where
  blockForSize_eq : t.blockForSize pick recordSize = some (ptr, t₁)
  block_eq : t₁.block ptr = some b
  eq : t' = { t₁.setBlock ptr b' with numRows := t₁.numRows + 1 }.offerBlock ptr b'

theorem insertRecord_cases {record record' : List UInt8} {byteWidths : List Int} {info : BlockInfo}
    (hinsert : t.insertRecord pick record byteWidths = some (info, t', record'))
    : ∃ ptr t₁ b b' rowNum, RecordInserted t pick (t.getRecordSize byteWidths) ptr t₁ b b' t' ∧
        b.insertRecord record byteWidths = some (rowNum, b', record') ∧ info = ⟨b'.id, rowNum⟩ := by
  unfold DBTable.insertRecord at hinsert
  obtain ⟨⟨ptr, t₁⟩, hblock, hinsert⟩ := Option.bind_eq_some_iff.mp hinsert
  obtain ⟨b, hb, hinsert⟩ := Option.bind_eq_some_iff.mp hinsert
  obtain ⟨⟨rowNum, b', record₁⟩, hb', hinsert⟩ := Option.bind_eq_some_iff.mp hinsert
  cases hinsert
  rw [blockForRecord_eq] at hblock
  exact ⟨ptr, t₁, b, b', rowNum, ⟨hblock, hb, rfl⟩, hb', rfl⟩

theorem insertCsvRecord_cases {values : List (List UInt8)} {byteWidths : List Int}
    (hinsert : t.insertCsvRecord pick simpleAtoi values byteWidths = some t')
    : ∃ ptr t₁ b b' rowNum,
        RecordInserted t pick (byteWidths.take t.schema.fields.length).sum ptr t₁ b b' t' ∧
        b.insertCsvRecord simpleAtoi values byteWidths = some (rowNum, b') := by
  unfold DBTable.insertCsvRecord at hinsert
  obtain ⟨⟨ptr, t₁⟩, hblock, hinsert⟩ := Option.bind_eq_some_iff.mp hinsert
  obtain ⟨b, hb, hinsert⟩ := Option.bind_eq_some_iff.mp hinsert
  obtain ⟨⟨rowNum, b'⟩, hb', hinsert⟩ := Option.bind_eq_some_iff.mp hinsert
  cases hinsert
  exact ⟨ptr, t₁, b, b', rowNum, ⟨hblock, hb, rfl⟩, hb'⟩

theorem Indexed.recordInserted (h : t.Indexed) {recordSize : Int} {ptr : BlockPtr} {t₁ : DBTable} {b b' : Block}
    (hinsert : RecordInserted t pick recordSize ptr t₁ b b' t') : t'.Indexed := by
  have hset : SameDirectory t₁ { t₁.setBlock ptr b' with numRows := t₁.numRows + 1 } :=
    ⟨rfl, rfl, by simp [DBTable.setBlock]⟩
  rw [hinsert.eq]
  exact ((h.blockForSize hinsert.blockForSize_eq).of_sameDirectory hset).offerBlock ptr b'

theorem Indexed.load (h : t.Indexed) {columnData : List ArrayData} {l : Nat} {ptr ptr' : BlockPtr}
    (hload : loader.load columnData l ptr t = some (ptr', t')) : t'.Indexed := by
  have hinsert : ∀ (t t' : DBTable) (ptr : BlockPtr) (columnData : List ArrayData), t.Indexed →
      loader.insertRecords t ptr columnData = some t' → t'.Indexed := by
    intro t t' ptr columnData h hinsert
    obtain ⟨b, -, hinsert⟩ := Option.bind_eq_some_iff.mp hinsert
    obtain ⟨⟨rowNum, b'⟩, -, hinsert⟩ := Option.bind_eq_some_iff.mp hinsert
    cases hinsert
    exact h.setBlock ptr b'
  have hrow : ∀ s row s', s.table.Indexed → True → loader.loadRow columnData s row = some s' → s'.table.Indexed := by
    intro s row s' hs _ hrow
    obtain ⟨size, -, hrow⟩ := Option.bind_eq_some_iff.mp hrow
    obtain ⟨left, -, hrow⟩ := Option.bind_eq_some_iff.mp hrow
    split at hrow
    . cases hrow
    . split at hrow
      . obtain ⟨t₁, ht₁, hrow⟩ := Option.bind_eq_some_iff.mp hrow
        cases hrow
        exact (hinsert _ _ _ _ hs ht₁).createBlock
      . cases hrow
        exact hs
  obtain ⟨s, hs, hload⟩ := Option.bind_eq_some_iff.mp hload
  obtain ⟨t₁, ht₁, hload⟩ := Option.bind_eq_some_iff.mp hload
  cases hload
  have hmeets := Run.meets_true (loader.loadRow columnData) ⟨t, ptr, 0, 0⟩ (List.range l)
  exact hinsert _ _ _ _ (hmeets.invariant hrow h hs) ht₁

theorem insertRecords_cases {columnData : List ArrayData} (hinsert : t.insertRecords pick columnData = some t')
    : ∃ first ptr t₁ b, columnData.head? = some first ∧
        loader.load columnData first.length (t.getBlockForInsert pick).1 (t.getBlockForInsert pick).2
          = some (ptr, t₁) ∧
        t₁.block ptr = some b ∧
        t' = { t₁.offerBlock ptr b with numRows := (t₁.offerBlock ptr b).numRows + first.length } := by
  unfold DBTable.insertRecords at hinsert
  generalize t.getBlockForInsert pick = x at hinsert ⊢
  obtain ⟨first, hfirst, hinsert⟩ := Option.bind_eq_some_iff.mp hinsert
  obtain ⟨⟨ptr, t₁⟩, hload, hinsert⟩ := Option.bind_eq_some_iff.mp hinsert
  obtain ⟨b, hb, hinsert⟩ := Option.bind_eq_some_iff.mp hinsert
  cases hinsert
  exact ⟨first, ptr, t₁, b, hfirst, hload, hb, rfl⟩

theorem Indexed.insertRecords (h : t.Indexed) {columnData : List ArrayData}
    (hinsert : t.insertRecords pick columnData = some t') : t'.Indexed := by
  obtain ⟨first, ptr, t₁, b, -, hload, -, rfl⟩ := insertRecords_cases hinsert
  have h₁ := ((h.getBlockForInsert pick).load hload).offerBlock ptr b
  exact h₁.of_sameDirectory ⟨rfl, rfl, le_rfl⟩

theorem Indexed.insertChunks (h : t.Indexed) {chunks : List (List ArrayData)}
    (hinsert : t.insertChunks pick chunks = some t') : t'.Indexed := by
  have hmeets := Run.meets_true (fun t columnData => DBTable.insertRecords pick t columnData) t chunks
  exact hmeets.invariant (fun s columnData s' hs _ hstep => hs.insertRecords hstep) h hinsert

theorem Indexed.insertBlocks (h : t.Indexed) {inputBlocks : List Block}
    (hinsert : t.insertBlocks inputBlocks = some t') : t'.Indexed := by
  have hadd : ∀ (bs : List Block) (t : DBTable), t.Indexed → (bs.foldl addBlock t).Indexed := by
    intro bs
    induction bs with
    | nil => exact fun t h => h
    | cons b bs ih => exact fun t h => ih _ (h.newBlock (t.addBlock_newBlock b))
  unfold DBTable.insertBlocks at hinsert
  split at hinsert
  . cases hinsert
    exact h
  . obtain ⟨ptr, -, hinsert⟩ := Option.bind_eq_some_iff.mp hinsert
    obtain ⟨b, -, hinsert⟩ := Option.bind_eq_some_iff.mp hinsert
    split at hinsert
    . cases hinsert
    . cases hinsert
      exact hadd inputBlocks t h

/-! Deletes. -/

/--
The block of the row is rebuilt as a new object.
-/
structure RowDeleted (t : DBTable) (info : BlockInfo) (ptr : BlockPtr) (b : Block) (s : Block.RebuildState)
    (t' : DBTable) : Prop where
  lookup_eq : t.blocks.lookup info.blockId = some ptr
  block_eq : t.block ptr = some b
  rowNum_nonneg : 0 ≤ info.rowNum
  rebuild_eq : (Block.new info.blockId t.schema b.capacity false).insertRecordsFrom t.blockMap b.rowIdMap
    (b.setValid info.rowNum.toNat false).valid b.getColumns = some s
  schema_eq : t'.schema = t.schema
  heap_eq : t'.heap = t.heap.set ptr { b.setValid info.rowNum.toNat false with rowIdMap := s.rowMap } ++ [s.block]
  blocks_eq : t'.blocks = t.blocks.insert info.blockId t.heap.length
  blockCounter_eq : t'.blockCounter = t.blockCounter
  insertPool_eq : t'.insertPool = if (t.insertPool.lookup info.blockId).isSome then
    t.insertPool.insert info.blockId t.heap.length else t.insertPool
  blockRowOffsets_eq : t'.blockRowOffsets = t.blockRowOffsets

theorem deleteRecordTable_cases {rowId : UInt32} (hdelete : t.deleteRecordTable rowId = some t')
    : t.blockMap.lookup (rowKey rowId) = none ∧ t' = t ∨
        ∃ info ptr b s, t.blockMap.lookup (rowKey rowId) = some info ∧ RowDeleted t info ptr b s t' := by
  unfold DBTable.deleteRecordTable at hdelete
  split at hdelete
  . next hnone =>
    cases hdelete
    exact .inl ⟨hnone, rfl⟩
  . next info hinfo =>
    obtain ⟨ptr, hptr, hdelete⟩ := Option.bind_eq_some_iff.mp hdelete
    obtain ⟨b, hb, hdelete⟩ := Option.bind_eq_some_iff.mp hdelete
    split at hdelete
    . cases hdelete
    . next hrow =>
      obtain ⟨s, hs, hdelete⟩ := Option.bind_eq_some_iff.mp hdelete
      cases hdelete
      refine .inr ⟨info, ptr, b, s, hinfo, hptr, hb, by omega, hs, rfl, rfl, rfl, rfl, ?_, rfl⟩
      cases t.insertPool.lookup info.blockId with
      | none => rfl
      | some ptr' => rfl

theorem Indexed.rowDeleted (h : t.Indexed) {info : BlockInfo} {ptr : BlockPtr} {b : Block} {s : Block.RebuildState}
    (hdelete : RowDeleted t info ptr b s t') : t'.Indexed := by
  have hkey := (h.keys info.blockId).mp (by simp [hdelete.lookup_eq])
  apply h.of_lookup (j := info.blockId)
  . rw [hdelete.blockCounter_eq]
    exact h.counter_nonneg
  . intro k
    rw [hdelete.blockCounter_eq]
    omega
  . intro k
    rw [hdelete.blocks_eq]
    exact Map.lookup_insert_eq _ _ _ _
  . rw [hdelete.heap_eq, List.length_append, List.length_set, List.length_singleton]
    exact Nat.lt_succ_self _

theorem Indexed.step (h : t.Indexed) {call : Call} (hstep : t.step pick simpleAtoi call = some t') : t'.Indexed := by
  cases call with
  | createBlock =>
    cases hstep
    exact h.createBlock
  | insertBlocks inputBlocks => exact h.insertBlocks hstep
  | insertRecords columnData => exact h.insertRecords hstep
  | insertChunks chunks => exact h.insertChunks hstep
  | insertRecord record byteWidths =>
    obtain ⟨⟨info, t₁, record₁⟩, hinsert, hstep⟩ := Option.bind_eq_some_iff.mp hstep
    cases hstep
    obtain ⟨ptr, t₁, b, b', rowNum, hinserted, -, -⟩ := insertRecord_cases hinsert
    exact h.recordInserted hinserted
  | insertCsvRecord values byteWidths =>
    obtain ⟨ptr, t₁, b, b', rowNum, hinserted, -⟩ := insertCsvRecord_cases hstep
    exact h.recordInserted hinserted
  | insertRecordTable rowId record byteWidths =>
    obtain ⟨⟨t₁, record₁⟩, hinsert, hstep⟩ := Option.bind_eq_some_iff.mp hstep
    cases hstep
    unfold DBTable.insertRecordTable at hinsert
    obtain ⟨⟨info, t₂, record₂⟩, hinsert, hstep⟩ := Option.bind_eq_some_iff.mp hinsert
    cases hstep
    obtain ⟨ptr, t₁, b, b', rowNum, hinserted, -, -⟩ := insertRecord_cases hinsert
    exact (h.recordInserted hinserted).of_sameDirectory ⟨rfl, rfl, le_rfl⟩
  | deleteRecordTable rowId =>
    rcases deleteRecordTable_cases hstep with ⟨-, rfl⟩ | ⟨info, ptr, b, s, -, hdeleted⟩
    . exact h
    . exact h.rowDeleted hdeleted

theorem Indexed.run (h : t.Indexed) {calls : List Call} (hcalls : calls.foldlM (DBTable.step pick simpleAtoi) t = some t')
    : t'.Indexed :=
  (Run.meets_true (DBTable.step pick simpleAtoi) t calls).invariant (fun _ _ _ hs _ hstep => hs.step hstep) h hcalls

end DBTable

end Hustle.Storage
