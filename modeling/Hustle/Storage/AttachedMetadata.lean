import Hustle.Storage.Sma
import Hustle.Storage.RowOffsets

/-!
This module contains the metadata that is attached to the blocks of a table. It is built for all blocks at once, and
the functions of `MetadataAttachedBlock` that invalidate it are not virtual, while the table calls those of `Block`: none
of them changes the metadata.
-/

namespace Hustle.Storage

/-! Building metadata. -/

namespace Column

def int64Values (c : Column) : List (BitVec 64) :=
  match c.array.buffers with
  | .int64 values => (values.drop c.array.offset).take c.array.length
  | .string _ _ => []

/--
`GenerateMetadataForColumn`: the least and the greatest value of the integers, null if there are none.
-/
def generateMetadata (c : Column) : List (Option Sma) :=
  match c.array.buffers with
  | .int64 _ => [if h : c.int64Values = [] then none else some (Sma.new c.int64Values h)]
  | .string _ _ => []

end Column

/--
Entries of `column_metadata_list_` and `column_metadata_valid_`.
-/
structure ColumnMetadata where
  list : List (Option Sma)
  valid : Bool
  deriving DecidableEq

def Block.buildMetadata (b : Block) : List ColumnMetadata :=
  b.columns.map fun c => ⟨c.generateMetadata, true⟩

/--
A table and the metadata of its objects. Objects for which it has not been built have no entry.
-/
structure MetadataTable where
  table : DBTable
  metadata : Map BlockPtr (List ColumnMetadata)

namespace MetadataTable

def buildBlock (s : MetadataTable) (blockId : Nat) : Option MetadataTable := do
  let ptr ← s.table.blocks.lookup (blockId : Int)
  let block ← s.table.block ptr
  -- a block that has been rebuilt by a delete is no `MetadataAttachedBlock`
  return if block.metadataEnabled then { s with metadata := s.metadata.insert ptr block.buildMetadata } else s

def buildMetadata (s : MetadataTable) : Option MetadataTable :=
  if s.table.metadataEnabled then
    (List.range s.table.blocks.entries.length).foldlM buildBlock s
  else
    some s

/--
A table with metadata that has just been constructed. Blocks from record batches build theirs at once.
-/
def IsNew (s : MetadataTable) : Prop :=
  (∃ schema blockCapacity, s = ⟨DBTable.new schema blockCapacity true, ∅⟩) ∨
    ∃ batches blockCapacity t, DBTable.ofBatches batches blockCapacity true = some t ∧
      buildMetadata ⟨t, ∅⟩ = some s

inductive Call where
  | buildMetadata
  | insertRecord (record : List UInt8) (byteWidths : List Int)
  | insertCsvRecord (values : List (List UInt8)) (byteWidths : List Int)
  | insertRecords (columnData : List ArrayData)
  | insertChunks (chunks : List (List ArrayData))
  | insertRecordTable (rowId : UInt32) (record : List UInt8) (byteWidths : List Int)
  | updateRecordTable (rowId : UInt32) (updateMetaInfo : List UpdateMetaInfo) (record : List UInt8)
    (byteWidths : List Int)
  | deleteRecordTable (rowId : UInt32)

section

variable (pick : List Int → Nat) (simpleAtoi : List UInt8 → Option (BitVec 64))

def stepTable (t : DBTable) : Call → Option DBTable
  | .buildMetadata => some t
  | .insertRecord record byteWidths => do
    let (_, t, _) ← t.insertRecord pick record byteWidths
    return t
  | .insertCsvRecord values byteWidths => t.insertCsvRecord pick simpleAtoi values byteWidths
  | .insertRecords columnData => t.insertRecords pick columnData
  | .insertChunks chunks => t.insertChunks pick chunks
  | .insertRecordTable rowId record byteWidths => do
    let (t, _) ← t.insertRecordTable pick rowId record byteWidths
    return t
  | .updateRecordTable rowId updateMetaInfo record byteWidths => do
    let (t, _) ← t.updateRecordTable pick rowId updateMetaInfo record byteWidths
    return t
  | .deleteRecordTable rowId => t.deleteRecordTable rowId

def step (s : MetadataTable) : Call → Option MetadataTable
  | .buildMetadata => s.buildMetadata
  | call => do
    let table ← stepTable pick simpleAtoi s.table call
    return { s with table := table }

end

end MetadataTable

/-! What is asked for. -/

/--
The least and the greatest value are bounds for the value.
-/
def Bounds (ends : Option Sma) (x : BitVec 64) : Prop :=
  ∃ sma ∈ ends, sma.min.toInt ≤ x.toInt ∧ x.toInt ≤ sma.max.toInt

instance (ends : Option Sma) (x : BitVec 64) : Decidable (Bounds ends x) :=
  inferInstanceAs (Decidable (∃ sma ∈ ends, sma.min.toInt ≤ x.toInt ∧ x.toInt ≤ sma.max.toInt))

/--
The metadata that is valid has bounds for all values.
-/
def UpToDate (metadata : List ColumnMetadata) (columns : List Column) : Prop :=
  ∀ x ∈ metadata.zip columns, x.1.valid = true → ∀ ends ∈ x.1.list, ∀ v ∈ x.2.int64Values, Bounds ends v

-- the elements of the list are tested, not all 2^64 values
instance (ends : Option Sma) (values : List (BitVec 64)) : Decidable (∀ v ∈ values, Bounds ends v) :=
  List.decidableBAll _ values

instance (metadata : List ColumnMetadata) (columns : List Column) : Decidable (UpToDate metadata columns) :=
  inferInstanceAs (Decidable (∀ x ∈ metadata.zip columns, x.1.valid = true → ∀ ends ∈ x.1.list,
    ∀ v ∈ x.2.int64Values, Bounds ends v))

namespace MetadataTable

def NeverStale (s : MetadataTable) : Prop :=
  ∀ entry ∈ s.table.blocks.entries, ∀ block ∈ s.table.block entry.2, ∀ metadata ∈ s.metadata.lookup entry.2,
    UpToDate metadata block.columns

instance (s : MetadataTable) : Decidable s.NeverStale :=
  inferInstanceAs (Decidable (∀ entry ∈ s.table.blocks.entries, ∀ block ∈ s.table.block entry.2,
    ∀ metadata ∈ s.metadata.lookup entry.2, UpToDate metadata block.columns))

/-! When it holds. -/

/--
The object has metadata that is valid and can be wrong.
-/
def HasMetadata (s : MetadataTable) (ptr : BlockPtr) : Prop :=
  ∃ metadata ∈ s.metadata.lookup ptr, ∃ m ∈ metadata, m.valid = true ∧ m.list ≠ []

instance (s : MetadataTable) (ptr : BlockPtr) : Decidable (s.HasMetadata ptr) :=
  inferInstanceAs (Decidable (∃ metadata ∈ s.metadata.lookup ptr, ∃ m ∈ metadata, m.valid = true ∧ m.list ≠ []))

end MetadataTable

/--
No block of the insert pool is one of them.
-/
def DBTable.PoolAvoids (attached : BlockPtr → Prop) (t : DBTable) : Prop :=
  ∀ entry ∈ t.insertPool.entries, ¬attached entry.2

instance (attached : BlockPtr → Prop) [DecidablePred attached] (t : DBTable) : Decidable (t.PoolAvoids attached) :=
  inferInstanceAs (Decidable (∀ entry ∈ t.insertPool.entries, ¬attached entry.2))

/--
A record of the size goes to none of the objects: they are not the block that is taken from the insert pool, or it has
no room.
-/
def DBTable.RecordAvoids (pick : List Int → Nat) (attached : BlockPtr → Prop) (t : DBTable) (recordSize : Int) : Prop :=
  ∀ x ∈ t.blockForSize pick recordSize, ¬attached x.1

instance (pick : List Int → Nat) (attached : BlockPtr → Prop) [DecidablePred attached] (t : DBTable) (recordSize : Int)
    : Decidable (t.RecordAvoids pick attached recordSize) :=
  inferInstanceAs (Decidable (∀ x ∈ t.blockForSize pick recordSize, ¬attached x.1))

namespace MetadataTable

/--
The call writes to no object that has metadata. Blocks are only written to by inserts, which take a block from the
insert pool or create one, and by updates of integers.
-/
def Avoids (pick : List Int → Nat) (s : MetadataTable) : Call → Prop
  | .buildMetadata | .deleteRecordTable _ => True
  | .insertRecord _ byteWidths | .insertRecordTable _ _ byteWidths =>
    s.table.RecordAvoids pick s.HasMetadata (s.table.getRecordSize byteWidths)
  | .insertCsvRecord _ byteWidths =>
    s.table.RecordAvoids pick s.HasMetadata (byteWidths.take s.table.schema.fields.length).sum
  | .insertRecords _ => ¬s.HasMetadata (s.table.getBlockForInsert pick).1
  | .insertChunks _ => s.table.PoolAvoids s.HasMetadata
  | .updateRecordTable rowId updateMetaInfo _ _ =>
    ∀ info ∈ s.table.blockMap.lookup (rowKey rowId), ∀ ptr ∈ s.table.blocks.lookup info.blockId,
      ∀ i ∈ updateMetaInfo, (s.table.schema.fields[i.colNum]? = some .int64 → ¬s.HasMetadata ptr) ∧
        (s.table.schema.fields[i.colNum]? = some .string → s.table.PoolAvoids s.HasMetadata)

instance (pick : List Int → Nat) (s : MetadataTable) (call : Call) : Decidable (s.Avoids pick call) := by
  cases call <;> unfold Avoids <;> infer_instance

end MetadataTable

/-! What the functions of a table leave alone. -/

namespace DBTable

variable {attached : BlockPtr → Prop} {t t' t'' : DBTable} {pick : List Int → Nat}
  {simpleAtoi : List UInt8 → Option (BitVec 64)}

/--
The columns of some of the objects are the same as before. If the insert pool has had none of these objects, it has none.
-/
structure Untouched (attached : BlockPtr → Prop) (t t' : DBTable) : Prop where
  schema_eq : t'.schema = t.schema
  length_heap_le : t.heap.length ≤ t'.heap.length
  columns : ∀ ptr, attached ptr → (t'.block ptr).map Block.columns = (t.block ptr).map Block.columns
  poolAvoids : t.PoolAvoids attached → t'.PoolAvoids attached

def OnHeap (attached : BlockPtr → Prop) (t : DBTable) : Prop :=
  ∀ ptr, attached ptr → ptr < t.heap.length

theorem poolAvoids_iff
    : t.PoolAvoids attached ↔ ∀ k ptr, t.insertPool.lookup k = some ptr → ¬attached ptr := by
  constructor
  . intro h k ptr hk
    exact h ⟨k, ptr⟩ (AList.mem_lookup_iff.mp hk)
  . rintro h ⟨k, ptr⟩ hentry
    exact h k ptr (AList.mem_lookup_iff.mpr hentry)

theorem Untouched.refl (attached : BlockPtr → Prop) (t : DBTable) : Untouched attached t t :=
  ⟨rfl, Nat.le_refl _, fun _ _ => rfl, fun h => h⟩

theorem Untouched.trans (h : Untouched attached t t') (h' : Untouched attached t' t'') : Untouched attached t t'' where
  schema_eq := h'.schema_eq.trans h.schema_eq
  length_heap_le := h.length_heap_le.trans h'.length_heap_le
  columns ptr hptr := (h'.columns ptr hptr).trans (h.columns ptr hptr)
  poolAvoids hpool := h'.poolAvoids (h.poolAvoids hpool)

theorem Untouched.of_eq (hschema : t'.schema = t.schema) (hheap : t'.heap = t.heap)
    (hpool : t'.insertPool = t.insertPool)
    : Untouched attached t t' where
  schema_eq := hschema
  length_heap_le := by rw [hheap]
  columns ptr _ := by rw [DBTable.block, DBTable.block, hheap]
  poolAvoids h := by
    unfold PoolAvoids
    rw [hpool]
    exact h

theorem OnHeap.mono (h : OnHeap attached t) (huntouched : Untouched attached t t') : OnHeap attached t' :=
  fun ptr hptr => (h ptr hptr).trans_le huntouched.length_heap_le

theorem OnHeap.not_new (h : OnHeap attached t) : ¬attached t.heap.length :=
  fun hnew => absurd (h _ hnew) (Nat.lt_irrefl _)

theorem OnHeap.createBlock (h : OnHeap attached t)
    : Untouched attached t t.createBlock.2 ∧ ¬attached t.createBlock.1 := by
  refine ⟨⟨rfl, by simp [DBTable.createBlock], ?_, fun hpool => hpool⟩, h.not_new⟩
  intro ptr hptr
  rw [DBTable.block, DBTable.createBlock, List.getElem?_append_left (h ptr hptr)]
  rfl

theorem OnHeap.getBlockForInsert (h : OnHeap attached t) (pick : List Int → Nat)
    : Untouched attached t (t.getBlockForInsert pick).2 := by
  obtain ⟨-, heq⟩ | ⟨key, ptr, -, heq⟩ := t.getBlockForInsert_cases pick
  . rw [heq]
    exact h.createBlock.1
  . rw [heq]
    refine ⟨rfl, Nat.le_refl _, fun _ _ => rfl, ?_⟩
    rw [poolAvoids_iff, poolAvoids_iff]
    intro hpool k ptr' hk
    dsimp only at hk
    rw [Map.lookup_erase_eq] at hk
    split at hk
    . cases hk
    . exact hpool k ptr' hk

theorem OnHeap.not_picked (h : OnHeap attached t) (hpool : t.PoolAvoids attached) (pick : List Int → Nat)
    : ¬attached (t.getBlockForInsert pick).1 := by
  obtain ⟨-, heq⟩ | ⟨key, ptr, hlookup, heq⟩ := t.getBlockForInsert_cases pick
  . rw [heq]
    exact h.createBlock.2
  . rw [heq]
    exact poolAvoids_iff.mp hpool key ptr hlookup

theorem untouched_setBlock {ptr : BlockPtr} (hptr : ¬attached ptr) (b : Block)
    : Untouched attached t (t.setBlock ptr b) := by
  refine ⟨rfl, by simp [DBTable.setBlock], ?_, fun hpool => hpool⟩
  intro ptr' hptr'
  have hne : ptr ≠ ptr' := by
    rintro rfl
    exact hptr hptr'
  rw [DBTable.block, DBTable.setBlock, List.getElem?_set_ne hne]
  rfl

theorem untouched_offerBlock {ptr : BlockPtr} (hptr : ¬attached ptr) (b : Block)
    : Untouched attached t (t.offerBlock ptr b) := by
  unfold DBTable.offerBlock
  split
  . refine ⟨rfl, Nat.le_refl _, fun _ _ => rfl, ?_⟩
    rw [poolAvoids_iff, poolAvoids_iff]
    intro hpool k ptr' hk
    rw [Map.lookup_insert_eq] at hk
    split at hk
    . cases hk
      exact hptr
    . exact hpool k ptr' hk
  . exact Untouched.refl attached t

/-! Inserts. -/

theorem OnHeap.blockForSize (h : OnHeap attached t) {recordSize : Int} {x : BlockPtr × DBTable}
    (hblock : t.blockForSize pick recordSize = some x)
    : Untouched attached t x.2 := by
  have hget := h.getBlockForInsert pick
  obtain ⟨b, -, ⟨-, rfl⟩ | ⟨-, rfl⟩⟩ := blockForSize_cases hblock
  . exact hget.trans (h.mono hget).createBlock.1
  . exact hget

theorem OnHeap.recordAvoids (h : OnHeap attached t) (hpick : ¬attached (t.getBlockForInsert pick).1) (recordSize : Int)
    : t.RecordAvoids pick attached recordSize := by
  intro x hblock
  obtain ⟨b, -, ⟨-, rfl⟩ | ⟨-, rfl⟩⟩ := blockForSize_cases hblock
  . exact (h.mono (h.getBlockForInsert pick)).createBlock.2
  . exact hpick

theorem OnHeap.recordInserted (h : OnHeap attached t) {recordSize : Int}
    (havoids : t.RecordAvoids pick attached recordSize) {ptr : BlockPtr} {t₁ : DBTable} {b b' : Block}
    (hinsert : RecordInserted t pick recordSize ptr t₁ b b' t')
    : Untouched attached t t' := by
  have h₁ := h.blockForSize hinsert.blockForSize_eq
  have hptr := havoids _ hinsert.blockForSize_eq
  have hset : Untouched attached t₁ { t₁.setBlock ptr b' with numRows := t₁.numRows + 1 } :=
    (untouched_setBlock hptr b').trans (Untouched.of_eq rfl rfl rfl)
  rw [hinsert.eq]
  exact (h₁.trans hset).trans (untouched_offerBlock hptr b')

theorem OnHeap.insertRecordTable (h : OnHeap attached t) {rowId : UInt32} {record record' : List UInt8}
    {byteWidths : List Int} (havoids : t.RecordAvoids pick attached (t.getRecordSize byteWidths))
    (hinsert : t.insertRecordTable pick rowId record byteWidths = some (t', record'))
    : Untouched attached t t' := by
  unfold DBTable.insertRecordTable at hinsert
  obtain ⟨⟨info, t₁, record₁⟩, hrecord, hinsert⟩ := Option.bind_eq_some_iff.mp hinsert
  cases hinsert
  obtain ⟨ptr, t₂, b, b', rowNum, hinserted, -, -⟩ := insertRecord_cases hrecord
  exact (h.recordInserted havoids hinserted).trans (Untouched.of_eq rfl rfl rfl)

/--
What holds between the rows of a load: the block that is loaded is none of the objects.
-/
structure LoadAvoids (attached : BlockPtr → Prop) (t : DBTable) (s : Loader.State DBTable) : Prop where
  untouched : Untouched attached t s.table
  block : ¬attached s.block

theorem LoadAvoids.insertSlice {s : Loader.State DBTable} (h : LoadAvoids attached t s) {columnData : List ArrayData}
    (hinsert : loader.insertRecords s.table s.block columnData = some t')
    : Untouched attached t t' := by
  obtain ⟨b, -, hinsert⟩ := Option.bind_eq_some_iff.mp hinsert
  obtain ⟨⟨rowNum, b'⟩, -, hinsert⟩ := Option.bind_eq_some_iff.mp hinsert
  cases hinsert
  exact h.untouched.trans (untouched_setBlock h.block b')

theorem LoadAvoids.loadRow {s s' : Loader.State DBTable} (h : LoadAvoids attached t s) (hheap : OnHeap attached t)
    {columnData : List ArrayData} {row : Nat} (hrow : loader.loadRow columnData s row = some s')
    : LoadAvoids attached t s' := by
  obtain ⟨size, -, hrow⟩ := Option.bind_eq_some_iff.mp hrow
  obtain ⟨left, -, hrow⟩ := Option.bind_eq_some_iff.mp hrow
  split at hrow
  . cases hrow
  . split at hrow
    . obtain ⟨t₁, ht₁, hrow⟩ := Option.bind_eq_some_iff.mp hrow
      cases hrow
      have h₁ := h.insertSlice ht₁
      obtain ⟨hcreated, hnew⟩ := (hheap.mono h₁).createBlock
      exact ⟨h₁.trans hcreated, hnew⟩
    . cases hrow
      exact ⟨h.untouched, h.block⟩

theorem OnHeap.insertRecords (h : OnHeap attached t) (hpick : ¬attached (t.getBlockForInsert pick).1)
    {columnData : List ArrayData} (hinsert : t.insertRecords pick columnData = some t')
    : Untouched attached t t' := by
  obtain ⟨first, ptr, t₁, b, -, hload, -, rfl⟩ := insertRecords_cases hinsert
  obtain ⟨s, hs, hload⟩ := Option.bind_eq_some_iff.mp hload
  obtain ⟨t₂, ht₂, hload⟩ := Option.bind_eq_some_iff.mp hload
  cases hload
  have hstart : LoadAvoids attached t ⟨(t.getBlockForInsert pick).2, (t.getBlockForInsert pick).1, 0, 0⟩ :=
    ⟨h.getBlockForInsert pick, hpick⟩
  have hloaded : LoadAvoids attached t s :=
    (Run.meets_true (loader.loadRow columnData) _ (List.range first.length)).invariant
      (fun s row s' hs _ hstep => hs.loadRow h hstep) hstart hs
  exact ((hloaded.insertSlice ht₂).trans (untouched_offerBlock hloaded.block b)).trans (Untouched.of_eq rfl rfl rfl)

theorem OnHeap.insertChunks (h : OnHeap attached t) (hpool : t.PoolAvoids attached) {chunks : List (List ArrayData)}
    (hinsert : t.insertChunks pick chunks = some t')
    : Untouched attached t t' := by
  have hstep : ∀ s columnData s', Untouched attached t s → True → DBTable.insertRecords pick s columnData = some s' →
      Untouched attached t s' := by
    intro s columnData s' hs _ hinsert
    have hheap := h.mono hs
    exact hs.trans (hheap.insertRecords (hheap.not_picked (hs.poolAvoids hpool) pick) hinsert)
  have hmeets := Run.meets_true (fun t columnData => DBTable.insertRecords pick t columnData) t chunks
  exact hmeets.invariant hstep (Untouched.refl attached t) hinsert

/-! Deletes and updates. -/

theorem OnHeap.deleteRecordTable (h : OnHeap attached t) {rowId : UInt32}
    (hdelete : t.deleteRecordTable rowId = some t')
    : Untouched attached t t' := by
  obtain ⟨-, rfl⟩ | ⟨info, ptr, b, s, -, hdeleted⟩ := deleteRecordTable_cases hdelete
  . exact Untouched.refl attached t'
  . refine ⟨hdeleted.schema_eq, by simp [hdeleted.heap_eq], ?_, ?_⟩
    . intro ptr' hptr'
      have hlt := h ptr' hptr'
      have hb := hdeleted.block_eq
      rw [DBTable.block] at hb
      rw [DBTable.block, DBTable.block, hdeleted.heap_eq, List.getElem?_append_left (by simpa using hlt),
        List.getElem?_set]
      split
      . next heq =>
        rw [← heq] at hlt ⊢
        rw [if_pos hlt, hb]
        rfl
      . rfl
    . rw [poolAvoids_iff, poolAvoids_iff]
      intro hpool k ptr' hk
      rw [hdeleted.insertPool_eq] at hk
      split at hk
      . rw [Map.lookup_insert_eq] at hk
        split at hk
        . cases hk
          exact h.not_new
        . exact hpool k ptr' hk
      . exact hpool k ptr' hk

theorem OnHeap.updateColumn (h : OnHeap attached t) {rowId : UInt32} {ptr : BlockPtr} {rowNum : Nat}
    {byteWidths : List Int} {s s' : UpdateState} (hs : Untouched attached t s.table) {info : UpdateMetaInfo}
    (hint : t.schema.fields[info.colNum]? = some .int64 → ¬attached ptr)
    (hstring : t.schema.fields[info.colNum]? = some .string → t.PoolAvoids attached)
    (hupdate : updateColumn pick rowId ptr rowNum byteWidths s info = some s')
    : Untouched attached t s'.table := by
  unfold DBTable.updateColumn at hupdate
  obtain ⟨byteWidth, -, hupdate⟩ := Option.bind_eq_some_iff.mp hupdate
  obtain ⟨type, htype, hupdate⟩ := Option.bind_eq_some_iff.mp hupdate
  rw [hs.schema_eq] at htype
  cases type with
  | int64 =>
    obtain ⟨b, -, hupdate⟩ := Option.bind_eq_some_iff.mp hupdate
    obtain ⟨⟨b', record⟩, -, hupdate⟩ := Option.bind_eq_some_iff.mp hupdate
    cases hupdate
    exact hs.trans (untouched_setBlock (hint htype) b')
  | string =>
    obtain ⟨t₁, ht₁, hupdate⟩ := Option.bind_eq_some_iff.mp hupdate
    obtain ⟨⟨t₂, record⟩, ht₂, hupdate⟩ := Option.bind_eq_some_iff.mp hupdate
    cases hupdate
    have h₁ := hs.trans ((h.mono hs).deleteRecordTable ht₁)
    have hheap := h.mono h₁
    exact h₁.trans (hheap.insertRecordTable
      (hheap.recordAvoids (hheap.not_picked (h₁.poolAvoids (hstring htype)) pick) _) ht₂)

theorem OnHeap.updateRecordTable (h : OnHeap attached t) {rowId : UInt32} {updateMetaInfo : List UpdateMetaInfo}
    {record record' : List UInt8} {byteWidths : List Int}
    (havoids : ∀ info ∈ t.blockMap.lookup (rowKey rowId), ∀ ptr ∈ t.blocks.lookup info.blockId,
      ∀ i ∈ updateMetaInfo, (t.schema.fields[i.colNum]? = some .int64 → ¬attached ptr) ∧
        (t.schema.fields[i.colNum]? = some .string → t.PoolAvoids attached))
    (hupdate : t.updateRecordTable pick rowId updateMetaInfo record byteWidths = some (t', record'))
    : Untouched attached t t' := by
  unfold DBTable.updateRecordTable at hupdate
  split at hupdate
  . cases hupdate
    exact Untouched.refl attached t
  . next info hinfo =>
    obtain ⟨ptr, hptr, hupdate⟩ := Option.bind_eq_some_iff.mp hupdate
    split at hupdate
    . cases hupdate
    . obtain ⟨s, hs, hupdate⟩ := Option.bind_eq_some_iff.mp hupdate
      cases hupdate
      have hmeets := (Run.meets_true (DBTable.updateColumn pick rowId ptr info.rowNum.toNat byteWidths)
        ⟨t, record, 0, 0⟩ updateMetaInfo).and_forall (havoids info hinfo ptr hptr)
      exact @Run.Meets.invariant _ _ _ (fun s => Untouched attached t s.table) _
        (fun s i s' hs hi hstep => h.updateColumn hs hi.2.1 hi.2.2 hstep) _ _ _ hmeets (Untouched.refl attached t) hs

end DBTable

/-! Runs. -/

theorem Column.generateMetadata_bounds {c : Column} {ends : Option Sma} (hends : ends ∈ c.generateMetadata)
    {x : BitVec 64} (hx : x ∈ c.int64Values)
    : Bounds ends x := by
  unfold generateMetadata at hends
  split at hends
  . rw [dif_neg (List.ne_nil_of_mem hx), List.mem_singleton] at hends
    exact ⟨_, hends, Sma.min_le hx, Sma.le_max hx⟩
  . cases hends

theorem Block.buildMetadata_upToDate (b : Block) : UpToDate b.buildMetadata b.columns := by
  intro x hx _ ends hends v hv
  rw [buildMetadata, List.zip_map_left, List.zip_eq_zipWith, List.zipWith_self, List.map_map, List.mem_map] at hx
  obtain ⟨c, -, rfl⟩ := hx
  exact Column.generateMetadata_bounds hends hv

namespace MetadataTable

variable {s s' : MetadataTable} {pick : List Int → Nat} {simpleAtoi : List UInt8 → Option (BitVec 64)}

def Inv (s : MetadataTable) : Prop :=
  ∀ ptr metadata, s.metadata.lookup ptr = some metadata →
    ∃ block, s.table.block ptr = some block ∧ UpToDate metadata block.columns

theorem Inv.neverStale (h : s.Inv) : s.NeverStale := by
  intro entry _ block hblock metadata hmetadata
  obtain ⟨block', hblock', hdate⟩ := h entry.2 metadata hmetadata
  rw [hblock] at hblock'
  cases hblock'
  exact hdate

theorem Inv.onHeap (h : s.Inv) : s.table.OnHeap s.HasMetadata := by
  rintro ptr ⟨metadata, hmetadata, -⟩
  obtain ⟨block, hblock, -⟩ := h ptr metadata hmetadata
  exact (List.getElem?_eq_some_iff.mp hblock).1

theorem Inv.untouched (h : s.Inv) {t : DBTable} (ht : DBTable.Untouched s.HasMetadata s.table t)
    : Inv { s with table := t } := by
  intro ptr metadata hmetadata
  obtain ⟨block, hblock, hdate⟩ := h ptr metadata hmetadata
  have hlt := (List.getElem?_eq_some_iff.mp hblock).1.trans_le ht.length_heap_le
  have hblock' : t.block ptr = some (t.heap.get ⟨ptr, hlt⟩) := List.getElem?_eq_getElem hlt
  refine ⟨_, hblock', ?_⟩
  by_cases hhas : s.HasMetadata ptr
  . have hcolumns := ht.columns ptr hhas
    rw [hblock, hblock', Option.map_some, Option.map_some, Option.some.injEq] at hcolumns
    rw [hcolumns]
    exact hdate
  . intro x hx hvalid ends hends
    have hmem : x.1 ∈ metadata := (List.of_mem_zip hx).1
    exact absurd ⟨metadata, hmetadata, x.1, hmem, hvalid, List.ne_nil_of_mem hends⟩ hhas

theorem Inv.buildBlock (h : s.Inv) {blockId : Nat} (hbuild : s.buildBlock blockId = some s') : s'.Inv := by
  obtain ⟨ptr, -, hbuild⟩ := Option.bind_eq_some_iff.mp hbuild
  obtain ⟨block, hblock, hbuild⟩ := Option.bind_eq_some_iff.mp hbuild
  split at hbuild
  . cases hbuild
    intro ptr' metadata hmetadata
    dsimp only at hmetadata ⊢
    rw [Map.lookup_insert_eq] at hmetadata
    split at hmetadata
    . next heq =>
      cases hmetadata
      rw [heq]
      exact ⟨block, hblock, block.buildMetadata_upToDate⟩
    . exact h ptr' metadata hmetadata
  . cases hbuild
    exact h

theorem Inv.buildMetadata (h : s.Inv) (hbuild : s.buildMetadata = some s') : s'.Inv := by
  unfold MetadataTable.buildMetadata at hbuild
  split at hbuild
  . exact (Run.meets_true MetadataTable.buildBlock s _).invariant (fun s i s' hs _ hstep => hs.buildBlock hstep) h hbuild
  . cases hbuild
    exact h

theorem IsNew.inv (h : s.IsNew) : s.Inv := by
  have hempty : ∀ t, Inv ⟨t, ∅⟩ := by
    intro t ptr metadata hmetadata
    cases hmetadata
  rcases h with ⟨schema, blockCapacity, rfl⟩ | ⟨batches, blockCapacity, t, -, hbuild⟩
  . exact hempty _
  . exact (hempty t).buildMetadata hbuild

theorem stepTable_untouched (h : s.Inv) {call : Call} (havoids : s.Avoids pick call) {t : DBTable}
    (hstep : stepTable pick simpleAtoi s.table call = some t)
    : DBTable.Untouched s.HasMetadata s.table t := by
  have hheap := h.onHeap
  cases call with
  | buildMetadata =>
    cases hstep
    exact DBTable.Untouched.refl _ _
  | insertRecord record byteWidths =>
    obtain ⟨⟨info, t₁, record₁⟩, hinsert, hstep⟩ := Option.bind_eq_some_iff.mp hstep
    cases hstep
    obtain ⟨ptr, t₁, b, b', rowNum, hinserted, -, -⟩ := DBTable.insertRecord_cases hinsert
    exact hheap.recordInserted havoids hinserted
  | insertCsvRecord values byteWidths =>
    obtain ⟨ptr, t₁, b, b', rowNum, hinserted, -⟩ := DBTable.insertCsvRecord_cases hstep
    exact hheap.recordInserted havoids hinserted
  | insertRecords columnData => exact hheap.insertRecords havoids hstep
  | insertChunks chunks => exact hheap.insertChunks havoids hstep
  | insertRecordTable rowId record byteWidths =>
    obtain ⟨⟨t₁, record₁⟩, hinsert, hstep⟩ := Option.bind_eq_some_iff.mp hstep
    cases hstep
    exact hheap.insertRecordTable havoids hinsert
  | updateRecordTable rowId updateMetaInfo record byteWidths =>
    obtain ⟨⟨t₁, record₁⟩, hupdate, hstep⟩ := Option.bind_eq_some_iff.mp hstep
    cases hstep
    exact hheap.updateRecordTable havoids hupdate
  | deleteRecordTable rowId => exact hheap.deleteRecordTable hstep

theorem Inv.step (h : s.Inv) {call : Call} (havoids : s.Avoids pick call)
    (hstep : s.step pick simpleAtoi call = some s')
    : s'.Inv := by
  unfold MetadataTable.step at hstep
  split at hstep
  . exact h.buildMetadata hstep
  . obtain ⟨t, ht, hstep⟩ := Option.bind_eq_some_iff.mp hstep
    cases hstep
    exact h.untouched (stepTable_untouched h havoids ht)

/--
In every run of calls that write to no block with metadata, the metadata is never stale.
-/
theorem run_neverStale (pick : List Int → Nat) (simpleAtoi : List UInt8 → Option (BitVec 64)) (s : MetadataTable)
    (hs : s.IsNew) (calls : List Call) (hcalls : Run.Meets (step pick simpleAtoi) (Avoids pick) s calls)
    : Run.Throughout (step pick simpleAtoi) NeverStale (fun _ _ => True) s calls :=
  Run.throughout_of_meets (fun _ h => h.neverStale) (fun _ _ _ _ => trivial)
    (fun _ _ _ h havoids hstep => h.step havoids hstep) hs.inv hcalls

def oneRowTable : MetadataTable :=
  ⟨DBTable.new DBTable.numberSchema 8 true, ∅⟩

def oneRowCalls : List Call :=
  [.insertRecord [5] [1], .buildMetadata, .insertRecordTable 1 [7] [1], .updateRecordTable 1 [⟨0, 0⟩] [3] [1],
    .buildMetadata, .deleteRecordTable 1]

theorem run_neverStale_oneRowTable
    : (oneRowCalls.foldlM (step (fun _ => 0) fun _ => none) oneRowTable).isSome ∧
        Run.Throughout (step (fun _ => 0) fun _ => none) NeverStale (fun _ _ => True) oneRowTable oneRowCalls :=
  ⟨by decide +kernel,
    run_neverStale (fun _ => 0) (fun _ => none) oneRowTable (.inl ⟨_, _, rfl⟩) oneRowCalls (by decide +kernel)⟩

def roomyTable : MetadataTable :=
  ⟨DBTable.new DBTable.numberSchema 200 true, ∅⟩

def roomyCalls : List Call :=
  [.insertRecord [5] [1], .buildMetadata, .insertRecord [9] [1]]

/--
The second insert goes to the block that has metadata.
-/
theorem not_neverStale_roomyTable
    : roomyTable.IsNew ∧
        ¬Run.Throughout (step (fun _ => 0) fun _ => none) NeverStale (fun _ _ => True) roomyTable roomyCalls := by
  refine ⟨.inl ⟨_, _, rfl⟩, ?_⟩
  intro h
  have hrun : ((do
      let s ← roomyCalls.foldlM (step (fun _ => 0) fun _ => none) roomyTable
      let ptr ← s.table.blocks.lookup 0
      let block ← s.table.block ptr
      let metadata ← s.metadata.lookup ptr
      return decide (UpToDate metadata block.columns)) : Option Bool) = some false := by decide +kernel
  obtain ⟨s, hs, hrun⟩ := Option.bind_eq_some_iff.mp hrun
  obtain ⟨ptr, hptr, hrun⟩ := Option.bind_eq_some_iff.mp hrun
  obtain ⟨block, hblock, hrun⟩ := Option.bind_eq_some_iff.mp hrun
  obtain ⟨metadata, hmetadata, hrun⟩ := Option.bind_eq_some_iff.mp hrun
  rw [Option.pure_def, Option.some.injEq] at hrun
  rw [roomyCalls, List.foldlM_cons] at hs
  obtain ⟨s₁, hs₁, hs⟩ := Option.bind_eq_some_iff.mp hs
  rw [List.foldlM_cons] at hs
  obtain ⟨s₂, hs₂, hs⟩ := Option.bind_eq_some_iff.mp hs
  rw [List.foldlM_cons] at hs
  obtain ⟨s₃, hs₃, hs⟩ := Option.bind_eq_some_iff.mp hs
  cases hs
  have hstale : s.NeverStale := ((h.2.2 s₁ hs₁).2.2 s₂ hs₂).2.2 s hs₃
  exact of_decide_eq_false hrun (hstale ⟨0, ptr⟩ (AList.mem_lookup_iff.mp hptr) block hblock metadata hmetadata)

end MetadataTable

end Hustle.Storage
