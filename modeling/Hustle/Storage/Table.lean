import Hustle.Storage.Block

/-!
This module contains the `DBTable` class. Blocks are shared between `blocks`, `insert_pool` and local
variables of the table's functions, so they live in a heap and a `std::shared_ptr<Block>` is an index
into it.
-/

namespace Hustle.Storage

abbrev BlockPtr := Nat

structure UpdateMetaInfo where
  tableId : Int
  colNum : Nat
  deriving DecidableEq, Repr

structure DBTable where
  schema : Schema
  blockCapacity : Int
  metadataEnabled : Bool
  heap : List Block
  blocks : Map Int BlockPtr
  insertPool : Map Int BlockPtr
  blockMap : Map Int BlockInfo
  blockCounter : Int
  numRows : Int
  blockRowOffsets : List Int
  deriving DecidableEq

/--
A `uint32_t` row id as a key of `block_map`, whose keys are of type `int`.
-/
def rowKey (rowId : UInt32) : Int :=
  rowId.toBitVec.toInt

theorem rowKey_inj {a b : UInt32} : rowKey a = rowKey b ↔ a = b := by
  unfold rowKey
  rw [BitVec.toInt_inj]
  constructor
  . intro h
    exact UInt32.eq_of_toBitVec_eq h
  . intro h
    rw [h]

namespace DBTable

def new (schema : Schema) (blockCapacity : Int) (metadataEnabled : Bool) : DBTable :=
  {
    schema := schema
    blockCapacity := blockCapacity
    metadataEnabled := metadataEnabled
    heap := []
    blocks := ∅
    insertPool := ∅
    blockMap := ∅
    blockCounter := 0
    numRows := 0
    blockRowOffsets := []
  }

def fixedRecordWidth (t : DBTable) : Int :=
  computeFixedRecordWidth t.schema

def createBlock (t : DBTable) : BlockPtr × DBTable :=
  let ptr := t.heap.length
  let block := Block.new t.blockCounter t.schema t.blockCapacity t.metadataEnabled
  let t' := {
    t with
      heap := t.heap ++ [block]
      blocks := t.blocks.emplace t.blockCounter ptr
      blockCounter := t.blockCounter + 1
      blockRowOffsets := t.blockRowOffsets ++ [t.numRows]
  }
  (ptr, t')

def block (t : DBTable) (ptr : BlockPtr) : Option Block :=
  t.heap[ptr]?

def getBlock (t : DBTable) (blockId : Int) : Option Block := do
  let ptr ← t.blocks.lookup blockId
  t.block ptr

/--
The row that `block_map` refers to with `info`.
-/
def row (t : DBTable) (info : BlockInfo) : Option Row := do
  let block ← t.getBlock info.blockId
  if info.rowNum < 0 then
    none
  else
    block.row info.rowNum.toNat

def setBlock (t : DBTable) (ptr : BlockPtr) (b : Block) : DBTable :=
  { t with heap := t.heap.set ptr b }

/--
`get_record_size`: eight bytes for every integer, whatever its width in the record.
-/
def getRecordSize (t : DBTable) (byteWidths : List Int) : Int :=
  (List.zipWith (fun
    | .int64, _ => (fieldSize : Int)
    | .string, byteWidth => byteWidth) t.schema.fields byteWidths).sum

section

-- Which entry of an `std::unordered_map` with the given keys `begin()` points to.
variable (pick : List Int → Nat)

def getBlockForInsert (t : DBTable) : BlockPtr × DBTable :=
  let keys := t.insertPool.keys
  match t.insertPool.entries[pick keys % keys.length]? with
  | none => t.createBlock
  | some ⟨key, ptr⟩ => (ptr, { t with insertPool := t.insertPool.erase key })

/--
The block that `DBTable::InsertRecord` inserts into: one from the insert pool if the record fits.
-/
def blockForRecord (t : DBTable) (byteWidths : List Int) : Option (BlockPtr × DBTable) := do
  let (ptr, t) := t.getBlockForInsert pick
  let block ← t.block ptr
  return if block.getBytesLeft < t.getRecordSize byteWidths then t.createBlock else (ptr, t)

/--
`DBTable::InsertRecord(uint8_t*, int32_t*)`. Note that the result of `Block::InsertRecord` is not
checked, a record that did not fit is counted and gets the row number `-1`.
-/
def insertRecord (t : DBTable) (record : List UInt8) (byteWidths : List Int)
    : Option (BlockInfo × DBTable × List UInt8) := do
  let (ptr, t) ← t.blockForRecord pick byteWidths
  let block ← t.block ptr
  let (rowNum, block, record) ← block.insertRecord record byteWidths
  let t := { t.setBlock ptr block with numRows := t.numRows + 1 }
  let t :=
    if t.fixedRecordWidth < block.getBytesLeft then
      { t with insertPool := t.insertPool.insert block.id ptr }
    else
      t
  return (⟨block.id, rowNum⟩, t, record)

def insertRecordTable (t : DBTable) (rowId : UInt32) (record : List UInt8) (byteWidths : List Int)
    : Option (DBTable × List UInt8) := do
  let (info, t, record) ← t.insertRecord pick record byteWidths
  return ({ t with blockMap := t.blockMap.insert (rowKey rowId) info }, record)

/--
Note that `block_map` keeps its entry for `rowId`, and that the block is rebuilt as a plain `Block`
even if the table keeps metadata.
-/
def deleteRecordTable (t : DBTable) (rowId : UInt32) : Option DBTable :=
  match t.blockMap.lookup (rowKey rowId) with
  | none => some t
  | some info => do
    let ptr ← t.blocks.lookup info.blockId
    let block ← t.block ptr
    if info.rowNum < 0 then
      none
    else
      let block := block.setValid info.rowNum.toNat false
      let updatedBlock := Block.new info.blockId t.schema block.capacity false
      let s ← updatedBlock.insertRecordsFrom t.blockMap block.rowIdMap block.valid block.getColumns
      let updatedPtr := t.heap.length
      return {
        t with
          heap := t.heap.set ptr { block with rowIdMap := s.rowMap } ++ [s.block]
          blocks := t.blocks.insert info.blockId updatedPtr
          insertPool :=
            match t.insertPool.lookup info.blockId with
            | some _ => t.insertPool.insert info.blockId updatedPtr
            | none => t.insertPool
          blockMap := s.blockMap
          numRows := t.numRows - 1
      }

/--
The variables of the loop in `DBTable::UpdateRecordTable`. The block it patches and the row number are
looked up before the loop and do not change.
-/
structure UpdateState where
  table : DBTable
  record : List UInt8
  offset : Int
  currOffsetCol : Nat

/--
One iteration of the loop in `DBTable::UpdateRecordTable`. The position in the record is advanced by
the widths of the columns that are skipped, then an integer is patched in place while a string deletes
the record and inserts it again.
-/
def updateColumn (rowId : UInt32) (ptr : BlockPtr) (rowNum : Nat) (byteWidths : List Int)
    (s : UpdateState) (info : UpdateMetaInfo) : Option UpdateState := do
  let colNum := info.colNum
  let skipped := (byteWidths.drop s.currOffsetCol).take (colNum - s.currOffsetCol)
  let offset := s.offset + skipped.sum
  let currOffsetCol := max s.currOffsetCol colNum
  let byteWidth ← byteWidths[colNum]?
  match ← s.table.schema.fields[colNum]? with
  | .int64 =>
    let block ← s.table.block ptr
    let (block, record) ← block.updateColumnValue colNum rowNum s.record offset byteWidth
    return ⟨s.table.setBlock ptr block, record, offset, currOffsetCol⟩
  | .string =>
    let t ← s.table.deleteRecordTable rowId
    let (t, record) ← t.insertRecordTable pick rowId s.record byteWidths
    return ⟨t, record, offset, currOffsetCol⟩

def updateRecordTable (t : DBTable) (rowId : UInt32) (updateMetaInfo : List UpdateMetaInfo)
    (record : List UInt8) (byteWidths : List Int) : Option (DBTable × List UInt8) :=
  match t.blockMap.lookup (rowKey rowId) with
  | none => some (t, record)
  | some info => do
    let ptr ← t.blocks.lookup info.blockId
    if info.rowNum < 0 then
      none
    else
      let step := updateColumn pick rowId ptr info.rowNum.toNat byteWidths
      let s ← updateMetaInfo.foldlM step ⟨t, record, 0, 0⟩
      return (s.table, s.record)

end

end DBTable

end Hustle.Storage
