import Hustle.Storage.Basic

/-!
This module contains the `Block` class: a fixed capacity run of rows, stored by column. All functions
return `none` where the C++ code leaves a buffer or throws. The capacity of the Arrow buffers is not
modelled, a buffer is as long as what has been written to it.
-/

namespace Hustle.Storage

/-- The serial type that stands for the constant 0. -/
def zeroTypeEncoding : Nat := 8

/-- The serial type that stands for the constant 1. -/
def oneTypeEncoding : Nat := 9

/-- Size in bytes of the values of an `INT64` column. -/
def fieldSize : Nat := 8

structure BlockInfo where
  blockId : Int
  rowNum : Int
  deriving DecidableEq, Repr, Inhabited

/--
One entry of `columns` together with the entry of `column_sizes` at the same index.
-/
structure Column where
  array : ArrayData
  size : Int
  deriving DecidableEq, Repr

structure Block where
  id : Int
  schema : Schema
  capacity : Int
  metadataEnabled : Bool
  valid : List Bool
  columns : List Column
  rowIdMap : Map Int Int
  numBytes : Int
  numRows : Nat
  deriving DecidableEq

def computeFixedRecordWidth (schema : Schema) : Int :=
  (schema.fields.map fun
    | .int64 => (fieldSize : Int)
    | .string => 0).sum

/--
Read the eight bytes of an `INT64` value as they are laid out in memory.
-/
def int64OfMemory (bytes : List UInt8) : BitVec 64 :=
  BitVec.ofNat 64 (Bytes.leNat bytes)

/--
`utils::reverse_bytes(record + pos, numBytes)`, the bytes of the record are reversed in place.
-/
def reverseBytes (record : List UInt8) (pos numBytes : Nat) : List UInt8 :=
  record.take pos ++ Buffer.reversePrefix (record.drop pos) numBytes

namespace Column

def empty : FieldType → Column
  | .int64 => ⟨⟨0, 0, .int64 []⟩, 0⟩
  | .string => ⟨⟨0, 0, .string [0] []⟩, 0⟩

/--
What the handlers of `Block::InsertRecord` leave behind: the column, the record (whose bytes may have
been reversed), the position in the record and the number of bytes the block grew by.
-/
structure Inserted where
  column : Column
  record : List UInt8
  head : Nat
  bytes : Int
  deriving DecidableEq

/--
Zero filled memory for one value with `bytes` copied to its start, none if they do not fit.
-/
def zeroExtend (bytes : List UInt8) : Option (List UInt8) :=
  if bytes.length ≤ fieldSize then
    some (Buffer.writeAt (List.replicate fieldSize 0) 0 bytes)
  else
    none

/--
`Block::InsertValue`. A width of at least eight bytes is copied as is, a smaller one is reversed and
zero filled, and a negative one encodes the constants 0 and 1.
-/
def insertValue (values : List (BitVec 64)) (c : Column) (numRows : Nat) (record : List UInt8)
    (head : Nat) (byteWidth : Int) : Option Inserted :=
  let push (v : BitVec 64) : Column :=
    {
      array := { c.array with
        length := c.array.length + 1
        buffers := .int64 (Buffer.writeAt values numRows [v])
      }
      size := c.size + fieldSize
    }
  if (fieldSize : Int) ≤ byteWidth then
    if byteWidth = fieldSize then do
      let bytes ← Buffer.readAt record head fieldSize
      return ⟨push (int64OfMemory bytes), record, head + fieldSize, fieldSize⟩
    else
      none
  else if byteWidth < 0 then do
    let val := UInt8.ofNat ((-byteWidth - zeroTypeEncoding) % 256).toNat
    let value ← zeroExtend [val]
    return ⟨push (int64OfMemory value), record, head, fieldSize⟩
  else do
    let width := byteWidth.toNat
    let record := reverseBytes record head width
    let bytes ← Buffer.readAt record head width
    let value ← zeroExtend bytes
    return ⟨push (int64OfMemory value), record, head + width, fieldSize⟩

/--
The string handler of `Block::InsertRecord`.
-/
def insertString (offsets : List Int) (data : List UInt8) (c : Column) (numRows : Nat)
    (record : List UInt8) (head : Nat) (byteWidth : Int) : Option Inserted :=
  if byteWidth < 0 then
    none
  else do
    let bytes ← Buffer.readAt record head byteWidth.toNat
    let currentOffset ← offsets[numRows]?
    let newOffset := currentOffset + byteWidth
    let column : Column :=
      {
        array := { c.array with
          length := c.array.length + 1
          buffers := .string
            (Buffer.writeAt offsets (numRows + 1) [newOffset])
            (Buffer.writeAt data currentOffset.toNat bytes)
        }
        size := c.size + byteWidth
      }
    return ⟨column, record, head + byteWidth.toNat, byteWidth⟩

def insert (c : Column) (numRows : Nat) (record : List UInt8) (head : Nat) (byteWidth : Int)
    : Option Inserted :=
  match c.array.buffers with
  | .int64 values => insertValue values c numRows record head byteWidth
  | .string offsets data => insertString offsets data c numRows record head byteWidth

/--
The loop of `Block::InsertRecord` over the columns, which threads the record, the position in it and
the number of bytes added so far.
-/
def insertAll (numRows : Nat)
    : List Column → List Int → List UInt8 → Nat → Option (List Column × List UInt8 × Int)
  | [], _, record, _ => some ([], record, 0)
  | _ :: _, [], _, _ => none
  | c :: cs, byteWidth :: byteWidths, record, head => do
    let res ← c.insert numRows record head byteWidth
    let (cs, record, bytes) ← insertAll numRows cs byteWidths res.record res.head
    return (res.column :: cs, record, res.bytes + bytes)

/--
`Block::InsertValues`: copy `n` values of `vals`, starting at the absolute position `offset`. The
second component is the number of bytes the block grew by.
-/
def insertValues (values : List (BitVec 64)) (c : Column) (numRows offset : Nat) (vals : ArrayData)
    (n : Nat) : Option (Column × Int) :=
  match vals.buffers with
  | .int64 inValues => do
    let vs ← Buffer.readAt inValues offset n
    let dataSize : Int := fieldSize * n
    let column : Column :=
      {
        array := { c.array with
          length := c.array.length + n
          buffers := .int64 (Buffer.writeAt values numRows vs)
        }
        size := c.size + dataSize
      }
    return (column, dataSize)
  | .string _ _ => none

/--
Copy `n` offsets of the input array and correct them by the difference between the positions of the
new strings in the two columns. If the data includes the first element of the input array one more
offset is copied, over the offset at `numRows`.
-/
def copyOffsets (offsets inOffsets : List Int) (numRows offset n : Nat)
    (currentOffset inStart : Int) : Option (List Int) :=
  if offset = 0 then do
    let new ← Buffer.readAt inOffsets offset (n + 1)
    return Buffer.writeAt offsets numRows (new.map (· + currentOffset))
  else do
    let new ← Buffer.readAt inOffsets (offset + 1) n
    return Buffer.writeAt offsets (numRows + 1) (new.map (· + (currentOffset - inStart)))

/--
The string handler of `Block::InsertRecords`.
-/
def insertStrings (offsets : List Int) (data : List UInt8) (c : Column) (numRows offset : Nat)
    (vals : ArrayData) (n : Nat) : Option (Column × Int) :=
  match vals.buffers with
  | .int64 _ => none
  | .string inOffsets inData => do
    let inStart ← inOffsets[offset]?
    let inStop ← inOffsets[offset + n]?
    let stringSize := inStop - inStart
    let currentOffset ← offsets[numRows]?
    let offsets ← copyOffsets offsets inOffsets numRows offset n currentOffset inStart
    let start ← offsets[numRows]?
    if inStart < 0 ∨ stringSize < 0 ∨ start < 0 then
      none
    else do
      let bytes ← Buffer.readAt inData inStart.toNat stringSize.toNat
      let column : Column :=
        {
          array := { c.array with
            length := c.array.length + n
            buffers := .string offsets (Buffer.writeAt data start.toNat bytes)
          }
          size := c.size + stringSize
        }
      return (column, stringSize)

def insertSlice (c : Column) (numRows offset : Nat) (vals : ArrayData) (n : Nat)
    : Option (Column × Int) :=
  match c.array.buffers with
  | .int64 values => insertValues values c numRows offset vals n
  | .string offsets data => insertStrings offsets data c numRows offset vals n

/--
The loop of `Block::InsertRecords` over the columns.
-/
def insertSlices (numRows offset n : Nat)
    : List Column → List ArrayData → Option (List Column × Int)
  | [], _ => some ([], 0)
  | _ :: _, [] => none
  | c :: cs, vals :: columnData => do
    let (c, bytes) ← c.insertSlice numRows offset vals n
    let (cs, bytes') ← insertSlices numRows offset n cs columnData
    return (c :: cs, bytes + bytes')

end Column

namespace Block

def new (id : Int) (schema : Schema) (capacity : Int) (metadataEnabled : Bool) : Block :=
  {
    id := id
    schema := schema
    capacity := capacity
    metadataEnabled := metadataEnabled
    valid := []
    columns := schema.fields.map Column.empty
    rowIdMap := ∅
    numBytes := 0
    numRows := 0
  }

def getBytesLeft (b : Block) : Int :=
  b.capacity - b.numBytes

def getColumns (b : Block) : List ArrayData :=
  b.columns.map Column.array

def getValid (valid : List Bool) (rowIndex : Nat) : Bool :=
  valid.getD rowIndex false

def setValid (b : Block) (rowIndex : Nat) (val : Bool) : Block :=
  { b with valid := Buffer.writeAt b.valid rowIndex [val] }

def row (b : Block) (r : Nat) : Option Row :=
  b.columns.mapM fun c => c.array.cell r

/--
`Block::InsertRecord(uint8_t*, int32_t*)`. The result is `-1` if the record does not fit, otherwise
the index of the new row. The record is returned because its bytes may have been reversed.
-/
def insertRecord (b : Block) (record : List UInt8) (byteWidths : List Int)
    : Option (Int × Block × List UInt8) :=
  if byteWidths.length < b.columns.length then
    none
  else if b.getBytesLeft < (byteWidths.take b.columns.length).sum then
    some (-1, b, record)
  else do
    let b := b.setValid b.numRows true
    let (columns, record, bytes) ← Column.insertAll b.numRows b.columns byteWidths record 0
    let b' := {
      b with
        columns := columns
        numBytes := b.numBytes + bytes
        numRows := b.numRows + 1
    }
    return ((b.numRows : Int), b', record)

/--
Set the valid bits of the `n` rows after the last one.
-/
def setValidRange (b : Block) (n : Nat) : Block :=
  (List.range n).foldl (fun b' k => b'.setValid (b.numRows + k) true) b

/--
`Block::InsertRecords` of a vector of arrays. Note that `n` and `offset` are those of the first array
for all columns.
-/
def insertRecords (b : Block) (columnData : List ArrayData) : Option (Int × Block) := do
  let first ← columnData.head?
  if first.length = 0 then
    return (-1, b)
  else
    let n := first.length
    let b := b.setValidRange n
    let (columns, bytes) ← Column.insertSlices b.numRows first.offset n b.columns columnData
    let b' := {
      b with
        columns := columns
        numBytes := b.numBytes + bytes
        numRows := b.numRows + n
    }
    return ((b'.numRows : Int) - 1, b')

/--
The variables of the loop in `Block::InsertRecords(block_map, row_map, ...)`.
-/
structure RebuildState where
  block : Block
  blockMap : Map Int BlockInfo
  rowMap : Map Int Int
  reducedCount : Nat

/--
One row of `Block::InsertRecords(block_map, row_map, ...)`: a valid row is copied and its row id is
told where it went, where row ids are found at `row + reduced_count` and the place is `row`.
-/
def rebuildRow (validColumn : List Bool) (columnData : List ArrayData) (s : RebuildState) (row : Nat)
    : Option RebuildState :=
  if getValid validColumn row then do
    let key : Int := row + s.reducedCount
    let rowId := s.rowMap.get key
    let blockInfo := s.blockMap.get rowId
    let block := { s.block with rowIdMap := s.block.rowIdMap.insert row rowId }
    let (_, block) ← block.insertRecords (columnData.map (·.slice row 1))
    return {
      block := block
      blockMap := s.blockMap.insert rowId ⟨blockInfo.blockId, row⟩
      rowMap := s.rowMap.touch key
      reducedCount := s.reducedCount
    }
  else
    return { s with reducedCount := s.reducedCount + 1 }

def insertRecordsFrom (b : Block) (blockMap : Map Int BlockInfo) (rowMap : Map Int Int)
    (validColumn : List Bool) (columnData : List ArrayData) : Option RebuildState := do
  let first ← columnData.head?
  (List.range first.length).foldlM (rebuildRow validColumn columnData) ⟨b, blockMap, rowMap, 0⟩

/--
`Block::UpdateColumnValue` for `INT64` columns, `record + pos` is the value to write. Negative
positions leave the record.
-/
def updateColumnValue (b : Block) (colNum rowNum : Nat) (record : List UInt8) (pos : Int)
    (byteWidth : Int) : Option (Block × List UInt8) := do
  let c ← b.columns[colNum]?
  match c.array.buffers with
  | .string _ _ => none
  | .int64 values =>
    let store (value : List UInt8) : Block :=
      let values := Buffer.writeAt values rowNum [int64OfMemory value]
      let c := { c with array := { c.array with buffers := .int64 values } }
      { b with columns := b.columns.set colNum c }
    if byteWidth < 0 then
      let val := UInt8.ofNat ((-byteWidth - zeroTypeEncoding) % 256).toNat
      let value ← Column.zeroExtend [val]
      return (store value, record)
    else if pos < 0 then
      none
    else
      let width := byteWidth.toNat
      let record := reverseBytes record pos.toNat width
      let bytes ← Buffer.readAt record pos.toNat width
      let value ← Column.zeroExtend bytes
      return (store value, record)

end Block

end Hustle.Storage
