import Hustle.Storage.Record
import Hustle.Util.Run

/-!
This module contains the three insert functions of a block together with the memory that they write to.
The Arrow buffers of a block have a size and a capacity, every insert function grows them in its own way
before it writes. All functions return `none` where the C++ code writes behind the capacity of a buffer
or a signed number overflows.
-/

namespace Hustle.Storage

def maxInt : Int := 2 ^ 31 - 1

/--
The value that an `int` gets from a wider integer: its low 32 bits.
-/
def castInt (n : Int) : Int :=
  n.bmod (2 ^ 32)

theorem castInt_le {n : Int} (hn : 0 ≤ n) : castInt n ≤ n := by
  have hpow : 2 ^ 32 = 4294967296 := by norm_num
  rw [castInt, hpow, Int.bmod_def]
  split
  . omega
  . omega

theorem castInt_of_le {n : Int} (hn : 0 ≤ n) (h : n ≤ maxInt) : castInt n = n := by
  unfold maxInt at h
  apply Int.bmod_eq_of_le
  . omega
  . omega

/--
The result of a signed operation, which must be an `int`.
-/
def checkInt (n : Int) : Option Int :=
  if -maxInt - 1 ≤ n ∧ n ≤ maxInt then some n else none

theorem checkInt_eq_some {n : Nat} (h : (n : Int) ≤ maxInt) : checkInt n = some (n : Int) := by
  apply if_pos
  unfold maxInt at h ⊢
  omega

theorem checkInt_le {n k : Int} (h : checkInt n = some k) : n ≤ maxInt := by
  unfold checkInt at h
  split at h
  . next hint => exact hint.2
  . cases h

def estimatedStrLen : Nat := 30

def offsetSize : Nat := 4

/--
The size and the capacity of an `arrow::ResizableBuffer`.
-/
structure Allocation where
  size : Nat
  capacity : Nat
  deriving DecidableEq, Repr

namespace Allocation

/--
`arrow::AllocateResizableBuffer(size)`. The memory pool rounds the capacity up.
-/
def allocate (roundUp : Nat → Nat) (size : Nat) : Allocation :=
  ⟨size, roundUp size⟩

/--
`Resize(size, false)`: what is in the buffer up to its capacity is kept.
-/
def resize (roundUp : Nat → Nat) (a : Allocation) (size : Nat) : Allocation :=
  ⟨size, if size ≤ a.capacity then a.capacity else roundUp size⟩

/--
The bytes in front of `stop` are written.
-/
def write (a : Allocation) (stop : Nat) : Option Allocation :=
  if stop ≤ a.capacity then some a else none

end Allocation

inductive ColumnMemory where
  | int64 (values : Allocation)
  | string (offsets data : Allocation)
  deriving DecidableEq, Repr

namespace ColumnMemory

variable (roundUp : Nat → Nat)

def allocate (initRows : Nat) : FieldType → Option ColumnMemory
  | .int64 => some (.int64 (.allocate roundUp (fieldSize * initRows)))
  | .string => do
    -- the offset of the first element
    let offsets ← (Allocation.allocate roundUp (offsetSize * initRows)).write offsetSize
    return .string offsets (.allocate roundUp (estimatedStrLen * initRows))

/--
What `Block::InsertRecord(uint8_t*)` does to the buffers of a column.
-/
def insert (m : ColumnMemory) (c : Column) (numRows : Nat) (byteWidth : Int) : Option ColumnMemory :=
  match m, c.array.buffers with
  | .int64 values, .int64 _ => do
    let values := values.resize roundUp (values.size + fieldSize)
    let values ← values.write (fieldSize * numRows + max byteWidth.toNat fieldSize)
    return .int64 values
  | .string offsets data, .string offsetsData _ => do
    let data := data.resize roundUp (data.size + byteWidth.toNat)
    let offsets := offsets.resize roundUp (offsets.size + offsetSize)
    let currentOffset ← offsetsData[numRows]?
    let offsets ← offsets.write (offsetSize * (numRows + 2))
    let data ← data.write (currentOffset.toNat + byteWidth.toNat)
    return .string offsets data
  | _, _ => none

/--
What `Block::InsertRecord(std::vector<std::string_view>)` does to the buffers of a column.
-/
def insertCsv (m : ColumnMemory) (c : Column) (numRows length : Nat) : Option ColumnMemory :=
  match m, c.array.buffers with
  | .int64 values, .int64 _ => do
    let values :=
      if (values.capacity : Int) < c.size + fieldSize then
        values.resize roundUp (values.capacity + fieldSize + 1)
      else
        values
    let values ← values.write (fieldSize * numRows + fieldSize)
    return .int64 values
  | .string offsets data, .string offsetsData _ => do
    let currentOffset ← offsetsData[numRows]?
    let data :=
      if (data.capacity : Int) < currentOffset + length then
        data.resize roundUp (data.capacity + length)
      else
        data
    let offsets :=
      if offsets.capacity < (c.array.length + 2) * offsetSize then
        offsets.resize roundUp ((numRows + 2) * offsetSize + 1)
      else
        offsets
    let offsets ← offsets.write (offsetSize * (numRows + 2))
    let data ← data.write (currentOffset.toNat + length)
    return .string offsets data
  | _, _ => none

/--
What `Block::InsertRecords` does to the buffers of a column.
-/
def insertSlice (m : ColumnMemory) (c : Column) (numRows offset : Nat) (vals : ArrayData) (n : Nat)
    : Option ColumnMemory :=
  match m, c.array.buffers, vals.buffers with
  | .int64 values, .int64 _, .int64 _ => do
    let dataSize := fieldSize * n
    let values :=
      if (values.capacity : Int) < c.size + dataSize then
        values.resize roundUp (values.capacity + dataSize)
      else
        values
    let values ← values.write (fieldSize * numRows + dataSize)
    return .int64 values
  | .string offsets data, .string offsetsData _, .string inOffsets _ => do
    let offsets :=
      if offsets.capacity < (numRows + n + 2) * fieldSize then
        offsets.resize roundUp (offsets.capacity + offsetSize * (n + 1))
      else
        offsets
    let inStart ← inOffsets[offset]?
    let inStop ← inOffsets[offset + n]?
    let stringSize := inStop - inStart
    let data :=
      if (data.capacity : Int) < c.size + stringSize then
        data.resize roundUp (c.size + stringSize).toNat
      else
        data
    let currentOffset ← offsetsData[numRows]?
    let offsets ← offsets.write (offsetSize * (numRows + n + 1))
    let data ← data.write (currentOffset + stringSize).toNat
    return .string offsets data
  | _, _, _ => none

/-! The loops over the columns. -/

def insertAll (numRows : Nat)
    : List ColumnMemory → List Column → List Int → Option (List ColumnMemory)
  | [], [], _ => some []
  | m :: ms, c :: cs, byteWidth :: byteWidths => do
    let m ← m.insert roundUp c numRows byteWidth
    let ms ← insertAll numRows ms cs byteWidths
    return m :: ms
  | _, _, _ => none

def insertCsvs (numRows : Nat)
    : List ColumnMemory → List Column → List (List UInt8) → Option (List ColumnMemory)
  | [], [], _ => some []
  | m :: ms, c :: cs, field :: record => do
    let m ← m.insertCsv roundUp c numRows field.length
    let ms ← insertCsvs numRows ms cs record
    return m :: ms
  | _, _, _ => none

def insertSlices (numRows offset n : Nat)
    : List ColumnMemory → List Column → List ArrayData → Option (List ColumnMemory)
  | [], [], _ => some []
  | m :: ms, c :: cs, vals :: columnData => do
    let m ← m.insertSlice roundUp c numRows offset vals n
    let ms ← insertSlices numRows offset n ms cs columnData
    return m :: ms
  | _, _, _ => none

end ColumnMemory

namespace Column

/--
`Block::InsertCsvValue`, the integer is parsed by `absl::SimpleAtoi`.
-/
def insertCsvValue (simpleAtoi : List UInt8 → Option (BitVec 64)) (values : List (BitVec 64))
    (c : Column) (numRows : Nat) (field : List UInt8) : Option (Column × Int) := do
  let out ← simpleAtoi field
  let column : Column :=
    {
      array := { c.array with
        length := c.array.length + 1
        buffers := .int64 (Buffer.writeAt values numRows [out])
      }
      size := c.size + fieldSize
    }
  return (column, fieldSize)

/--
The string handler of `Block::InsertRecord(std::vector<std::string_view>)`.
-/
def insertCsvString (offsets : List Int) (data : List UInt8) (c : Column) (numRows : Nat)
    (field : List UInt8) : Option (Column × Int) := do
  let currentOffset ← offsets[numRows]?
  let newOffset := currentOffset + field.length
  let column : Column :=
    {
      array := { c.array with
        length := c.array.length + 1
        buffers := .string
          (Buffer.writeAt offsets (numRows + 1) [newOffset])
          (Buffer.writeAt data currentOffset.toNat field)
      }
      size := c.size + field.length
    }
  return (column, field.length)

def insertCsv (simpleAtoi : List UInt8 → Option (BitVec 64)) (c : Column) (numRows : Nat)
    (field : List UInt8) : Option (Column × Int) :=
  match c.array.buffers with
  | .int64 values => insertCsvValue simpleAtoi values c numRows field
  | .string offsets data => insertCsvString offsets data c numRows field

/--
The loop over the columns. The second component is `head`.
-/
def insertCsvs (simpleAtoi : List UInt8 → Option (BitVec 64)) (numRows : Nat)
    : List Column → List (List UInt8) → Option (List Column × Int)
  | [], _ => some ([], 0)
  | _ :: _, [] => none
  | c :: cs, field :: record => do
    let (c, bytes) ← c.insertCsv simpleAtoi numRows field
    let (cs, bytes') ← insertCsvs simpleAtoi numRows cs record
    return (c :: cs, bytes + bytes')

end Column

/--
`Block::InsertRecord(std::vector<std::string_view>, int32_t*)`.
-/
def Block.insertCsvRecord (simpleAtoi : List UInt8 → Option (BitVec 64)) (b : Block)
    (record : List (List UInt8)) (byteWidths : List Int) : Option (Int × Block) :=
  if byteWidths.length < b.columns.length then
    none
  else if b.getBytesLeft < (byteWidths.take b.columns.length).sum then
    some (-1, b)
  else do
    let b := b.setValid b.numRows true
    let (columns, head) ← Column.insertCsvs simpleAtoi b.numRows b.columns record
    let b' := {
      b with
        columns := columns
        numBytes := b.numBytes + head
        numRows := b.numRows + 1
    }
    return ((b.numRows : Int), b')

structure SizedBlock where
  block : Block
  valid : Allocation
  memory : List ColumnMemory
  deriving DecidableEq

namespace SizedBlock

section

variable (roundUp : Nat → Nat)

/--
The number of rows that the constructor of a block allocates memory for.
-/
def initRows (schema : Schema) (capacity : Int) : Int :=
  let numStringCols := schema.fields.count .string
  capacity.tdiv (computeFixedRecordWidth schema + estimatedStrLen * numStringCols)

def new (id : Int) (schema : Schema) (capacity : Int) (metadataEnabled : Bool) : Option SizedBlock :=
  if initRows schema capacity < 0 then
    none
  else do
    let memory ← schema.fields.mapM
      (ColumnMemory.allocate roundUp (initRows schema capacity).toNat)
    return {
      block := .new id schema capacity metadataEnabled
      valid := .allocate roundUp 0
      memory := memory
    }

/--
The members `num_rows`, `num_bytes`, `column_sizes` and the offsets are `int`s, and the numbers of bytes
in a column are at most those in the block.
-/
def check (s : SizedBlock) : Option SizedBlock :=
  if (s.block.numRows : Int) ≤ maxInt ∧ s.block.numBytes ≤ maxInt then some s else none

def insertRecord (s : SizedBlock) (record : List UInt8) (byteWidths : List Int)
    : Option (Int × SizedBlock) :=
  if maxInt < (byteWidths.take s.block.columns.length).sum then
    none
  else do
    let (res, block, _) ← s.block.insertRecord record byteWidths
    if res = -1 then
      return (-1, s)
    else
      let valid ← (s.valid.resize roundUp (s.valid.size + 1)).write (s.block.numRows / 8 + 1)
      let memory ← ColumnMemory.insertAll roundUp s.block.numRows s.memory s.block.columns byteWidths
      let s ← check { block := block, valid := valid, memory := memory }
      return (res, s)

def insertCsvRecord (simpleAtoi : List UInt8 → Option (BitVec 64)) (s : SizedBlock)
    (record : List (List UInt8)) (byteWidths : List Int) : Option (Int × SizedBlock) :=
  if maxInt < (byteWidths.take s.block.columns.length).sum then
    none
  else do
    let (res, block) ← s.block.insertCsvRecord simpleAtoi record byteWidths
    if res = -1 then
      return (-1, s)
    else
      let valid ← (s.valid.resize roundUp (s.valid.size + 1)).write (s.block.numRows / 8 + 1)
      let memory ← ColumnMemory.insertCsvs roundUp s.block.numRows s.memory s.block.columns record
      let s ← check { block := block, valid := valid, memory := memory }
      return (res, s)

/--
`ZeroPadding()` clears what is behind the size of the buffer of `valid`.
-/
def zeroPadding (b : Block) (valid : Allocation) : Block :=
  { b with valid := b.valid.take (8 * valid.size) }

def insertRecords (s : SizedBlock) (columnData : List ArrayData) : Option (Int × SizedBlock) := do
  let first ← columnData.head?
  if first.length = 0 then
    return (-1, s)
  else
    let n := first.length
    let valid := s.valid.resize roundUp (s.valid.size + n / 8 + 1)
    let (res, block) ← (zeroPadding s.block valid).insertRecords columnData
    let valid ← valid.write ((s.block.numRows + n - 1) / 8 + 1)
    let memory ← ColumnMemory.insertSlices roundUp s.block.numRows first.offset n s.memory
      s.block.columns columnData
    let s ← check { block := block, valid := valid, memory := memory }
    return (res, s)

end

end SizedBlock

end Hustle.Storage
