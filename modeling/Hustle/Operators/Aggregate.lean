import Mathlib.Data.BitVec
import Hustle.Operators.HashAggregate
import Hustle.Util.Odometer

/-!
This module contains the aggregate that goes through all combinations of the distinct values of the group columns.
A combination is a list of positions of values, and the decimal number that has the positions as its digits is the
key under which the rows of the combination are added up.
-/

namespace Hustle.Operators

open Resolver (AggregateKernel AggregateReference ColumnReference OrderByReference)

namespace Values

def toList : Values → List Value
  | int64 values => values.map .int64
  | string values => values.map .string

end Values

namespace Aggregate

/--
The numbers below `total` that batches go through, one after the other. There are batches for `n` numbers.
-/
def batchIndices (n batchSize total : Nat) : List Nat :=
  (List.range (1 + (n - 1) / batchSize)).flatMap fun batch =>
    (List.range' (batch * batchSize) batchSize).filter (· < total)

def columnValues (heap : Heap) (chunks : List ArrayPtr) : Option (List (List Value)) :=
  chunks.mapM fun ptr => do
    let arr ← heap[ptr]?
    return arr.toList

/--
What the operator has for a group column: its distinct values, and the positions among them of the values of the
column.
-/
structure GroupColumn where
  uniqueValues : List Value
  uniqueValuesMap : List (List Nat)
  deriving DecidableEq

/--
`Context::match`. A value that is not there has no position.
-/
def contextMatch (values : List (List Value)) (keys : List Value) : Option (List (List Nat)) :=
  values.mapM fun chunk => chunk.mapM fun v => keys.idxOf? v

/--
The column of the group columns that is found by a name: of the columns with the name, the one that was initialized
first.
-/
def groupByIndex (groupBy : List ColumnReference) (order : List Nat) (name : String) : Option Nat :=
  order.find? fun i => groupBy[i]?.map (·.colName) = some name

def groupColumn (cols : List (List (List Value))) (groupBy : List ColumnReference) (order : List Nat)
    (ref : ColumnReference × List (List Value)) : Option GroupColumn := do
  let index ← groupByIndex groupBy order ref.1.colName
  let col ← cols[index]?
  let uniqueValues := col.flatten.eraseDups
  let uniqueValuesMap ← contextMatch ref.2 uniqueValues
  return ⟨uniqueValues, uniqueValuesMap⟩

/--
The key of a combination. It is an `int`, and a power of ten that is too large for a double is no number.
-/
def groupKey (groupId : List Nat) : Option Nat :=
  let key := (groupId.zipIdx.map fun x => x.1 * 10 ^ x.2).sum
  if 2 ^ 31 ≤ key ∨ 309 < groupId.length then none else some key

/--
The combinations with their numbers in `group_agg_index_map_`, the last one first. One that has the key of an
earlier one takes its place.
-/
def groupAggIndexMap (groupIds : List (List Nat)) : Option (List (Nat × Nat)) := do
  let keys ← groupIds.mapM groupKey
  return keys.zipIdx.reverse

/--
The combinations. There is a place for each of them, and they are numbered by `int`s.
-/
def groupIdVec (groupCols : List GroupColumn) : Option (List (List Nat)) :=
  let maxUniqueValues := groupCols.map fun col => col.uniqueValues.length
  if 2 ^ 31 ≤ maxUniqueValues.prod then
    none
  else
    Odometer.walk maxUniqueValues maxUniqueValues.prod (Odometer.zero maxUniqueValues)

/--
A key that is not in the map gets the number zero.
-/
def aggIndex (indexMap : List (Nat × Nat)) (key : Nat) : Nat :=
  (indexMap.lookup key).getD 0

def scanRow (groupCols : List GroupColumn) (indexMap : List (Nat × Nat)) (chunk : Nat) (values : List (BitVec 64))
    (data : List (BitVec 64)) (row : Nat) : Option (List (BitVec 64)) := do
  let groupId ← groupCols.mapM fun col => do
    let positions ← col.uniqueValuesMap[chunk]?
    positions[row]?
  let key ← groupKey groupId
  let value ← values[row]?
  return data.modify (aggIndex indexMap key) (· + value)

def blockScan (groupCols : List GroupColumn) (indexMap : List (Nat × Nat)) (aggCol : List (List (BitVec 64)))
    (data : List (BitVec 64)) (chunk : Nat) : Option (List (BitVec 64)) := do
  let values ← aggCol[chunk]?
  (List.range values.length).foldlM (scanRow groupCols indexMap chunk values) data

def int64Chunks (heap : Heap) (chunks : List ArrayPtr) : Option (List (List (BitVec 64))) :=
  chunks.mapM fun ptr =>
    match (heap[ptr]? : Option Values) with
    | some (.int64 values) => some values
    | _ => none

/--
`ComputeAggregate` over a whole column. A mean is a double, which is then read as an integer.
-/
def computeAggregate (kernel : AggregateKernel) (aggCol : List (List (BitVec 64))) : Option (BitVec 64) :=
  match kernel with
  | .sum => some aggCol.flatten.sum
  | .count => some (BitVec.ofNat 64 aggCol.flatten.length)
  | .mean => none

/--
The aggregate of a combination. If there is only one, it is computed again from the whole column.
-/
def groupAggregate (kernel : AggregateKernel) (numAggs : Nat) (aggCol : List (List (BitVec 64)))
    (data : List (BitVec 64)) (index : Nat) : Option (BitVec 64) :=
  if numAggs = 1 then computeAggregate kernel aggCol else data[index]?

def insertGroupColumns (groupCols : List GroupColumn) (groupId : List Nat) : Option (List Value) :=
  (groupCols.zip groupId).mapM fun x => x.1.uniqueValues[x.2]?

/--
`ComputeGroupAggregate`. The builder for means is one for doubles, to which an integer cannot be appended.
-/
def computeGroupAggregate (kernel : AggregateKernel) (groupCols : List GroupColumn) (groupIds : List (List Nat))
    (aggCol : List (List (BitVec 64))) (data : List (BitVec 64)) (rows : List AggRow) (index : Nat)
    : Option (List AggRow) := do
  let groupId ← groupIds[index]?
  let value ← groupAggregate kernel groupIds.length aggCol data index
  if 0 < value.toInt then
    if kernel = .mean then
      none
    else
      let group ← insertGroupColumns groupCols groupId
      return rows ++ [(group, value)]
  else
    return rows

/-! The tasks. -/

/--
The chunks that are scanned. The number of batches comes from that of the combinations.
-/
def scannedChunks (chunksPerBatch numAggs numChunks : Nat) : List Nat :=
  batchIndices numAggs (if chunksPerBatch = 0 then numChunks else chunksPerBatch) numChunks

def insertedGroups (hardwareConcurrency numAggs : Nat) : List Nat :=
  let size := numAggs / hardwareConcurrency / 2
  batchIndices numAggs (if size = 0 then numAggs else size) numAggs

/--
The sums of the combinations. Nothing is scanned if there is no group column.
-/
def scanChunks (groupCols : List GroupColumn) (indexMap : List (Nat × Nat)) (aggCol : List (List (BitVec 64)))
    (order : List Nat) (numAggs : Nat) : Option (List (BitVec 64)) :=
  match groupCols with
  | [] => some (List.replicate numAggs 0)
  | _ => order.foldlM (blockScan groupCols indexMap aggCol) (List.replicate numAggs 0)

end Aggregate

structure AggSchedule where
  order : List Nat → List Nat
  order_perm : ∀ steps, (order steps).Perm steps

namespace Aggregate

/--
`Initialize`: the group columns, and the memory that they are in.
-/
def initializeColumns (env : AggEnv) (db : TypedTables) (result : OperatorResult)
    (groupBy : List ColumnReference) (schedule : AggSchedule) : Option (List GroupColumn × Memory) := do
  let (groupByCols, m) ← Memory.empty.materializeColumns env.capacity db result groupBy
  let cols ← groupByCols.mapM (columnValues m.heap)
  let groupCols ← (groupBy.zip cols).mapM (groupColumn cols groupBy (schedule.order (List.range groupBy.length)))
  return (groupCols, m)

/--
`ComputeAggregates`. `chunksPerBatch` is the number of chunks divided by the number of threads times the parallel
factor.
-/
def computeAggregates (env : AggEnv) (chunksPerBatch : Nat → Nat) (kernel : AggregateKernel)
    (groupCols : List GroupColumn) (aggCol : List (List (BitVec 64))) (schedule : AggSchedule)
    : Option (List AggRow) := do
  let groupIds ← groupIdVec groupCols
  let numAggs := groupIds.length
  let indexMap ← groupAggIndexMap groupIds
  let scanned := scannedChunks (chunksPerBatch aggCol.length) numAggs aggCol.length
  let data ← scanChunks groupCols indexMap aggCol (schedule.order scanned) numAggs
  if env.hardwareConcurrency = 0 then
    none
  else
    (schedule.order (insertedGroups env.hardwareConcurrency numAggs)).foldlM
      (computeGroupAggregate kernel groupCols groupIds aggCol data) []

/--
The output is sorted in ascending order.
-/
def execute (env : AggEnv) (chunksPerBatch : Nat → Nat) (db : TypedTables) (result : OperatorResult)
    (ref : AggregateReference) (groupBy : List ColumnReference) (orderBy : List OrderByReference)
    (schedule : AggSchedule) : Option (List AggRow) := do
  let (groupCols, m) ← initializeColumns env db result groupBy schedule
  let (chunks, m) ← m.materializeColumn env.capacity db result ref.colRef
  let _ ← HashAggregate.columnChunks chunks
  let aggCol ← int64Chunks m.heap chunks
  let rows ← computeAggregates env chunksPerBatch ref.kernel groupCols aggCol schedule
  sortResult (fun _ => env.sortIndices false) groupBy orderBy rows

end Aggregate

end Hustle.Operators
