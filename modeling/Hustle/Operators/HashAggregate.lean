import Hustle.Operators.AggInput
import Hustle.Util.Accumulate

/-!
This module contains the hash aggregate. Tasks collect the tuples of their chunks in maps of their own, which are
merged afterwards. The maps are keyed by the combined hash of a group, and another map has a tuple of every group.
Groups are printed in the order of a hash map, so that only the set of the rows of the output is fixed.
-/

namespace Hustle.Operators

open Resolver (AggregateKernel AggregateReference ColumnReference ExprReference OrderByReference)
open Accumulate (upsert upserts)

abbrev HashMap := List (BitVec 64 × BitVec 64)

/--
The chunk and the position in it of a tuple.
-/
abbrev TupleMap := List (BitVec 64 × (Nat × Nat))

namespace HashAggregateStrategy

def suggestedNumTasks (partitions chunks : Nat) : Nat :=
  if chunks < partitions then chunks else partitions

def getChunkID (taskId numThreads numChunks : Nat) : Nat × Nat :=
  let M := (numChunks + numThreads - 1) / numThreads
  let m := numChunks / numThreads
  let FR := numChunks % numThreads
  if taskId < FR then
    (M * taskId, min (M * (taskId + 1)) numChunks)
  else
    (M * FR + m * (taskId - FR), min (M * FR + m * (taskId + 1 - FR)) numChunks)

def hashCombine (seed val : BitVec 64) : BitVec 64 :=
  seed ^^^ (val + 0x9e3779b9#64 + (seed <<< 6) + (seed >>> 2))

/--
The chunks with the tasks that scan them. The numbers are `int`s, and the number of chunks is at least that of
the tasks.
-/
def tasks (totalThreads numChunks : Nat) : Option (List (Nat × Nat)) :=
  if 2 ^ 31 ≤ numChunks + totalThreads then
    none
  else
    some <| (List.range (suggestedNumTasks totalThreads numChunks)).flatMap fun tid =>
      let (st, ed) := getChunkID tid totalThreads numChunks
      (List.range' st (ed - st)).map fun chunk => (tid, chunk)

end HashAggregateStrategy

structure LocalMaps where
  valueMap : HashMap
  countMap : HashMap
  tupleMap : TupleMap
  deriving DecidableEq

inductive AggSource where
  | column (chunks : List ArrayPtr)
  | expression (postfixExpr : List ExprElem)
  deriving DecidableEq

/--
A row of the output: the values of the group, and the aggregate. A mean is given by its bits.
-/
abbrev AggRow := List Value × BitVec 64

structure HashAggregate where
  kernel : AggregateKernel
  groupByCols : List (List ArrayPtr)
  source : AggSource
  filter : Option (Chunked Bool)
  deriving DecidableEq

namespace HashAggregate

variable (hash : Value → BitVec 64) (op : HashAggregate)

def groupHash (key : List Value) : BitVec 64 :=
  key.foldl (fun seed v => HashAggregateStrategy.hashCombine seed (hash v)) 0

def groupAt (groupByCols : List (List ArrayPtr)) (heap : Heap) (chunk item : Nat) : Option (List Value) :=
  groupByCols.mapM fun col => do
    let ptr ← col[chunk]?
    let arr ← heap[ptr]?
    arr.get? item

/--
The number of the chunks of a column; a table without blocks has no columns.
-/
def columnChunks : List ArrayPtr → Option Nat
  | [] => none
  | chunks => some chunks.length

def numChunks : Option Nat :=
  match op.source with
  | .column chunks => columnChunks chunks
  | .expression postfixExpr => postfixExpr.foldlM (fun n e =>
      match e with
      | .column chunks => (columnChunks chunks).map (max n)
      | .arith _ => some n) 0

/--
The array that is aggregated.
-/
def aggChunk (heap : Heap) (chunk : Nat) : Option (ArrayPtr × Heap) :=
  match op.source with
  | .column chunks => chunks[chunk]?.map fun ptr => (ptr, heap)
  | .expression postfixExpr => (Expression.evaluate heap postfixExpr chunk).toOption

def itemValue (kernel : AggregateKernel) (arr : Values) (item : Nat) : Option (BitVec 64) :=
  match kernel, arr with
  | .count, _ => some 1
  | _, .int64 values => values[item]?
  | _, .string _ => none

def isActive (filter : Option (Chunked Bool)) (chunk item : Nat) : Option Bool :=
  match filter with
  | none => some true
  | some filter => do
    let bits ← filter[chunk]?
    bits[item]?

def addItem (kernel : AggregateKernel) (key value : BitVec 64) (tuple : Nat × Nat) (maps : LocalMaps)
    : LocalMaps where
  valueMap := upsert (· + ·) key value maps.valueMap
  countMap :=
    match kernel with
    | .mean => upsert (· + ·) key 1 maps.countMap
    | _ => maps.countMap
  tupleMap := upsert (fun _ old => old) key tuple maps.tupleMap

def aggregateItem (heap : Heap) (arr : Values) (chunk : Nat) (maps : LocalMaps) (item : Nat)
    : Option LocalMaps := do
  let active ← isActive op.filter chunk item
  if active then
    let group ← groupAt op.groupByCols heap chunk item
    let value ← itemValue op.kernel arr item
    return addItem op.kernel (groupHash hash group) value (chunk, item) maps
  else
    return maps

def firstPhaseAggregateChunk (heap : Heap) (maps : LocalMaps) (chunk : Nat) : Option (Heap × LocalMaps) := do
  let (ptr, heap) ← op.aggChunk heap chunk
  let arr ← heap[ptr]?
  let maps ← (List.range arr.length).foldlM (op.aggregateItem hash heap arr chunk) maps
  return (heap, maps)

structure FirstPhase where
  heap : Heap
  maps : List LocalMaps

def firstPhaseStep (s : FirstPhase) (step : Nat × Nat) : Option FirstPhase := do
  let maps ← s.maps[step.1]?
  let (heap, maps) ← op.firstPhaseAggregateChunk hash s.heap maps step.2
  return ⟨heap, s.maps.set step.1 maps⟩

def globalTupleMap (maps : List LocalMaps) : TupleMap :=
  maps.foldl (fun global m => upserts (fun _ old => old) global m.tupleMap) []

def globalValueMap (maps : List LocalMaps) : HashMap :=
  maps.foldl (fun global m => upserts (· + ·) global m.valueMap) []

/--
The values and the counts for a mean. The count of a group that is there already is added to its value.
-/
def globalMeanMaps (maps : List LocalMaps) : Option (HashMap × HashMap) :=
  maps.foldlM (fun globals m => m.countMap.foldlM (fun globals e => do
    let value ← m.valueMap.lookup e.1
    match globals.2.lookup e.1 with
    | none => return (upsert (· + ·) e.1 value globals.1, upsert (· + ·) e.1 e.2 globals.2)
    | some _ => return (upsert (· + ·) e.1 (value + e.2) globals.1, globals.2)) globals) ([], [])

/--
`SecondPhaseAggregate`; `divide` gives the bits of a quotient of doubles.
-/
def secondPhaseAggregate (divide : BitVec 64 → BitVec 64 → BitVec 64) (kernel : AggregateKernel)
    (maps : List LocalMaps) : Option HashMap :=
  match kernel with
  | .sum | .count => some (globalValueMap maps)
  | .mean => do
    let (values, counts) ← globalMeanMaps maps
    counts.mapM fun e => do
      let value ← values.lookup e.1
      return (e.1, divide value e.2)

def finish (heap : Heap) (globalMap : HashMap) (tupleMap : TupleMap) : Option (List AggRow) :=
  tupleMap.mapM fun e => do
    let group ← groupAt op.groupByCols heap e.2.1 e.2.2
    let value ← globalMap.lookup e.1
    return (group, value)

/--
The rows of the output before they are sorted. The order is that in which the tasks take their steps.
-/
def aggregateRows (divide : BitVec 64 → BitVec 64 → BitVec 64) (heap : Heap) (totalThreads : Nat)
    (order : List (Nat × Nat)) : Option (List AggRow) := do
  let numChunks ← op.numChunks
  let tasks := HashAggregateStrategy.suggestedNumTasks totalThreads numChunks
  let s ← order.foldlM (op.firstPhaseStep hash) ⟨heap, List.replicate tasks ⟨[], [], []⟩⟩
  let globalMap ← secondPhaseAggregate divide op.kernel s.maps
  op.finish s.heap globalMap (globalTupleMap s.maps)

end HashAggregate

/-! Sorting. -/

/--
The group columns with the tables of the ORDER BY columns; several columns of one table are all taken.
-/
def orderToGroup (groupBy : List ColumnReference) (orderBy : List OrderByReference) : List Nat :=
  orderBy.flatMap fun ref =>
    (List.range groupBy.length).filter fun j => groupBy[j]?.map (·.table) = some ref.colRef.table

/--
The column that is sorted. A reference without a table is one to the aggregate.
-/
def sortColumn (groupBy : List ColumnReference) (orderBy : List OrderByReference) (ref : OrderByReference × Nat)
    (rows : List AggRow) : Option (List Value) :=
  match ref.1.colRef.table with
  | none => some (rows.map fun row => Value.int64 row.2)
  | some _ => do
    let j ← (orderToGroup groupBy orderBy)[ref.2]?
    rows.mapM fun row => row.1[j]?

/--
`SortResult`, from the last column of the list to the first one; `sortIndices` is that of Arrow.
-/
def sortResult (sortIndices : Bool → List Value → List Nat) (groupBy : List ColumnReference)
    (orderBy : List OrderByReference) (rows : List AggRow) : Option (List AggRow) :=
  orderBy.zipIdx.reverse.foldlM (fun rows ref => do
    let col ← sortColumn groupBy orderBy ref rows
    take rows (sortIndices ref.1.isDesc col)) rows

/-! The operator. -/

/--
The columns in the order in which `ConvertPostfix` materializes them.
-/
def exprColumns : ExprReference → List ColumnReference
  | .null => []
  | .column col => [col]
  | .arith _ left right => exprColumns left ++ exprColumns right

/--
What does not come from the query: the hash of a value, the quotient of two doubles, the sorting of an array, the
number of threads and the room that a builder of offsets has after `Reserve`.
-/
structure AggEnv where
  hash : Value → BitVec 64
  divide : BitVec 64 → BitVec 64 → BitVec 64
  sortIndices : Bool → List Value → List Nat
  hardwareConcurrency : Nat
  capacity : Nat → Nat

namespace HashAggregate

/--
The columns are materialized, first those of the groups. Only a column that is aggregated itself brings the
filter of its table with it.
-/
def initializeColumns (env : AggEnv) (db : TypedTables) (result : OperatorResult) (ref : AggregateReference)
    (groupBy : List ColumnReference) : Option (HashAggregate × Heap) := do
  let (groupByCols, m) ← Memory.empty.materializeColumns env.capacity db result groupBy
  match ref.exprRef with
  | .null =>
    let t ← result.getTable (db.tableId ref.colRef.table)
    let (chunks, m) ← m.materializeColumn env.capacity db result ref.colRef
    return (⟨ref.kernel, groupByCols, .column chunks, t.filter⟩, m.heap)
  | expr =>
    let (_, m) ← m.materializeColumns env.capacity db result (exprColumns expr)
    let postfixExpr ← (Expression.convertPostfix (fun col =>
      match m.materializedCols.lookup col with
      | some chunks => .ok chunks
      | none => .error .invalidAccess) expr).toOption
    return (⟨ref.kernel, groupByCols, .expression postfixExpr, none⟩, m.heap)

def execute (env : AggEnv) (db : TypedTables) (result : OperatorResult) (ref : AggregateReference)
    (groupBy : List ColumnReference) (orderBy : List OrderByReference) (order : List (Nat × Nat))
    : Option (List AggRow) := do
  let (op, heap) ← initializeColumns env db result ref groupBy
  let rows ← op.aggregateRows env.hash env.divide heap env.hardwareConcurrency order
  sortResult env.sortIndices groupBy orderBy rows

end HashAggregate

end Hustle.Operators
