import Hustle.Util.Buffer
import Hustle.Util.Bytes
import Hustle.Util.Run
import Hustle.Util.Varint
import Hustle.Util.SList
import Hustle.Util.Multigraph
import Hustle.Util.Countdown
import Hustle.Util.Retain
import Hustle.Util.Enumerates
import Hustle.Util.Cycles
import Hustle.Util.Parents
import Hustle.Util.Accumulate
import Hustle.Util.Odometer
import Hustle.Util.Bitmap
import Hustle.Util.Fill
import Hustle.Util.LexSort
import Hustle.Util.Memo
import Hustle.Util.Reorder
import Hustle.Storage.Basic
import Hustle.Storage.Block
import Hustle.Storage.Table
import Hustle.Storage.Record
import Hustle.Storage.BlockLemmas
import Hustle.Storage.BlockRepr
import Hustle.Storage.TableRepr
import Hustle.Storage.TableRefinement
import Hustle.Storage.RecordUtils
import Hustle.Storage.GetVarint
import Hustle.Storage.RecordSerialGet
import Hustle.Storage.BlockUpdate
import Hustle.Storage.Replay
import Hustle.Storage.TableUpdateLemmas
import Hustle.Storage.TableUpdate
import Hustle.Storage.BlockMemory
import Hustle.Storage.BlockInserts
import Hustle.Storage.BlockRoom
import Hustle.Storage.BlockSession
import Hustle.Resolver.Basic
import Hustle.Storage.Sma
import Hustle.Storage.BulkLoad
import Hustle.Storage.SizedTable
import Hustle.Storage.LoadedTable
import Hustle.Storage.FilledTable
import Hustle.Storage.TableFile
import Hustle.Storage.TableCalls
import Hustle.Storage.RowOffsets
import Hustle.Storage.OrderedLoad
import Hustle.Storage.ColumnLoad
import Hustle.Memlog.Record
import Hustle.Memlog.Decode
import Hustle.Memlog.Log
import Hustle.Memlog.LogRepr
import Hustle.Memlog.Commit
import Hustle.Memlog.Isolation
import Hustle.Catalog.Basic
import Hustle.Catalog.Reopen
import Hustle.Catalog.InStep
import Hustle.Resolver.SelectResolver
import Hustle.Resolver.JoinSupport
import Hustle.Resolver.Plan
import Hustle.Resolver.Accepted
import Hustle.Resolver.PlanLemmas
import Hustle.Resolver.FilteredTables
import Hustle.Resolver.PlannedJoins
import Hustle.Resolver.StarPlan
import Hustle.Resolver.LinearPlan
import Hustle.Resolver.PlanClauses
import Hustle.Operators.BloomFilter
import Hustle.Operators.ChunkedArray
import Hustle.Operators.BuildFilters
import Hustle.Operators.ProbeFilters
import Hustle.Operators.LazyTable
import Hustle.Operators.HashProbe
import Hustle.Operators.JoinTuples
import Hustle.Optimizer.DisjointSetForest
import Hustle.Optimizer.ReorderJoin
import Hustle.Scheduler.Basic
import Hustle.Scheduler.Steps
import Hustle.Scheduler.Placement
import Hustle.Scheduler.Ledger
import Hustle.Scheduler.Builders
import Hustle.Scheduler.Invariant
import Hustle.Scheduler.Preservation
import Hustle.Scheduler.Linking
import Hustle.Scheduler.Cascade
import Hustle.Scheduler.Tree
import Hustle.Scheduler.Plain
import Hustle.Scheduler.Plans
import Hustle.Scheduler.Dependencies
import Hustle.Scheduler.Materialize
import Hustle.Scheduler.BasicRuns
import Hustle.Scheduler.Completion
import Hustle.Operators.Expression
import Hustle.Operators.AggExpr
import Hustle.Operators.Lip
import Hustle.Operators.FilterJoin
import Hustle.Operators.MultiwayJoin
import Hustle.Operators.HashJoin
import Hustle.Operators.AggInput
import Hustle.Operators.HashAggregate
import Hustle.Operators.HashGroups
import Hustle.Operators.ExprValues
import Hustle.Operators.GroupBy
import Hustle.Operators.Aggregate
import Hustle.Operators.AggregateScan
import Hustle.Operators.Interchange
import Hustle.Operators.LipResult
import Hustle.Operators.GatheredJoin
import Hustle.Operators.LipJoin
import Hustle.Operators.Select
import Hustle.Operators.SelectBuildHash
import Hustle.Operators.HashSchedule
import Hustle.Operators.MeanMerge
import Hustle.Operators.GroupSeparation
import Hustle.Operators.SortResult
import Hustle.Operators.SelectRange
import Hustle.Operators.ExprEffects
import Hustle.Operators.ApplyIndices
import Hustle.Operators.MaterializeCalls
import Hustle.Operators.MaterializeResult
import Hustle.Operators.OutTable
import Hustle.Storage.BlockDirectory
import Hustle.Storage.ArrayChunks
import Hustle.Util.ClassNames
import Hustle.Optimizer.ForestCalls
import Hustle.Operators.GroupOdometer
import Hustle.Operators.ChunkStrategy
import Hustle.Operators.BloomBytes
import Hustle.Util.Batches
import Hustle.Operators.BatchLoops
import Hustle.Util.Cells
import Hustle.Operators.SwapOut
import Hustle.Operators.CarriedTables
import Hustle.Storage.AttachedMetadata
import Hustle.Util.SortedMap
import Hustle.Util.Replicas
import Hustle.Storage.UpdatedTable
import Hustle.Memlog.Connection
import Hustle.Memlog.TreeMirror
import Hustle.Memlog.ConnectionLemmas
import Hustle.Memlog.Rollback
import Hustle.Memlog.Replication
import Hustle.Memlog.Loading
import Hustle.Operators.QueryTable
import Hustle.Operators.HashedChain
import Hustle.Util.Precedence
import Hustle.Util.Writes
import Hustle.Execution.Engine
import Hustle.Execution.Filtered
import Hustle.Execution.Layers
import Hustle.Execution.Joined
import Hustle.Execution.LinearQuery
import Hustle.Operators.PairJoin
import Hustle.Execution.PairQuery
import Hustle.Operators.QueryColumns
import Hustle.Operators.GroupedJoin
import Hustle.Operators.SortedGroups
import Hustle.Execution.Aggregated
import Hustle.Storage.SizedDelete
import Hustle.Storage.SizedRefinement
import Hustle.Storage.SimilarTables
import Hustle.Storage.SizedUpdate
