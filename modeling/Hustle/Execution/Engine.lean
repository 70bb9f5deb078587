import Hustle.Operators.CarriedTables
import Hustle.Operators.QueryTable
import Hustle.Operators.SelectRange
import Hustle.Resolver.PlannedJoins
import Hustle.Util.Precedence

/-!
This module contains how the operators of a plan are run: an operator reads the results of earlier operators and adds
lazy tables to a result of its own. Operators are run in any order in which an operator comes behind those that are
linked to it.
-/

namespace Hustle.Resolver

namespace Operator

def isAggregate : Operator → Bool
  | .hashAggregate .. => true
  | .select .. | .selectBuildHash .. | .multiwayJoin .. | .filterJoin .. | .hashJoin .. => false

end Operator

namespace ExecutionPlan

/--
An order of the operators in which every operator comes behind those that are linked to it.
-/
structure IsOrder (plan : ExecutionPlan) (order : List Nat) : Prop where
  perm : order.Perm (List.range plan.operators.length)
  precedes : ∀ link ∈ plan.links, Precedence.Precedes order link.1 link.2

def beforeAggregate (plan : ExecutionPlan) (order : List Nat) : List Nat :=
  order.takeWhile fun id => !(plan.operators[id]?.any Operator.isAggregate)

/--
What the joins of a plan leave: the input of its aggregate, or the result of the plan if there is none.
-/
def joinResult (plan : ExecutionPlan) : Option ResultPtr :=
  match plan.operators.head? with
  | some (.hashAggregate input _ _ _ _) => input
  | _ => plan.operatorResult

end ExecutionPlan

namespace SelectResolver

def treeOf (s : SelectResolver) (name : TableName) : Option PredicateTree :=
  s.selectPredicates.get (some name)

def joinedTables (s : SelectResolver) : List TableName :=
  (s.predicates.head?.bind JoinPredicate.leftTable).toList ++ s.predicates.filterMap JoinPredicate.rightTable

end SelectResolver

end Hustle.Resolver

namespace Hustle.Execution

open Operators
open Resolver (Catalog ColumnReference CompareOperator ExecutionPlan HashOrder Operator PlanFailure PredicateTree
  ResultPtr SelectResolver TableName)

/--
The tree of predicates that `Select` evaluates.
-/
def nodeOf : Resolver.Node → Select.Node
  | .predicate p => .predicate (Select.BoundedPredicate.ofResolved p).toPredicate
  | .connective left right .and => .connective (nodeOf left) (nodeOf right) .and
  | .connective left right .or => .connective (nodeOf left) (nodeOf right) .or

def rootOf (tree : PredicateTree) : Select.Node :=
  nodeOf tree.root

/--
What operators are run with: the stored tables and where a table is, how many chunks a batch of a join has, the number
of hardware threads, Arrow's kernel for strings, `SearchMetadata` of the blocks of a table, and the order in which a
`std::unordered_map` is iterated over.
-/
structure Engine where
  db : QueryDatabase
  pointer : TableName → Nat
  size : Nat → Nat
  hardwareConcurrency : Nat
  compare : List (List UInt8) → List UInt8 → CompareOperator → BooleanArray
  searchMetadata : TableName → Nat → String → BitVec 64 → CompareOperator → Bool
  iterate : HashTable → HashTable
  compare_pointwise : Select.Pointwise compare
  iterate_perm : ∀ t, (iterate t).entries.Perm t.entries

/--
The orders of the tasks of the operators that filter a table, by the results of the operators.
-/
structure Schedules where
  select : ResultPtr → List Nat
  selectBuildHash : ResultPtr → List SelectBuildHash.BlockTask

namespace Engine

variable (e : Engine)

def table (name : TableName) : Option QueryTable :=
  e.db[e.pointer name]?

def joinPredicate (p : Resolver.JoinPredicate) : Option JoinPredicate := do
  let left ← p.leftCol.table
  let right ← p.rightCol.table
  return ⟨e.pointer left, p.leftCol.colName, e.pointer right, p.rightCol.colName⟩

def lazyTable (name : TableName) : LazyTable :=
  ⟨e.pointer name, none, none, none, none⟩

def lazyTables (results : Resolver.Results) : List OperatorResult :=
  results.map fun tables => tables.map e.lazyTable

/-! Operators. -/

/--
`Select::ExecuteBlock`.
-/
def executeBlock (name : TableName) (t : QueryTable) (tree : PredicateTree) (filters : List (Option BooleanArray))
    (blockIndex : Nat) : Option (List (Option BooleanArray)) := do
  let b ← t.table.getBlock (blockIndex : Int)
  let filter ← Select.filter e.compare (e.searchMetadata name blockIndex) t.names b (rootOf tree)
  return filters.set blockIndex (some filter)

/--
`Select::Execute`, with the blocks in the order in which they are filtered.
-/
def select (name : TableName) (tree : PredicateTree) (blocks : List Nat) : Option LazyTable := do
  let t ← e.table name
  let filters ← blocks.foldlM (e.executeBlock name t tree) (List.replicate t.table.blocks.entries.length none)
  let filters ← filters.mapM id
  return ⟨e.pointer name, some (filters.map BooleanArray.bits), none, none, none⟩

def selectBuildHash (name : TableName) (tree : Option PredicateTree) (joinColumn : ColumnReference)
    (tasks : List SelectBuildHash.BlockTask) : Option LazyTable := do
  let t ← e.table name
  let op : SelectBuildHash := ⟨t.table, t.names, tree.map rootOf, joinColumn.colName⟩
  let s ← op.execute e.compare (e.searchMetadata name) e.iterate tasks
  let filter ← op.outputFilter s
  return ⟨e.pointer name, filter, none, none, some s.hashTable⟩

def hashJoin (results : List OperatorResult) (left right : ResultPtr) (predicate : Resolver.JoinPredicate)
    : Option OperatorResult := do
  let leftResult ← results[left]?
  let rightResult ← results[right]?
  let p ← e.joinPredicate predicate
  HashJoin.execute e.db.tables e.size leftResult rightResult p

def multiwayJoin (results : List OperatorResult) (inputs : List ResultPtr)
    (predicates : List Resolver.JoinPredicate) : Option OperatorResult := do
  let prevResultVec ← take results inputs
  let preds ← predicates.mapM e.joinPredicate
  let joins ← MultiwayJoin.preparedJoins prevResultVec.flatten preds
  MultiwayJoin.execute e.db.tables e.size prevResultVec.flatten joins

/--
Run an operator that comes before an aggregate. `FilterJoin` is left out.
-/
def run (schedules : Schedules) (results : List OperatorResult) : Operator → Option (List OperatorResult)
  | .select name _ output tree => do
    let t ← e.select name tree (schedules.select output)
    return results.modify output (t :: ·)
  | .selectBuildHash name _ output tree joinColumn => do
    let t ← e.selectBuildHash name tree joinColumn (schedules.selectBuildHash output)
    return results.modify output (t :: ·)
  | .hashJoin left right output predicate => do
    let out ← e.hashJoin results left right predicate
    return results.modify output (· ++ out)
  | .multiwayJoin inputs output predicates => do
    let out ← e.multiwayJoin results inputs predicates
    return results.modify output (· ++ out)
  | .filterJoin .. | .hashAggregate .. => none

/-! Plans. -/

def runId (schedules : Schedules) (plan : ExecutionPlan) (results : List OperatorResult) (id : Nat)
    : Option (List OperatorResult) := do
  let op ← plan.operators[id]?
  e.run schedules results op

def start (hash : HashOrder TableName) (hash' : HashOrder (Option TableName)) (catalog : Catalog) (s : SelectResolver)
    : Except PlanFailure (List OperatorResult) := do
  match Resolver.buildSelect catalog s.joinPredicates s.selectPredicates (hash'.order s.selectPredicates.keys) with
  | none => return []
  | some st =>
    let (_, _, results) ← Resolver.buildJoins hash s st
    let results := if s.aggReferences = [] then results else (results.new []).2
    return e.lazyTables results

def runPlan (schedules : Schedules) (plan : ExecutionPlan) (order : List Nat) (results : List OperatorResult)
    : Option (List OperatorResult) :=
  (plan.beforeAggregate order).foldlM (e.runId schedules plan) results

/--
The blocks of a table are filtered in any order, or filtered and hashed in an order in which every batch goes through
its blocks one after the other.
-/
def Scheduled (schedules : Schedules) : Operator → Prop
  | .select name _ output _ => ∀ t, e.table name = some t →
    (schedules.select output).Perm
      (SelectBuildHash.batches e.hardwareConcurrency t.table.blocks.entries.length).flatten
  | .selectBuildHash name _ output _ _ => ∀ t, e.table name = some t →
    SelectBuildHash.IsSchedule (SelectBuildHash.batches e.hardwareConcurrency t.table.blocks.entries.length)
      (schedules.selectBuildHash output)
  | .multiwayJoin .. | .filterJoin .. | .hashJoin .. | .hashAggregate .. => True

/-! What a query asks for. -/

def cell (c : Resolver.ColumnReference) (ρ : Nat → Nat) : Option Storage.Cell := do
  let name ← c.table
  let t ← e.table name
  t.cell c.colName (ρ (e.pointer name))

/--
The columns of the join predicate have the same value.
-/
def Agrees (p : Resolver.JoinPredicate) (ρ : Nat → Nat) : Prop :=
  ∃ v, e.cell p.leftCol ρ = some (.int64 v) ∧ e.cell p.rightCol ρ = some (.int64 v)

/--
Rows of the tables that are joined which satisfy the trees of their tables and all join predicates.
-/
structure Joins (s : SelectResolver) (ρ : Nat → Nat) : Prop where
  selects : ∀ name ∈ s.joinedTables, ∃ t, e.table name = some t ∧
    t.Selects ((s.treeOf name).map rootOf) (ρ (e.pointer name))
  agrees : ∀ p ∈ s.predicates, e.Agrees p ρ

/--
The tables of the query are stored under pointers of their own, the trees compare columns with constants of their type
by other operators than `<>`, and the join columns are columns of integers.
-/
structure Fits (s : SelectResolver) : Prop where
  stored : ∀ name, some name ∈ s.selectPredicates.keys → ∃ t, e.table name = some t ∧
    t.WellTyped ((s.treeOf name).map rootOf)
  pointer_inj : ∀ name name', some name ∈ s.selectPredicates.keys → some name' ∈ s.selectPredicates.keys →
    e.pointer name = e.pointer name' → name = name'
  columns : ∀ p ∈ s.predicates, ∀ c, c = p.leftCol ∨ c = p.rightCol → ∃ name t, c.table = some name ∧
    e.table name = some t ∧ t.HasInt64 c.colName

/-! Small engines. -/

theorem id_perm (t : HashTable) : (id t).entries.Perm t.entries :=
  List.Perm.refl _

def ofTables (names : List TableName) (db : QueryDatabase) : Engine where
  db := db
  pointer := names.idxOf
  size := id
  hardwareConcurrency := 2
  compare := Select.compareEach
  searchMetadata := fun _ _ _ _ _ => true
  iterate := id
  compare_pointwise := Select.compareEach_pointwise
  iterate_perm := id_perm

end Engine

end Hustle.Execution
