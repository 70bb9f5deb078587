import Hustle.Resolver.Basic

/-!
This module contains the `SelectResolver` class, which takes a parsed `SELECT` apart: the predicates on
single tables, the join predicates and the references of the other clauses. It decides whether the joins
of the query are of a kind that can be executed.
-/

namespace Hustle.Resolver

structure SelectResolver where
  selectPredicates : Map (Option TableName) (Option PredicateTree)
  joinPredicates : Map TableName JoinPredicate
  joinGraph : Map TableName (List JoinPredicate)
  predicates : List JoinPredicate
  aggReferences : List AggregateReference
  groupByReferences : List ColumnReference
  orderByReferences : List OrderByReference
  projectReferences : List ProjectReference
  resolveStatus : Bool
  joinType : JoinType
  /-- The address of the next predicate tree. -/
  nextId : Nat

/--
Ways in which resolving a query does not return: the exception for an `OR` of predicates on two tables,
and an access through a null pointer or behind the end of a vector.
-/
inductive Failure where
  | orOnDifferentTables
  | invalidAccess
  deriving DecidableEq, Repr

@[simp]
theorem ok_bind {α β : Type} (a : α) (f : α → Except Failure β) : (Except.ok a >>= f) = f a := rfl

@[simp]
theorem pure_eq_ok {α : Type} (a : α) : (pure a : Except Failure α) = .ok a := rfl

namespace SelectResolver

def new : SelectResolver :=
  {
    selectPredicates := ∅
    joinPredicates := ∅
    joinGraph := ∅
    predicates := []
    aggReferences := []
    groupByReferences := []
    orderByReferences := []
    projectReferences := []
    resolveStatus := true
    joinType := .other
    nextId := 0
  }

def makeTree (s : SelectResolver) (root : Node) (tableId : Option Int) (tableName : Option TableName)
    : PredicateTree × SelectResolver :=
  (⟨s.nextId, root, tableId, tableName⟩, { s with nextId := s.nextId + 1 })

def setPredicate (s : SelectResolver) (name : Option TableName) (tree : PredicateTree) : SelectResolver :=
  { s with selectPredicates := s.selectPredicates.insert name (some tree) }

/--
`select_predicates_[name]`, which adds an entry if there is none.
-/
def getPredicate (s : SelectResolver) (name : Option TableName)
    : Option PredicateTree × SelectResolver :=
  (s.selectPredicates.get name, { s with selectPredicates := s.selectPredicates.touch name })

/--
Only one side of an `AND` has a tree, which is added to the tree of its table unless it is that tree.
-/
def mergePredicate (s : SelectResolver) (curPredTree : PredicateTree)
    : Except Failure (Option PredicateTree × SelectResolver) :=
  let (prevPredTree, s) := s.getPredicate curPredTree.tableName
  if prevPredTree.map PredicateTree.id = some curPredTree.id then
    .ok (none, s)
  else
    match prevPredTree with
    | none => .error .invalidAccess
    | some prevPredTree =>
      let (tree, s) := s.makeTree (.connective prevPredTree.root curPredTree.root .and) none none
      .ok (some tree, s.setPredicate curPredTree.tableName tree)

/--
The rest of `ResolvePredExpr` for `AND` and `OR` once both sides have been resolved. Whether the two
trees are on the same table is decided by the cursors of the nodes two levels down.
-/
def combinePredicates (s : SelectResolver) (op : FilterOperator) (leftExpr rightExpr : Expr)
    (lpredTree rpredTree : Option PredicateTree)
    : Except Failure (Option PredicateTree × SelectResolver) :=
  match lpredTree, rpredTree with
  | none, none => .ok (none, s)
  | some tree, none | none, some tree =>
    match op with
    | .and => s.mergePredicate tree
    | .or => .ok (none, s)
  | some lpredTree, some rpredTree =>
    match leftExpr.pLeft.iTable, rightExpr.pLeft.iTable with
    | some leftTable, some rightTable =>
      if leftTable = rightTable then
        let (tree, s) := s.makeTree (.connective lpredTree.root rpredTree.root op) lpredTree.tableId
          lpredTree.tableName
        .ok (some tree, s.setPredicate tree.tableName tree)
      else
        match op with
        | .or => .error .orOnDifferentTables
        | .and => .ok (none, s)
    | _, _ => .error .invalidAccess

section

variable (catalog : Catalog)

def columnRef (c : Column) : ColumnReference :=
  ⟨catalog.getTable c.tableName, c.colName⟩

/--
The tree for the comparison of a column with a constant, which becomes the tree of its table if that has
none.
-/
def addComparison (s : SelectResolver) (op : CompareOperator) (c : Column) (value : Datum)
    : Option PredicateTree × SelectResolver :=
  let root := .predicate ⟨columnRef catalog c, op, value⟩
  let (tree, s) := s.makeTree root (some c.iTable) (some c.tableName)
  let (prevPredTree, s) := s.getPredicate (some c.tableName)
  match prevPredTree with
  | none => (some tree, s.setPredicate (some c.tableName) tree)
  | some _ => (some tree, s)

/--
`ResolvePredExpr` for comparisons. Equalities of two columns are left to `ResolveJoinPredExpr`.
-/
def resolveComparison (s : SelectResolver) (op : CompareOperator) (left right : Expr)
    : Option PredicateTree × SelectResolver :=
  match left, right with
  | .column c, .integer value token => s.addComparison catalog op c (.int64 (Expr.iValue value token))
  | .column c, .string value => s.addComparison catalog op c (.string value)
  | .column _, .column _ => (none, s)
  | _, _ => (none, { s with resolveStatus := false })

/--
`ResolvePredExpr` for `BETWEEN`. Note that the tree replaces whatever tree its table had.
-/
def resolveBetween (s : SelectResolver) (left first second : Expr)
    : Option PredicateTree × SelectResolver :=
  match left, first, second with
  | .column c, .integer value token, .integer value' token' =>
    let leftPredicate :=
      .predicate ⟨columnRef catalog c, .greaterEqual, .int64 (Expr.iValue value token)⟩
    let rightPredicate :=
      .predicate ⟨columnRef catalog c, .lessEqual, .int64 (Expr.iValue value' token')⟩
    let (tree, s) := s.makeTree (.connective leftPredicate rightPredicate .and) (some c.iTable)
      (some c.tableName)
    (some tree, s.setPredicate (some c.tableName) tree)
  | _, _, _ => (none, s)

def resolvePredExpr : Expr → SelectResolver → Except Failure (Option PredicateTree × SelectResolver)
  | .and left right, s => do
    let (lpredTree, s) ← resolvePredExpr left s
    let (rpredTree, s) ← resolvePredExpr right s
    s.combinePredicates .and left right lpredTree rpredTree
  | .or left right, s => do
    let (lpredTree, s) ← resolvePredExpr left s
    let (rpredTree, s) ← resolvePredExpr right s
    s.combinePredicates .or left right lpredTree rpredTree
  | .compare op left right, s => .ok (s.resolveComparison catalog op left right)
  | .between left first second, s => .ok (s.resolveBetween catalog left first second)
  | .null, s | .integer _ _, s | .string _, s => .ok (none, s)
  | .column _, s | .aggColumn _, s | .aggFunction _ _, s => .ok (none, s)
  | .arith _ _ _, s | .other _ _, s => .ok (none, { s with resolveStatus := false })

/--
The join predicate for an equality of two columns. The table with more rows goes to the left.
-/
def joinPredicate (left right : Column) : JoinPredicate :=
  let lRef := columnRef catalog left
  let rRef := columnRef catalog right
  match lRef.table, rRef.table with
  | some table1, some table2 =>
    if catalog.getNumRows table1 < catalog.getNumRows table2 then
      ⟨rRef, .equal, lRef⟩
    else
      ⟨lRef, .equal, rRef⟩
  | _, _ => ⟨lRef, .equal, rRef⟩

def addToGraph (s : SelectResolver) (table : TableName) (joinPred : JoinPredicate) : SelectResolver :=
  { s with joinGraph := s.joinGraph.insert table (s.joinGraph.get table ++ [joinPred]) }

def addJoinPredicate (s : SelectResolver) (joinPred : JoinPredicate) : SelectResolver :=
  let s :=
    match joinPred.rightCol.table with
    | some table =>
      { addToGraph { s with joinPredicates := s.joinPredicates.insert table joinPred } table joinPred with
          predicates := s.predicates ++ [joinPred] }
    | none => s
  match joinPred.leftCol.table with
  | some table => s.addToGraph table joinPred
  | none => s

def resolveJoinPredExpr : Expr → SelectResolver → SelectResolver
  | .null, s | .integer _ _, s | .string _, s => s
  | .column _, s | .aggColumn _, s | .aggFunction _ _, s => s
  | .compare .equal left right, s =>
    match left, right with
    | .column l, .column r => s.addJoinPredicate (joinPredicate catalog l r)
    | _, _ => s
  | .compare .notEqual left right, s | .compare .less left right, s | .compare .lessEqual left right, s
  | .compare .greater left right, s | .compare .greaterEqual left right, s
  | .and left right, s | .or left right, s | .arith _ left right, s | .other left right, s =>
    resolveJoinPredExpr right (resolveJoinPredExpr left s)
  | .between left _ _, s => resolveJoinPredExpr left s

end

def otherTable (predicate : JoinPredicate) (table : TableName) : Except Failure TableName :=
  match predicate.leftCol.table, predicate.rightCol.table with
  | none, _ => .error .invalidAccess
  | some left, none => if left = table then .error .invalidAccess else .ok left
  | some left, some right => .ok (if left = table then right else left)

/--
The loop of `CheckJoinSupport` that follows the predicates from table to table, where `n` predicates are
still to be covered. The result is the list of ordered predicates, or `none` if the joins are not
supported.
-/
def walkPath (joinGraph : Map TableName (List JoinPredicate))
    : Nat → JoinPredicate → TableName → List TableName → List JoinPredicate →
      Except Failure (Option (List JoinPredicate))
  | 0, _, _, _, orderedPredicates => .ok (some orderedPredicates)
  | n + 1, currPredicate, currTable, visitedTables, orderedPredicates =>
    if currTable ∈ visitedTables then
      .ok none
    else do
      let nextTable ← otherTable currPredicate currTable
      let rpredicates := joinGraph.get nextTable
      if 2 < rpredicates.length then
        .ok none
      else
        match rpredicates.find? (· ≠ currPredicate) with
        | some predicate =>
          walkPath joinGraph n predicate nextTable (visitedTables ++ [currTable])
            (orderedPredicates ++ [currPredicate])
        | none => if 0 < n then .ok none else .ok (some (orderedPredicates ++ [currPredicate]))

/--
The last table that has a single predicate. Its name is not empty.
-/
def startOfPath (joinGraph : Map TableName (List JoinPredicate)) (tables : List TableName)
    : Option (TableName × JoinPredicate) :=
  let step start table :=
    match joinGraph.get table with
    | [predicate] => some (table, predicate)
    | _ => start
  tables.foldl step none

def checkJoinSupport (hash : HashOrder TableName) (s : SelectResolver)
    : Except Failure (Bool × SelectResolver) :=
  let s := { s with joinType := .other }
  let tables := hash.order s.joinGraph.keys
  if tables.any fun table => (s.joinGraph.get table).length = s.predicates.length then
    .ok (true, { s with joinType := .star })
  else
    match startOfPath s.joinGraph tables with
    | none => .ok (false, s)
    | some (startTable, startPredicate) => do
      match ← walkPath s.joinGraph s.predicates.length startPredicate startTable [] [] with
      | none => return (false, s)
      | some orderedPredicates =>
        return (true, { s with predicates := orderedPredicates, joinType := .linear })

section

variable (catalog : Catalog)

def resolveAggExpr : Expr → ExprReference
  | .column c | .aggColumn c => .column (columnRef catalog c)
  | .arith op left right => .arith op (resolveAggExpr left) (resolveAggExpr right)
  | .null | .aggFunction _ _ | .integer _ _ | .string _ | .and _ _ | .or _ _ | .compare _ _ _
  | .between _ _ _ | .other _ _ => .null

def aggregateKernel (name : String) : Option AggregateKernel :=
  match String.ofList (name.toList.map Char.toUpper) with
  | "SUM" => some .sum
  | "COUNT" => some .count
  | "MEAN" => some .mean
  | _ => none

/--
The column of a `GROUP BY`, an `ORDER BY` or an aggregate, which reads the table of its expression.
-/
def exprColumnRef : Expr → Except Failure ColumnReference
  | .column c | .aggColumn c => .ok (columnRef catalog c)
  | _ => .error .invalidAccess

def addAggregate (s : SelectResolver) (name zEName : String) (colRef : ColumnReference)
    (exprRef : ExprReference) : Option SelectResolver := do
  let kernel ← aggregateKernel name
  return {
    s with
      aggReferences := s.aggReferences ++ [⟨kernel, zEName, colRef, exprRef⟩]
      projectReferences := s.projectReferences ++ [⟨colRef, zEName⟩]
  }

/--
One column of the result. The result is `none` where the query is not supported. Note that the first
column of a table takes the way of the expressions.
-/
def resolveResultColumn (s : SelectResolver) (item : ExprListItem)
    : Except Failure (Option SelectResolver) :=
  match item.pExpr with
  | .aggFunction name arg =>
    match arg.iColumn with
    | none => .error .invalidAccess
    | some iColumn =>
      if 0 < iColumn then do
        let colRef ← exprColumnRef catalog arg
        return s.addAggregate name item.zEName colRef .null
      else
        match resolveAggExpr catalog arg with
        | .null => .ok none
        | exprRef => .ok (s.addAggregate name item.zEName ⟨none, ""⟩ exprRef)
  | .column c | .aggColumn c =>
    if c.iColumn = -1 then
      .ok none
    else
      .ok (some { s with projectReferences := s.projectReferences ++ [⟨columnRef catalog c, ""⟩] })
  | _ => .ok none

def resolveResultColumns (s : SelectResolver)
    : List ExprListItem → Except Failure (Option SelectResolver)
  | [] => .ok (some s)
  | item :: items => do
    match ← s.resolveResultColumn catalog item with
    | none => return none
    | some s => resolveResultColumns s items

def resolveGroupBy (s : SelectResolver) (expr : Expr) : Except Failure SelectResolver := do
  match expr.iColumn with
  | none => .error .invalidAccess
  | some iColumn =>
    if 0 ≤ iColumn then
      let colRef ← exprColumnRef catalog expr
      return { s with groupByReferences := s.groupByReferences ++ [colRef] }
    else
      return s

def resolveOrderBy (s : SelectResolver) (item : OrderByItem) : Except Failure SelectResolver := do
  if 0 < item.iOrderByCol then
    match item.pExpr.iColumn with
    | none => .error .invalidAccess
    | some iColumn =>
      if 0 ≤ iColumn then
        let colRef ←
          match item.pExpr with
          | .aggFunction _ _ =>
            match s.projectReferences[item.iOrderByCol - 1]? with
            | none => .error .invalidAccess
            | some projectRef => .ok ⟨none, projectRef.aliasName⟩
          | expr => exprColumnRef catalog expr
        return { s with orderByReferences := s.orderByReferences ++ [⟨colRef, item.desc⟩] }
      else
        return s
  else
    return s

def srcSupported (item : SrcItem) : Bool :=
  !item.pSelect && !item.pUsing && !item.pOn && !item.jtUnsupported

def resolvePredExprs (s : SelectResolver) (items : List ExprListItem) : Except Failure SelectResolver :=
  items.foldlM (fun s item => Prod.snd <$> resolvePredExpr catalog item.pExpr s) s

/--
The `WHERE` clause, whose predicates on single tables and whose join predicates are found in two passes.
-/
def resolveWhere (pWhere : Expr) (s : SelectResolver) : Except Failure (Option SelectResolver) := do
  let (_, s) ← resolvePredExpr catalog pWhere s
  if pWhere ≠ .null ∧ !s.resolveStatus then
    return none
  else
    return some (resolveJoinPredExpr catalog pWhere s)

/--
The tables of the `FROM` clause, which have no predicates yet.
-/
def addTables (s : SelectResolver) (pTabList : List SrcItem) : SelectResolver :=
  let addTable m item := Map.emplace m (some item.zName) none
  { s with selectPredicates := pTabList.foldl addTable s.selectPredicates }

/--
The result is `none` if the query is left to SQLite.
-/
def resolveSelectTree (hash : HashOrder TableName) (queryTree : Sqlite3Select) (s : SelectResolver)
    : Except Failure (Option SelectResolver) := do
  match queryTree.pSrc with
  | none => return none
  | some pTabList =>
    if queryTree.pHaving ≠ .null ∨ queryTree.selFlags ≠ [] ∨ !pTabList.all srcSupported then
      return none
    let s ← (s.addTables pTabList).resolvePredExprs catalog queryTree.pEList
    match ← s.resolveResultColumns catalog queryTree.pEList with
    | none => return none
    | some s =>
      if queryTree.pNext then
        return none
      match ← resolveWhere catalog queryTree.pWhere s with
      | none => return none
      | some s =>
        let (supported, s) ← s.checkJoinSupport hash
        if !supported then
          return none
        let s ← queryTree.pGroupBy.foldlM (resolveGroupBy catalog) s
        let s ← queryTree.pOrderBy.foldlM (resolveOrderBy catalog) s
        return some s

end

end SelectResolver

end Hustle.Resolver
