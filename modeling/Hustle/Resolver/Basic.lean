import Hustle.Storage.Basic

/-!
This module contains the data of the resolver: what it reads of the SQLite parse tree, and the
references and predicates that it builds from it.
-/

namespace Hustle.Resolver

/--
The order in which an `std::unordered_map` with the given keys is walked.
-/
structure HashOrder (κ : Type) where
  order : List κ → List κ
  perm : ∀ keys, (order keys).Perm keys

def HashOrder.listed (κ : Type) : HashOrder κ := ⟨id, fun _ => .refl _⟩

/--
The name of a table. It is never empty, a table is made with an unquoted `CREATE TABLE` statement. The
catalog has one table for a name, so a pointer to a table is its name.
-/
structure TableName where
  name : String
  name_ne_empty : name ≠ ""
  deriving DecidableEq

/--
The tables of the catalog with their number of rows.
-/
abbrev Catalog := Map TableName Int

namespace Catalog

def getTable (catalog : Catalog) (name : TableName) : Option TableName :=
  (catalog.lookup name).map fun _ => name

def getNumRows (catalog : Catalog) (table : TableName) : Int :=
  (catalog.lookup table).getD 0

end Catalog

inductive CompareOperator where
  | equal
  | notEqual
  | less
  | lessEqual
  | greater
  | greaterEqual
  deriving DecidableEq, Repr

inductive FilterOperator where
  | and
  | or
  deriving DecidableEq, Repr

inductive ArithOperator where
  | star
  | plus
  | minus
  | slash
  deriving DecidableEq, Repr

/--
What a column expression refers to: the cursor, `y.pTab->zName`, the column number, which is negative
for the row id, and `y.pTab->aCol[iColumn].zName`.
-/
structure Column where
  iTable : Int
  tableName : TableName
  iColumn : Int
  colName : String
  deriving DecidableEq

/--
The expressions of SQLite, with `null` for a null pointer. The literal of an integer is kept as text
if it does not fit into an `int`, `token` stands for what is read from the pointer to that text then.
All operators that the resolver does not know are `other`.
-/
inductive Expr where
  | null
  | column (c : Column)
  | aggColumn (c : Column)
  | aggFunction (name : String) (arg : Expr)
  | integer (value : Nat) (token : Int)
  | string (value : String)
  | and (left right : Expr)
  | or (left right : Expr)
  | compare (op : CompareOperator) (left right : Expr)
  | between (left first second : Expr)
  | arith (op : ArithOperator) (left right : Expr)
  | other (left right : Expr)
  deriving DecidableEq

namespace Expr

def maxInt : Nat := 2147483647

/--
`u.iValue` of an integer.
-/
def iValue (value : Nat) (token : Int) : Int :=
  if value ≤ maxInt then value else token

def pLeft : Expr → Expr
  | and left _ | or left _ | compare _ left _ | between left _ _ | arith _ left _ | other left _ => left
  | null | column _ | aggColumn _ | aggFunction _ _ | integer _ _ | string _ => null

/--
`iTable`, which is 0 for everything but columns.
-/
def iTable : Expr → Option Int
  | null => none
  | column c | aggColumn c => some c.iTable
  | aggFunction _ _ | integer _ _ | string _ | and _ _ | or _ _ | compare _ _ _ | between _ _ _
  | arith _ _ _ | other _ _ => some 0

/--
`iColumn`, which is 0 for everything but columns.
-/
def iColumn : Expr → Option Int
  | null => none
  | column c | aggColumn c => some c.iColumn
  | aggFunction _ _ | integer _ _ | string _ | and _ _ | or _ _ | compare _ _ _ | between _ _ _
  | arith _ _ _ | other _ _ => some 0

end Expr

structure SrcItem where
  zName : TableName
  /-- `pSelect`, `pUsing` and `pOn` are not null, `fg.jointype` is not supported. -/
  pSelect : Bool
  pUsing : Bool
  pOn : Bool
  jtUnsupported : Bool
  deriving DecidableEq

structure ExprListItem where
  pExpr : Expr
  zEName : String
  deriving DecidableEq

structure OrderByItem where
  pExpr : Expr
  iOrderByCol : Nat
  desc : Bool
  deriving DecidableEq

inductive SelFlag where
  | distinct
  | all
  | nestedFrom
  | view
  | recursive
  | fixedLimit
  | compound
  | values
  | multiValue
  deriving DecidableEq, Repr

structure Sqlite3Select where
  pSrc : Option (List SrcItem)
  pHaving : Expr
  selFlags : List SelFlag
  pEList : List ExprListItem
  pNext : Bool
  pWhere : Expr
  pGroupBy : List Expr
  pOrderBy : List OrderByItem
  deriving DecidableEq

structure ColumnReference where
  table : Option TableName
  colName : String
  deriving DecidableEq

inductive Datum where
  | int64 (value : Int)
  | string (value : String)
  deriving DecidableEq

structure Predicate where
  colRef : ColumnReference
  comparator : CompareOperator
  value : Datum
  deriving DecidableEq

structure JoinPredicate where
  leftCol : ColumnReference
  comparator : CompareOperator
  rightCol : ColumnReference
  deriving DecidableEq

inductive Node where
  | predicate (p : Predicate)
  | connective (left right : Node) (op : FilterOperator)
  deriving DecidableEq

/--
A tree of predicates on one table. Trees are compared by their address, which is `id`. A new tree has
no table id and an empty table name.
-/
structure PredicateTree where
  id : Nat
  root : Node
  tableId : Option Int
  tableName : Option TableName
  deriving DecidableEq

/--
The expression below an aggregate, with `null` for a null pointer.
-/
inductive ExprReference where
  | null
  | column (col : ColumnReference)
  | arith (op : ArithOperator) (left right : ExprReference)
  deriving DecidableEq

inductive AggregateKernel where
  | sum
  | count
  | mean
  deriving DecidableEq, Repr

structure AggregateReference where
  kernel : AggregateKernel
  aggName : String
  colRef : ColumnReference
  exprRef : ExprReference
  deriving DecidableEq

structure ProjectReference where
  colRef : ColumnReference
  aliasName : String
  deriving DecidableEq

structure OrderByReference where
  colRef : ColumnReference
  isDesc : Bool
  deriving DecidableEq

inductive JoinType where
  | star
  | linear
  | other
  deriving DecidableEq, Repr

end Hustle.Resolver
