import Hustle.Resolver.SelectResolver

/-!
This module contains the plan that is made from a resolved query: its operators, the results that they
read and write, and the links that say which operator has to wait for which.
-/

namespace Hustle.Resolver

abbrev ResultPtr := Nat

/--
The operators of a plan with the results they read and write.
-/
inductive Operator where
  | select (table : TableName) (input output : ResultPtr) (tree : PredicateTree)
  | selectBuildHash (table : TableName) (input output : ResultPtr) (tree : Option PredicateTree)
      (joinColumn : ColumnReference)
  | multiwayJoin (inputs : List ResultPtr) (output : ResultPtr) (predicates : List JoinPredicate)
  | filterJoin (inputs : List ResultPtr) (output : ResultPtr) (predicates : List JoinPredicate)
  | hashJoin (left right output : ResultPtr) (predicate : JoinPredicate)
  | hashAggregate (input : Option ResultPtr) (output : ResultPtr) (aggRefs : List AggregateReference)
      (groupByRefs : List ColumnReference) (orderByRefs : List OrderByReference)
  deriving DecidableEq

structure ExecutionPlan where
  operators : List Operator
  /-- `dependents_` as pairs of a producer and a consumer. -/
  links : List (Nat × Nat)
  operatorResult : Option ResultPtr
  resultColumns : List ColumnReference
  deriving DecidableEq

/--
Ways in which making a plan does not return: an access through a null pointer or behind the end of a
vector, and an assertion that does not hold.
-/
inductive PlanFailure where
  | invalidAccess
  | assertion
  deriving DecidableEq, Repr

namespace ExecutionPlan

def new : ExecutionPlan := ⟨[], [], none, []⟩

def addOperator (plan : ExecutionPlan) (op : Operator) : Nat × ExecutionPlan :=
  (plan.operators.length, { plan with operators := plan.operators ++ [op] })

def createLink (plan : ExecutionPlan) (producer consumer : Nat) : ExecutionPlan :=
  { plan with links := plan.links ++ [(producer, consumer)] }

end ExecutionPlan

/--
The tables that have been appended to each `OperatorResult`.
-/
abbrev Results := List (List TableName)

namespace Results

def new (results : Results) (tables : List TableName) : ResultPtr × Results :=
  (results.length, results ++ [tables])

end Results

/--
A join predicate that has been default constructed has no tables.
-/
instance : Inhabited JoinPredicate :=
  ⟨⟨⟨none, ""⟩, .equal, ⟨none, ""⟩⟩⟩

structure SelectState where
  results : Results
  joinPredicateMap : Map TableName JoinPredicate
  isPredicateAvail : Bool
  selectResultMap : Map TableName ResultPtr
  selectResult : List ResultPtr
  selectOperators : List Operator

section

variable (catalog : Catalog)

/--
One table of `build_select`. A table that is on the right side of a join predicate gets a hash table on
its column if there is more than one such table. Note that a table that is not gets a hash table as well
if it has a predicate tree, on the column of a predicate that is made up.
-/
def buildSelectTable (s : SelectState) (tableName : Option TableName) (tree : Option PredicateTree)
    : Option SelectState := do
  let name ← tableName
  let table ← catalog.getTable name
  let joinPredicate := s.joinPredicateMap.lookup name
  let (input, results) := s.results.new []
  let (output, results) := Results.new results []
  let s :=
    if joinPredicate.isSome ∧ 1 < s.joinPredicateMap.keys.length then
      {
        s with
          results := results.set input [table]
          isPredicateAvail := true
          selectOperators := s.selectOperators ++
            [Operator.selectBuildHash table input output tree (s.joinPredicateMap.get name).rightCol]
      }
    else
      match tree with
      | none => { s with results := results.set output [table] }
      | some tree =>
        if joinPredicate.isNone ∧ s.joinPredicateMap.keys.length ≤ 1 then
          {
            s with
              results := results.set input [table]
              isPredicateAvail := true
              selectOperators := s.selectOperators ++ [Operator.select table input output tree]
          }
        else
          {
            s with
              results := results.set input [table]
              isPredicateAvail := true
              joinPredicateMap := s.joinPredicateMap.touch name
              selectOperators := s.selectOperators ++
                [Operator.selectBuildHash table input output (some tree) (s.joinPredicateMap.get name).rightCol]
          }
  return {
    s with
      selectResultMap := s.selectResultMap.insert name output
      selectResult := s.selectResult ++ [output]
  }

/--
The result is `none` if a table is missing in the catalog.
-/
def buildSelect (joinPredicateMap : Map TableName JoinPredicate)
    (selectPredicates : Map (Option TableName) (Option PredicateTree)) (names : List (Option TableName))
    : Option SelectState :=
  names.foldlM (fun s name => buildSelectTable catalog s name (selectPredicates.get name))
    ⟨[], joinPredicateMap, false, ∅, [], []⟩

end

/--
The input of a join for one of its tables: the result of the select of a table of the query.
-/
def joinInput (selectPredicates : Map (Option TableName) (Option PredicateTree))
    (selectResultMap : Map TableName ResultPtr) (results : Results) (table : Option TableName)
    : Except PlanFailure (ResultPtr × Results) :=
  match table with
  | none => .error .invalidAccess
  | some table =>
    match selectPredicates.lookup (some table) with
    | some _ =>
      match selectResultMap.lookup table with
      | some ptr => .ok (ptr, results)
      | none => .error .invalidAccess
    | none => .ok (results.new [table])

/--
`build_linear_join`. The first join reads two tables, every other one the join before it and a table.
-/
def buildLinearJoin (selectPredicates : Map (Option TableName) (Option PredicateTree))
    (selectResultMap : Map TableName ResultPtr)
    : List JoinPredicate → Option ResultPtr → Results → List Operator →
      Except PlanFailure (List Operator × Option ResultPtr × Results)
  | [], prev, results, joins => .ok (joins, prev, results)
  | predicate :: predicates, prev, results, joins => do
    let (right, results) ← joinInput selectPredicates selectResultMap results predicate.rightCol.table
    let (left, results) ←
      match prev with
      | some prev => .ok (prev, results)
      | none => joinInput selectPredicates selectResultMap results predicate.leftCol.table
    let (output, results) := Results.new results []
    buildLinearJoin selectPredicates selectResultMap predicates (some output) results
      (joins ++ [.hashJoin left right output predicate])

/--
`build_join`. The predicates are handed over in the order of the map they are kept in.
-/
def buildJoin (hash : HashOrder TableName) (joinPredicateMap : Map TableName JoinPredicate)
    (isPredicateAvail : Bool) (selectResult : List ResultPtr) (output : ResultPtr) : Operator :=
  let predicates := (hash.order joinPredicateMap.keys).filterMap joinPredicateMap.lookup
  if 1 < predicates.length ∧ isPredicateAvail then
    .filterJoin selectResult output predicates
  else
    .multiwayJoin selectResult output predicates

def buildOutputCols (isAggOut : Bool) (projectReferences : List ProjectReference)
    : List ColumnReference :=
  projectReferences.map fun projectRef =>
    let table := if isAggOut then none else projectRef.colRef.table
    if projectRef.aliasName ≠ "" then
      ⟨table, projectRef.aliasName⟩
    else
      ⟨table, projectRef.colRef.colName⟩

/--
The joins of a plan: one operator for a star, or a chain of operators.
-/
inductive JoinOperators where
  | none
  | one (op : Operator)
  | chain (ops : List Operator)
  deriving DecidableEq

/--
Adds a select operator, which is linked to `consumer`.
-/
def addSelect (consumer : Option Nat) (plan : ExecutionPlan) (op : Operator) : ExecutionPlan :=
  let (id, plan) := plan.addOperator op
  match consumer with
  | some joinId => plan.createLink id joinId
  | none => plan

/--
Adds the join operators. Note that the result of the plan is not set for a chain of joins.
-/
def addJoins (plan : ExecutionPlan) (joins : JoinOperators) (joinResultOut : Option ResultPtr)
    : Option Nat × List Nat × ExecutionPlan :=
  match joins with
  | .none => (none, [], plan)
  | .one op =>
    let (id, plan) := plan.addOperator op
    let plan :=
      if plan.operatorResult = none then { plan with operatorResult := joinResultOut } else plan
    (some id, [], plan)
  | .chain ops =>
    (none, List.range' plan.operators.length ops.length,
      { plan with operators := plan.operators ++ ops })

/--
The operators are added in the order aggregate, joins, selects. The selects are linked to the first
join, every join to the next one and the last join to the aggregate.
-/
def assemblePlan (aggOp : Option (Operator × ResultPtr)) (joins : JoinOperators)
    (joinResultOut : Option ResultPtr) (selectResult : List ResultPtr) (selectOperators : List Operator)
    (resultColumns : List ColumnReference) : Except PlanFailure (Option ExecutionPlan) :=
  let (aggId, plan) :=
    match aggOp with
    | some (op, aggResultOut) =>
      let (id, plan) := ExecutionPlan.new.addOperator op
      (some id, { plan with operatorResult := some aggResultOut })
    | none => (none, ExecutionPlan.new)
  let (joinId, joinIds, plan) := addJoins plan joins joinResultOut
  let plan := selectOperators.foldl (addSelect (joinId <|> joinIds.head?)) plan
  let plan := { plan with links := plan.links ++ joinIds.zip joinIds.tail }
  if selectOperators ≠ [] ∧ plan.operatorResult = none ∧ selectResult.length ≠ 1 then
    .error .assertion
  else
    let plan :=
      if selectOperators ≠ [] ∧ plan.operatorResult = none then
        { plan with operatorResult := selectResult.head? }
      else
        plan
    let plan := { plan with resultColumns := resultColumns }
    match aggId with
    | none => .ok (some plan)
    | some aggId =>
      match joinIds.getLast? <|> joinId with
      | some joinId => .ok (some (plan.createLink joinId aggId))
      | none =>
        if selectOperators.length ≠ 1 then
          .ok none
        else
          .ok (some (plan.createLink (plan.operators.length - 1) aggId))

section

variable (hash : HashOrder TableName) (hash' : HashOrder (Option TableName))

/--
The joins and their result. Without join predicates there is a single table.
-/
def buildJoins (s : SelectResolver) (st : SelectState)
    : Except PlanFailure (JoinOperators × Option ResultPtr × Results) := do
  if s.joinPredicates.keys.length ≠ 0 then
    match s.joinType with
    | .star =>
      let (output, results) := Results.new st.results []
      return (.one (buildJoin hash s.joinPredicates st.isPredicateAvail st.selectResult output),
        some output, results)
    | .linear =>
      let (joins, output, results) ←
        buildLinearJoin s.selectPredicates st.selectResultMap s.predicates none st.results []
      return (.chain joins, output, results)
    | .other => return (.none, none, st.results)
  else
    match st.selectResult.head? with
    | none => .error .invalidAccess
    | some result => return (.none, some result, st.results)

/--
The aggregate of a plan. Note that the grouping and the order of a query are part of it, so a query
without an aggregate has neither.
-/
def buildAggregate (s : SelectResolver) (joinResultOut : Option ResultPtr) (results : Results)
    : Except PlanFailure (Option (Operator × ResultPtr)) :=
  match s.aggReferences with
  | [] => .ok none
  | [aggRef] =>
    let output := (results.new []).1
    let op := .hashAggregate joinResultOut output [aggRef] s.groupByReferences s.orderByReferences
    .ok (some (op, output))
  | _ :: _ :: _ => .error .assertion

/--
The result is `none` if the query is left to SQLite.
-/
def createPlan (catalog : Catalog) (s : SelectResolver) : Except PlanFailure (Option ExecutionPlan) := do
  match buildSelect catalog s.joinPredicates s.selectPredicates
      (hash'.order s.selectPredicates.keys) with
  | none => return none
  | some st =>
    let (joins, joinResultOut, results) ← buildJoins hash s st
    let aggOp ← buildAggregate s joinResultOut results
    let resultColumns := buildOutputCols aggOp.isSome s.projectReferences
    assemblePlan aggOp joins joinResultOut st.selectResult st.selectOperators resultColumns

end

end Hustle.Resolver
