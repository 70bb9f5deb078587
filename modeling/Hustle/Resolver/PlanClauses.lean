import Mathlib.Logic.Relation
import Hustle.Resolver.LinearPlan
import Hustle.Util.LexSort

/-!
This module contains when a plan does all that its query asks for: its operators wait for each other,
the last one gives the result, and the tables, the grouping and the order of the query are part of it.
-/

namespace Hustle.Resolver

open JoinPredicate
open Multigraph

namespace Operator

def output : Operator → Nat
  | .select _ _ output _ | .selectBuildHash _ _ output _ _ => output
  | .multiwayJoin _ output _ | .filterJoin _ output _ | .hashJoin _ _ output _ => output
  | .hashAggregate _ output _ _ _ => output

def inputs : Operator → List Nat
  | .select _ input _ _ | .selectBuildHash _ input _ _ _ => [input]
  | .multiwayJoin inputs _ _ | .filterJoin inputs _ _ => inputs
  | .hashJoin left right _ _ => [left, right]
  | .hashAggregate input _ _ _ _ => input.toList

end Operator

inductive SortKey where
  | group (col : ColumnReference) (isDesc : Bool)
  | aggregate (isDesc : Bool)
  deriving DecidableEq

/--
The column of a key, none for the aggregate.
-/
def SortKey.column : SortKey → Option ColumnReference × Bool
  | .group col isDesc => (some col, isDesc)
  | .aggregate isDesc => (none, isDesc)

/--
Rows that are sorted by some columns are sorted as asked for: the columns begin with those that are asked for, up to
columns that come back.
-/
def SortsAsAsked (asked sorted : List (Option ColumnReference × Bool)) : Prop :=
  LexSort.reduce asked <+: LexSort.reduce sorted

instance (asked sorted : List (Option ColumnReference × Bool)) : Decidable (SortsAsAsked asked sorted) :=
  inferInstanceAs (Decidable (_ <+: _))

/--
`order_to_group` of `SortResult`. Note that only the tables of the columns are compared.
-/
def orderToGroup (groupByRefs : List ColumnReference) (orderByRefs : List OrderByReference) : List Nat :=
  orderByRefs.flatMap fun orderByRef =>
    (groupByRefs.zipIdx.filter fun entry => orderByRef.colRef.table = entry.1.table).map Prod.snd

/--
What `SortResult` sorts by, the least significant key comes last. There is none if it reads behind the
end of a vector.
-/
def sortKeys (groupByRefs : List ColumnReference) (orderByRefs : List OrderByReference)
    : Option (List SortKey) :=
  orderByRefs.zipIdx.mapM fun (orderByRef, i) =>
    match orderByRef.colRef.table with
    | none => some (.aggregate orderByRef.isDesc)
    | some _ => do
      let group ← (orderToGroup groupByRefs orderByRefs)[i]?
      let col ← groupByRefs[group]?
      return .group col orderByRef.isDesc

namespace Operator

def groupedBy : Operator → Option (List ColumnReference)
  | .hashAggregate _ _ _ groupByRefs _ => some groupByRefs
  | _ => none

def sortedBy : Operator → Option (List SortKey)
  | .hashAggregate _ _ _ groupByRefs orderByRefs => sortKeys groupByRefs orderByRefs
  | _ => none

end Operator

namespace ExecutionPlan

def Before (plan : ExecutionPlan) (i j : Nat) : Prop :=
  Relation.TransGen (fun producer consumer => (producer, consumer) ∈ plan.links) i j

end ExecutionPlan

/--
The key that an `ORDER BY` reference stands for.
-/
def OrderByReference.sortKey (orderByRef : OrderByReference) : SortKey :=
  match orderByRef.colRef.table with
  | none => .aggregate orderByRef.isDesc
  | some _ => .group orderByRef.colRef orderByRef.isDesc

namespace Sqlite3Select

/--
The key for an item of the `ORDER BY` clause, which is a column or the aggregate.
-/
def orderKey (catalog : Catalog) (item : OrderByItem) : SortKey :=
  match item.pExpr with
  | .column c | .aggColumn c => .group (SelectResolver.columnRef catalog c) item.desc
  | _ => .aggregate item.desc

/--
The grouping is by columns of the tables, the order is by columns of the result, and there is at most
one aggregate.
-/
structure PlainClauses (q : Sqlite3Select) : Prop where
  aggregates : q.pEList.countP SelectResolver.isAggregate ≤ 1
  groupBy : ∀ e ∈ q.pGroupBy, ∃ c : Column,
    (e = .column c ∨ e = .aggColumn c) ∧ 0 ≤ c.iColumn ∧ c.tableName ∈ q.fromTables
  orderBy : ∀ item ∈ q.pOrderBy, 0 < item.iOrderByCol ∧ item.iOrderByCol ≤ q.pEList.length ∧
    ((∃ c : Column, (item.pExpr = .column c ∨ item.pExpr = .aggColumn c) ∧ 0 ≤ c.iColumn ∧
        c.tableName ∈ q.fromTables) ∨
      ∃ name arg, item.pExpr = .aggFunction name arg)

/--
The plan does all that the query asks for.
-/
structure PlanComplete (catalog : Catalog) (q : Sqlite3Select) (s : SelectResolver)
    (plan : ExecutionPlan) : Prop where
  joined : ∀ t ∈ q.fromTables, ∃ p ∈ s.predicates, Incident leftTable rightTable p (some t)
  result : ∃ i op, plan.operators[i]? = some op ∧ plan.operatorResult = some op.output ∧
    ∀ j < plan.operators.length, j ≠ i → plan.Before j i
  linked : ∀ i j op op', plan.operators[i]? = some op → plan.operators[j]? = some op' →
    op'.output ∈ op.inputs → plan.Before j i
  grouped : q.pGroupBy ≠ [] → ∃ op ∈ plan.operators, ∃ refs,
    op.groupedBy = some refs ∧ refs.map some = q.pGroupBy.map (SelectResolver.groupByRef catalog)
  sorted : q.pOrderBy ≠ [] → ∃ op ∈ plan.operators, plan.operatorResult = some op.output ∧
    ∃ keys, op.sortedBy = some keys ∧
      SortsAsAsked (q.pOrderBy.map fun item => (orderKey catalog item).column) (keys.map SortKey.column)

/--
The column that the `i`th item of the `ORDER BY` clause is taken for, none for the aggregate: the group column that
`order_to_group` has at `i`.
-/
def sortedColumn (groupByRefs : List ColumnReference) (orderByRefs : List OrderByReference)
    (entry : OrderByReference × Nat) : Option ColumnReference := do
  let _ ← entry.1.colRef.table
  let group ← (orderToGroup groupByRefs orderByRefs)[entry.2]?
  groupByRefs[group]?

/--
Every column of the `ORDER BY` clause finds an entry of `order_to_group`, and the columns that they are taken for sort
as asked for.
-/
def SortAligned (groupByRefs : List ColumnReference) (orderByRefs : List OrderByReference) : Prop :=
  (∀ entry ∈ orderByRefs.zipIdx, entry.1.colRef.table.isSome →
    entry.2 < (orderToGroup groupByRefs orderByRefs).length) ∧
  SortsAsAsked (orderByRefs.map fun orderByRef => orderByRef.sortKey.column)
    (orderByRefs.zipIdx.map fun entry => (sortedColumn groupByRefs orderByRefs entry, entry.1.isDesc))

instance (groupByRefs : List ColumnReference) (orderByRefs : List OrderByReference)
    : Decidable (SortAligned groupByRefs orderByRefs) :=
  inferInstanceAs (Decidable (_ ∧ _))

/--
All tables are joined. There is an aggregate whose grouping and order fit together, or there are a star
of joins, no grouping and no order.
-/
structure PlanSafe (q : Sqlite3Select) (s : SelectResolver) : Prop where
  joined : ∀ t ∈ q.fromTables, ∃ e ∈ q.pWhere.equalities, t = e.1.tableName ∨ t = e.2.tableName
  clauses : q.pEList.any SelectResolver.isAggregate ∧
      SortAligned s.groupByReferences s.orderByReferences ∨
    s.joinType = .star ∧ q.pGroupBy = [] ∧ q.pOrderBy = []

end Sqlite3Select

section

variable {groupByRefs : List ColumnReference} {orderByRefs : List OrderByReference}

theorem lt_of_mem_orderToGroup {group : Nat} (h : group ∈ orderToGroup groupByRefs orderByRefs)
    : group < groupByRefs.length := by
  obtain ⟨orderByRef, -, hgroup⟩ := List.mem_flatMap.mp h
  obtain ⟨entry, hentry, rfl⟩ := List.mem_map.mp hgroup
  exact (List.getElem?_eq_some_iff.mp (List.mem_zipIdx_iff_getElem?.mp (List.mem_filter.mp hentry).1)).1

/--
An entry has a key if `SortResult` does not read behind the end of a vector for it.
-/
theorem sortKeys_eq_mapM (groupByRefs : List ColumnReference) (orderByRefs : List OrderByReference)
    : ∃ f : OrderByReference × Nat → Option SortKey, sortKeys groupByRefs orderByRefs = orderByRefs.zipIdx.mapM f ∧
        ∀ entry key, f entry = some key ↔
          (entry.1.colRef.table.isSome → entry.2 < (orderToGroup groupByRefs orderByRefs).length) ∧
          key.column = (Sqlite3Select.sortedColumn groupByRefs orderByRefs entry, entry.1.isDesc) := by
  refine ⟨_, rfl, ?_⟩
  rintro ⟨orderByRef, i⟩ key
  cases htable : orderByRef.colRef.table with
  | none => cases key <;> simp [htable, Sqlite3Select.sortedColumn, SortKey.column, eq_comm]
  | some table =>
    by_cases hi : i < (orderToGroup groupByRefs orderByRefs).length
    . have hgroup := lt_of_mem_orderToGroup (List.getElem_mem hi)
      cases key with
      | group col isDesc =>
        simp only [htable, hi, hgroup, Sqlite3Select.sortedColumn, SortKey.column, List.getElem?_eq_getElem,
          Option.bind_eq_bind, Option.bind_some, Option.pure_def, Option.some.injEq, SortKey.group.injEq,
          Prod.mk.injEq, implies_true, true_and]
        exact and_congr eq_comm eq_comm
      | aggregate isDesc => simp [htable, hi, hgroup, Sqlite3Select.sortedColumn, SortKey.column]
    . simp [htable, hi]

theorem sortAligned_iff
    : Sqlite3Select.SortAligned groupByRefs orderByRefs
        ↔
      ∃ keys, sortKeys groupByRefs orderByRefs = some keys ∧
        SortsAsAsked (orderByRefs.map fun orderByRef => orderByRef.sortKey.column) (keys.map SortKey.column) := by
  obtain ⟨f, hkeys, hf⟩ := sortKeys_eq_mapM groupByRefs orderByRefs
  have hcolumns : ∀ keys, orderByRefs.zipIdx.mapM f = some keys →
      keys.map SortKey.column = orderByRefs.zipIdx.map fun entry =>
        (Sqlite3Select.sortedColumn groupByRefs orderByRefs entry, entry.1.isDesc) := by
    intro keys hkeys
    have hlen := Run.length_mapM hkeys
    apply List.ext_getElem
    . simpa using hlen
    . intro i hi hi'
      rw [List.length_map] at hi'
      obtain ⟨key, hkey, hget⟩ := Run.getElem?_mapM hkeys (List.getElem?_eq_getElem hi')
      rw [List.getElem_map, List.getElem_map, ← ((hf _ _).mp hkey).2]
      exact congrArg SortKey.column (List.getElem?_eq_some_iff.mp hget).2
  rw [hkeys]
  constructor
  . rintro ⟨hfound, hsorts⟩
    have hsome : ∀ entry ∈ orderByRefs.zipIdx, f entry = some ((f entry).getD (.aggregate false)) := by
      intro entry hentry
      have hkey : ∃ key, f entry = some key := by
        cases hcolumn : Sqlite3Select.sortedColumn groupByRefs orderByRefs entry with
        | none => exact ⟨.aggregate entry.1.isDesc, (hf _ _).mpr ⟨hfound entry hentry, by rw [hcolumn]; rfl⟩⟩
        | some col => exact ⟨.group col entry.1.isDesc, (hf _ _).mpr ⟨hfound entry hentry, by rw [hcolumn]; rfl⟩⟩
      obtain ⟨key, hkey⟩ := hkey
      rw [hkey]
      rfl
    have hkeys' := Run.mapM_eq_some hsome
    exact ⟨_, hkeys', by rw [hcolumns _ hkeys']; exact hsorts⟩
  . rintro ⟨keys, hkeys', hsorts⟩
    rw [hcolumns keys hkeys'] at hsorts
    refine ⟨?_, hsorts⟩
    intro entry hentry
    obtain ⟨i, hi⟩ := List.getElem?_of_mem hentry
    obtain ⟨key, hkey, -⟩ := Run.getElem?_mapM hkeys' hi
    exact ((hf _ _).mp hkey).1

end

namespace SelectResolver

variable {catalog : Catalog} {q : Sqlite3Select} {s : SelectResolver}

theorem selectOperator_io {map : Map TableName JoinPredicate} {tree : Option PredicateTree}
    {t : TableName} {k : Nat} {op : Operator} (h : selectOperator map tree t k = some op)
    : op.output = 2 * k + 1 ∧ op.inputs = [2 * k] := by
  unfold selectOperator at h
  split at h
  . rw [← Option.some.inj h]
    exact ⟨rfl, rfl⟩
  . split at h
    . cases h
    . split at h
      . rw [← Option.some.inj h]
        exact ⟨rfl, rfl⟩
      . rw [← Option.some.inj h]
        exact ⟨rfl, rfl⟩

theorem selectOperators_io {tables : List TableName} {op : Operator} (h : op ∈ s.selectOperators tables)
    : ∃ k < tables.length, op.output = 2 * k + 1 ∧ op.inputs = [2 * k] := by
  unfold selectOperators at h
  obtain ⟨entry, hentry, hop⟩ := List.mem_filterMap.mp h
  have hget := List.mem_zipIdx_iff_getElem?.mp hentry
  exact ⟨entry.2, (List.getElem?_eq_some_iff.mp hget).1, selectOperator_io hop⟩

theorem buildJoin_io (hash : HashOrder TableName) (map : Map TableName JoinPredicate)
    (isPredicateAvail : Bool) (selectResult : List ResultPtr) (output : ResultPtr)
    : (buildJoin hash map isPredicateAvail selectResult output).output = output ∧
      (buildJoin hash map isPredicateAvail selectResult output).inputs = selectResult := by
  unfold buildJoin
  dsimp only
  split
  . exact ⟨rfl, rfl⟩
  . exact ⟨rfl, rfl⟩

/--
The operators wait for each other, and the last one gives the result.
-/
structure Ordered (plan : ExecutionPlan) : Prop where
  result : ∃ i op, plan.operators[i]? = some op ∧ plan.operatorResult = some op.output ∧
    ∀ j < plan.operators.length, j ≠ i → plan.Before j i
  linked : ∀ i j op op', plan.operators[i]? = some op → plan.operators[j]? = some op' →
    op'.output ∈ op.inputs → plan.Before j i

def AreSelects (n : Nat) (selects : List Operator) : Prop :=
  ∀ op ∈ selects, ∃ k < n, op.output = 2 * k + 1 ∧ op.inputs = [2 * k]

theorem ordered_star {join : Operator} {selects : List Operator} {n : Nat} {cols : List ColumnReference}
    (hout : join.output = 2 * n) (hin : ∀ x ∈ join.inputs, ∃ k < n, x = 2 * k + 1)
    (hselects : AreSelects n selects)
    : Ordered ⟨join :: selects, (List.range' 1 selects.length).map (·, 0), some (2 * n), cols⟩ := by
  have hbefore : ∀ j < selects.length, ExecutionPlan.Before
      ⟨join :: selects, (List.range' 1 selects.length).map (·, 0), some (2 * n), cols⟩ (j + 1) 0 := by
    intro j hj
    apply Relation.TransGen.single
    simp
    omega
  constructor
  . refine ⟨0, join, rfl, by rw [hout], ?_⟩
    intro j hj hne
    cases j with
    | zero => exact absurd rfl hne
    | succ j => exact hbefore j (Nat.lt_of_succ_lt_succ hj)
  . intro i j op op' hop hop' hmem
    cases i with
    | zero =>
      cases hop
      cases j with
      | zero =>
        cases hop'
        obtain ⟨k, hk, heq⟩ := hin _ hmem
        omega
      | succ j => exact hbefore j (Nat.lt_of_succ_lt_succ (List.getElem?_eq_some_iff.mp hop').1)
    | succ i =>
      obtain ⟨k, hk, -, hinputs⟩ := hselects op (List.mem_of_getElem? hop)
      rw [hinputs, List.mem_singleton] at hmem
      cases j with
      | zero =>
        cases hop'
        omega
      | succ j =>
        obtain ⟨k', -, houtput, -⟩ := hselects op' (List.mem_of_getElem? hop')
        omega

/--
The joins of a query with `n` tables: every join reads tables and the join before it.
-/
def AreJoins (n : Nat) (joins : List Operator) : Prop :=
  ∀ i op, joins[i]? = some op → op.output = 2 * n + i ∧
    ∀ x ∈ op.inputs, (∃ k < n, x = 2 * k + 1) ∨ (0 < i ∧ x = 2 * n + i - 1)

section

variable {agg : Operator} {joins selects : List Operator} {n : Nat} {cols : List ColumnReference}

def aggregatePlan (agg : Operator) (joins selects : List Operator) (n : Nat)
    (cols : List ColumnReference) : ExecutionPlan :=
  {
    operators := [agg] ++ joins ++ selects
    links :=
      (List.range' (joins.length + 1) selects.length).map (·, 1) ++
        (List.range' 1 joins.length).zip (List.range' 1 joins.length).tail ++ [(joins.length, 0)]
    operatorResult := some (2 * n + joins.length)
    resultColumns := cols
  }

theorem before_select {j : Nat} (hj : j < selects.length)
    : (aggregatePlan agg joins selects n cols).Before (joins.length + 1 + j) 1 := by
  apply Relation.TransGen.single
  simp [aggregatePlan]
  omega

theorem before_next {j : Nat} (hj : j + 1 < joins.length)
    : (aggregatePlan agg joins selects n cols).Before (j + 1) (j + 2) := by
  apply Relation.TransGen.single
  have hmem : (j + 1, j + 2) ∈ (List.range' 1 joins.length).zip (List.range' 1 joins.length).tail := by
    rw [List.mem_iff_getElem?]
    refine ⟨j, ?_⟩
    rw [List.getElem?_zip_eq_some, List.getElem?_tail, List.getElem?_range' (by omega),
      List.getElem?_range' hj]
    exact ⟨by congr 1; omega, by congr 1; omega⟩
  simp only [aggregatePlan, List.mem_append]
  exact Or.inl (Or.inr hmem)

theorem before_join {i j : Nat} (hij : i < j) (hj : j < joins.length)
    : (aggregatePlan agg joins selects n cols).Before (i + 1) (j + 1) := by
  induction j with
  | zero => omega
  | succ j ih =>
    by_cases heq : i = j
    . rw [heq]
      apply before_next hj
    . exact (ih (by omega) (by omega)).trans (before_next hj)

theorem before_aggregate {j : Nat} (hj : j < joins.length)
    : (aggregatePlan agg joins selects n cols).Before (j + 1) 0 := by
  have hlast : (aggregatePlan agg joins selects n cols).Before joins.length 0 := by
    apply Relation.TransGen.single
    simp [aggregatePlan]
  by_cases heq : j + 1 = joins.length
  . rw [heq]
    exact hlast
  . have hjoin : (aggregatePlan agg joins selects n cols).Before (j + 1) (joins.length - 1 + 1) := by
      apply before_join
      . omega
      . omega
    rw [Nat.sub_add_cancel (by omega)] at hjoin
    exact hjoin.trans hlast

/--
A plan with an aggregate over at least one join.
-/
theorem ordered_aggregate (hne : joins ≠ []) (hin : agg.inputs = [2 * n + joins.length - 1])
    (hout : agg.output = 2 * n + joins.length) (hjoins : AreJoins n joins) (hselects : AreSelects n selects)
    : Ordered (aggregatePlan agg joins selects n cols) := by
  have hpos := List.length_pos_of_ne_nil hne
  have hselect : ∀ j < selects.length, ∀ i < joins.length,
      (aggregatePlan agg joins selects n cols).Before (joins.length + 1 + j) (i + 1) := by
    intro j hj i hi
    have hfirst : (aggregatePlan agg joins selects n cols).Before (joins.length + 1 + j) 1 :=
      before_select hj
    by_cases hzero : i = 0
    . rw [hzero]
      exact hfirst
    . exact hfirst.trans (before_join (Nat.pos_of_ne_zero hzero) hi)
  -- An operator is the aggregate, a join or a select.
  have hcases : ∀ i op, (aggregatePlan agg joins selects n cols).operators[i]? = some op →
      (i = 0 ∧ op = agg) ∨ (∃ k < joins.length, i = k + 1 ∧ joins[k]? = some op) ∨
        (∃ k < selects.length, i = joins.length + 1 + k ∧ selects[k]? = some op) := by
    intro i op hop
    cases i with
    | zero =>
      cases hop
      exact Or.inl ⟨rfl, rfl⟩
    | succ i =>
      have hop' : (joins ++ selects)[i]? = some op := hop
      right
      by_cases hi : i < joins.length
      . rw [List.getElem?_append_left hi] at hop'
        exact Or.inl ⟨i, hi, rfl, hop'⟩
      . rw [List.getElem?_append_right (by omega)] at hop'
        have hlt := (List.getElem?_eq_some_iff.mp hop').1
        exact Or.inr ⟨i - joins.length, hlt, by omega, hop'⟩
  constructor
  . refine ⟨0, agg, rfl, by rw [hout]; rfl, ?_⟩
    intro j hj hne'
    rcases hcases j _ (List.getElem?_eq_getElem hj) with ⟨hzero, -⟩ | ⟨k, hk, rfl, -⟩ | ⟨k, hk, rfl, -⟩
    . exact absurd hzero hne'
    . apply before_aggregate hk
    . exact (hselect k hk 0 hpos).trans (before_aggregate hpos)
  . intro i j op op' hop hop' hmem
    rcases hcases i op hop with ⟨rfl, rfl⟩ | ⟨a, ha, rfl, hjoin⟩ | ⟨a, ha, rfl, hsel⟩
    . rw [hin, List.mem_singleton] at hmem
      rcases hcases j op' hop' with ⟨rfl, rfl⟩ | ⟨b, hb, rfl, -⟩ | ⟨b, hb, rfl, hsel'⟩
      . omega
      . apply before_aggregate hb
      . obtain ⟨k, hk, houtput, -⟩ := hselects op' (List.mem_of_getElem? hsel')
        omega
    . have hinputs := (hjoins a op hjoin).2 _ hmem
      rcases hcases j op' hop' with ⟨rfl, rfl⟩ | ⟨b, hb, rfl, hjoin'⟩ | ⟨b, hb, rfl, -⟩
      . omega
      . have houtput := (hjoins b op' hjoin').1
        apply before_join (by omega) ha
      . apply hselect b hb a ha
    . obtain ⟨k, hk, -, hinputs⟩ := hselects op (List.mem_of_getElem? hsel)
      rw [hinputs, List.mem_singleton] at hmem
      rcases hcases j op' hop' with ⟨rfl, rfl⟩ | ⟨b, hb, rfl, hjoin'⟩ | ⟨b, hb, rfl, hsel'⟩
      . omega
      . have houtput := (hjoins b op' hjoin').1
        omega
      . obtain ⟨k', hk', houtput, -⟩ := hselects op' (List.mem_of_getElem? hsel')
        omega

end

section

variable {hash : HashOrder TableName} {hash' : HashOrder (Option TableName)} {st : SelectState}
  {tables : List TableName}

theorem selectOperators_areSelects : AreSelects tables.length (s.selectOperators tables) :=
  fun _ hop => selectOperators_io hop

theorem buildJoin_areJoins (hash : HashOrder TableName) (map : Map TableName JoinPredicate) (isPredicateAvail : Bool)
    : AreJoins tables.length [buildJoin hash map isPredicateAvail
        ((List.range tables.length).map (2 * · + 1)) (2 * tables.length)] := by
  intro i op hop
  obtain ⟨hout, hin⟩ := buildJoin_io hash map isPredicateAvail
    ((List.range tables.length).map (2 * · + 1)) (2 * tables.length)
  cases i with
  | zero =>
    cases hop
    refine ⟨hout, ?_⟩
    intro x hx
    left
    rw [hin] at hx
    obtain ⟨k, hk, rfl⟩ := List.mem_map.mp hx
    exact ⟨k, List.mem_range.mp hk, rfl⟩
  | succ i => simp at hop

theorem getElem?_linearJoins {input : TableName → Nat} {ps : List JoinPredicate} {left output i : Nat}
    {op : Operator} (h : (linearJoins input ps left output)[i]? = some op)
    : ∃ p t, p ∈ ps ∧ p.rightTable = some t ∧
        op = .hashJoin (if i = 0 then left else output + i - 1) (input t) (output + i) p := by
  induction ps generalizing left output i with
  | nil => simp [linearJoins] at h
  | cons p ps ih =>
    rw [linearJoins] at h
    split at h
    . next t ht =>
      cases i with
      | zero =>
        cases h
        exact ⟨p, t, List.mem_cons_self, ht, rfl⟩
      | succ i =>
        rw [List.getElem?_cons_succ] at h
        obtain ⟨p', t', hp', ht', rfl⟩ := ih h
        refine ⟨p', t', List.mem_cons_of_mem p hp', ht', ?_⟩
        congr 1
        . split
          . next hi => simp [hi]
          . simp
        . rw [Nat.add_assoc, Nat.add_comm 1]
    . simp at h

theorem length_linearJoins {input : TableName → Nat} {ps : List JoinPredicate} {left output : Nat}
    (hright : ∀ p ∈ ps, p.rightTable.isSome)
    : (linearJoins input ps left output).length = ps.length := by
  induction ps generalizing left output with
  | nil => rfl
  | cons p ps ih =>
    obtain ⟨t, ht⟩ := Option.isSome_iff_exists.mp (hright p List.mem_cons_self)
    rw [linearJoins, ht]
    dsimp only
    rw [List.length_cons, List.length_cons, ih fun p' hp' => hright p' (List.mem_cons_of_mem p hp')]

theorem linearJoins_areJoins {ps : List JoinPredicate} {left : TableName} (hleft : left ∈ tables)
    (hright : ∀ p ∈ ps, ∀ t, p.rightTable = some t → t ∈ tables)
    : AreJoins tables.length
        (linearJoins (selectInput tables) ps (selectInput tables left) (2 * tables.length)) := by
  intro i op hop
  obtain ⟨p, t, hp, ht, rfl⟩ := getElem?_linearJoins hop
  have hinput : ∀ u ∈ tables, ∃ k < tables.length, selectInput tables u = 2 * k + 1 :=
    fun u hu => ⟨tables.idxOf u, List.idxOf_lt_length_of_mem hu, rfl⟩
  refine ⟨rfl, ?_⟩
  intro x hx
  simp only [Operator.inputs, List.mem_cons, List.not_mem_nil, or_false] at hx
  rcases hx with rfl | rfl
  . split
    . exact Or.inl (hinput left hleft)
    . exact Or.inr ⟨by omega, rfl⟩
  . exact Or.inl (hinput t (hright p hp t ht))

theorem clauses_buildJoin (hash : HashOrder TableName) (map : Map TableName JoinPredicate)
    (isPredicateAvail : Bool) (selectResult : List ResultPtr) (output : ResultPtr)
    : (buildJoin hash map isPredicateAvail selectResult output).groupedBy = none ∧
      (buildJoin hash map isPredicateAvail selectResult output).sortedBy = none := by
  unfold buildJoin
  dsimp only
  split
  . exact ⟨rfl, rfl⟩
  . exact ⟨rfl, rfl⟩

theorem clauses_selectOperators {op : Operator} (h : op ∈ s.selectOperators tables)
    : op.groupedBy = none ∧ op.sortedBy = none := by
  unfold selectOperators at h
  obtain ⟨entry, -, hop⟩ := List.mem_filterMap.mp h
  unfold selectOperator at hop
  split at hop
  . rw [← Option.some.inj hop]
    exact ⟨rfl, rfl⟩
  . split at hop
    . cases hop
    . split at hop
      . rw [← Option.some.inj hop]
        exact ⟨rfl, rfl⟩
      . rw [← Option.some.inj hop]
        exact ⟨rfl, rfl⟩

/--
The aggregate of a plan with `n` tables that is fed by the last of `m` joins.
-/
def aggregateOf (s : SelectResolver) (aggRef : AggregateReference) (n m : Nat) : Operator :=
  .hashAggregate (some (2 * n + m - 1)) (2 * n + m) [aggRef] s.groupByReferences s.orderByReferences

def IsAggregatePlan (s : SelectResolver) (aggRef : AggregateReference) (plan : ExecutionPlan) : Prop :=
  ∃ tables joins cols,
    joins ≠ [] ∧
    AreJoins tables.length joins ∧
    (∀ op ∈ joins, op.groupedBy = none ∧ op.sortedBy = none) ∧
    plan = aggregatePlan (aggregateOf s aggRef tables.length joins.length) joins
      (s.selectOperators tables) tables.length cols

section

variable {aggRef : AggregateReference} (hs : Accepted catalog q s) (hknown : q.TablesIn catalog)
  (hq : q.JoinsFromTables)
  (hselect : buildSelect catalog s.joinPredicates s.selectPredicates
    (hash'.order s.selectPredicates.keys) = some st)
  (hnames : hash'.order s.selectPredicates.keys = tables.map some)
  (hinv : SelectInv s.joinPredicates s.selectPredicates tables st)
  (hagg : s.aggReferences = [aggRef])

include hs hknown hq hselect hinv hagg

theorem Accepted.createPlan_star_aggregate (hstar : s.joinType = .star)
    : ∃ plan, createPlan hash hash' catalog s = .ok (some plan) ∧ s.IsAggregatePlan aggRef plan := by
  have hjoins := hs.buildJoins_star hash hknown hq hinv hstar
  have haggOp : buildAggregate s (some (2 * tables.length)) (st.results ++ [[]])
      = .ok (some (s.aggregateOf aggRef tables.length 1, 2 * tables.length + 1)) := by
    unfold buildAggregate
    rw [hagg]
    dsimp only [Results.new]
    rw [List.length_append, hinv.length_results]
    rfl
  refine ⟨_, (createPlan_of_parts hselect hjoins haggOp).trans (assemblePlan_one _ _), ?_⟩
  refine ⟨tables, _, buildOutputCols true s.projectReferences, List.cons_ne_nil _ _,
    buildJoin_areJoins hash s.joinPredicates st.isPredicateAvail, ?_, ?_⟩
  . intro op hop
    rw [List.mem_singleton.mp hop]
    apply clauses_buildJoin
  . rw [hinv.selectOperators_eq]
    simp [aggregatePlan, selectOperators]

include hnames

theorem Accepted.createPlan_linear_aggregate (hlinear : s.joinType = .linear)
    : ∃ plan, createPlan hash hash' catalog s = .ok (some plan) ∧ s.IsAggregatePlan aggRef plan := by
  obtain ⟨p, ps, left, hcons, hleft, hright, hbuild⟩ :=
    hs.buildLinearJoin_predicates hknown hq hnames hinv hlinear
  have hjoins : buildJoins hash s st = .ok (.chain (linearJoins (selectInput tables) (p :: ps)
      (selectInput tables left) st.results.length), some (st.results.length + ps.length),
      st.results ++ List.replicate (p :: ps).length []) := by
    unfold buildJoins
    rw [if_pos (hs.keys_joinPredicates_ne hknown hq), hlinear, hbuild]
    rfl
  rw [hinv.length_results] at hjoins
  have hlength : (linearJoins (selectInput tables) (p :: ps) (selectInput tables left)
      (2 * tables.length)).length = (p :: ps).length := length_linearJoins hright
  have haggOp : buildAggregate s (some (2 * tables.length + ps.length))
      (st.results ++ List.replicate (p :: ps).length [])
      = .ok (some (s.aggregateOf aggRef tables.length (p :: ps).length,
          2 * tables.length + (p :: ps).length)) := by
    unfold buildAggregate
    rw [hagg]
    dsimp only [Results.new]
    rw [List.length_append, hinv.length_results, List.length_replicate]
    rfl
  have hne : linearJoins (selectInput tables) (p :: ps) (selectInput tables left) (2 * tables.length)
      ≠ [] := by
    intro hnil
    rw [hnil] at hlength
    simp at hlength
  have hincident : ∀ p' ∈ p :: ps, ∀ t, Incident leftTable rightTable p' (some t) → t ∈ tables := by
    intro p' hp' t ht
    rw [← hcons] at hp'
    apply hs.mem_tables hnames
    apply hs.mem_fromTables_of_predicate hknown hq hlinear hp' ht
  refine ⟨_, (createPlan_of_parts hselect hjoins haggOp).trans (assemblePlan_chain_some hne _), ?_⟩
  refine ⟨tables, _, buildOutputCols true s.projectReferences, hne, ?_, ?_, ?_⟩
  . apply linearJoins_areJoins
    . exact hincident p List.mem_cons_self left (Or.inl hleft)
    . intro p' hp' t ht
      exact hincident p' hp' t (Or.inr ht)
  . intro op hop
    obtain ⟨i, hi⟩ := List.mem_iff_getElem?.mp hop
    obtain ⟨p', t, -, -, rfl⟩ := getElem?_linearJoins hi
    exact ⟨rfl, rfl⟩
  . rw [hinv.selectOperators_eq]
    simp [aggregatePlan, selectOperators, hlength]

end

end

section

variable {hash : HashOrder TableName} {hash' : HashOrder (Option TableName)} {st : SelectState}
  (hs : Accepted catalog q s) (hq : q.JoinsFromTables)
  (hselect : buildSelect catalog s.joinPredicates s.selectPredicates
    (hash'.order s.selectPredicates.keys) = some st)

include hs hq hselect

theorem Accepted.createPlan_aggregate {aggRef : AggregateReference} (hagg : s.aggReferences = [aggRef])
    : ∃ plan, createPlan hash hash' catalog s = .ok (some plan) ∧ s.IsAggregatePlan aggRef plan := by
  obtain ⟨tables, hnames, hknown, hinv⟩ := hs.buildSelect_tables hselect
  rcases (hs.classified hknown hq).2 with ⟨hstar, -⟩ | ⟨hlinear, -⟩
  . apply hs.createPlan_star_aggregate hknown hq hselect hinv hagg hstar
  . apply hs.createPlan_linear_aggregate hknown hq hselect hnames hinv hagg hlinear

theorem Accepted.createPlan_star_only (hagg : s.aggReferences = []) (hstar : s.joinType = .star)
    : ∃ plan,
        createPlan hash hash' catalog s = .ok (some plan) ∧
        Ordered plan ∧
        ∀ op ∈ plan.operators, op.groupedBy = none ∧ op.sortedBy = none := by
  obtain ⟨tables, hnames, hknown, hinv⟩ := hs.buildSelect_tables hselect
  have hjoins := hs.buildJoins_star hash hknown hq hinv hstar
  have haggOp : buildAggregate s (some (2 * tables.length)) (st.results ++ [[]]) = .ok none := by
    unfold buildAggregate
    rw [hagg]
  obtain ⟨hout, hin⟩ := buildJoin_io hash s.joinPredicates st.isPredicateAvail
    ((List.range tables.length).map (2 * · + 1)) (2 * tables.length)
  have hplan : createPlan hash hash' catalog s = .ok (some ⟨
      buildJoin hash s.joinPredicates st.isPredicateAvail ((List.range tables.length).map (2 * · + 1))
        (2 * tables.length) :: s.selectOperators tables,
      (List.range' 1 (s.selectOperators tables).length).map (·, 0), some (2 * tables.length),
      buildOutputCols false s.projectReferences⟩) := by
    rw [createPlan_of_parts hselect hjoins haggOp, assemblePlan_one, hinv.selectOperators_eq]
    simp [selectOperators]
  refine ⟨_, hplan, ?_, ?_⟩
  . apply ordered_star hout
    . intro x hx
      rw [hin] at hx
      obtain ⟨k, hk, rfl⟩ := List.mem_map.mp hx
      exact ⟨k, List.mem_range.mp hk, rfl⟩
    . exact selectOperators_areSelects
  . intro op hop
    rcases List.mem_cons.mp hop with rfl | hop
    . apply clauses_buildJoin
    . apply clauses_selectOperators hop

theorem Accepted.createPlan_linear_only (hagg : s.aggReferences = []) (hlinear : s.joinType = .linear)
    {plan : ExecutionPlan} (hplan : createPlan hash hash' catalog s = .ok (some plan))
    : plan.operatorResult = none := by
  obtain ⟨tables, hnames, hknown, hinv⟩ := hs.buildSelect_tables hselect
  obtain ⟨p, ps, left, hcons, hleft, hright, hbuild⟩ :=
    hs.buildLinearJoin_predicates hknown hq hnames hinv hlinear
  have hjoins : buildJoins hash s st = .ok (.chain (linearJoins (selectInput tables) (p :: ps)
      (selectInput tables left) st.results.length), some (st.results.length + ps.length),
      st.results ++ List.replicate (p :: ps).length []) := by
    unfold buildJoins
    rw [if_pos (hs.keys_joinPredicates_ne hknown hq), hlinear, hbuild]
    rfl
  have haggOp : buildAggregate s (some (st.results.length + ps.length))
      (st.results ++ List.replicate (p :: ps).length []) = .ok none := by
    unfold buildAggregate
    rw [hagg]
  rw [createPlan_of_parts hselect hjoins haggOp] at hplan
  rcases (assemblePlan_chain_none hplan).2 with hnone | ⟨hone, -⟩
  . exact hnone
  . -- A path has two tables.
    exfalso
    rw [hinv.selectResult_eq, List.length_map, List.length_range] at hone
    obtain ⟨t, ht⟩ := List.length_eq_one_iff.mp hone
    obtain ⟨es, vs, -, -, -, htraces, hnodup⟩ := hs.exists_path hknown hq hlinear
    rw [hcons] at htraces
    match vs, htraces with
    | v :: w :: vs, htraces =>
      have hmem : ∀ u, Incident leftTable rightTable p (some u) → u = t := by
        intro u hu
        have := hs.mem_tables hnames u
          (hs.mem_fromTables_of_predicate hknown hq hlinear (hcons ▸ List.mem_cons_self) hu)
        rw [ht] at this
        exact List.mem_singleton.mp this
      have hv := hmem v htraces.1.incident.1
      have hw := hmem w htraces.1.incident.2
      rw [hv, hw] at hnodup
      simp at hnodup

end

section

variable (hs : Accepted catalog q s) (hknown : q.TablesIn catalog) (hclauses : q.PlainClauses)

include hs hclauses

theorem Accepted.map_groupByReferences
    : s.groupByReferences.map some = q.pGroupBy.map (groupByRef catalog) := by
  rw [hs.groupByReferences_eq]
  have hgroup := hclauses.groupBy
  generalize q.pGroupBy = exprs at hgroup
  induction exprs with
  | nil => rfl
  | cons e exprs ih =>
    obtain ⟨c, he, hcol, -⟩ := hgroup e List.mem_cons_self
    have href : groupByRef catalog e = some (columnRef catalog c) := by
      rcases he with rfl | rfl
      . simp [groupByRef, hcol]
      . simp [groupByRef, hcol]
    rw [List.filterMap_cons_some href, List.map_cons, List.map_cons, href,
      ih fun e' he' => hgroup e' (List.mem_cons_of_mem e he')]

include hknown

/--
No item of the `ORDER BY` clause gets lost on the way to the plan.
-/
theorem Accepted.map_orderByReferences
    : s.orderByReferences.map OrderByReference.sortKey
        =
      q.pOrderBy.map (Sqlite3Select.orderKey catalog) := by
  rw [hs.orderByReferences_eq]
  have horder := hclauses.orderBy
  generalize q.pOrderBy = items at horder
  induction items with
  | nil => rfl
  | cons item items ih =>
    obtain ⟨hpos, hle, hexpr⟩ := horder item List.mem_cons_self
    have href : ∃ ref, orderByRef catalog s.projectReferences item = some ref ∧
        ref.sortKey = Sqlite3Select.orderKey catalog item := by
      unfold orderByRef Sqlite3Select.orderKey
      rw [if_pos hpos]
      rcases hexpr with ⟨c, hc, hcol, hmem⟩ | ⟨name, arg, hfun⟩
      . have htable : (columnRef catalog c).table = some c.tableName := hknown _ hmem
        rcases hc with hc | hc
        . simp [hc, hcol, OrderByReference.sortKey, htable]
        . simp [hc, hcol, OrderByReference.sortKey, htable]
      . have hlt : item.iOrderByCol - 1 < s.projectReferences.length := by
          rw [hs.length_projectReferences]
          omega
        simp [hfun, List.getElem?_eq_getElem hlt, OrderByReference.sortKey]
    obtain ⟨ref, href, hkey⟩ := href
    rw [List.filterMap_cons_some href, List.map_cons, List.map_cons, hkey,
      ih fun item' hitem' => horder item' (List.mem_cons_of_mem item hitem')]

end

theorem Accepted.exists_predicate_iff (hs : Accepted catalog q s) (hknown : q.TablesIn catalog)
    (hq : q.JoinsFromTables) (t : TableName)
    : (∃ p ∈ s.predicates, Incident leftTable rightTable p (some t))
        ↔
      ∃ e ∈ q.pWhere.equalities, t = e.1.tableName ∨ t = e.2.tableName := by
  have hperm : s.predicates.Perm (joinsOf catalog q.pWhere) := by
    rcases (hs.classified hknown hq).2 with ⟨-, heq⟩ | ⟨-, hperm, -⟩
    . rw [heq]
    . exact hperm
  have hincident : ∀ e ∈ q.pWhere.equalities,
      (Incident leftTable rightTable (joinPredicate catalog e.1 e.2) (some t)
        ↔ t = e.1.tableName ∨ t = e.2.tableName) := by
    intro e he
    obtain ⟨hleft, hright⟩ := tables_of_mem hknown hq he
    unfold Incident
    rw [hleft, hright, Option.some.injEq, Option.some.injEq]
    unfold larger smaller
    split
    . rw [or_comm, eq_comm, @eq_comm _ e.2.tableName]
    . rw [eq_comm, @eq_comm _ e.2.tableName]
  constructor
  . rintro ⟨p, hp, ht⟩
    obtain ⟨e, he, rfl⟩ := List.mem_map.mp (hperm.mem_iff.mp hp)
    exact ⟨e, he, (hincident e he).mp ht⟩
  . rintro ⟨e, he, ht⟩
    exact ⟨_, hperm.mem_iff.mpr (List.mem_map_of_mem he), (hincident e he).mpr ht⟩

/--
An aggregate is the last operator, and the only one that groups and sorts.
-/
theorem IsAggregatePlan.complete_iff {aggRef : AggregateReference} {plan : ExecutionPlan}
    (h : s.IsAggregatePlan aggRef plan) (hs : Accepted catalog q s) (hknown : q.TablesIn catalog)
    (hclauses : q.PlainClauses)
    : q.PlanComplete catalog s plan
        ↔
      (∀ t ∈ q.fromTables, ∃ p ∈ s.predicates, Incident leftTable rightTable p (some t)) ∧
      Sqlite3Select.SortAligned s.groupByReferences s.orderByReferences := by
  obtain ⟨tables, joins, cols, hne, hjoins, hnone, rfl⟩ := h
  have hordered : Ordered (aggregatePlan (aggregateOf s aggRef tables.length joins.length) joins
      (s.selectOperators tables) tables.length cols) :=
    ordered_aggregate hne rfl rfl hjoins selectOperators_areSelects
  have hmem : ∀ op ∈ (aggregatePlan (aggregateOf s aggRef tables.length joins.length) joins
      (s.selectOperators tables) tables.length cols).operators,
      op = aggregateOf s aggRef tables.length joins.length ∨ op.groupedBy = none ∧ op.sortedBy = none := by
    intro op hop
    simp only [aggregatePlan, List.mem_append, List.mem_singleton] at hop
    rcases hop with (rfl | hop) | hop
    . exact Or.inl rfl
    . exact Or.inr (hnone op hop)
    . exact Or.inr (clauses_selectOperators hop)
  have hself : aggregateOf s aggRef tables.length joins.length ∈
      (aggregatePlan (aggregateOf s aggRef tables.length joins.length) joins
        (s.selectOperators tables) tables.length cols).operators := by
    simp [aggregatePlan]
  have horder : s.orderByReferences.map (fun orderByRef => orderByRef.sortKey.column)
      = q.pOrderBy.map fun item => (Sqlite3Select.orderKey catalog item).column := by
    have := congrArg (List.map SortKey.column) (hs.map_orderByReferences hknown hclauses)
    simpa [Function.comp_def] using this
  rw [sortAligned_iff, horder]
  constructor
  . intro hcomplete
    refine ⟨hcomplete.joined, ?_⟩
    by_cases hnil : q.pOrderBy = []
    . have hrefs := hs.map_orderByReferences hknown hclauses
      rw [hnil, List.map_nil, List.map_eq_nil_iff] at hrefs
      rw [hnil, hrefs]
      exact ⟨[], rfl, List.nil_prefix⟩
    . obtain ⟨op, hop, -, keys, hsorted, hasked⟩ := hcomplete.sorted hnil
      rcases hmem op hop with rfl | ⟨-, hnone⟩
      . exact ⟨keys, hsorted, hasked⟩
      . rw [hnone] at hsorted
        cases hsorted
  . rintro ⟨hjoined, hsorted⟩
    refine ⟨hjoined, hordered.result, hordered.linked, ?_, ?_⟩
    . intro _
      exact ⟨_, hself, _, rfl, hs.map_groupByReferences hclauses⟩
    . intro _
      exact ⟨_, hself, rfl, hsorted⟩

section

def purchase : TableName := ⟨"purchase", by decide⟩

def shop : TableName := ⟨"shop", by decide⟩

def purchaseCatalog : Catalog :=
  AList.insert purchase 10 (AList.insert shop 3 ∅)

/--
`SELECT amount FROM purchase, shop WHERE purchase.shop_id = shop.id ORDER BY amount`.
-/
def purchaseQuery : Sqlite3Select :=
  {
    Sqlite3Select.ofWhere ⟨0, purchase, 1, "amount"⟩ [purchase, shop]
      (.compare .equal (.column ⟨0, purchase, 2, "shop_id"⟩) (.column ⟨1, shop, 0, "id"⟩)) with
      pOrderBy := [⟨.column ⟨0, purchase, 1, "amount"⟩, 1, false⟩]
  }

/--
`SELECT city, SUM(amount) FROM purchase, shop WHERE purchase.shop_id = shop.id GROUP BY city
ORDER BY city, SUM(amount) DESC`.
-/
def cityQuery : Sqlite3Select :=
  {
    purchaseQuery with
      pEList := [
        ⟨.aggColumn ⟨1, shop, 1, "city"⟩, "city"⟩,
        ⟨.aggFunction "SUM" (.aggColumn ⟨0, purchase, 1, "amount"⟩), "total"⟩
      ]
      pGroupBy := [.aggColumn ⟨1, shop, 1, "city"⟩]
      pOrderBy := [
        ⟨.aggColumn ⟨1, shop, 1, "city"⟩, 1, false⟩,
        ⟨.aggFunction "SUM" (.aggColumn ⟨0, purchase, 1, "amount"⟩), 2, true⟩
      ]
  }

theorem cityQuery_plainClauses : cityQuery.PlainClauses where
  aggregates := by decide
  groupBy := by
    intro e he
    rw [List.mem_singleton.mp he]
    exact ⟨_, Or.inr rfl, by decide, by decide⟩
  orderBy := by
    intro item hitem
    rcases List.mem_cons.mp hitem with rfl | hitem
    . exact ⟨by decide, by decide, Or.inl ⟨_, Or.inr rfl, by decide, by decide⟩⟩
    . rw [List.mem_singleton.mp hitem]
      exact ⟨by decide, by decide, Or.inr ⟨_, _, rfl⟩⟩

end

end SelectResolver

end Hustle.Resolver
