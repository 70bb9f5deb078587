import Hustle.Execution.LinearQuery
import Hustle.Execution.PairQuery
import Hustle.Operators.GroupedJoin
import Hustle.Operators.QueryColumns
import Hustle.Operators.SortedGroups

/-!
This module contains what a plan with an aggregate computes: the groups of the rows that are joined.
-/

namespace Hustle.Resolver.SelectResolver

open JoinPredicate (leftTable rightTable)
open Multigraph (Incident)

/--
The predicates join one table after the other: those of a path, where the left table of every predicate but the first
is one of the predicate before it and the tables with trees are right tables, or the predicate for two tables.
-/
def JoinsInTurn (s : SelectResolver) : Prop :=
  (s.joinType = .linear ∧ s.predicates.IsChain (fun p p' => Incident leftTable rightTable p p'.leftTable) ∧
    ∀ name, (s.treeOf name).isSome → ∃ p ∈ s.predicates, p.rightTable = some name) ∨
  (s.joinType = .star ∧ ∃ p, s.predicates = [p] ∧ p.leftTable ≠ p.rightTable)

theorem Accepted.exists_aggregate {catalog : Catalog} {q : Sqlite3Select} {s : SelectResolver}
    {hash : HashOrder TableName} {hash' : HashOrder (Option TableName)} {plan : ExecutionPlan}
    {ref : AggregateReference} (hs : Accepted catalog q s) (hq : q.JoinsFromTables) (hagg : s.aggReferences = [ref])
    (hplan : createPlan hash hash' catalog s = .ok (some plan))
    : ∃ input output, plan.joinResult = some input ∧
        plan.operators.find? Operator.isAggregate
          = some (.hashAggregate (some input) output [ref] s.groupByReferences s.orderByReferences) := by
  obtain ⟨st, joins, joinResultOut, results, aggOp, hselect, -⟩ := createPlan_eq hplan
  obtain ⟨plan', hplan', tables, ops, cols, -, -, -, heq⟩ := hs.createPlan_aggregate hq hselect hagg
  cases hplan.symm.trans hplan'
  rw [heq]
  exact ⟨_, _, rfl, List.find?_cons_of_pos rfl⟩

end Hustle.Resolver.SelectResolver

namespace Hustle.Execution

open LexSort (Lex Stable)
open Operators
open Operators.HashAggregate (groupHash)
open Resolver (AggregateReference Catalog ColumnReference ExecutionPlan ExprReference HashOrder Operator SelectResolver
  Sqlite3Select TableName)
open Resolver.SelectResolver (cityQuery purchase purchaseCatalog shop)

namespace Engine

variable (e : Engine)

def typedTables : TypedTables :=
  e.db.typedTables fun name => name.elim e.db.length e.pointer

/--
`HashAggregate::Execute`, with the order in which its tasks take their steps.
-/
def hashAggregate (env : AggEnv) (steps : List (Nat × Nat)) (results : List OperatorResult)
    : Operator → Option (List AggRow)
  | .hashAggregate (some input) _ [ref] groupBy orderBy => do
    let result ← results[input]?
    HashAggregate.execute env e.typedTables result ref groupBy orderBy steps
  | _ => none

/--
Run the operators that come before the aggregate, and the aggregate.
-/
def runAggregatePlan (env : AggEnv) (schedules : Schedules) (plan : ExecutionPlan) (order : List Nat)
    (steps : List (Nat × Nat)) (results : List OperatorResult) : Option (List AggRow) := do
  let results ← e.runPlan schedules plan order results
  let op ← plan.operators.find? Operator.isAggregate
  e.hashAggregate env steps results op

/-! What a query asks for. -/

def value (c : ColumnReference) (ρ : Nat → Nat) : Value :=
  ((e.cell c ρ).map Value.ofCell).getD (.int64 0)

def exprValue (e : Engine) (ρ : Nat → Nat) : ExprReference → Option (BitVec 64)
  | .null => none
  | .column c =>
    match e.value c ρ with
    | .int64 value => some value
    | .string _ => none
  | .arith op left right => do
    let left ← e.exprValue ρ left
    let right ← e.exprValue ρ right
    (Expression.executeRow op left right).toOption

def groupKey (s : SelectResolver) (ρ : Nat → Nat) : List Value :=
  s.groupByReferences.map fun c => e.value c ρ

/--
The number of the rows, or the sum of a column or an expression.
-/
def aggregate (ref : AggregateReference) (rows : List (Nat → Nat)) : BitVec 64 :=
  match ref.kernel with
  | .count => BitVec.ofNat 64 rows.length
  | _ => (rows.map fun ρ => (e.exprValue ρ (aggregated ref)).getD 0).sum

section

variable [LinearOrder Value]

/--
The sum of integers or the count is asked for, of not too many rows. The columns are those of tables that are joined,
ORDER BY is a list of group columns and the aggregate that the columns that are sorted begin with, the hash tells the
groups apart, and the sorting of an array is stable. The strings of every slice of the rows fit an array.
-/
structure Groups (env : AggEnv) (s : SelectResolver) (ref : AggregateReference) : Prop where
  kernel : ref.kernel = .sum ∨ (ref.kernel = .count ∧ ref.exprRef = .null)
  complete : (aggregated ref).Complete
  writesColumn : ref.exprRef.writesColumn = false
  groupColumns : ∀ c ∈ s.groupByReferences, ∃ name ∈ s.joinedTables, ∃ t type, c.table = some name ∧
    e.table name = some t ∧ t.HasColumn c.colName type
  aggColumns : ∀ c ∈ exprColumns (aggregated ref), ∃ name ∈ s.joinedTables, ∃ t, c.table = some name ∧
    e.table name = some t ∧ t.HasColumn c.colName .int64
  values : ∀ ρ, e.Joins s ρ → (e.exprValue ρ (aggregated ref)).isSome
  distinct : ∀ ρ ρ', e.Joins s ρ → e.Joins s ρ' →
    groupHash env.hash (e.groupKey s ρ) = groupHash env.hash (e.groupKey s ρ') → e.groupKey s ρ = e.groupKey s ρ'
  named : SortsNamedKeys s.groupByReferences s.orderByReferences
  ordered : ∀ r ∈ s.orderByReferences, r.colRef.table ≠ none → r.colRef ∈ s.groupByReferences
  stable : ∀ desc col, Stable desc col (env.sortIndices desc col)
  threads : 0 < env.hardwareConcurrency
  chunks : ∀ tuples, Enumerates (s.joinedTables.map e.pointer) (e.Joins s) tuples →
    (slices tuples).length + env.hardwareConcurrency < 2 ^ 31
  capacity : ∀ n, n ≤ env.capacity n
  starts : ∀ tuples, Enumerates (s.joinedTables.map e.pointer) (e.Joins s) tuples →
    tuples.length / sliceLength * sliceLength ≤ maxInt
  strings : ∀ tuples, Enumerates (s.joinedTables.map e.pointer) (e.Joins s) tuples →
    ∀ c ∈ s.groupByReferences, (∃ name t, c.table = some name ∧ e.table name = some t ∧ t.HasColumn c.colName .string) →
      ∀ slice ∈ slices tuples, slice ≠ [] →
        (slice.map fun ρ => Context.byteLength (e.value c ρ)).sum ≤ maxInt ∧ slice.length < env.capacity slice.length

/--
One row for every group of the rows, in the order that the query asks for.
-/
structure Answers (s : SelectResolver) (ref : AggregateReference) (tuples : List (Nat → Nat)) (rows : List AggRow)
    : Prop where
  groupsBy : GroupsBy tuples (e.groupKey s) (e.aggregate ref) rows
  sorted : rows.Pairwise (Lex (rowKey s.groupByReferences) (orderKeys s.orderByReferences))

end

variable {e} {env : AggEnv} {s : SelectResolver} {ref : AggregateReference} {name : TableName} {t : QueryTable}
  {c : ColumnReference} {ρ : Nat → Nat}

/-! Columns. -/

theorem typedTables_column (hc : c.table = some name) (ht : e.table name = some t)
    : e.typedTables.column (e.typedTables.tableId c.table) c.colName = t.typedColumn c.colName := by
  have hid : e.typedTables.tableId c.table = e.pointer name := by rw [hc]; rfl
  rw [hid]
  show (e.db[e.pointer name]?.bind fun table => table.typedColumn c.colName) = _
  rw [show e.db[e.pointer name]? = some t from ht]
  rfl

theorem Joins.row_lt (h : e.Joins s ρ) (hname : name ∈ s.joinedTables) (ht : e.table name = some t)
    : ρ (e.pointer name) < t.chunkLengths.sum := by
  obtain ⟨t', ht', row, hrow, -⟩ := h.selects name hname
  cases ht.symm.trans ht'
  rw [QueryTable.sum_chunkLengths]
  exact (List.getElem?_eq_some_iff.mp hrow).1

theorem typedTables_value {type : Storage.FieldType} (h : e.Joins s ρ) (hname : name ∈ s.joinedTables)
    (hc : c.table = some name) (ht : e.table name = some t) (hcol : t.HasColumn c.colName type)
    : e.typedTables.value c ρ = e.value c ρ := by
  obtain ⟨col, cell, htyped, hcell, -, hvalue⟩ := QueryTable.value_typedColumn hcol (h.row_lt hname ht)
  have hid : e.typedTables.tableId c.table = e.pointer name := by rw [hc]; rfl
  have hread : e.cell c ρ = some cell := by
    rw [Engine.cell, hc]
    simp only [Option.bind_eq_bind, Option.bind_some, ht, hcell]
  rw [TypedTables.value, typedTables_column hc ht, htyped, hid, value, hread]
  exact hvalue

theorem typedTables_exprValue {expr : ExprReference}
    (h : ∀ c ∈ exprColumns expr, e.typedTables.value c ρ = e.value c ρ)
    : e.typedTables.exprValue ρ expr = e.exprValue ρ expr := by
  induction expr with
  | null => rfl
  | column c =>
    let int64 : Value → Option (BitVec 64) := fun v =>
      match v with
      | .int64 value => some value
      | .string _ => none
    exact congrArg int64 (h c (List.mem_singleton_self c))
  | arith op left right ihl ihr =>
    rw [TypedTables.exprValue, exprValue, ihl fun c hc => h c (List.mem_append_left _ hc),
      ihr fun c hc => h c (List.mem_append_right _ hc)]

/-! The aggregate. -/

def groupQuery (e : Engine) (env : AggEnv) (s : SelectResolver) (ref : AggregateReference) (out : OperatorResult)
    (tuples : List (Nat → Nat)) : GroupQuery where
  db := e.typedTables
  result := out.firsts (s.joinedTables.map e.pointer)
  src := OperatorResult.joinedTuples tuples
  ref := ref
  groupBy := s.groupByReferences
  orderBy := s.orderByReferences
  env := env

theorem tableId_mem (hname : name ∈ s.joinedTables) (hc : c.table = some name)
    : e.typedTables.tableId c.table ∈ s.joinedTables.map e.pointer := by
  rw [hc]
  exact List.mem_map_of_mem hname

variable {out : OperatorResult} {tuples : List (Nat → Nat)}

theorem Computes.refers {type : Storage.FieldType} (h : e.Computes s out tuples) (hname : name ∈ s.joinedTables)
    (hc : c.table = some name) (ht : e.table name = some t) (hcol : t.HasColumn c.colName type)
    : ∃ chunks, Refers e.typedTables (out.firsts (s.joinedTables.map e.pointer)) c (QueryTable.ofCells type chunks) := by
  obtain ⟨chunks, htyped⟩ := QueryTable.exists_typedColumn hcol
  have hmem := @tableId_mem e s name c hname hc
  obtain ⟨lt, hget, -⟩ := h.hasJoined _ hmem
  refine ⟨chunks, ⟨lt, (OperatorResult.getTable_firsts h.hasJoined hmem).trans hget⟩, ?_⟩
  rw [typedTables_column hc ht, htyped]

theorem activeTuples_groupQuery : (e.groupQuery env s ref out tuples).src.activeTuples = tuples :=
  OperatorResult.activeTuples_joinedTuples tuples

variable {catalog : Catalog} {q : Sqlite3Select} {hash : HashOrder TableName} {hash' : HashOrder (Option TableName)}
  {plan : ExecutionPlan} {order : List Nat} {schedules : Schedules}

theorem plan_computes (hresolve : SelectResolver.resolveSelectTree catalog hash q .new = .ok (some s))
    (hq : q.JoinsFromTables) (hagg : s.aggReferences ≠ [])
    (hplan : Resolver.createPlan hash hash' catalog s = .ok (some plan)) (hturn : s.JoinsInTurn) (hfits : e.Fits s)
    (hscheduled : ∀ op ∈ plan.operators, e.Scheduled schedules op) (horder : plan.IsOrder order)
    : ∃ start results input out tuples, e.start hash hash' catalog s = .ok start ∧
        e.runPlan schedules plan order start = some results ∧
        plan.joinResult = some input ∧
        results[input]? = some out ∧
        e.Computes s out tuples := by
  rcases hturn with ⟨hlinear, hchain, htrees⟩ | ⟨hstar, p, hone, hne⟩
  . exact linearPlan_computes hresolve hq hlinear hagg hplan hchain htrees hfits hscheduled horder
  . exact pairPlan_computes hresolve hq hstar hone hne hplan hfits hscheduled horder

section

variable [LinearOrder Value]

theorem Groups.value_eq (h : e.Groups env s ref) (hρ : e.Joins s ρ)
    : (e.typedTables.exprValue ρ (aggregated ref)) = e.exprValue ρ (aggregated ref) := by
  apply typedTables_exprValue
  intro c hc
  obtain ⟨name, hname, t, htable, ht, hcol⟩ := h.aggColumns c hc
  exact typedTables_value hρ hname htable ht hcol

theorem Groups.key_eq (h : e.Groups env s ref) (hρ : e.Joins s ρ)
    : (s.groupByReferences.map fun c => e.typedTables.value c ρ) = e.groupKey s ρ := by
  apply List.map_congr_left
  intro c hc
  obtain ⟨name, hname, t, type, htable, ht, hcol⟩ := h.groupColumns c hc
  exact typedTables_value hρ hname htable ht hcol

theorem Groups.key_groupQuery (h : e.Groups env s ref) (hρ : e.Joins s ρ)
    : (e.groupQuery env s ref out tuples).key ρ = e.groupKey s ρ :=
  h.key_eq hρ

theorem Groups.value_groupQuery (h : e.Groups env s ref) (hρ : e.Joins s ρ)
    : (e.groupQuery env s ref out tuples).db.exprValue ρ (e.groupQuery env s ref out tuples).expr
        = e.exprValue ρ (aggregated ref) :=
  h.value_eq hρ

theorem Computes.admissible (h : e.Computes s out tuples) (hgroups : e.Groups env s ref)
    : (e.groupQuery env s ref out tuples).Admissible := by
  constructor
  . exact h.hasJoined.describes rfl
  . intro c hc
    obtain ⟨name, hname, t, type, htable, ht, hcol⟩ := hgroups.groupColumns c hc
    obtain ⟨chunks, hrefers⟩ := h.refers hname htable ht hcol
    exact ⟨_, hrefers⟩
  . exact hgroups.kernel
  . exact hgroups.complete
  . intro c hc
    obtain ⟨name, hname, t, htable, ht, hcol⟩ := hgroups.aggColumns c hc
    obtain ⟨chunks, hrefers⟩ := h.refers hname htable ht hcol
    exact ⟨_, hrefers⟩
  . intro ρ hρ
    rw [activeTuples_groupQuery] at hρ
    have hjoins := h.enumerates.sound ρ hρ
    rw [hgroups.value_groupQuery hjoins]
    exact hgroups.values ρ hjoins
  . intro ρ hρ ρ' hρ'
    rw [activeTuples_groupQuery] at hρ hρ'
    have hjoins := h.enumerates.sound ρ hρ
    have hjoins' := h.enumerates.sound ρ' hρ'
    rw [hgroups.key_groupQuery hjoins, hgroups.key_groupQuery hjoins']
    exact hgroups.distinct ρ ρ' hjoins hjoins'
  . exact fun desc col => (hgroups.stable desc col).perm
  . exact hgroups.capacity

/--
The columns that are gathered fit.
-/
theorem Computes.gathers (h : e.Computes s out tuples) (hgroups : e.Groups env s ref)
    : (e.groupQuery env s ref out tuples).Gathers := by
  intro c hc lt hget indices hindices col hcol
  have hc : c ∈ s.groupByReferences ∨ c ∈ exprColumns (aggregated ref) := List.mem_append.mp hc
  obtain ⟨name, hname, t, type, htable, ht, hcolumn, hgroup⟩ : ∃ name ∈ s.joinedTables, ∃ t type, c.table = some name ∧
      e.table name = some t ∧ t.HasColumn c.colName type ∧ (type = .string → c ∈ s.groupByReferences) := by
    rcases hc with hc | hc
    . obtain ⟨name, hname, t, type, htable, ht, hcolumn⟩ := hgroups.groupColumns c hc
      exact ⟨name, hname, t, type, htable, ht, hcolumn, fun _ => hc⟩
    . obtain ⟨name, hname, t, htable, ht, hcolumn⟩ := hgroups.aggColumns c hc
      exact ⟨name, hname, t, .int64, htable, ht, hcolumn, fun h => by cases h⟩
  have hmem := @tableId_mem e s name c hname htable
  obtain ⟨lt', hget', hjoined⟩ := h.hasJoined _ hmem
  have hlt := (OperatorResult.getTable_firsts h.hasJoined hmem).trans hget'
  cases hget.symm.trans hlt
  have hid := OperatorResult.table_of_getTable hget'
  rw [hjoined.indices, Option.some.injEq] at hindices
  subst hindices
  have htyped : e.typedTables.column (e.typedTables.tableId c.table) c.colName = some col := by
    rw [← hid]
    exact hcol
  have haligned := e.typedTables.column_aligned _ _ _ htyped
  have hread : ∀ ρ ∈ tuples, col.values.flatten[ρ lt.table]? = some (e.value c ρ) := by
    intro ρ hρ
    have hrow : ρ lt.table < col.lengths.sum := by
      rw [haligned, ← hid]
      exact hjoined.rows_lt ρ hρ
    rw [Column.getElem?_values hrow, ← typedTables_value (h.enumerates.sound ρ hρ) hname htable ht hcolumn,
      TypedTables.value, htyped, hid]
  refine ⟨?_, ?_, ?_⟩
  . rw [Column.lengths_chunkedArray, haligned, ← hid]
    exact hjoined.chunks
  . rw [List.length_map]
    exact hgroups.starts tuples h.enumerates
  . intro hstring slice hslice hnil
    rw [slices_map, List.mem_map] at hslice
    obtain ⟨rows, hrows, rfl⟩ := hslice
    obtain ⟨chunks, hofCells⟩ := QueryTable.exists_typedColumn hcolumn
    have htype : type = .string := by
      rw [typedTables_column htable ht, hofCells] at htyped
      cases htyped
      cases type with
      | int64 => exact hstring.elim
      | string => rfl
    subst htype
    have hne : rows ≠ [] := by
      rintro rfl
      exact hnil rfl
    obtain ⟨hbytes, hroom⟩ := hgroups.strings tuples h.enumerates c (hgroup rfl) ⟨name, t, htable, ht, hcolumn⟩ rows
      hrows hne
    refine ⟨?_, by rw [List.length_map]; exact hroom⟩
    have hmap : rows.map (fun ρ => (col.values.flatten[ρ lt.table]?.map Context.byteLength).getD 0)
        = rows.map fun ρ => Context.byteLength (e.value c ρ) := by
      apply List.map_congr_left
      intro ρ hρ
      have hρ : ρ ∈ tuples := by
        rw [← flatten_slices tuples]
        exact List.mem_flatten_of_mem hrows hρ
      rw [hread ρ hρ]
      rfl
    rw [List.map_map, Function.comp_def, hmap]
    exact hbytes

theorem Computes.supported (h : e.Computes s out tuples) (hgroups : e.Groups env s ref)
    : (e.groupQuery env s ref out tuples).Supported := by
  have hlengths : (e.groupQuery env s ref out tuples).src.lengths = (slices tuples).map List.length := rfl
  constructor
  . exact hgroups.threads
  . rw [hlengths, List.length_map]
    exact hgroups.chunks tuples h.enumerates
  . rw [hlengths, ne_eq, List.map_eq_nil_iff]
    exact slices_ne_nil tuples
  . exact .inr ⟨fun _ _ => rfl, hgroups.writesColumn⟩
  . exact h.gathers hgroups
  . exact fun i r hr htable => hgroups.named.lt_length hr htable

theorem Computes.answers (h : e.Computes s out tuples) (hgroups : e.Groups env s ref) {tasks steps : List (Nat × Nat)}
    (htasks : HashAggregateStrategy.tasks env.hardwareConcurrency (slices tuples).length = some tasks)
    (hsteps : steps.Perm tasks)
    : ∃ rows, HashAggregate.execute env e.typedTables out ref s.groupByReferences s.orderByReferences steps
          = some rows ∧
        e.Answers s ref tuples rows := by
  obtain ⟨rows, hrows, hgroupsBy⟩ := OperatorResult.HasJoined.groupsBy (q := e.groupQuery env s ref out tuples)
    h.hasJoined rfl rfl (h.admissible hgroups) (h.supported hgroups)
    (by
      intro c hc
      obtain ⟨name, hname, t, type, htable, -⟩ := hgroups.groupColumns c hc
      exact tableId_mem hname htable)
    (by
      intro c hc
      obtain ⟨name, hname, t, htable, -⟩ := hgroups.aggColumns c hc
      exact tableId_mem hname htable)
    htasks hsteps
  have hgroupsBy : GroupsBy tuples (e.groupKey s) (e.aggregate ref) rows := by
    apply hgroupsBy.congr
    . intro ρ hρ
      exact hgroups.key_groupQuery (h.enumerates.sound ρ hρ)
    . intro xs hxs
      have hvalues : xs.map (e.groupQuery env s ref out tuples).value
          = xs.map fun ρ => (e.exprValue ρ (aggregated ref)).getD 0 := by
        apply List.map_congr_left
        intro ρ hρ
        rw [GroupQuery.value, hgroups.value_groupQuery (h.enumerates.sound ρ (hxs ρ hρ))]
      rw [GroupQuery.aggregate, hvalues]
      rfl
  refine ⟨rows, hrows, hgroupsBy, ?_⟩
  obtain ⟨unsorted, hsort⟩ := HashAggregate.exists_unsorted hrows
  apply sortResult_pairwise hgroups.stable hgroups.named hgroups.ordered _ hsort
  intro row hrow
  have hmem := (perm_of_sortResult (fun desc col => (hgroups.stable desc col).perm) hsort).mem_iff.mpr hrow
  obtain ⟨ρ, -, hkey⟩ := (hgroupsBy.mem row.1).mp (List.mem_map_of_mem hmem)
  exact ⟨fun c => e.value c ρ, hkey.symm⟩

end

/--
`SELECT city, SUM(amount) FROM purchase, shop WHERE purchase.shop_id = shop.id AND amount > 4 GROUP BY city
ORDER BY city, SUM(amount) DESC`.
-/
def largeCityQuery : Sqlite3Select :=
  { cityQuery with pWhere := largePurchaseQuery.pWhere }

def cityColumn : ColumnReference :=
  ⟨some shop, "city"⟩

def amountSum : AggregateReference :=
  ⟨.sum, "total", ⟨some purchase, "amount"⟩, .null⟩

/--
Integers come before strings.
-/
def rankOf : Value → List Nat
  | .int64 value => [0, (value.toInt + 2 ^ 63).toNat]
  | .string value => 1 :: value.map UInt8.toNat

theorem rankOf_injective : Function.Injective rankOf := by
  intro v w h
  cases v with
  | int64 v =>
    cases w with
    | int64 w =>
      have hv := v.le_toInt
      have hw := w.le_toInt
      simp only [rankOf, List.cons.injEq, true_and, and_true] at h
      congr 1
      apply BitVec.eq_of_toInt_eq
      norm_num at hv hw h
      omega
    | string w => simp [rankOf] at h
  | string v =>
    cases w with
    | int64 w => simp [rankOf] at h
    | string w =>
      simp only [rankOf, List.cons.injEq, true_and] at h
      congr 1
      exact List.map_injective_iff.mpr (fun _ _ => UInt8.toNat_inj.mp) h

instance : LinearOrder Value :=
  LinearOrder.lift' rankOf rankOf_injective

/--
Strings are hashed by their first letters.
-/
def firstLetter : AggEnv where
  hash := fun v =>
    match v with
    | .int64 value => value
    | .string value => BitVec.ofNat 64 (value.headD 0).toNat
  divide := fun value _ => value
  sortIndices := LexSort.stableIndices
  hardwareConcurrency := 2
  capacity := Context.paddedCapacity

theorem Joins.isSome_exprValue (h : e.Joins s ρ) (hname : name ∈ s.joinedTables) (hc : c.table = some name)
    (ht : e.table name = some t) (hcol : t.HasColumn c.colName .int64)
    : (e.exprValue ρ (.column c)).isSome := by
  obtain ⟨col, cell, -, hcell, htype, -⟩ := QueryTable.value_typedColumn hcol (h.row_lt hname ht)
  have hread : e.cell c ρ = some cell := by
    rw [Engine.cell, hc]
    simp only [Option.bind_eq_bind, Option.bind_some, ht, hcell]
  cases cell with
  | int64 x => simp [exprValue, value, hread, Value.ofCell]
  | string x => cases htype

theorem groups_largeCityQuery {t₀ t₁ : QueryTable} (hnames₀ : t₀.names = ["id", "amount", "shop_id"])
    (hschema₀ : t₀.table.schema = purchaseSchema) (hcontents₀ : t₀.contents = purchaseRows)
    (hnames₁ : t₁.names = ["id", "city"]) (hschema₁ : t₁.table.schema = Select.stockSchema)
    (hcontents₁ : t₁.contents = shopRows) (hjoined : s.joinedTables = [purchase, shop])
    (hgroupBy : s.groupByReferences = [cityColumn])
    (horderBy : s.orderByReferences = [⟨cityColumn, false⟩, ⟨⟨none, "total"⟩, true⟩])
    : (ofTables [purchase, shop] [t₀, t₁]).Groups firstLetter s amountSum := by
  have htable₀ : (ofTables [purchase, shop] [t₀, t₁]).table purchase = some t₀ := rfl
  have htable₁ : (ofTables [purchase, shop] [t₀, t₁]).table shop = some t₁ := rfl
  have hpurchase : purchase ∈ s.joinedTables := by simp [hjoined]
  have hshop : shop ∈ s.joinedTables := by simp [hjoined]
  have hamount : t₀.HasColumn "amount" .int64 := ⟨1, by rw [hnames₀]; rfl, by rw [hschema₀]; rfl⟩
  have hcity : t₁.HasColumn "city" .string := ⟨1, by rw [hnames₁]; rfl, by rw [hschema₁]; rfl⟩
  have hrow₀ : ∀ ρ, (ofTables [purchase, shop] [t₀, t₁]).Joins s ρ → ρ 0 < 3 := by
    intro ρ hρ
    have := hρ.row_lt hpurchase htable₀
    rw [QueryTable.sum_chunkLengths, hcontents₀] at this
    exact this
  have hrow₁ : ∀ ρ, (ofTables [purchase, shop] [t₀, t₁]).Joins s ρ → ρ 1 < 2 := by
    intro ρ hρ
    have := hρ.row_lt hshop htable₁
    rw [QueryTable.sum_chunkLengths, hcontents₁] at this
    exact this
  have hkey : ∀ ρ, (ofTables [purchase, shop] [t₀, t₁]).Joins s ρ →
      (ofTables [purchase, shop] [t₀, t₁]).groupKey s ρ = [.string [if ρ 1 = 0 then 97 else 98]] := by
    intro ρ hρ
    have hcell : (ofTables [purchase, shop] [t₀, t₁]).cell cityColumn ρ = t₁.cell "city" (ρ 1) := rfl
    rw [groupKey, hgroupBy, List.map_singleton, value, hcell, QueryTable.cell, QueryTable.row, hnames₁, hcontents₁]
    rcases Nat.lt_succ_iff_lt_or_eq.mp (hrow₁ ρ hρ) with h | h
    . rw [Nat.lt_one_iff.mp h]
      rfl
    . rw [h]
      rfl
  have hlen : ∀ tuples, Enumerates (s.joinedTables.map (ofTables [purchase, shop] [t₀, t₁]).pointer)
      ((ofTables [purchase, shop] [t₀, t₁]).Joins s) tuples → tuples.length ≤ 6 := by
    intro tuples htuples
    have hvalues : ∀ ρ, (ofTables [purchase, shop] [t₀, t₁]).Joins s ρ →
        (s.joinedTables.map (ofTables [purchase, shop] [t₀, t₁]).pointer).map ρ
          ∈ (List.range 3).flatMap fun r => (List.range 2).map fun r' => [r, r'] := by
      intro ρ hρ
      rw [hjoined]
      exact List.mem_flatMap_of_mem (List.mem_range.mpr (hrow₀ ρ hρ))
        (List.mem_map_of_mem (List.mem_range.mpr (hrow₁ ρ hρ)))
    exact htuples.length_le hvalues
  constructor
  . exact .inl rfl
  . trivial
  . rfl
  . rw [hgroupBy, List.forall_mem_singleton]
    exact ⟨shop, hshop, t₁, .string, rfl, htable₁, hcity⟩
  . intro c hc
    rw [List.mem_singleton.mp hc]
    exact ⟨purchase, hpurchase, t₀, rfl, htable₀, hamount⟩
  . intro ρ hρ
    exact hρ.isSome_exprValue hpurchase rfl htable₀ hamount
  . intro ρ ρ' hρ hρ' heq
    rw [hkey ρ hρ, hkey ρ' hρ'] at heq ⊢
    by_cases h : ρ 1 = 0 <;> by_cases h' : ρ' 1 = 0 <;> simp only [h, h', if_true, if_false] at heq ⊢
    . exact absurd heq (by decide)
    . exact absurd heq (by decide)
  . rw [hgroupBy, horderBy]
    exact ⟨_, rfl, List.prefix_rfl⟩
  . rw [hgroupBy, horderBy]
    decide
  . exact LexSort.stable_stableIndices
  . decide
  . intro tuples htuples
    have hslices : (slices tuples).length = 1 := by
      rw [slices, List.length_map, List.length_range,
        Nat.div_eq_of_lt (Nat.lt_of_le_of_lt (hlen tuples htuples) (by decide))]
    rw [hslices]
    decide
  . exact Context.le_paddedCapacity
  . intro tuples htuples
    rw [Nat.div_eq_of_lt (Nat.lt_of_le_of_lt (hlen tuples htuples) (by decide))]
    decide
  . intro tuples htuples c hc _ slice hslice hnil
    have hc : c = cityColumn := by
      rw [hgroupBy] at hc
      exact List.mem_singleton.mp hc
    have hsub : slice.Sublist tuples := by
      rw [← flatten_slices tuples]
      exact List.sublist_flatten_of_mem hslice
    have hletters : slice.map (fun ρ => Context.byteLength ((ofTables [purchase, shop] [t₀, t₁]).value c ρ))
        = slice.map fun _ => 1 := by
      apply List.map_congr_left
      intro ρ hρ
      have hvalue := hkey ρ (htuples.sound ρ (hsub.subset hρ))
      rw [groupKey, hgroupBy, List.map_singleton, List.cons.injEq] at hvalue
      rw [hc, hvalue.1]
      rfl
    have hle := hsub.length_le.trans (hlen tuples htuples)
    have hpos := List.length_pos_of_ne_nil hnil
    rw [hletters, List.map_const', List.sum_replicate_nat, Nat.mul_one]
    refine ⟨hle.trans (by decide), ?_⟩
    show slice.length < Context.paddedCapacity slice.length
    interval_cases slice.length <;> decide

end Engine

end Hustle.Execution
