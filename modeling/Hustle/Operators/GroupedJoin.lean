import Hustle.Operators.GroupBy

/-!
This module contains a hash aggregate over the output of joins. The output may list a table more than once, the
aggregate reads the first lazy table of it.
-/

namespace Hustle.Operators

open Resolver (AggregateReference ColumnReference ExprReference OrderByReference)

namespace OperatorResult

def firsts (result : OperatorResult) (tables : List Nat) : OperatorResult :=
  tables.filterMap result.getTable

variable {db : Tables} {result : OperatorResult} {tables : List Nat} {tuples : List (Nat → Nat)}

theorem getTable_firsts (h : HasJoined db result tables tuples) {t : Nat} (ht : t ∈ tables)
    : (result.firsts tables).getTable t = result.getTable t := by
  induction tables with
  | nil => cases ht
  | cons t' tables ih =>
    obtain ⟨lt, hget, -⟩ := h t' List.mem_cons_self
    rw [firsts, List.filterMap_cons_some hget, getTable_cons, table_of_getTable hget]
    by_cases heq : t' = t
    . rw [if_pos heq, ← heq, hget]
    . rw [if_neg heq]
      rcases List.mem_cons.mp ht with rfl | ht
      . exact absurd rfl heq
      . exact ih (fun t ht => h t (List.mem_cons_of_mem t' ht)) ht

/--
The tuples of the output of joins, in the slices of gathered columns. All of them are active.
-/
def joinedTuples (tuples : List (Nat → Nat)) : TupleList where
  lengths := (slices tuples).map List.length
  tuple := fun k => tuples.getD k fun _ => 0
  active := fun _ => true

theorem HasJoined.describes {db' : TypedTables} (h : HasJoined db result tables tuples)
    (hlengths : db'.chunkLengths = db.chunkLengths)
    : Describes db' (result.firsts tables) (joinedTuples tuples) := by
  apply Describes.joined
  intro lt hlt
  obtain ⟨t, ht, hget⟩ := List.mem_filterMap.mp hlt
  obtain ⟨lt', hget', hjoined⟩ := h t ht
  cases hget.symm.trans hget'
  refine ⟨hjoined.filter, hjoined.indices, ?_, ?_, ?_, ?_⟩
  . rw [hlengths]
    exact hjoined.chunks
  . intro ρ hρ
    rw [TypedTables.numRows, hlengths]
    exact hjoined.rows_lt ρ hρ
  . intro chunks hchunks
    rw [hjoined.indexChunks] at hchunks
    cases hchunks
  . intro chunks hchunks
    rw [hjoined.indexChunks] at hchunks
    cases hchunks

theorem size_joinedTuples (tuples : List (Nat → Nat)) : (joinedTuples tuples).size = tuples.length := by
  rw [TupleList.size, joinedTuples, ← List.length_flatten, flatten_slices]

theorem activeTuples_joinedTuples (tuples : List (Nat → Nat)) : (joinedTuples tuples).activeTuples = tuples := by
  rw [TupleList.activeTuples, size_joinedTuples]
  apply List.ext_getElem
  . simp [joinedTuples]
  . intro k hk hk'
    simp [joinedTuples, List.getElem?_eq_getElem hk']

end OperatorResult

/-! What an aggregate reads of a result. -/

variable {capacity : Nat → Nat} {env : AggEnv} {db : TypedTables} {result result' : OperatorResult}

theorem Memory.materializeColumn_congr {ref : ColumnReference}
    (h : result.getTable (db.tableId ref.table) = result'.getTable (db.tableId ref.table)) (m : Memory)
    : m.materializeColumn capacity db result ref = m.materializeColumn capacity db result' ref := by
  rw [materializeColumn, materializeColumn, h]

theorem Memory.materializeColumns_congr {refs : List ColumnReference}
    (h : ∀ ref ∈ refs, result.getTable (db.tableId ref.table) = result'.getTable (db.tableId ref.table)) (m : Memory)
    : m.materializeColumns capacity db result refs = m.materializeColumns capacity db result' refs := by
  induction refs generalizing m with
  | nil => rfl
  | cons ref refs ih =>
    rw [materializeColumns, materializeColumns, materializeColumn_congr (h ref List.mem_cons_self)]
    congr 1
    funext x
    obtain ⟨chunks, m'⟩ := x
    dsimp only
    rw [ih fun ref' href' => h ref' (List.mem_cons_of_mem ref href')]

def aggregated (ref : AggregateReference) : ExprReference :=
  match ref.exprRef with
  | .null => .column ref.colRef
  | expr => expr

theorem HashAggregate.initializeColumns_congr {ref : AggregateReference} {groupBy : List ColumnReference}
    (hgroups : ∀ col ∈ groupBy, result.getTable (db.tableId col.table) = result'.getTable (db.tableId col.table))
    (haggs : ∀ col ∈ exprColumns (aggregated ref),
      result.getTable (db.tableId col.table) = result'.getTable (db.tableId col.table))
    : initializeColumns env db result ref groupBy = initializeColumns env db result' ref groupBy := by
  rw [initializeColumns, initializeColumns, Memory.materializeColumns_congr hgroups]
  congr 1
  funext x
  cases hexpr : ref.exprRef with
  | null =>
    have hcol := haggs ref.colRef (by rw [aggregated, hexpr]; exact List.mem_singleton_self _)
    dsimp only
    rw [hcol]
    congr 1
    funext t
    rw [Memory.materializeColumn_congr hcol]
  | column col =>
    rw [aggregated, hexpr] at haggs
    dsimp only
    rw [Memory.materializeColumns_congr haggs]
  | arith op left right =>
    rw [aggregated, hexpr] at haggs
    dsimp only
    rw [Memory.materializeColumns_congr haggs]

theorem HashAggregate.execute_congr {ref : AggregateReference} {groupBy : List ColumnReference}
    {orderBy : List OrderByReference} {order : List (Nat × Nat)}
    (hgroups : ∀ col ∈ groupBy, result.getTable (db.tableId col.table) = result'.getTable (db.tableId col.table))
    (haggs : ∀ col ∈ exprColumns (aggregated ref),
      result.getTable (db.tableId col.table) = result'.getTable (db.tableId col.table))
    : execute env db result ref groupBy orderBy order = execute env db result' ref groupBy orderBy order := by
  rw [execute, execute, initializeColumns_congr hgroups haggs]

theorem HashAggregate.exists_unsorted {ref : AggregateReference} {groupBy : List ColumnReference}
    {orderBy : List OrderByReference} {order : List (Nat × Nat)} {rows : List AggRow}
    (h : execute env db result ref groupBy orderBy order = some rows)
    : ∃ unsorted, sortResult env.sortIndices groupBy orderBy unsorted = some rows := by
  obtain ⟨⟨op, heap⟩, -, h⟩ := Option.bind_eq_some_iff.mp h
  obtain ⟨unsorted, -, h⟩ := Option.bind_eq_some_iff.mp h
  exact ⟨unsorted, h⟩

/-! Groups of tuples. -/

theorem GroupsBy.congr {τ : Type} {tuples : List τ} {key key' : τ → List Value}
    {aggregate aggregate' : List τ → BitVec 64} {rows : List AggRow} (h : GroupsBy tuples key aggregate rows)
    (hkey : ∀ x ∈ tuples, key x = key' x)
    (haggregate : ∀ xs : List τ, (∀ x ∈ xs, x ∈ tuples) → aggregate xs = aggregate' xs)
    : GroupsBy tuples key' aggregate' rows where
  nodup := h.nodup
  mem group := by
    rw [h.mem]
    apply exists_congr
    intro x
    apply and_congr_right
    intro hx
    rw [hkey x hx]
  value row hrow := by
    have hfilter : tuples.filter (fun x => decide (key x = row.1)) = tuples.filter fun x => decide (key' x = row.1) := by
      apply List.filter_congr
      intro x hx
      rw [hkey x hx]
    rw [h.value row hrow, hfilter]
    apply haggregate
    intro x hx
    exact (List.mem_filter.mp hx).1

namespace OperatorResult

theorem HasJoined.groupsBy {db' : Tables} {tables : List Nat} {tuples : List (Nat → Nat)} {q : GroupQuery}
    (h : HasJoined db' result tables tuples) (hresult : q.result = result.firsts tables)
    (hsrc : q.src = joinedTuples tuples) (hq : q.Admissible)
    (hsupported : q.Supported) (hgroups : ∀ col ∈ q.groupBy, q.db.tableId col.table ∈ tables)
    (haggs : ∀ col ∈ exprColumns q.expr, q.db.tableId col.table ∈ tables) {steps order : List (Nat × Nat)}
    (hsteps : HashAggregateStrategy.tasks q.env.hardwareConcurrency (slices tuples).length = some steps)
    (horder : order.Perm steps)
    : ∃ rows, HashAggregate.execute q.env q.db result q.ref q.groupBy q.orderBy order = some rows ∧
        GroupsBy tuples q.key q.aggregate rows := by
  have hcongr : HashAggregate.execute q.env q.db result q.ref q.groupBy q.orderBy order
      = HashAggregate.execute q.env q.db q.result q.ref q.groupBy q.orderBy order := by
    rw [hresult]
    apply HashAggregate.execute_congr
    . intro col hcol
      exact (getTable_firsts h (hgroups col hcol)).symm
    . intro col hcol
      exact (getTable_firsts h (haggs col hcol)).symm
  have hlen : q.src.lengths.length = (slices tuples).length := by
    rw [hsrc]
    exact List.length_map _
  obtain ⟨rows, hrows, hgroupsBy⟩ := GroupQuery.execute_groupsBy hq hsupported (by rw [hlen]; exact hsteps) horder
  rw [hsrc, activeTuples_joinedTuples] at hgroupsBy
  exact ⟨rows, hcongr.trans hrows, hgroupsBy⟩

end OperatorResult

end Hustle.Operators
