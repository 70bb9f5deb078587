import Hustle.Resolver.Accepted
import Hustle.Resolver.PlanLemmas

/-!
This module contains what is known about the join predicates of a query once there is a plan for it.
All tables of such a query are in the catalog, so every join predicate has two tables.
-/

namespace Hustle.Resolver

open JoinPredicate

namespace Sqlite3Select

/--
SQLite has found the columns of the `WHERE` clause in the tables of the `FROM` clause.
-/
def JoinsFromTables (q : Sqlite3Select) : Prop :=
  ∀ e ∈ q.pWhere.equalities, e.1.tableName ∈ q.fromTables ∧ e.2.tableName ∈ q.fromTables

instance (q : Sqlite3Select) : Decidable q.JoinsFromTables :=
  inferInstanceAs (Decidable (∀ e ∈ _, _))

/--
All tables of the `FROM` clause are in the catalog.
-/
def TablesIn (q : Sqlite3Select) (catalog : Catalog) : Prop :=
  ∀ t ∈ q.fromTables, catalog.getTable t = some t

def ofWhere (column : Column) (tables : List TableName) (pWhere : Expr) : Sqlite3Select :=
  {
    pSrc := some (tables.map fun table => ⟨table, false, false, false, false⟩)
    pHaving := .null
    selFlags := []
    pEList := [⟨.column column, column.colName⟩]
    pNext := false
    pWhere
    pGroupBy := []
    pOrderBy := []
  }

end Sqlite3Select

/--
The table of an equality that has more rows, which is the one that is written first if both have the
same number of rows.
-/
def larger (catalog : Catalog) (e : Column × Column) : TableName :=
  if catalog.getNumRows e.1.tableName < catalog.getNumRows e.2.tableName then
    e.2.tableName
  else
    e.1.tableName

def smaller (catalog : Catalog) (e : Column × Column) : TableName :=
  if catalog.getNumRows e.1.tableName < catalog.getNumRows e.2.tableName then
    e.1.tableName
  else
    e.2.tableName

namespace SelectResolver

variable {catalog : Catalog} {q : Sqlite3Select} {s : SelectResolver} {hash : HashOrder TableName}
  {hash' : HashOrder (Option TableName)} {plan : ExecutionPlan}

theorem joinPredicate_tables {l r : Column} (hl : catalog.getTable l.tableName = some l.tableName)
    (hr : catalog.getTable r.tableName = some r.tableName)
    : (joinPredicate catalog l r).leftTable = some (larger catalog (l, r)) ∧
      (joinPredicate catalog l r).rightTable = some (smaller catalog (l, r)) := by
  unfold joinPredicate larger smaller leftTable rightTable columnRef
  simp only [hl, hr]
  split <;> simp

theorem Accepted.mem_tables (hs : Accepted catalog q s) {tables : List TableName}
    (hnames : hash'.order s.selectPredicates.keys = tables.map some)
    : ∀ t ∈ q.fromTables, t ∈ tables := by
  intro t ht
  have hmem := (hash'.perm _).mem_iff.mpr (hs.fromTables t ht)
  rw [hnames] at hmem
  simpa using hmem

theorem Accepted.buildSelect_tables {st : SelectState} (hs : Accepted catalog q s)
    (h : buildSelect catalog s.joinPredicates s.selectPredicates
      (hash'.order s.selectPredicates.keys) = some st)
    : ∃ tables,
        hash'.order s.selectPredicates.keys = tables.map some ∧
        q.TablesIn catalog ∧
        SelectInv s.joinPredicates s.selectPredicates tables st := by
  have hnodup : (hash'.order s.selectPredicates.keys).Nodup :=
    (hash'.perm _).nodup_iff.mpr (AList.keys_nodup _)
  obtain ⟨tables, hnames, htables, hinv⟩ := buildSelect_eq hnodup h
  refine ⟨tables, hnames, ?_, hinv⟩
  intro t ht
  apply htables
  apply hs.mem_tables hnames t ht

theorem Accepted.tablesIn (hs : Accepted catalog q s)
    (h : createPlan hash hash' catalog s = .ok (some plan))
    : q.TablesIn catalog := by
  obtain ⟨st, joins, joinResultOut, results, aggOp, hselect, -⟩ := createPlan_eq h
  obtain ⟨-, -, hknown, -⟩ := hs.buildSelect_tables hselect
  exact hknown

section

variable (hknown : q.TablesIn catalog) (hq : q.JoinsFromTables)

include hknown hq

theorem tables_of_mem {e : Column × Column} (he : e ∈ q.pWhere.equalities)
    : (joinPredicate catalog e.1 e.2).leftTable = some (larger catalog e) ∧
      (joinPredicate catalog e.1 e.2).rightTable = some (smaller catalog e) := by
  obtain ⟨hleft, hright⟩ := hq e he
  apply joinPredicate_tables (hknown _ hleft) (hknown _ hright)

theorem map_rightTable_joinsOf
    : (joinsOf catalog q.pWhere).map rightTable
        =
      (q.pWhere.equalities.map (smaller catalog)).map some := by
  unfold joinsOf
  rw [List.map_map, List.map_map]
  apply List.map_congr_left
  intro e he
  apply (tables_of_mem hknown hq he).2

theorem Accepted.classified (hs : Accepted catalog q s)
    : joinsOf catalog q.pWhere ≠ [] ∧
      (s.joinType = .star ∧ s.predicates = joinsOf catalog q.pWhere ∨
        s.joinType = .linear ∧ InPathOrder (joinsOf catalog q.pWhere) s.predicates) := by
  apply hs.joinType
  intro p hp
  obtain ⟨e, he, rfl⟩ := List.mem_map.mp hp
  obtain ⟨hleft, hright⟩ := tables_of_mem hknown hq he
  simp [hleft, hright]

end

theorem lookup_foldl_addRight {ps : List JoinPredicate} {t : TableName} {p : JoinPredicate}
    (h : (ps.foldl addRight ∅).lookup t = some p)
    : p ∈ ps ∧ p.rightTable = some t := by
  induction ps using List.reverseRecOn with
  | nil => simp at h
  | append_singleton ps p' ih =>
    rw [List.foldl_append, List.foldl_cons, List.foldl_nil, addRight] at h
    split at h
    . next t' ht' =>
      rw [Map.lookup_insert_eq] at h
      split at h
      . next heq =>
        rw [← Option.some.inj h, heq]
        exact ⟨by simp, ht'⟩
      . obtain ⟨hmem, hright⟩ := ih h
        exact ⟨List.mem_append_left _ hmem, hright⟩
    . obtain ⟨hmem, hright⟩ := ih h
      exact ⟨List.mem_append_left _ hmem, hright⟩

theorem mem_keys_foldl_addRight (ps : List JoinPredicate) (t : TableName)
    : t ∈ (ps.foldl addRight ∅).keys ↔ ∃ p ∈ ps, p.rightTable = some t := by
  induction ps using List.reverseRecOn with
  | nil => simp
  | append_singleton ps p ih =>
    rw [List.foldl_append, List.foldl_cons, List.foldl_nil, addRight]
    split
    . next t' ht' =>
      rw [← AList.mem_keys, AList.mem_insert, AList.mem_keys, ih]
      simp only [List.mem_append, List.mem_singleton, or_and_right, exists_or, exists_eq_left, ht',
        Option.some.injEq]
      rw [or_comm, eq_comm]
    . next hnone =>
      rw [ih]
      simp [or_and_right, exists_or, hnone]

def selectOperators (s : SelectResolver) (tables : List TableName) : List Operator :=
  tables.zipIdx.filterMap fun entry =>
    selectOperator s.joinPredicates (s.selectPredicates.get (some entry.1)) entry.1 entry.2

theorem buildAggregate_eq {joinResultOut : Option ResultPtr} {results : Results}
    {aggOp : Option (Operator × ResultPtr)} (h : buildAggregate s joinResultOut results = .ok aggOp)
    : s.aggReferences = [] ∧ aggOp = none ∨
      ∃ aggRef, s.aggReferences = [aggRef] ∧
        aggOp = some (.hashAggregate joinResultOut results.length [aggRef] s.groupByReferences
          s.orderByReferences, results.length) := by
  unfold buildAggregate at h
  split at h
  . next hnil =>
    rw [Except.ok.injEq] at h
    exact Or.inl ⟨hnil, h.symm⟩
  . next aggRef hone =>
    rw [Except.ok.injEq] at h
    exact Or.inr ⟨aggRef, hone, h.symm⟩
  . simp at h

theorem Accepted.keys_joinPredicates_ne (hs : Accepted catalog q s) (hknown : q.TablesIn catalog)
    (hq : q.JoinsFromTables)
    : s.joinPredicates.keys.length ≠ 0 := by
  rw [hs.joinPredicates_eq]
  obtain ⟨p, hp⟩ := List.exists_mem_of_ne_nil _ (hs.classified hknown hq).1
  obtain ⟨e, he, heq⟩ := List.mem_map.mp hp
  have hright := (tables_of_mem hknown hq he).2
  rw [heq] at hright
  have hmem := (mem_keys_foldl_addRight _ _).mpr ⟨p, hp, hright⟩
  exact Nat.ne_of_gt (List.length_pos_of_mem hmem)

theorem Accepted.buildJoins_star {st : SelectState} {tables : List TableName} (hs : Accepted catalog q s)
    (hash : HashOrder TableName) (hknown : q.TablesIn catalog) (hq : q.JoinsFromTables)
    (hinv : SelectInv s.joinPredicates s.selectPredicates tables st) (hstar : s.joinType = .star)
    : buildJoins hash s st
        =
      .ok (.one (buildJoin hash s.joinPredicates st.isPredicateAvail
        ((List.range tables.length).map (2 * · + 1)) (2 * tables.length)), some (2 * tables.length),
        st.results ++ [[]]) := by
  unfold buildJoins
  rw [if_pos (hs.keys_joinPredicates_ne hknown hq), hstar, hinv.selectResult_eq]
  dsimp only [Results.new]
  rw [hinv.length_results]
  rfl

theorem Accepted.createPlan_star (hs : Accepted catalog q s)
    (h : createPlan hash hash' catalog s = .ok (some plan)) (hq : q.JoinsFromTables)
    (hstar : s.joinType = .star)
    : ∃ tables isPredicateAvail results aggOp,
        hash'.order s.selectPredicates.keys = tables.map some ∧
        buildAggregate s (some (2 * tables.length)) results = .ok aggOp ∧
        plan.operators = (aggOp.map Prod.fst).toList ++
          [buildJoin hash s.joinPredicates isPredicateAvail
            ((List.range tables.length).map (2 * · + 1)) (2 * tables.length)] ++
          s.selectOperators tables := by
  obtain ⟨st, joins, joinResultOut, results, aggOp, hselect, hjoins, hagg, hplan⟩ := createPlan_eq h
  obtain ⟨tables, hnames, hknown, hinv⟩ := hs.buildSelect_tables hselect
  rw [hs.buildJoins_star hash hknown hq hinv hstar] at hjoins
  cases hjoins
  rw [assemblePlan_one, Except.ok.injEq, Option.some.injEq, hinv.selectOperators_eq] at hplan
  refine ⟨tables, st.isPredicateAvail, _, aggOp, hnames, hagg, ?_⟩
  rw [← hplan]
  rfl

end SelectResolver

end Hustle.Resolver
