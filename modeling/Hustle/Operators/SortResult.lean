import Hustle.Operators.GroupBy
import Hustle.Util.LexSort
import Mathlib.Data.List.Permutation

/-!
This module contains when `SortResult` sorts by the ORDER BY list. The column that it sorts for an entry of the list is
found through `order_to_group`, which knows the columns only by their tables.
-/

namespace Hustle.Operators

open LexSort
open Resolver (AggregateKernel ColumnReference OrderByReference)

/--
A column of the output: one of the group columns, or the aggregate.
-/
abbrev OutputKey := Option ColumnReference

section

variable {V : Type}

def sortKeyColumn (groupBy : List ColumnReference) (orderBy : List OrderByReference) (ref : OrderByReference × Nat)
    (rows : List (List V × V)) : Option (List V) :=
  match ref.1.colRef.table with
  | none => some (rows.map Prod.snd)
  | some _ => do
    let j ← (orderToGroup groupBy orderBy)[ref.2]?
    rows.mapM fun row => row.1[j]?

/--
`SortResult` for rows of the values of any type.
-/
def sortRows (sortIndices : Bool → List V → List Nat) (groupBy : List ColumnReference)
    (orderBy : List OrderByReference) (rows : List (List V × V)) : Option (List (List V × V)) :=
  orderBy.zipIdx.reverse.foldlM (fun rows ref => do
    let col ← sortKeyColumn groupBy orderBy ref rows
    take rows (sortIndices ref.1.isDesc col)) rows

def orderKeys (orderBy : List OrderByReference) : List (OutputKey × Bool) :=
  orderBy.map fun ref => (ref.colRef.table.map fun _ => ref.colRef, ref.isDesc)

def tableColumns (groupBy : List ColumnReference) (orderBy : List OrderByReference) : List ColumnReference :=
  orderBy.flatMap fun ref => groupBy.filter fun col => col.table = ref.colRef.table

/--
The column that an entry of the list stands for: the aggregate, or the group column of the same number.
-/
def sortKey (groupBy : List ColumnReference) (orderBy : List OrderByReference) (ref : OrderByReference × Nat)
    : Option (OutputKey × Bool) :=
  match ref.1.colRef.table with
  | none => some (none, ref.1.isDesc)
  | some _ => (tableColumns groupBy orderBy)[ref.2]?.map fun col => (some col, ref.1.isDesc)

def sortKeys (groupBy : List ColumnReference) (orderBy : List OrderByReference) : Option (List (OutputKey × Bool)) :=
  orderBy.zipIdx.mapM (sortKey groupBy orderBy)

def resultRow (groupBy : List ColumnReference) (result : OutputKey → V) : List V × V :=
  (groupBy.map fun col => result (some col), result none)

/--
All results are returned, in the lexicographic order of the ORDER BY list.
-/
def SortsBy [LinearOrder V] (values : OutputKey → Set V) (sortIndices : Bool → List V → List Nat)
    (groupBy : List ColumnReference) (orderBy : List OrderByReference) : Prop :=
  ∀ results : List (OutputKey → V), (∀ r ∈ results, ∀ key, r key ∈ values key) →
    ∃ results' : List (OutputKey → V), sortRows sortIndices groupBy orderBy (results.map (resultRow groupBy)) =
        some (results'.map (resultRow groupBy)) ∧
      results'.Perm results ∧ results'.Pairwise (Lex (fun key r => r key) (orderKeys orderBy))

/--
The columns that are sorted begin with those that the ORDER BY list names, up to columns that come back.
-/
def SortsNamedKeys (groupBy : List ColumnReference) (orderBy : List OrderByReference) : Prop :=
  ∃ keys, sortKeys groupBy orderBy = some keys ∧ reduce (orderKeys orderBy) <+: reduce keys

end

variable {V : Type} {sortIndices : Bool → List V → List Nat} {groupBy : List ColumnReference}
  {orderBy : List OrderByReference} {ref : OrderByReference × Nat}

/-! Connection to the rows of the operators. -/

theorem sortColumn_eq_sortKeyColumn (rows : List AggRow)
    : sortColumn groupBy orderBy ref rows =
        sortKeyColumn groupBy orderBy ref (rows.map fun row => (row.1, Value.int64 row.2)) := by
  rw [sortColumn, sortKeyColumn]
  cases ref.1.colRef.table with
  | none => simp
  | some name =>
    apply Option.bind_congr
    intro j _
    rw [List.mapM_map]
    rfl

theorem take_map_rows {α β : Type} (f : α → β) (rows : List α) (indices : List Nat)
    : take (rows.map f) indices = (take rows indices).map (List.map f) := by
  induction indices with
  | nil => rfl
  | cons i indices ih =>
    rw [take, take] at ih
    rw [take, take, List.mapM_cons, List.mapM_cons, ih, List.getElem?_map]
    cases rows[i]? with
    | none => rfl
    | some row => cases indices.mapM fun i => rows[i]? <;> rfl

/--
`sortResult` is the instance of `sortRows` at the values of the operators.
-/
theorem map_sortResult (sortIndices : Bool → List Value → List Nat) (rows : List AggRow)
    : (sortResult sortIndices groupBy orderBy rows).map (List.map fun row => (row.1, Value.int64 row.2)) =
        sortRows sortIndices groupBy orderBy (rows.map fun row => (row.1, Value.int64 row.2)) := by
  rw [sortResult, sortRows]
  generalize orderBy.zipIdx.reverse = refs
  induction refs generalizing rows with
  | nil => rfl
  | cons ref refs ih =>
    rw [List.foldlM_cons, List.foldlM_cons, ← sortColumn_eq_sortKeyColumn]
    cases sortColumn groupBy orderBy ref rows with
    | none => rfl
    | some col =>
      simp only [Option.bind_eq_bind, Option.bind_some, take_map_rows]
      cases take rows (sortIndices ref.1.isDesc col) with
      | none => rfl
      | some rows' => exact ih rows'

/-! The columns that are sorted. -/

theorem map_orderToGroup (groupBy : List ColumnReference) (orderBy : List OrderByReference)
    : (orderToGroup groupBy orderBy).map (fun j => groupBy[j]?) = (tableColumns groupBy orderBy).map some := by
  have hall : (List.range groupBy.length).map (fun j => groupBy[j]?) = groupBy.map some := by
    apply List.ext_getElem
    . simp
    . simp
  rw [orderToGroup, tableColumns, List.map_flatMap, List.map_flatMap]
  congr 1
  funext ref
  have hfilter := @List.filter_map _ _ (fun j => groupBy[j]?)
    (fun col => decide (col.map (·.table) = some ref.colRef.table)) (List.range groupBy.length)
  rw [hall, List.filter_map] at hfilter
  simp only [Function.comp_def, Option.map_some, Option.some.injEq] at hfilter
  exact hfilter.symm

theorem getElem?_tableColumns (groupBy : List ColumnReference) (orderBy : List OrderByReference) (i : Nat)
    : (tableColumns groupBy orderBy)[i]? = (orderToGroup groupBy orderBy)[i]?.bind fun j => groupBy[j]? := by
  have hmap := congrArg (fun l => l[i]?) (map_orderToGroup groupBy orderBy)
  simp only [List.getElem?_map] at hmap
  cases hj : (orderToGroup groupBy orderBy)[i]? with
  | none =>
    rw [hj] at hmap
    exact Option.map_eq_none_iff.mp hmap.symm
  | some j =>
    rw [hj, Option.map_some] at hmap
    obtain ⟨col, hcol, heq⟩ := Option.map_eq_some_iff.mp hmap.symm
    rw [hcol, Option.bind_some, heq]

theorem sortKeyColumn_resultRow {key : OutputKey} {desc : Bool} (hkey : sortKey groupBy orderBy ref = some (key, desc))
    (results : List (OutputKey → V))
    : sortKeyColumn groupBy orderBy ref (results.map (resultRow groupBy)) = some (results.map fun r => r key) ∧
        ref.1.isDesc = desc := by
  rw [sortKey] at hkey
  rw [sortKeyColumn]
  cases htable : ref.1.colRef.table with
  | none =>
    rw [htable] at hkey
    cases hkey
    exact ⟨by simp [resultRow], rfl⟩
  | some name =>
    rw [htable] at hkey
    obtain ⟨col, hcol, hkey⟩ := Option.map_eq_some_iff.mp hkey
    cases hkey
    rw [getElem?_tableColumns] at hcol
    obtain ⟨j, hj, hcol⟩ := Option.bind_eq_some_iff.mp hcol
    refine ⟨?_, rfl⟩
    simp only [hj, Option.bind_eq_bind, Option.bind_some, List.mapM_map]
    apply Run.mapM_eq_some
    intro r _
    simp [resultRow, hcol]

/--
Outside of `order_to_group` nothing is sorted.
-/
theorem sortKeyColumn_eq_none (hkey : sortKey groupBy orderBy ref = none) (rows : List (List V × V))
    : sortKeyColumn groupBy orderBy ref rows = none := by
  rw [sortKey] at hkey
  rw [sortKeyColumn]
  cases htable : ref.1.colRef.table with
  | none =>
    rw [htable] at hkey
    cases hkey
  | some name =>
    rw [htable] at hkey
    have hcol := Option.map_eq_none_iff.mp hkey
    rw [getElem?_tableColumns] at hcol
    cases hj : (orderToGroup groupBy orderBy)[ref.2]? with
    | none => rfl
    | some j =>
      have hlt := lt_of_mem_orderToGroup (List.mem_of_getElem? hj)
      simp [hj, List.getElem?_eq_getElem hlt] at hcol

theorem sortRows_resultRow [LinearOrder V] (hstable : ∀ desc col, Stable desc col (sortIndices desc col))
    {keys : List (OutputKey × Bool)} (hkeys : sortKeys groupBy orderBy = some keys) (results : List (OutputKey → V))
    : ∃ results' : List (OutputKey → V), sortRows sortIndices groupBy orderBy (results.map (resultRow groupBy)) =
          some (results'.map (resultRow groupBy)) ∧
        results'.Perm results ∧ results'.Pairwise (Lex (fun key r => r key) keys) ∧
        ((∀ key ∈ keys, ∀ r ∈ results, ∀ s ∈ results, r key.1 = s key.1) → results' = results) := by
  rw [sortKeys] at hkeys
  rw [sortRows, List.foldlM_reverse]
  generalize orderBy.zipIdx = refs at hkeys
  induction refs generalizing keys with
  | nil =>
    cases hkeys
    refine ⟨results, rfl, .refl _, ?_, fun _ => rfl⟩
    exact List.pairwise_of_forall fun _ _ => trivial
  | cons ref refs ih =>
    rw [List.mapM_cons] at hkeys
    obtain ⟨⟨key, desc⟩, hkey, hkeys⟩ := Option.bind_eq_some_iff.mp hkeys
    obtain ⟨keys', hkeys', hcons⟩ := Option.bind_eq_some_iff.mp hkeys
    cases hcons
    obtain ⟨sorted, hrun, hperm, hlex, hsame⟩ := ih hkeys'
    obtain ⟨hcol, hdesc⟩ := sortKeyColumn_resultRow hkey sorted
    have hindices := hstable desc (sorted.map fun r => r key)
    have hrange := hindices.perm
    rw [List.length_map] at hrange
    obtain ⟨out, hout, hperm'⟩ := take_perm hrange
    refine ⟨out, ?_, hperm'.trans hperm, pairwise_lex_of_stable hlex hindices hout, ?_⟩
    . rw [List.foldrM_cons, hrun, Option.bind_eq_bind, Option.bind_some, hcol, Option.bind_eq_bind, Option.bind_some,
        hdesc, take_map_rows, hout, Option.map_some]
    . intro hkeys
      have hsorted := hsame fun key hkey => hkeys key (by simp [hkey])
      subst hsorted
      have hconst : ∀ r ∈ sorted, ∀ s ∈ sorted, r key = s key := hkeys (key, desc) (by simp)
      exact @eq_of_stable_const _ _ _ _ (fun key r => r key) sorted key hconst _ _ hindices out hout

theorem exists_sortKeys {rows rows' : List (List V × V)} (h : sortRows sortIndices groupBy orderBy rows = some rows')
    : ∃ keys, sortKeys groupBy orderBy = some keys := by
  rw [sortRows, List.foldlM_reverse] at h
  rw [sortKeys]
  generalize orderBy.zipIdx = refs at h
  induction refs generalizing rows' with
  | nil => exact ⟨[], rfl⟩
  | cons ref refs ih =>
    rw [List.foldrM_cons] at h
    obtain ⟨sorted, hrun, hstep⟩ := Option.bind_eq_some_iff.mp h
    obtain ⟨keys, hkeys⟩ := ih hrun
    cases hkey : sortKey groupBy orderBy ref with
    | none =>
      rw [sortKeyColumn_eq_none hkey] at hstep
      cases hstep
    | some key => exact ⟨key :: keys, by rw [List.mapM_cons, hkey, hkeys]; rfl⟩

theorem eq_of_resultRow_eq {r s : OutputKey → V} (h : resultRow groupBy r = resultRow groupBy s) {key : OutputKey}
    (hkey : ∀ col, key = some col → col ∈ groupBy)
    : r key = s key := by
  rw [resultRow, resultRow, Prod.mk.injEq] at h
  cases key with
  | none => exact h.2
  | some col => exact List.map_inj_left.mp h.1 col (hkey col rfl)

theorem mem_groupBy_of_mem_orderKeys (horder : ∀ ref ∈ orderBy, ref.colRef.table ≠ none → ref.colRef ∈ groupBy)
    {key : OutputKey × Bool} (hkey : key ∈ orderKeys orderBy) (col : ColumnReference) (hcol : key.1 = some col)
    : col ∈ groupBy := by
  obtain ⟨ref, href, rfl⟩ := List.mem_map.mp hkey
  obtain ⟨name, hname, rfl⟩ := Option.map_eq_some_iff.mp hcol
  exact horder ref href (by simp [hname])

theorem sortsBy_of_sortsNamedKeys [LinearOrder V] {values : OutputKey → Set V}
    (hstable : ∀ desc col, Stable desc col (sortIndices desc col)) (h : SortsNamedKeys groupBy orderBy)
    : SortsBy values sortIndices groupBy orderBy := by
  intro results _
  obtain ⟨keys, hkeys, hprefix⟩ := h
  obtain ⟨results', hrun, hperm, hlex, -⟩ := sortRows_resultRow hstable hkeys results
  exact ⟨results', hrun, hperm, hlex.imp fun hlex => hlex.of_prefix hprefix⟩

theorem sortsNamedKeys_of_sortsBy [LinearOrder V] {values : OutputKey → Set V}
    (hvalues : ∀ key, (values key).Nontrivial)
    (hstable : ∀ desc col, Stable desc col (sortIndices desc col))
    (horder : ∀ ref ∈ orderBy, ref.colRef.table ≠ none → ref.colRef ∈ groupBy)
    (h : SortsBy values sortIndices groupBy orderBy)
    : SortsNamedKeys groupBy orderBy := by
  obtain ⟨_, hempty, -⟩ := h [] (by simp)
  obtain ⟨keys, hkeys⟩ := exists_sortKeys hempty
  refine ⟨keys, hkeys, ?_⟩
  by_contra hprefix
  obtain ⟨x, y, hx, hy, hxy, hyx⟩ := exists_not_lex hvalues hprefix
  -- `x` is sorted before `y`, if they start that way.
  obtain ⟨sorted, hsort, hperm, hlex, hsame⟩ := sortRows_resultRow hstable hkeys [x, y]
  have hsorted : sorted = [x, y] := by
    rcases hyx with hyx | hyx
    . apply hsame
      intro key hkey r hr s hs
      simp only [List.mem_cons, List.not_mem_nil, or_false] at hr hs
      rcases hr with rfl | rfl <;> rcases hs with rfl | rfl <;> simp [hyx key hkey]
    . rcases List.perm_pair.mp hperm with hsorted | hsorted
      . exact hsorted
      . rw [hsorted] at hlex
        exact absurd (List.pairwise_pair.mp hlex) hyx
  obtain ⟨results', hsort', -, hlex'⟩ := h [x, y] (by simp [hx, hy])
  rw [hsort, hsorted, Option.some.injEq, List.map_cons, List.map_cons, List.map_nil] at hsort'
  obtain ⟨x', _, rfl, hx', hsort'⟩ := List.map_eq_cons_iff.mp hsort'.symm
  obtain ⟨y', _, rfl, hy', -⟩ := List.map_eq_cons_iff.mp hsort'
  have hlex' := (List.pairwise_cons.mp hlex').1 y' (by simp)
  apply hxy
  apply hlex'.congr
  . exact fun key hkey => eq_of_resultRow_eq hx' (mem_groupBy_of_mem_orderKeys horder hkey)
  . exact fun key hkey => eq_of_resultRow_eq hy' (mem_groupBy_of_mem_orderKeys horder hkey)

/--
The rows are sorted by the ORDER BY list exactly if the columns that are sorted begin with it.
-/
theorem sortsBy_iff [LinearOrder V] {values : OutputKey → Set V} (hvalues : ∀ key, (values key).Nontrivial)
    (hstable : ∀ desc col, Stable desc col (sortIndices desc col))
    (horder : ∀ ref ∈ orderBy, ref.colRef.table ≠ none → ref.colRef ∈ groupBy)
    : SortsBy values sortIndices groupBy orderBy ↔ SortsNamedKeys groupBy orderBy :=
  ⟨sortsNamedKeys_of_sortsBy hvalues hstable horder, sortsBy_of_sortsNamedKeys hstable⟩

def tableR : Resolver.TableName := ⟨"R", by decide⟩

def tableS : Resolver.TableName := ⟨"S", by decide⟩

/--
GROUP BY `R.a, R.b`, ORDER BY `R.b, R.a`: both columns are of one table, and `R.a` is sorted for `R.b`.
-/
def twoOfOneTable : List ColumnReference × List OrderByReference :=
  ([⟨some tableR, "a"⟩, ⟨some tableR, "b"⟩], [⟨⟨some tableR, "b"⟩, false⟩, ⟨⟨some tableR, "a"⟩, false⟩])

/--
GROUP BY `R.a, S.b`, ORDER BY `S.b DESC, R.a` and the aggregate.
-/
def onePerTable : List ColumnReference × List OrderByReference :=
  ([⟨some tableR, "a"⟩, ⟨some tableS, "b"⟩], [⟨⟨some tableS, "b"⟩, true⟩, ⟨⟨some tableR, "a"⟩, false⟩, ⟨⟨none, ""⟩, false⟩])

theorem onePerTable_sortsNamedKeys : SortsNamedKeys onePerTable.1 onePerTable.2 :=
  ⟨orderKeys onePerTable.2, rfl, List.prefix_rfl⟩

theorem sortsBy_iff_onePerTable
    : SortsBy (fun _ => (Set.univ : Set Int)) stableIndices onePerTable.1 onePerTable.2 :=
  (sortsBy_iff (fun _ => Set.nontrivial_univ) stable_stableIndices (by decide)).mpr onePerTable_sortsNamedKeys

theorem not_sortsBy_twoOfOneTable
    : ¬SortsBy (fun _ => (Set.univ : Set Int)) stableIndices twoOfOneTable.1 twoOfOneTable.2 := by
  intro h
  obtain ⟨keys, hkeys, hprefix⟩ := sortsNamedKeys_of_sortsBy (fun _ => Set.nontrivial_univ) stable_stableIndices
    (by decide) h
  cases hkeys
  revert hprefix
  decide

end Hustle.Operators
