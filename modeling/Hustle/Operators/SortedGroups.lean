import Hustle.Operators.SortResult

/-!
This module contains the order of the rows of a hash aggregate, whose groups are values of the group columns.
-/

namespace Hustle.Operators

open LexSort
open Resolver (ColumnReference OrderByReference)

def rowKey (groupBy : List ColumnReference) : OutputKey → AggRow → Value
  | none, row => .int64 row.2
  | some col, row => row.1.getD (groupBy.idxOf col) (.int64 0)

def outputOf (f : ColumnReference → Value) (aggregate : BitVec 64) : OutputKey → Value
  | none => .int64 aggregate
  | some col => f col

variable {groupBy : List ColumnReference} {orderBy : List OrderByReference}

theorem getD_resultRow (r : OutputKey → Value) {col : ColumnReference} (hcol : col ∈ groupBy)
    : (resultRow groupBy r).1.getD (groupBy.idxOf col) (.int64 0) = r (some col) := by
  have hlt := List.idxOf_lt_length_of_mem hcol
  rw [resultRow, List.getD_eq_getElem?_getD, List.getElem?_map, List.getElem?_eq_getElem hlt, List.getElem_idxOf hlt]
  rfl

theorem lex_rowKey {ks : List (OutputKey × Bool)} (hks : ∀ key ∈ ks, ∀ col, key.1 = some col → col ∈ groupBy)
    [LinearOrder Value] {row row' : AggRow} {r r' : OutputKey → Value}
    (hrow : (row.1, Value.int64 row.2) = resultRow groupBy r)
    (hrow' : (row'.1, Value.int64 row'.2) = resultRow groupBy r') (h : Lex (fun key r => r key) ks r r')
    : Lex (rowKey groupBy) ks row row' := by
  have hkey : ∀ {row : AggRow} {r : OutputKey → Value}, (row.1, Value.int64 row.2) = resultRow groupBy r →
      ∀ key ∈ ks, rowKey groupBy key.1 row = r key.1 := by
    intro row r hrow key hkey
    cases hcol : key.1 with
    | none => exact congrArg Prod.snd hrow
    | some col =>
      rw [rowKey, congrArg Prod.fst hrow]
      exact getD_resultRow r (hks key hkey col hcol)
  induction ks with
  | nil => trivial
  | cons key ks ih =>
    rw [LexSort.Lex, hkey hrow key List.mem_cons_self, hkey hrow' key List.mem_cons_self]
    apply h.imp_right
    rintro ⟨heq, hlex⟩
    exact ⟨heq, ih (fun key' hkey' => hks key' (List.mem_cons_of_mem key hkey')) hlex
      fun hrow key' hkey' => hkey hrow key' (List.mem_cons_of_mem key hkey')⟩

theorem SortsNamedKeys.lt_length (h : SortsNamedKeys groupBy orderBy) {i : Nat} {ref : OrderByReference}
    (href : orderBy[i]? = some ref) (htable : ref.colRef.table ≠ none)
    : i < (orderToGroup groupBy orderBy).length := by
  obtain ⟨keys, hkeys, -⟩ := h
  obtain ⟨key, hkey, -⟩ := Run.getElem?_mapM hkeys
    (show orderBy.zipIdx[i]? = some (ref, i) by rw [List.getElem?_zipIdx, href]; simp)
  rw [sortKey] at hkey
  cases hname : ref.colRef.table with
  | none => exact absurd hname htable
  | some name =>
    rw [hname] at hkey
    obtain ⟨col, hcol, -⟩ := Option.map_eq_some_iff.mp hkey
    rw [getElem?_tableColumns] at hcol
    obtain ⟨j, hj, -⟩ := Option.bind_eq_some_iff.mp hcol
    exact (List.getElem?_eq_some_iff.mp hj).1

theorem length_sortColumn {ref : OrderByReference × Nat} {rows : List AggRow} {col : List Value}
    (h : sortColumn groupBy orderBy ref rows = some col)
    : col.length = rows.length := by
  rw [sortColumn] at h
  cases htable : ref.1.colRef.table with
  | none =>
    rw [htable] at h
    cases h
    exact List.length_map _
  | some name =>
    rw [htable] at h
    obtain ⟨j, -, hcol⟩ := Option.bind_eq_some_iff.mp h
    exact Run.length_mapM hcol

theorem perm_of_sortResult {sortIndices : Bool → List Value → List Nat}
    (hsort : ∀ desc col, (sortIndices desc col).Perm (List.range col.length)) {rows rows' : List AggRow}
    (h : sortResult sortIndices groupBy orderBy rows = some rows')
    : rows'.Perm rows := by
  rw [sortResult] at h
  generalize orderBy.zipIdx.reverse = refs at h
  induction refs generalizing rows with
  | nil =>
    cases h
    exact .refl _
  | cons ref refs ih =>
    obtain ⟨rows₁, hstep, h⟩ := Option.bind_eq_some_iff.mp h
    obtain ⟨col, hcol, htake⟩ := Option.bind_eq_some_iff.mp hstep
    have hrange := hsort ref.1.isDesc col
    rw [length_sortColumn hcol] at hrange
    obtain ⟨out, hout, hperm⟩ := take_perm hrange
    cases htake.symm.trans hout
    exact (ih h).trans hperm

theorem sortResult_pairwise [LinearOrder Value] {sortIndices : Bool → List Value → List Nat}
    (hstable : ∀ desc col, Stable desc col (sortIndices desc col)) (hnamed : SortsNamedKeys groupBy orderBy)
    (horder : ∀ ref ∈ orderBy, ref.colRef.table ≠ none → ref.colRef ∈ groupBy) {rows rows' : List AggRow}
    (hrows : ∀ row ∈ rows, ∃ f : ColumnReference → Value, row.1 = groupBy.map f)
    (hsort : sortResult sortIndices groupBy orderBy rows = some rows')
    : rows'.Pairwise (Lex (rowKey groupBy) (orderKeys orderBy)) := by
  have : Nonempty (ColumnReference → Value) := ⟨fun _ => .int64 0⟩
  choose! f hf using hrows
  let results := rows.map fun row => outputOf (f row) row.2
  have hresults : rows.map (fun row => (row.1, Value.int64 row.2)) = results.map (resultRow groupBy) := by
    rw [List.map_map]
    apply List.map_congr_left
    intro row hrow
    rw [hf row hrow]
    rfl
  obtain ⟨keys, hkeys, hprefix⟩ := hnamed
  obtain ⟨results', hrun, -, hlex, -⟩ := sortRows_resultRow hstable hkeys results
  have hmap := @map_sortResult groupBy orderBy sortIndices rows
  rw [hsort, hresults, hrun, Option.map_some, Option.some.injEq] at hmap
  have hlen : rows'.length = results'.length := by simpa using congrArg List.length hmap
  have hrow : ∀ {i : Nat} (hi : i < rows'.length) (hi' : i < results'.length),
      (rows'[i].1, Value.int64 rows'[i].2) = resultRow groupBy results'[i] := by
    intro i hi hi'
    have := congrArg (·[i]?) hmap
    simpa [List.getElem?_eq_getElem hi, List.getElem?_eq_getElem hi'] using this
  rw [List.pairwise_iff_getElem] at hlex ⊢
  intro i j hi hj hij
  have hlex' : Lex (fun key (r : OutputKey → Value) => r key) (orderKeys orderBy) _ _ :=
    Lex.of_prefix (hlex i j (hlen ▸ hi) (hlen ▸ hj) hij) hprefix
  exact lex_rowKey (fun key hkey => mem_groupBy_of_mem_orderKeys horder hkey) (hrow hi (hlen ▸ hi)) (hrow hj (hlen ▸ hj))
    hlex'

end Hustle.Operators
