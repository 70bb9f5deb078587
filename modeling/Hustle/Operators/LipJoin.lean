import Hustle.Operators.GatheredJoin

/-!
This module contains when `LIP` in front of a join changes nothing. The fact table of its output has the filter that
it had before, which the join applies to the positions in the new array of indices, and the new array replaces an
old one.
-/

namespace Hustle.Operators

/--
The two results have the same multiset of rows of the tables.
-/
def OperatorResult.SameRows (tables : List Nat) (result result' : OperatorResult) : Prop :=
  ∃ tuples tuples', result.Represents tables tuples ∧ result'.Represents tables tuples' ∧
    (tuples.map fun ρ => tables.map ρ).Perm (tuples'.map fun ρ => tables.map ρ)

/--
The fact table of a star query comes from a selection, so that it has a filter, or from a join, so that it has an
array of indices. Every predicate has the fact table on its left and a dimension table of its own on its right.
-/
structure StarQuery where
  db : Tables
  fact : LazyTable
  dims : List LazyTable
  prevResult : OperatorResult
  first : JoinPredicate
  rest : List JoinPredicate
  prevResult_perm : prevResult.Perm (fact :: dims)
  left : ∀ p ∈ first :: rest, p.leftTable = fact.table
  right : (first :: rest).map JoinPredicate.rightTable = dims.map LazyTable.table
  nodup : (fact.table :: dims.map LazyTable.table).Nodup
  columns : ∀ p ∈ first :: rest, db.HasColumns p
  dims_fresh : ∀ t ∈ dims, t.Fresh db ∧ t.hashTable = none
  fact_hashTable : fact.hashTable = none
  fact_chunks : db.chunkLengths fact.table ≠ []
  fact_indexChunks : fact.indexChunks = none
  fact_filter : ∀ f, fact.filter = some f → fact.indices = none ∧ f.map List.length = db.chunkLengths fact.table
  fact_indices : ∀ indices, fact.indices = some indices → ∀ i ∈ indices, i < db.numRows fact.table

namespace StarQuery

def preds (q : StarQuery) : List JoinPredicate :=
  q.first :: q.rest

def tables (q : StarQuery) : List Nat :=
  q.fact.table :: q.dims.map LazyTable.table

/--
The joined rows are the same with and without `LIP`, whatever the order of its tasks, the size of its batches and
the order of its filters are.
-/
def LipChangesNothing (q : StarQuery) : Prop :=
  ∀ size size' tasks hardwareConcurrency sort, IsSchedule q.dims.length tasks →
    (∀ batch fs, (sort batch fs).Perm fs) →
    ∃ out lip out', MultiwayJoin.execute q.db size q.prevResult q.preds = some out ∧
      Lip.executeResult q.db q.prevResult q.preds tasks hardwareConcurrency sort = some lip ∧
      MultiwayJoin.execute q.db size' lip q.preds = some out' ∧ OperatorResult.SameRows q.tables out out'

/--
The number of rows that the fact table has for `LIP`.
-/
def numPositions (q : StarQuery) : Nat :=
  (q.fact.materializedLengths q.db).sum

/--
A filter of the fact table lets all rows pass and has chunks for all slices; an array of indices has the first rows,
and its slices are the chunks of the table. The key columns have different names, the Bloom filters can be built,
and they reject no row that the join without `LIP` has.
-/
structure LipNeutral (q : StarQuery) : Prop where
  filter : ∀ f, q.fact.filter = some f →
    (∀ row < q.db.numRows q.fact.table, Passes q.fact.filter row) ∧ CoversSlices f (q.db.numRows q.fact.table)
  indices : ∀ indices, q.fact.indices = some indices → indices = List.range indices.length ∧
    ∀ row < indices.length, InChunk (q.db.chunkLengths q.fact.table) row (row / sliceLength)
  chunks : (q.fact.materializedLengths q.db).length < 2 ^ 16
  names : (q.preds.map JoinPredicate.rightCol).Nodup
  cells : ∀ x ∈ q.dims.zip q.preds, ∀ d, x.1.dimension q.db x.2 = some d →
    (d.keys.length * 100 : Int) ≤ Storage.maxInt
  accepted : ∀ ρ, q.db.Satisfies q.tables q.preds ρ → ρ q.fact.table < q.numPositions →
    (∀ t ∈ q.dims, t.table = q.first.rightTable → Passes t.filter (ρ t.table)) →
    ∀ x ∈ q.dims.zip q.preds, ∀ d, x.1.dimension q.db x.2 = some d →
      (BloomFilter.ofValues d.keys).probe (q.db.key q.fact.table x.2.leftCol (ρ q.fact.table))

end StarQuery

/-! Star queries. -/

theorem leftDeep_of_nodup {tables : List Nat} {preds : List JoinPredicate} (hleft : ∀ p ∈ preds, p.leftTable ∈ tables)
    (hnodup : (tables ++ preds.map JoinPredicate.rightTable).Nodup)
    : LeftDeep tables preds := by
  induction preds generalizing tables with
  | nil => exact trivial
  | cons p preds ih =>
    refine ⟨hleft p (by simp), ?_, ?_⟩
    . intro hmem
      rw [List.nodup_append] at hnodup
      exact hnodup.2.2 _ hmem _ (by simp) rfl
    . apply ih
      . intro p' hp'
        exact List.mem_append_left _ (hleft p' (by simp [hp']))
      . simpa using hnodup

namespace StarQuery

variable {q : StarQuery}

theorem tables_eq (q : StarQuery)
    : q.tables = q.first.leftTable :: q.first.rightTable :: q.rest.map JoinPredicate.rightTable := by
  rw [tables, ← q.right, List.map_cons, q.left q.first (by simp)]

theorem first_ne (q : StarQuery) : q.first.leftTable ≠ q.first.rightTable := by
  have hnodup := q.nodup
  rw [show q.fact.table :: q.dims.map LazyTable.table = q.tables from rfl, q.tables_eq] at hnodup
  intro heq
  exact (List.nodup_cons.mp hnodup).1 (by simp [heq])

theorem leftDeep (q : StarQuery) : LeftDeep [q.first.leftTable, q.first.rightTable] q.rest := by
  apply leftDeep_of_nodup
  . intro p hp
    rw [q.left p (by simp [hp]), ← q.left q.first (by simp)]
    simp
  . have hnodup := q.nodup
    rwa [show q.fact.table :: q.dims.map LazyTable.table = q.tables from rfl, q.tables_eq] at hnodup

/--
The results that go into a join: the dimension tables and a lazy table of the fact table.
-/
structure Input (q : StarQuery) (fact : LazyTable) (result : OperatorResult) : Prop where
  perm : result.Perm (fact :: q.dims)
  table : fact.table = q.fact.table

namespace Input

variable {fact : LazyTable} {result : OperatorResult} (h : q.Input fact result)

include h

theorem tables_perm : (result.map LazyTable.table).Perm q.tables := by
  have := h.perm.map LazyTable.table
  rwa [List.map_cons, h.table] at this

theorem eq_of_table {t t' : LazyTable} (ht : t ∈ result) (ht' : t' ∈ result) (heq : t.table = t'.table) : t = t' :=
  List.inj_on_of_nodup_map (h.tables_perm.nodup_iff.mpr q.nodup) ht ht' heq

theorem getTable_eq {t : LazyTable} (ht : t ∈ result) : result.getTable t.table = some t := by
  obtain ⟨t', ht', hget, htable⟩ := MultiwayJoin.getTable_of_perm h.tables_perm
    (h.tables_perm.mem_iff.mp (List.mem_map_of_mem ht))
  rw [hget, h.eq_of_table ht' ht htable]

theorem fact_mem : fact ∈ result :=
  h.perm.mem_iff.mpr (by simp)

theorem getTable_fact : result.getTable q.first.leftTable = some fact := by
  rw [q.left q.first (by simp), ← h.table]
  exact h.getTable_eq h.fact_mem

theorem dim_mem {t : LazyTable} (ht : t ∈ result) (hne : t.table ≠ q.fact.table) : t ∈ q.dims := by
  rcases List.mem_cons.mp (h.perm.mem_iff.mp ht) with rfl | hmem
  . exact absurd h.table hne
  . exact hmem

theorem getTable_first : ∃ right ∈ q.dims, right.table = q.first.rightTable ∧ right ∈ result ∧
    result.getTable q.first.rightTable = some right := by
  have hmem : q.first.rightTable ∈ q.dims.map LazyTable.table := by
    rw [← q.right]
    simp
  obtain ⟨right, hright, htable⟩ := List.mem_map.mp hmem
  have hresult : right ∈ result := h.perm.mem_iff.mpr (by simp [hright])
  refine ⟨right, hright, htable, hresult, ?_⟩
  rw [← htable]
  exact h.getTable_eq hresult

end Input

theorem prevResult_input (q : StarQuery) : q.Input q.fact q.prevResult :=
  ⟨q.prevResult_perm, rfl⟩

/--
The filter of the first dimension table, which is the only one that is applied.
-/
def FirstPasses (q : StarQuery) (ρ : Nat → Nat) : Prop :=
  ∀ t ∈ q.dims, t.table = q.first.rightTable → Passes t.filter (ρ t.table)

theorem firstPasses_iff {right : LazyTable} (hright : right ∈ q.dims) (htable : right.table = q.first.rightTable)
    (ρ : Nat → Nat)
    : q.FirstPasses ρ ↔ Passes right.filter (ρ q.first.rightTable) := by
  constructor
  . intro h
    rw [← htable]
    exact h right hright htable
  . intro h t ht heq
    have : t = right := List.inj_on_of_nodup_map (List.nodup_cons.mp q.nodup).2 ht hright (heq.trans htable.symm)
    rw [this, htable]
    exact h

theorem execute_gathered {fact : LazyTable} {result : OperatorResult} (h : q.Input fact result) {indices : List Nat}
    (hfact : fact.Joined q.db (indices.map fun row _ => row)) (hindices : indices.Nodup) (size : Nat → Nat)
    : ∃ s tuples, q.preds.foldlM (MultiwayJoin.hashJoin q.db size) ⟨result, []⟩ = some s ∧
        s.prevResult.Represents q.tables tuples ∧
        Enumerates q.tables (fun ρ => q.db.Satisfies q.tables q.preds ρ ∧ ρ q.fact.table ∈ indices ∧
          q.FirstPasses ρ) tuples := by
  obtain ⟨right, hright, htable, hresult, hgetr⟩ := h.getTable_first
  obtain ⟨s, tuples, hs, hrep, henum⟩ := @MultiwayJoin.foldlM_gathered q.db size q.first q.tables result fact right
    q.rest indices q.tables_eq h.tables_perm q.leftDeep
    (fun t ht hne => q.dims_fresh t (h.dim_mem ht (by rwa [q.left q.first (by simp)] at hne)))
    q.columns h.fact_mem h.getTable_fact hfact hindices hresult hgetr q.first_ne
  refine ⟨s, tuples, hs, hrep, henum.congr ?_⟩
  intro ρ
  rw [firstPasses_iff hright htable, q.left q.first (by simp)]
  rfl

/-! The join without `LIP`. -/

theorem length_slices {α : Type} (l : List α) : ((slices l).map List.length).sum = l.length := by
  rw [← List.length_flatten, flatten_slices]

theorem numPositions_of_none (h : q.fact.indices = none) : q.numPositions = q.db.numRows q.fact.table := by
  simp [numPositions, LazyTable.materializedLengths, h, Tables.numRows]

theorem numPositions_of_some {indices : List Nat} (h : q.fact.indices = some indices)
    : q.numPositions = indices.length := by
  simp only [numPositions, LazyTable.materializedLengths, h, q.fact_indexChunks]
  exact length_slices indices

theorem fact_fresh (h : q.fact.indices = none) : q.fact.Fresh q.db :=
  ⟨h, q.fact_indexChunks, fun f hf => (q.fact_filter f hf).2, q.fact_chunks⟩

/--
A fact table with a filter.
-/
theorem execute_fresh (h : q.LipNeutral) (hnone : q.fact.indices = none) (size : Nat → Nat)
    : ∃ out tuples, MultiwayJoin.execute q.db size q.prevResult q.preds = some out ∧
        out.Represents q.tables tuples ∧
        Enumerates q.tables (fun ρ => q.db.Satisfies q.tables q.preds ρ ∧ ρ q.fact.table < q.numPositions ∧
          q.FirstPasses ρ) tuples := by
  have hinput := q.prevResult_input
  let jq : JoinQuery :=
    { db := q.db
      prevResult := q.prevResult
      first := q.first
      rest := q.rest
      first_ne := q.first_ne
      leftDeep := q.leftDeep
      tables_perm := by
        rw [← q.tables_eq]
        exact hinput.tables_perm
      columns := q.columns
      fresh := by
        intro t ht
        rcases List.mem_cons.mp (q.prevResult_perm.mem_iff.mp ht) with rfl | ht
        . exact ⟨fact_fresh hnone, q.fact_hashTable⟩
        . exact q.dims_fresh t ht }
  obtain ⟨out, tuples, hout, hrep, henum⟩ := jq.execute_enumerates size
  have htables : jq.tables = q.tables := q.tables_eq.symm
  rw [htables] at hrep henum
  refine ⟨out, tuples, hout, hrep, henum.congr ?_⟩
  obtain ⟨right, hright, htable, -, hgetr⟩ := hinput.getTable_first
  have hfl : jq.filter q.first.leftTable = q.fact.filter := by
    simp only [JoinQuery.filter, jq, hinput.getTable_fact, Option.bind_some]
  have hfr : jq.filter q.first.rightTable = right.filter := by
    simp only [JoinQuery.filter, jq, hgetr, Option.bind_some]
  intro ρ
  rw [firstPasses_iff hright htable, numPositions_of_none hnone, JoinQuery.FirstFiltersPass,
    show jq.first = q.first from rfl, hfl, hfr]
  constructor
  . rintro ⟨hsat, -, hpass⟩
    exact ⟨hsat, hsat.rows_lt _ (by simp [tables]), hpass⟩
  . rintro ⟨hsat, hlt, hpass⟩
    refine ⟨hsat, ?_, hpass⟩
    rw [q.left q.first (by simp)]
    cases hf : q.fact.filter with
    | none => exact passes_none _
    | some f =>
      rw [← hf]
      exact (h.filter f hf).1 _ hlt

theorem execute_direct (h : q.LipNeutral) (size : Nat → Nat)
    : ∃ out tuples, MultiwayJoin.execute q.db size q.prevResult q.preds = some out ∧
        out.Represents q.tables tuples ∧
        Enumerates q.tables (fun ρ => q.db.Satisfies q.tables q.preds ρ ∧ ρ q.fact.table < q.numPositions ∧
          q.FirstPasses ρ) tuples := by
  cases hindices : q.fact.indices with
  | none => exact execute_fresh h hindices size
  | some indices =>
    obtain ⟨hrange, -⟩ := h.indices indices hindices
    have hfilter : q.fact.filter = none := by
      cases hf : q.fact.filter with
      | none => rfl
      | some f =>
        have := (q.fact_filter f hf).1
        rw [hindices] at this
        cases this
    have hjoined : q.fact.Joined q.db (indices.map fun row _ => row) := by
      refine ⟨?_, hfilter, q.fact_indexChunks, q.fact_chunks, ?_⟩
      . rw [hindices, List.map_map]
        exact congrArg some (List.map_id' indices).symm
      . intro ρ hρ
        obtain ⟨row, hrow, rfl⟩ := List.mem_map.mp hρ
        exact q.fact_indices indices hindices row hrow
    have hnodup : indices.Nodup := by
      rw [hrange]
      exact List.nodup_range
    obtain ⟨s, tuples, hs, hrep, henum⟩ := execute_gathered q.prevResult_input hjoined hnodup size
    refine ⟨s.prevResult, tuples, ?_, hrep, henum.congr ?_⟩
    . simp only [MultiwayJoin.execute, hs, Option.bind_eq_bind, Option.bind_some]
      rfl
    . intro ρ
      rw [numPositions_of_some hindices]
      conv_lhs => rw [hrange, List.mem_range]

/-! What `LIP` reads. -/

theorem materializeColumn_positions (h : q.LipNeutral) {name : String} {col : Chunked (BitVec 64)}
    (hcol : q.db.column q.fact.table name = some col)
    : ∃ out, q.fact.materializeColumn q.db name = some out ∧
        ∀ k < q.numPositions, out.flatten[k]? = some (q.db.key q.fact.table name k) := by
  cases hindices : q.fact.indices with
  | none =>
    refine ⟨col, by simp [LazyTable.materializeColumn, hcol, hindices], ?_⟩
    intro k hk
    rw [numPositions_of_none hindices] at hk
    exact Tables.getElem?_column hcol hk
  | some indices =>
    obtain ⟨hrange, -⟩ := h.indices indices hindices
    obtain ⟨out, hout, -, hflat⟩ := applyIndices_eq_some (Tables.column_ne_nil hcol q.fact_chunks)
      (fun i hi => Tables.getElem?_column hcol (q.fact_indices indices hindices i hi))
    refine ⟨out, by simp [LazyTable.materializeColumn, hcol, hindices, q.fact_indexChunks, hout], ?_⟩
    intro k hk
    rw [numPositions_of_some hindices] at hk
    rw [hflat, hrange, List.getElem?_map, List.getElem?_range (by simpa using hk)]
    rfl

theorem numPositions_le (h : q.LipNeutral) : q.numPositions ≤ q.db.numRows q.fact.table := by
  cases hindices : q.fact.indices with
  | none => rw [numPositions_of_none hindices]
  | some indices =>
    rw [numPositions_of_some hindices]
    obtain ⟨hrange, -⟩ := h.indices indices hindices
    by_contra hlt
    have hmem : q.db.numRows q.fact.table ∈ indices := by
      rw [hrange, List.mem_range]
      omega
    exact absurd (q.fact_indices indices hindices _ hmem) (Nat.lt_irrefl _)

theorem inChunk_of_mem_chunkRows (h : q.LipNeutral) {names : List String} {k c : Nat}
    (hk : k ∈ (q.fact.factTable q.db names).chunkRows c)
    : InChunk (q.db.chunkLengths q.fact.table) k c := by
  rw [FactTable.chunkRows, List.mem_range'_1] at hk
  cases hindices : q.fact.indices with
  | none =>
    have hlengths : (q.fact.factTable q.db names).chunkLengths = q.db.chunkLengths q.fact.table := by
      simp [LazyTable.factTable, LazyTable.materializedLengths, hindices]
    rw [hlengths] at hk
    refine ⟨hk.1, ?_⟩
    rw [List.take_add_one, List.sum_append]
    cases hget : (q.db.chunkLengths q.fact.table)[c]? with
    | none =>
      rw [List.getD_eq_getElem?_getD, hget] at hk
      simp at hk
      omega
    | some len =>
      rw [List.getD_eq_getElem?_getD, hget] at hk
      simpa using hk.2
  | some indices =>
    obtain ⟨-, hchunk⟩ := h.indices indices hindices
    have hlengths : (q.fact.factTable q.db names).chunkLengths = (slices indices).map List.length := by
      simp only [LazyTable.factTable, LazyTable.materializedLengths, hindices, q.fact_indexChunks]
    rw [hlengths] at hk
    obtain ⟨hc, hlt⟩ := slice_of_position hk
    rw [← hc]
    exact hchunk k hlt

def dimension (q : StarQuery) (x : LazyTable × JoinPredicate) : Dimension :=
  ⟨x.2.rightCol, (q.db.column x.1.table x.2.rightCol).getD [], x.1.filter, x.1.hashTable, x.2.leftCol⟩

def dimensions (q : StarQuery) : List Dimension :=
  (q.dims.zip q.preds).map q.dimension

theorem forall₂_right (q : StarQuery) : List.Forall₂ (fun t p => p.rightTable = t.table) q.dims q.preds := by
  rw [List.forall₂_iff_zip]
  have hlen := congrArg List.length q.right
  rw [List.length_map, List.length_map] at hlen
  refine ⟨hlen.symm, ?_⟩
  intro t p hmem
  obtain ⟨i, hi⟩ := List.mem_iff_getElem?.mp hmem
  rw [List.getElem?_zip_eq_some] at hi
  have := congrArg (·[i]?) q.right
  simp only [List.getElem?_map, hi.1] at this
  rw [show (q.first :: q.rest)[i]? = some p from hi.2] at this
  exact Option.some.inj this

theorem column_of_mem_zip {x : LazyTable × JoinPredicate} (hx : x ∈ q.dims.zip q.preds)
    : ∃ col, q.db.column x.1.table x.2.rightCol = some col := by
  have htable := (List.forall₂_iff_zip.mp q.forall₂_right).2 hx
  obtain ⟨-, col, hcol⟩ := q.columns x.2 (List.of_mem_zip hx).2
  exact ⟨col, by rw [← htable]; exact hcol⟩

theorem dimension_eq_some {x : LazyTable × JoinPredicate} (hx : x ∈ q.dims.zip q.preds)
    : x.1.dimension q.db x.2 = some (q.dimension x) := by
  obtain ⟨col, hcol⟩ := column_of_mem_zip hx
  simp [LazyTable.dimension, dimension, hcol]

theorem fkCol_of_mem_zip {x : LazyTable × JoinPredicate} (hx : x ∈ q.dims.zip q.preds)
    : ∃ col, q.db.column q.fact.table x.2.leftCol = some col := by
  have hp := (List.of_mem_zip hx).2
  obtain ⟨⟨col, hcol⟩, -⟩ := q.columns x.2 hp
  exact ⟨col, by rw [← q.left x.2 hp]; exact hcol⟩

def lipFact (q : StarQuery) : FactTable :=
  q.fact.factTable q.db (q.dimensions.map Dimension.fkColName)

theorem lookup_lipFact (h : q.LipNeutral) {x : LazyTable × JoinPredicate} (hx : x ∈ q.dims.zip q.preds)
    : ∃ col, q.lipFact.columns.lookup x.2.leftCol = some col ∧
        ∀ k < q.numPositions, col.flatten[k]? = some (q.db.key q.fact.table x.2.leftCol k) := by
  obtain ⟨col, hcol⟩ := fkCol_of_mem_zip hx
  obtain ⟨out, hout, hkeys⟩ := materializeColumn_positions h hcol
  refine ⟨out, ?_, hkeys⟩
  rw [lipFact, LazyTable.factTable, LazyTable.lookup_materializedColumns, if_pos, hout]
  rw [dimensions, List.map_map]
  exact List.mem_map_of_mem hx

def star (q : StarQuery) (h : q.LipNeutral) : Star where
  fact := q.lipFact
  dims := q.dimensions
  fkCol_mem := by
    intro d hd
    obtain ⟨x, hx, rfl⟩ := List.mem_map.mp hd
    obtain ⟨col, hcol, -⟩ := lookup_lipFact h hx
    exact ⟨col, hcol⟩
  pkColNames_nodup := by
    have hnames : q.dimensions.map Dimension.pkColName = q.preds.map JoinPredicate.rightCol := by
      rw [dimensions, List.map_map, ← @List.map_snd_zip _ _ q.dims q.preds q.forall₂_right.length_eq.ge,
        List.map_map]
      rw [List.map_snd_zip q.forall₂_right.length_eq.ge]
      rfl
    rw [hnames]
    exact h.names
  filters_aligned := by
    intro d hd
    obtain ⟨x, hx, rfl⟩ := List.mem_map.mp hd
    obtain ⟨col, hcol⟩ := column_of_mem_zip hx
    have := (q.dims_fresh x.1 (List.of_mem_zip hx).1).1.aligned hcol
    simpa [dimension, hcol] using this

theorem accepts_iff (h : q.LipNeutral) {x : LazyTable × JoinPredicate} (hx : x ∈ q.dims.zip q.preds) {k : Nat}
    (hk : k < q.numPositions)
    : q.lipFact.accepts k (q.dimension x).lookupFilter
        =
      (BloomFilter.ofValues (q.dimension x).keys).probe (q.db.key q.fact.table x.2.leftCol k) := by
  obtain ⟨col, hcol, hkeys⟩ := lookup_lipFact h hx
  have hkey : q.lipFact.key (q.dimension x).lookupFilter.fkName k
      = some (q.db.key q.fact.table x.2.leftCol k) := by
    rw [FactTable.key, show (q.dimension x).lookupFilter.fkName = x.2.leftCol from rfl, hcol]
    exact hkeys k hk
  have hhash : (q.dimension x).lookupFilter.hashTable = none := (q.dims_fresh x.1 (List.of_mem_zip hx).1).2
  rw [Lip.accepts_of_key hkey, LookupFilter.accepts, hhash]
  simp [Dimension.lookupFilter]

/--
The rows that the Bloom filters let pass.
-/
def lipRows (q : StarQuery) : List Nat :=
  (List.range q.numPositions).filter fun k => (q.dims.zip q.preds).all fun x =>
    (BloomFilter.ofValues (q.dimension x).keys).probe (q.db.key q.fact.table x.2.leftCol k)

theorem lip_indices (h : q.LipNeutral) {tasks : List BuildTask} {hardwareConcurrency : Nat}
    {sort : Nat → List LookupFilter → List LookupFilter} (htasks : IsSchedule q.dims.length tasks)
    (hsort : ∀ batch fs, (sort batch fs).Perm fs)
    : ∃ out, Lip.execute q.lipFact q.dimensions tasks hardwareConcurrency sort = some out ∧
        out.indices.Perm q.lipRows ∧
        List.Forall₂ (InChunk (q.db.chunkLengths q.fact.table)) out.indices out.indexChunks := by
  have hlen : q.dimensions.length = q.dims.length := by
    rw [dimensions, List.length_map, List.length_zip, ← q.forall₂_right.length_eq, Nat.min_self]
  have hchunks : 0 < q.lipFact.chunkLengths.length := by
    apply List.length_pos_iff.mpr
    rw [lipFact, LazyTable.factTable]
    cases hindices : q.fact.indices with
    | none => simpa [LazyTable.materializedLengths, hindices] using q.fact_chunks
    | some indices =>
      simp [LazyTable.materializedLengths, hindices, q.fact_indexChunks, slices_ne_nil]
  have hne : q.dimensions ≠ [] := by
    have hpos : q.dims.length = q.preds.length := q.forall₂_right.length_eq
    intro hnil
    rw [hnil, hpos] at hlen
    simp [preds] at hlen
  obtain ⟨lipIndices, hlip, hlength, hpassed⟩ := @Star.lip_execute (q.star h) tasks hardwareConcurrency sort
    (by rw [show (q.star h).dims.length = q.dims.length from hlen]; exact htasks) hsort hchunks hne (by
      intro d hd
      obtain ⟨x, hx, rfl⟩ := List.mem_map.mp hd
      obtain ⟨col, hcol⟩ := column_of_mem_zip hx
      refine ⟨?_, h.cells x hx _ (dimension_eq_some hx)⟩
      have hfresh := (q.dims_fresh x.1 (List.of_mem_zip hx).1).1
      simpa [dimension, hcol] using Tables.column_ne_nil hcol hfresh.chunks)
  refine ⟨_, hlip, ?_, ?_⟩
  . have hperm := FactTable.flatten_perm hlength hpassed
    refine hperm.trans (.of_eq ?_)
    apply List.filter_congr
    intro k hk
    have hk : k < q.numPositions := List.mem_range.mp hk
    rw [show (q.star h).dims = (q.dims.zip q.preds).map q.dimension from rfl, List.all_map, List.all_map,
      Bool.eq_iff_iff, List.all_eq_true, List.all_eq_true]
    apply forall₂_congr
    intro x hx
    rw [← accepts_iff h hx hk]
    rfl
  . apply Lip.forall₂_indexChunks
    intro i rows hget row hrow
    have hi := (List.getElem?_eq_some_iff.mp hget).1
    have hlt : i < 2 ^ 16 := by
      have := h.chunks
      have hl : (q.star h).fact.chunkLengths.length = (q.fact.materializedLengths q.db).length := rfl
      omega
    rw [Nat.zero_add, Nat.mod_eq_of_lt hlt]
    apply inChunk_of_mem_chunkRows h
    exact Lip.mem_chunkRows_of_passed (hpassed i (by omega)) hget row hrow

theorem foldl_last {result : OperatorResult} {fact : LazyTable} (hmem : fact ∈ result)
    (hunique : ∀ t ∈ result, t.table = fact.table → t = fact) (init : Option LazyTable)
    : result.foldl (fun found t => if t.table = fact.table then some t else found) init = some fact := by
  induction result using List.reverseRecOn with
  | nil => cases hmem
  | append_singleton result t ih =>
    rw [List.foldl_append, List.foldl_cons, List.foldl_nil]
    by_cases heq : t.table = fact.table
    . rw [if_pos heq, hunique t (by simp) heq]
    . rw [if_neg heq]
      apply ih
      . rcases List.mem_append.mp hmem with h | h
        . exact h
        . rw [List.mem_singleton.mp h] at heq
          exact absurd rfl heq
      . intro t ht
        exact hunique t (by simp [ht])

theorem findFactTable_eq (q : StarQuery) : Lip.findFactTable q.prevResult q.preds = some q.fact := by
  have hinput := q.prevResult_input
  have hinner : ∀ p ∈ q.preds, ∀ init, q.prevResult.foldl
      (fun found t => if t.table = p.leftTable then some t else found) init = some q.fact := by
    intro p hp init
    rw [q.left p hp]
    exact foldl_last hinput.fact_mem (fun t ht heq => hinput.eq_of_table ht hinput.fact_mem heq) init
  have houter : ∀ preds : List JoinPredicate, (∀ p ∈ preds, p ∈ q.preds) → ∀ init, preds ≠ [] ∨ init = some q.fact →
      preds.foldl (fun found p => q.prevResult.foldl
        (fun found t => if t.table = p.leftTable then some t else found) found) init = some q.fact := by
    intro preds hsub
    induction preds with
    | nil =>
      intro init hinit
      rcases hinit with h | h
      . exact absurd rfl h
      . exact h
    | cons p preds ih =>
      intro init _
      rw [List.foldl_cons, hinner p (hsub p (by simp))]
      exact ih (fun p hp => hsub p (by simp [hp])) _ (.inr rfl)
  exact houter q.preds (fun p hp => hp) none (.inl (by simp [preds]))

theorem findDimTables_eq (q : StarQuery) : Lip.findDimTables q.prevResult q.preds = q.dims := by
  have hinput := q.prevResult_input
  have hone : ∀ t ∈ q.dims, ∀ p ∈ q.preds, p.rightTable = t.table →
      (q.prevResult.filter fun t => t.table ≠ p.leftTable ∧ t.table = p.rightTable) = [t] := by
    intro t ht p hp htable
    have hmem : t ∈ q.prevResult := q.prevResult_perm.mem_iff.mpr (by simp [ht])
    have hnodup : q.prevResult.Nodup := (hinput.tables_perm.nodup_iff.mpr q.nodup).of_map
    apply List.perm_singleton.mp
    rw [List.perm_ext_iff_of_nodup (hnodup.filter _) (by simp)]
    intro t'
    rw [List.mem_filter, decide_eq_true_eq, List.mem_singleton]
    constructor
    . rintro ⟨ht', -, heq⟩
      exact hinput.eq_of_table ht' hmem (heq.trans htable)
    . rintro rfl
      refine ⟨hmem, ?_, htable.symm⟩
      rw [q.left p hp]
      intro heq
      exact (List.nodup_cons.mp q.nodup).1 (by rw [← heq]; exact List.mem_map_of_mem ht)
  have hall : ∀ {dims : List LazyTable} {preds : List JoinPredicate},
      List.Forall₂ (fun t p => p.rightTable = t.table) dims preds → (∀ t ∈ dims, t ∈ q.dims) →
      (∀ p ∈ preds, p ∈ q.preds) → Lip.findDimTables q.prevResult preds = dims := by
    intro dims preds h hdims hpreds
    induction h with
    | nil => rfl
    | @cons t p dims preds htable _ ih =>
      have hrest := ih (fun t ht => hdims t (by simp [ht])) (fun p hp => hpreds p (by simp [hp]))
      rw [Lip.findDimTables] at hrest
      rw [Lip.findDimTables, List.flatMap_cons, hrest, hone t (hdims t (by simp)) p (hpreds p (by simp)) htable]
      rfl
  exact hall q.forall₂_right (fun t ht => ht) (fun p hp => hp)

def lipResult (q : StarQuery) (out : Lip.Output) : OperatorResult :=
  q.dims.reverse ++ [⟨q.fact.table, q.fact.filter, some out.indices, some out.indexChunks, none⟩]

theorem executeResult_eq {tasks : List BuildTask} {hardwareConcurrency : Nat}
    {sort : Nat → List LookupFilter → List LookupFilter} {out : Lip.Output}
    (hout : Lip.execute q.lipFact q.dimensions tasks hardwareConcurrency sort = some out)
    : Lip.executeResult q.db q.prevResult q.preds tasks hardwareConcurrency sort = some (q.lipResult out) := by
  have hdims : (q.dims.zip q.preds).mapM (fun x => x.1.dimension q.db x.2) = some q.dimensions :=
    Run.mapM_eq_some fun x hx => dimension_eq_some hx
  have hlen : ¬q.preds.length < q.dims.length := by
    rw [q.forall₂_right.length_eq]
    exact Nat.lt_irrefl _
  rw [Lip.executeResult, findFactTable_eq, findDimTables_eq]
  simp only [Option.bind_eq_bind, Option.bind_some, if_neg hlen, hdims]
  rw [show q.fact.factTable q.db (q.dimensions.map Dimension.fkColName) = q.lipFact from rfl, hout]
  rfl

/-! The join after `LIP`. -/

def lipTable (q : StarQuery) (out : Lip.Output) (filter : Option (Chunked Bool)) (indexChunks : Option (List Nat))
    : LazyTable :=
  ⟨q.fact.table, filter, some out.indices, indexChunks, none⟩

theorem lipTable_input (q : StarQuery) (out : Lip.Output) (filter : Option (Chunked Bool))
    (indexChunks : Option (List Nat))
    : q.Input (q.lipTable out filter indexChunks) (q.dims.reverse ++ [q.lipTable out filter indexChunks]) := by
  refine ⟨?_, rfl⟩
  exact List.perm_append_comm.trans (.cons _ (List.reverse_perm _))

/--
The first join is the same without the filter.
-/
theorem hashJoin_lipTable {size : Nat → Nat} {out : Lip.Output} {filter : Option (Chunked Bool)}
    {indexChunks : Option (List Nat)}
    (hprobe : ∀ t col, (q.lipTable out filter indexChunks).materializeColumn q.db q.first.leftCol = some col →
      HashTable.probe t col filter size = HashTable.probe t col none size)
    : MultiwayJoin.hashJoin q.db size ⟨q.dims.reverse ++ [q.lipTable out filter indexChunks], []⟩ q.first
        =
      MultiwayJoin.hashJoin q.db size ⟨q.dims.reverse ++ [q.lipTable out none indexChunks], []⟩ q.first := by
  have hinput := q.lipTable_input out filter indexChunks
  have hinput' := q.lipTable_input out none indexChunks
  obtain ⟨right, hright, htable, -, hgetr⟩ := hinput.getTable_first
  have hgetr' : (q.dims.reverse ++ [q.lipTable out none indexChunks]).find? (fun t => t.table = q.first.rightTable)
      = some right := by
    have := hinput'.getTable_eq (t := right) (by simp [hright])
    rwa [htable] at this
  have hpairs : joinPairs q.db (q.lipTable out filter indexChunks) right q.first size
      = joinPairs q.db (q.lipTable out none indexChunks) right q.first size := by
    have hmat : (q.lipTable out none indexChunks).materializeColumn q.db q.first.leftCol
        = (q.lipTable out filter indexChunks).materializeColumn q.db q.first.leftCol := rfl
    rw [joinPairs, joinPairs, hmat]
    cases hcol : (q.lipTable out filter indexChunks).materializeColumn q.db q.first.leftCol with
    | none => rfl
    | some col =>
      simp only [Option.bind_eq_bind, Option.bind_some]
      cases right.materializeColumn q.db q.first.rightCol with
      | none => rfl
      | some rcol =>
        simp only [Option.bind_some]
        cases right.joinTable rcol with
        | none => rfl
        | some t => exact hprobe t col hcol
  have hothers : ∀ filter, (q.dims.reverse ++ [q.lipTable out filter indexChunks]).filter
      (fun t => t.table ≠ q.fact.table ∧ t.table ≠ right.table)
      = q.dims.reverse.filter fun t => t.table ≠ q.fact.table ∧ t.table ≠ right.table := by
    intro filter
    rw [List.filter_append]
    simp [lipTable]
  have hgetl := hinput.getTable_fact
  have hgetl' := hinput'.getTable_fact
  rw [MultiwayJoin.hashJoin, MultiwayJoin.hashJoin, hgetl, hgetl', hgetr, OperatorResult.getTable, hgetr']
  simp only [Option.bind_eq_bind, Option.bind_some, hpairs]
  cases joinPairs q.db (q.lipTable out none indexChunks) right q.first size with
  | none => rfl
  | some pairs =>
    simp only [Option.bind_some, MultiwayJoin.backPropogateResult]
    rw [show (q.lipTable out filter indexChunks).table = q.fact.table from rfl,
      show (q.lipTable out none indexChunks).table = q.fact.table from rfl, hothers, hothers]
    rfl

theorem all_of_passes {f : Chunked Bool} {n : Nat} (hlen : f.flatten.length = n)
    (h : ∀ row < n, Passes (some f) row)
    : ∀ b ∈ f.flatten, b = true := by
  intro b hb
  obtain ⟨i, hi, rfl⟩ := List.mem_iff_getElem.mp hb
  have := h i (by omega) f rfl
  rw [List.getElem?_eq_getElem hi, Option.some.injEq] at this
  exact this

variable {out : Lip.Output}

theorem indices_lt (h : q.LipNeutral) (hperm : out.indices.Perm q.lipRows) {i : Nat} (hi : i ∈ out.indices)
    : i < q.db.numRows q.fact.table := by
  have hmem := List.mem_of_mem_filter (hperm.mem_iff.mp hi)
  exact Nat.lt_of_lt_of_le (List.mem_range.mp hmem) (numPositions_le h)

theorem indices_length_le (h : q.LipNeutral) (hperm : out.indices.Perm q.lipRows)
    : out.indices.length ≤ q.db.numRows q.fact.table := by
  have hle := List.length_filter_le (fun k => (q.dims.zip q.preds).all fun x =>
    (BloomFilter.ofValues (q.dimension x).keys).probe (q.db.key q.fact.table x.2.leftCol k))
    (List.range q.numPositions)
  have hpos := numPositions_le h
  rw [List.length_range] at hle
  rw [hperm.length_eq, lipRows]
  omega

theorem probe_lipTable (h : q.LipNeutral) (hperm : out.indices.Perm q.lipRows) {size : Nat → Nat} (t : HashTable)
    {col : Chunked (BitVec 64)}
    (hcol : (q.lipTable out q.fact.filter (some out.indexChunks)).materializeColumn q.db q.first.leftCol = some col)
    : t.probe col q.fact.filter size = t.probe col none size := by
  cases hf : q.fact.filter with
  | none => rfl
  | some f =>
    obtain ⟨hpass, hcovers⟩ := h.filter f hf
    rw [hf] at hpass hcol
    have hlengths := LazyTable.length_of_materializeColumn hcol
    have hslices : col.map List.length = (slices (out.indices.zip out.indexChunks)).map List.length := hlengths
    have hflat : f.flatten.length = q.db.numRows q.fact.table := by
      rw [List.length_flatten, (q.fact_filter f hf).2]
      rfl
    apply t.probe_all
    . rintro rfl
      rw [List.map_nil, eq_comm, List.map_eq_nil_iff] at hslices
      exact slices_ne_nil _ hslices
    . intro i chunk hi
      have hget := congrArg (·[i]?) hslices
      simp only [List.getElem?_map, hi, Option.map_some] at hget
      obtain ⟨slice, hslice, hlen⟩ := Option.map_eq_some_iff.mp hget.symm
      have hle : (out.indices.zip out.indexChunks).length ≤ q.db.numRows q.fact.table := by
        rw [List.length_zip]
        exact (Nat.min_le_left _ _).trans (indices_length_le h hperm)
      obtain ⟨bits, hbits, hbound⟩ := slices_covered hcovers hle hslice
      exact ⟨bits, hbits, by omega⟩
    . exact all_of_passes hflat hpass

theorem forget_dims (q : StarQuery) : q.dims.reverse.map LazyTable.forget = q.dims.reverse := by
  conv_rhs => rw [← List.map_id q.dims.reverse]
  apply List.map_congr_left
  intro t ht
  have hchunks := (q.dims_fresh t (List.mem_reverse.mp ht)).1.indexChunks
  rw [LazyTable.forget, ← hchunks]
  rfl

/--
The join gathers the rows that are left.
-/
theorem execute_lipResult (h : q.LipNeutral) (hperm : out.indices.Perm q.lipRows)
    (hchunks : List.Forall₂ (InChunk (q.db.chunkLengths q.fact.table)) out.indices out.indexChunks)
    (size : Nat → Nat)
    : ∃ result tuples, MultiwayJoin.execute q.db size (q.lipResult out) q.preds = some result ∧
        result.Represents q.tables tuples ∧
        Enumerates q.tables (fun ρ => q.db.Satisfies q.tables q.preds ρ ∧ ρ q.fact.table ∈ out.indices ∧
          q.FirstPasses ρ) tuples := by
  have hnodup : out.indices.Nodup := hperm.nodup_iff.mpr (List.nodup_range.filter _)
  have hjoined : (q.lipTable out none none).Joined q.db (out.indices.map fun row _ => row) := by
    refine ⟨?_, rfl, rfl, q.fact_chunks, ?_⟩
    . rw [List.map_map]
      exact congrArg some (List.map_id' out.indices).symm
    . intro ρ hρ
      obtain ⟨row, hrow, rfl⟩ := List.mem_map.mp hρ
      exact indices_lt h hperm hrow
  obtain ⟨s, tuples, hs, hrep, henum⟩ := execute_gathered (q.lipTable_input out none none) hjoined hnodup size
  let s₀ : MultiwayJoin.State := ⟨q.dims.reverse ++ [q.lipTable out none (some out.indexChunks)], []⟩
  have hforget : s₀.forget = ⟨q.dims.reverse ++ [q.lipTable out none none], []⟩ := by
    simp only [s₀, MultiwayJoin.State.forget, List.map_append, forget_dims]
    rfl
  have hfound : s₀.Found q.db := by
    intro t ht
    rcases List.mem_append.mp ht with ht | ht
    . intro chunks hsome
      rw [(q.dims_fresh t (List.mem_reverse.mp ht)).1.indexChunks] at hsome
      cases hsome
    . rw [List.mem_singleton.mp ht]
      intro chunks hsome
      cases hsome
      refine ⟨out.indices, rfl, ?_⟩
      intro chunks hsome
      cases hsome
      exact hchunks
  rw [← hforget] at hs
  obtain ⟨s', hs', rfl⟩ := MultiwayJoin.foldlM_forget hfound hs
  refine ⟨s'.prevResult, tuples, ?_, ?_, henum⟩
  . have hfirst := hashJoin_lipTable (fun t col hcol => @probe_lipTable q out h hperm size t col hcol)
    have hfold : q.preds.foldlM (MultiwayJoin.hashJoin q.db size) ⟨q.lipResult out, []⟩ = some s' := by
      rw [preds, List.foldlM_cons] at hs' ⊢
      rw [← hs', show q.lipResult out = q.dims.reverse ++ [q.lipTable out q.fact.filter (some out.indexChunks)]
        from rfl, hfirst]
    simp only [MultiwayJoin.execute, hfold, Option.bind_eq_bind, Option.bind_some]
    rfl
  . intro t ht
    obtain ⟨lt, hlt, hindices⟩ := hrep t ht
    rw [MultiwayJoin.State.forget, MultiwayJoin.getTable_forget] at hlt
    obtain ⟨lt', hlt', rfl⟩ := Option.map_eq_some_iff.mp hlt
    exact ⟨lt', hlt', hindices⟩

theorem lipChangesNothing_of_lipNeutral (h : q.LipNeutral) : q.LipChangesNothing := by
  intro size size' tasks hardwareConcurrency sort htasks hsort
  obtain ⟨result, tuples, hresult, hrep, henum⟩ := execute_direct h size
  obtain ⟨out, hout, hperm, hchunks⟩ := @lip_indices q h tasks hardwareConcurrency sort htasks hsort
  obtain ⟨result', tuples', hresult', hrep', henum'⟩ := execute_lipResult h hperm hchunks size'
  refine ⟨result, q.lipResult out, result', hresult, executeResult_eq hout, hresult', tuples, tuples', hrep, hrep', ?_⟩
  apply henum.map_perm
  apply henum'.congr
  intro ρ
  have hmem : q.db.Satisfies q.tables q.preds ρ → q.FirstPasses ρ →
      (ρ q.fact.table ∈ out.indices ↔ ρ q.fact.table < q.numPositions) := by
    intro hsat hpass
    rw [hperm.mem_iff, lipRows, List.mem_filter, List.mem_range, List.all_eq_true]
    constructor
    . exact fun hmem => hmem.1
    . intro hlt
      refine ⟨hlt, ?_⟩
      intro x hx
      exact h.accepted ρ hsat hlt hpass x hx _ (dimension_eq_some hx)
  constructor
  . rintro ⟨hsat, hrow, hpass⟩
    exact ⟨hsat, (hmem hsat hpass).mp hrow, hpass⟩
  . rintro ⟨hsat, hrow, hpass⟩
    exact ⟨hsat, (hmem hsat hpass).mpr hrow, hpass⟩

/--
A fact table of two rows, the second of which is joined with the only row of a dimension table.
-/
def secondRowJoins (bits : List Bool) (hbits : bits.length = 2) : StarQuery where
  db :=
    { chunkLengths := fun t => if t = 0 then [2] else [1]
      column := fun t _ => if t = 0 then some [[5, 1]] else some [[1]]
      column_aligned := by
        intro t name col h
        split at h
        . next ht =>
          cases h
          simp [ht]
        . next ht =>
          cases h
          simp [ht] }
  fact := ⟨0, some [bits], none, none, none⟩
  dims := [⟨1, none, none, none, none⟩]
  prevResult := [⟨0, some [bits], none, none, none⟩, ⟨1, none, none, none, none⟩]
  first := ⟨0, "fk", 1, "pk"⟩
  rest := []
  prevResult_perm := .refl _
  left := by simp
  right := rfl
  nodup := by simp
  columns := by
    intro p hp
    rw [List.mem_singleton.mp hp]
    exact ⟨⟨_, rfl⟩, _, rfl⟩
  dims_fresh := by
    intro t ht
    rw [List.mem_singleton.mp ht]
    exact ⟨⟨rfl, rfl, by simp, by decide⟩, rfl⟩
  fact_hashTable := rfl
  fact_chunks := by simp
  fact_indexChunks := rfl
  fact_filter := by
    intro f hf
    cases hf
    simp [hbits]
  fact_indices := by
    intro indices hindices
    cases hindices

theorem secondRowJoins_neutral : (secondRowJoins [true, true] rfl).LipNeutral where
  filter := by
    intro f hf
    cases hf
    refine ⟨by decide, ?_⟩
    intro i hi
    have hi : i = 0 := by
      have hzero : (secondRowJoins [true, true] rfl).db.numRows (secondRowJoins [true, true] rfl).fact.table
          / sliceLength = 0 := by decide
      omega
    subst hi
    exact ⟨[true, true], rfl, by decide⟩
  indices := by
    intro indices hindices
    cases hindices
  chunks := by decide
  names := by decide
  cells := by
    intro x hx d hd
    rw [List.mem_singleton.mp hx] at hd
    cases hd
    decide
  accepted := by
    intro ρ hsat _ _ x hx d hd
    rw [List.mem_singleton.mp hx] at hd ⊢
    cases hd
    obtain ⟨key, hleft, hright⟩ := hsat.agrees ⟨0, "fk", 1, "pk"⟩ (by simp [preds, secondRowJoins])
    have hrow : ρ 1 < 1 := hsat.rows_lt 1 (by simp [tables, secondRowJoins])
    have hzero : ρ 1 = 0 := by omega
    have hkey : key = 1 := by
      rw [hzero] at hright
      exact (Option.some.inj hright).symm
    apply BloomFilter.probe_ofValues
    have hvalue : (secondRowJoins [true, true] rfl).db.key 0 "fk" (ρ 0) = 1 := by
      rw [Tables.key, ← hkey]
      exact congrArg (·.getD 0) hleft
    show (secondRowJoins [true, true] rfl).db.key 0 "fk" (ρ 0) ∈ _
    rw [hvalue]
    decide

theorem lipChangesNothing_of_lipNeutral_secondRow
    : (secondRowJoins [true, true] rfl).LipNeutral ∧ (secondRowJoins [true, true] rfl).LipChangesNothing :=
  ⟨secondRowJoins_neutral, lipChangesNothing_of_lipNeutral secondRowJoins_neutral⟩

/--
Only the second row passes the filter. `LIP` moves it to the first position, which does not pass.
-/
theorem not_lipChangesNothing_firstFiltered : ¬(secondRowJoins [false, true] rfl).LipChangesNothing := by
  intro h
  obtain ⟨out, lip, out', hout, hlip, hout', tuples, tuples', hrep, hrep', hperm⟩ :=
    h id id (buildTasks 1) 1 (fun _ fs => fs) (BuildState.buildTasks_isSchedule 1) (fun _ _ => .refl _)
  have hdirect : (MultiwayJoin.execute (secondRowJoins [false, true] rfl).db id
      (secondRowJoins [false, true] rfl).prevResult (secondRowJoins [false, true] rfl).preds)
      = some [⟨0, none, some [1], none, none⟩, ⟨1, none, some [0], none, none⟩] := by
    decide +kernel
  have hlip' : Lip.executeResult (secondRowJoins [false, true] rfl).db (secondRowJoins [false, true] rfl).prevResult
      (secondRowJoins [false, true] rfl).preds (buildTasks 1) 1 (fun _ fs => fs)
      = some [⟨1, none, none, none, none⟩, ⟨0, some [[false, true]], some [1], some [0], none⟩] := by
    decide +kernel
  rw [hdirect] at hout
  rw [hlip'] at hlip
  cases hout
  cases hlip
  have hjoin : MultiwayJoin.execute (secondRowJoins [false, true] rfl).db id
      [⟨1, none, none, none, none⟩, ⟨0, some [[false, true]], some [1], some [0], none⟩]
      (secondRowJoins [false, true] rfl).preds
      = some [⟨0, none, some [], some [], none⟩, ⟨1, none, some [], none, none⟩] := by
    decide +kernel
  rw [hjoin] at hout'
  cases hout'
  -- one tuple comes out without `LIP`, and none with it
  obtain ⟨t, ht, hindices⟩ := hrep 0 (by simp [tables, secondRowJoins])
  obtain ⟨t', ht', hindices'⟩ := hrep' 0 (by simp [tables, secondRowJoins])
  cases ht
  cases ht'
  have hone := congrArg List.length (Option.some.inj hindices)
  have hzero := congrArg List.length (Option.some.inj hindices')
  have hlen := hperm.length_eq
  rw [List.length_map] at hone hzero
  rw [List.length_map, List.length_map, ← hone, ← hzero] at hlen
  exact absurd hlen (by decide)

end StarQuery

end Hustle.Operators
