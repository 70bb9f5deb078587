import Hustle.Operators.AggregateScan
import Hustle.Operators.GroupBy

/-!
This module contains when the two aggregates have the same rows. The one that goes through all combinations ignores
the filter of a table and leaves out a combination whose aggregate is not positive.
-/

namespace Hustle.Operators

open Aggregate (groupColumnOf groupIdOf groupKey groupIdVec groupAggIndexMap aggIndex addAll scanEntry)
open HashAggregate (groupHash)
open Odometer (Below)
open Resolver

namespace GroupQuery

def columnValue (q : GroupQuery) (ref : ColumnReference) (k : Nat) : Value :=
  q.db.value ref (q.src.tuple k)

def distinctValues (q : GroupQuery) (ref : ColumnReference) : List Value :=
  ((List.range q.src.size).map (q.columnValue ref)).eraseDups

def distinctCounts (q : GroupQuery) : List Nat :=
  q.groupBy.map fun ref => (q.distinctValues ref).length

def groupId (q : GroupQuery) (k : Nat) : List Nat :=
  q.groupBy.map fun ref => (q.distinctValues ref).idxOf (q.columnValue ref k)

/--
An INT64 column is aggregated, and the sorting of an array gives all of its indices.
-/
structure Comparable (q : GroupQuery) : Prop where
  describes : Describes q.db q.result q.src
  groups : ∀ ref ∈ q.groupBy, ∃ col, Refers q.db q.result ref col
  expression : q.ref.exprRef = .null
  column : ∃ chunks, Refers q.db q.result q.ref.colRef (.int64 chunks)
  sorts : ∀ desc col, (q.env.sortIndices desc col).Perm (List.range col.length)
  capacity : ∀ n, n ≤ q.env.capacity n

/--
In every order of the steps of their tasks, the two aggregates have the same rows.
-/
def Interchangeable (q : GroupQuery) (chunksPerBatch : Nat → Nat) : Prop :=
  ∃ steps, HashAggregateStrategy.tasks q.env.hardwareConcurrency q.src.lengths.length = some steps ∧
    ∀ order schedule, order.Perm steps →
      ∃ rows rows', HashAggregate.execute q.env q.db q.result q.ref q.groupBy q.orderBy order = some rows ∧
        Aggregate.execute q.env chunksPerBatch q.db q.result q.ref q.groupBy q.orderBy schedule = some rows' ∧
        rows.Perm rows'

/--
There are tuples, all of them are active, and every group has a positive aggregate, which is a sum, or a count if
there is only one combination. Columns have different names, and the keys of the combinations are `int`s that tell
the groups apart. The batches reach all chunks.
-/
structure Agrees (q : GroupQuery) (chunksPerBatch : Nat → Nat) : Prop where
  threads : 0 < q.env.hardwareConcurrency
  chunks : q.src.lengths.length + q.env.hardwareConcurrency < 2 ^ 31
  blocks : q.src.lengths ≠ []
  orders : ∀ i ref, q.orderBy[i]? = some ref → ref.colRef.table ≠ none →
    i < (orderToGroup q.groupBy q.orderBy).length
  hashes : ∀ ρ ∈ q.src.activeTuples, ∀ ρ' ∈ q.src.activeTuples,
    groupHash q.env.hash (q.key ρ) = groupHash q.env.hash (q.key ρ') → q.key ρ = q.key ρ'
  tuples : q.groupBy ≠ [] → 0 < q.src.size
  active : ∀ k < q.src.size, q.src.active k
  kernel : q.ref.kernel = .sum ∨ (q.ref.kernel = .count ∧ q.distinctCounts.prod = 1)
  positive : ∀ ρ ∈ q.src.activeTuples,
    0 < (q.aggregate (q.src.activeTuples.filter fun ρ' => q.key ρ' = q.key ρ)).toInt
  names : ∀ ref ∈ q.groupBy, ∀ ref' ∈ q.groupBy, ref.colName = ref'.colName → ref = ref'
  combinations : q.distinctCounts.prod < 2 ^ 31
  keys : ∀ g, Below q.distinctCounts g → (groupKey g).isSome
  distinctKeys : ∀ k < q.src.size, ∀ g, Below q.distinctCounts g → groupKey g = groupKey (q.groupId k) →
    g = q.groupId k
  scanned : q.groupBy ≠ [] →
    let n := q.src.lengths.length
    let size := if chunksPerBatch n = 0 then n else chunksPerBatch n
    n ≤ (1 + (q.distinctCounts.prod - 1) / size) * size
  gathers : q.Gathers

variable {q : GroupQuery} {chunksPerBatch : Nat → Nat}

/-! Combinations and groups. -/

def group (q : GroupQuery) (g : List Nat) : List Value :=
  (q.groupBy.zip g).map fun x => (q.distinctValues x.1).getD x.2 (.int64 0)

theorem mem_distinctValues {k : Nat} (hk : k < q.src.size) (ref : ColumnReference)
    : q.columnValue ref k ∈ q.distinctValues ref := by
  rw [distinctValues, List.mem_eraseDups]
  exact List.mem_map_of_mem (List.mem_range.mpr hk)

theorem groupId_below {k : Nat} (hk : k < q.src.size) : Below q.distinctCounts (q.groupId k) := by
  rw [Below, distinctCounts, groupId, List.forall₂_map_left_iff, List.forall₂_map_right_iff, List.forall₂_same]
  intro ref _
  exact List.idxOf_lt_length_iff.mpr (mem_distinctValues hk ref)

theorem group_groupId {k : Nat} (hk : k < q.src.size) : q.group (q.groupId k) = q.key (q.src.tuple k) := by
  have hzip : q.groupBy.zip (q.groupId k)
      = q.groupBy.map fun ref => (ref, (q.distinctValues ref).idxOf (q.columnValue ref k)) := by
    rw [groupId]
    conv_lhs => rw [← List.map_id q.groupBy, List.map_map, List.zip_map']
    rfl
  rw [group, hzip, List.map_map, key]
  apply List.map_congr_left
  intro ref _
  have hlt := List.idxOf_lt_length_iff.mpr (mem_distinctValues hk ref)
  simp only [Function.comp_apply, List.getD_eq_getElem?_getD, List.getElem?_eq_getElem hlt, Option.getD_some,
    List.getElem_idxOf]
  rfl

theorem zip_injective {refs : List ColumnReference} {g g' : List Nat}
    (hg : Below (refs.map fun ref => (q.distinctValues ref).length) g)
    (hg' : Below (refs.map fun ref => (q.distinctValues ref).length) g')
    (h : (refs.zip g).map (fun x => (q.distinctValues x.1).getD x.2 (.int64 0))
      = (refs.zip g').map fun x => (q.distinctValues x.1).getD x.2 (.int64 0))
    : g = g' := by
  induction refs generalizing g g' with
  | nil =>
    cases hg
    cases hg'
    rfl
  | cons ref refs ih =>
    cases hg with
    | @cons _ d _ g hd hg =>
      cases hg' with
      | @cons _ d' _ g' hd' hg' =>
        rw [List.zip_cons_cons, List.zip_cons_cons, List.map_cons, List.map_cons, List.cons.injEq] at h
        obtain ⟨hvalue, hrest⟩ := h
        have hfirst : d = d' := by
          simp only [List.getD_eq_getElem?_getD, List.getElem?_eq_getElem hd, List.getElem?_eq_getElem hd',
            Option.getD_some] at hvalue
          exact (nodup_eraseDups _).getElem_inj_iff.mp hvalue
        rw [hfirst, ih hg hg' hrest]

theorem groupId_eq_iff {k : Nat} {g : List Nat} (hk : k < q.src.size) (hg : Below q.distinctCounts g)
    : q.groupId k = g ↔ q.key (q.src.tuple k) = q.group g := by
  rw [← group_groupId hk]
  constructor
  . intro h
    rw [h]
  . intro h
    exact zip_injective (groupId_below hk) hg h

/-! The initialized operator. -/

theorem mapM_columnValues {refs : List ColumnReference} {cols : List (List ArrayPtr)} {m : Memory}
    (hm : m.Ok q.db q.result q.src)
    (hcols : List.Forall₂ (fun ref chunks => m.materializedCols.lookup ref = some chunks) refs cols)
    (hrefs : ∀ ref ∈ refs, ∃ col, Refers q.db q.result ref col)
    : cols.mapM (Aggregate.columnValues m.heap)
        =
      some (refs.map fun ref => (List.range q.src.lengths.length).map fun c =>
        (q.src.chunk c).map (q.columnValue ref)) := by
  induction hcols with
  | nil => rfl
  | @cons ref chunks refs cols hlookup _ ih =>
    obtain ⟨col, href⟩ := hrefs ref (by simp)
    have hvalue : q.columnValue ref = fun k => col.value (q.src.tuple k (q.db.tableId ref.table)) := by
      funext k
      simp [columnValue, TypedTables.value, href.2]
    rw [List.mapM_cons, Aggregate.columnValues_eq (hm ref chunks col hlookup href),
      ih (fun ref href => hrefs ref (by simp [href])), List.map_cons, hvalue]
    rfl

def groupCols (q : GroupQuery) : List Aggregate.GroupColumn :=
  q.groupBy.map fun ref => groupColumnOf q.src (q.columnValue ref)

theorem initializeColumns_eq (h : q.Comparable) (hgathers : q.Gathers) (hnames : ∀ ref ∈ q.groupBy, ∀ ref' ∈ q.groupBy,
    ref.colName = ref'.colName → ref = ref') (schedule : AggSchedule)
    : ∃ m, Aggregate.initializeColumns q.env q.db q.result q.groupBy schedule = some (q.groupCols, m) ∧
        m.Ok q.db q.result q.src := by
  obtain ⟨cols, m, hcols, hm, -, hall⟩ := Memory.materializeColumns_represents h.capacity h.describes Memory.empty_ok
    h.groups fun ref href => hgathers ref (List.mem_append_left _ href)
  refine ⟨m, ?_, hm⟩
  have hvalues := mapM_columnValues hm hall h.groups
  have hzip : q.groupBy.zip (q.groupBy.map fun ref => (List.range q.src.lengths.length).map fun c =>
      (q.src.chunk c).map (q.columnValue ref))
      = q.groupBy.map fun ref => (ref, (List.range q.src.lengths.length).map fun c =>
        (q.src.chunk c).map (q.columnValue ref)) := by
    conv_lhs => rw [← List.map_id q.groupBy, List.map_map, List.zip_map']
    rfl
  have hgroups := @Run.mapM_eq_some _ _ (fun ref => Aggregate.groupColumn
    (q.groupBy.map fun ref => (List.range q.src.lengths.length).map fun c => (q.src.chunk c).map (q.columnValue ref))
    q.groupBy (schedule.order (List.range q.groupBy.length))
    (ref, (List.range q.src.lengths.length).map fun c => (q.src.chunk c).map (q.columnValue ref)))
    (fun ref => groupColumnOf q.src (q.columnValue ref)) q.groupBy
    (fun ref href => Aggregate.groupColumn_eq (schedule.order_perm _) hnames href)
  rw [Aggregate.initializeColumns, hcols]
  simp only [Option.bind_eq_bind, Option.bind_some, hvalues, hzip, List.mapM_map]
  rw [Function.comp_def, hgroups]
  rfl

def aggCol (q : GroupQuery) : List (List (BitVec 64)) :=
  (List.range q.src.lengths.length).map fun c => (q.src.chunk c).map fun k => q.value (q.src.tuple k)

theorem aggColumn_eq (h : q.Comparable) (hgathers : q.Gathers) (hblocks : q.src.lengths ≠ []) {m : Memory}
    (hm : m.Ok q.db q.result q.src)
    : ∃ chunks m', m.materializeColumn q.env.capacity q.db q.result q.ref.colRef = some (chunks, m') ∧
        (HashAggregate.columnChunks chunks).isSome ∧
        Aggregate.int64Chunks m'.heap chunks = some q.aggCol := by
  obtain ⟨values, href⟩ := h.column
  have hexpr : q.expr = .column q.ref.colRef := by rw [expr, h.expression]
  obtain ⟨chunks, m', hmat, hm', -, hlookup⟩ := Memory.materializeColumn_represents h.capacity h.describes hm href
    (hgathers _ (by simp [hexpr, exprColumns]))
  have hrepr := hm' _ _ _ hlookup href
  refine ⟨chunks, m', hmat, ?_, ?_⟩
  . rw [columnChunks_eq_some hrepr.1 fun hzero => hblocks (List.length_eq_zero_iff.mp hzero)]
    rfl
  . rw [Aggregate.int64Chunks_eq hrepr]
    simp [aggCol, value, hexpr, TypedTables.exprValue, TypedTables.value, href.2, Column.value]

/-! The combinations. -/

theorem distinctCounts_pos (h : q.Agrees chunksPerBatch) : ∀ count ∈ q.distinctCounts, 0 < count := by
  intro count hcount
  obtain ⟨ref, href, rfl⟩ := List.mem_map.mp hcount
  have hsize := h.tuples (List.ne_nil_of_mem href)
  exact List.length_pos_of_mem (mem_distinctValues hsize ref)

def keyOf (g : List Nat) : Nat :=
  (groupKey g).getD 0

/--
The combinations, and the map of their numbers.
-/
structure Combinations (q : GroupQuery) (ids : List (List Nat)) (indexMap : List (Nat × Nat)) : Prop where
  idVec : groupIdVec q.groupCols = some ids
  indices : groupAggIndexMap ids = some indexMap
  nodup : ids.Nodup
  length : ids.length = q.distinctCounts.prod
  mem : ∀ g, g ∈ ids ↔ Below q.distinctCounts g
  index : ∀ k < q.src.size, ∀ j g, ids[j]? = some g → (aggIndex indexMap (keyOf (q.groupId k)) = j ↔ q.groupId k = g)

theorem groupCols_counts : (q.groupCols.map fun col => col.uniqueValues.length) = q.distinctCounts := by
  rw [groupCols, List.map_map]
  rfl

theorem combinations (h : q.Agrees chunksPerBatch) : ∃ ids indexMap, q.Combinations ids indexMap := by
  obtain ⟨ids, hwalk, hnodup, hlength, hmem⟩ := Odometer.walk_zero (distinctCounts_pos h)
  have hkeys : ids.mapM groupKey = some (ids.map keyOf) := by
    apply Run.mapM_eq_some
    intro g hg
    obtain ⟨key, hkey⟩ := Option.isSome_iff_exists.mp (h.keys g ((hmem g).mp hg))
    rw [keyOf, hkey]
    rfl
  refine ⟨ids, (ids.map keyOf).zipIdx.reverse, ?_, ?_, hnodup, hlength, hmem, ?_⟩
  . rw [groupIdVec]
    simp only [groupCols_counts]
    rw [if_neg (Nat.not_le.mpr h.combinations), hwalk]
  . simp [groupAggIndexMap, hkeys]
  . intro k hk j g hj
    obtain ⟨i, hi⟩ := List.getElem?_of_mem ((hmem _).mpr (groupId_below hk))
    have hlookup : (ids.map keyOf).zipIdx.reverse.lookup (keyOf (q.groupId k)) = some i := by
      apply Aggregate.lookup_reverse_zipIdx
      . simp [hi]
      . intro j' hj'
        rw [List.getElem?_map] at hj'
        obtain ⟨g', hg', hkey⟩ := Option.map_eq_some_iff.mp hj'
        have hbelow := (hmem g').mp (List.mem_of_getElem? hg')
        obtain ⟨key', hkey'⟩ := Option.isSome_iff_exists.mp (h.keys g' hbelow)
        obtain ⟨key, hkeyk⟩ := Option.isSome_iff_exists.mp (h.keys _ (groupId_below hk))
        have hsame : g' = q.groupId k := by
          apply h.distinctKeys k hk g' hbelow
          rw [keyOf, keyOf, hkey', hkeyk] at hkey
          rw [hkey', hkeyk]
          exact congrArg some hkey
        subst hsame
        exact ((List.getElem?_inj (List.getElem?_eq_some_iff.mp hi).1 hnodup).mp (hi.trans hg'.symm)).symm
    rw [aggIndex, hlookup, Option.getD_some]
    constructor
    . rintro rfl
      exact Option.some.inj (hi.symm.trans hj)
    . rintro rfl
      exact (List.getElem?_inj (List.getElem?_eq_some_iff.mp hi).1 hnodup).mp (hi.trans hj.symm)

/-! The aggregates of the combinations. -/

def groupSum (q : GroupQuery) (g : List Nat) : BitVec 64 :=
  (((List.range q.src.size).filter fun k => q.groupId k = g).map q.summand).sum

variable {ids : List (List Nat)} {indexMap : List (Nat × Nat)}

theorem computeAggregate_eq (h : q.Agrees chunksPerBatch) (hc : q.Combinations ids indexMap) (hone : ids.length = 1)
    {j : Nat} {g : List Nat} (hj : ids[j]? = some g)
    : Aggregate.computeAggregate q.ref.kernel q.aggCol = some (q.groupSum g) := by
  obtain ⟨g', rfl⟩ := List.length_eq_one_iff.mp hone
  have hg : g = g' := List.mem_singleton.mp (List.mem_of_getElem? hj)
  have hall : (List.range q.src.size).filter (fun k => q.groupId k = g) = List.range q.src.size := by
    apply List.filter_eq_self.mpr
    intro k hk
    have hmem := (hc.mem _).mpr (groupId_below (List.mem_range.mp hk))
    simp [List.mem_singleton.mp hmem, hg]
  rw [groupSum, hall, sum_summand, aggCol]
  rcases h.kernel with hk | ⟨hk, -⟩
  . simp only [Aggregate.computeAggregate, aggregate, hk, Aggregate.flatten_chunks, List.map_map]
    rfl
  . simp only [Aggregate.computeAggregate, aggregate, hk, Aggregate.flatten_chunks, List.length_map]

theorem scanChunks_eq (h : q.Agrees chunksPerBatch) (hc : q.Combinations ids indexMap) (schedule : AggSchedule)
    : ∃ data, Aggregate.scanChunks q.groupCols indexMap q.aggCol
          (schedule.order (Aggregate.scannedChunks (chunksPerBatch q.src.lengths.length) ids.length
            q.src.lengths.length)) ids.length = some data ∧
        ∀ j g, ids[j]? = some g →
          Aggregate.groupAggregate q.ref.kernel ids.length q.aggCol data j = some (q.groupSum g) := by
  by_cases hnil : q.groupBy = []
  . have hone : ids.length = 1 := by rw [hc.length, distinctCounts, hnil, List.map_nil, List.prod_nil]
    refine ⟨List.replicate ids.length 0, by simp [groupCols, hnil, Aggregate.scanChunks], ?_⟩
    intro j g hj
    rw [Aggregate.groupAggregate, if_pos hone, computeAggregate_eq h hc hone hj]
  . have hscan : Aggregate.scannedChunks (chunksPerBatch q.src.lengths.length) ids.length q.src.lengths.length
        = List.range q.src.lengths.length := by
      apply Aggregate.batchIndices_eq
      rw [hc.length]
      exact h.scanned hnil
    have hperm := schedule.order_perm (List.range q.src.lengths.length)
    have hkey : ∀ k < q.src.size,
        groupKey (groupIdOf q.src q.groupBy q.columnValue k) = some (keyOf (q.groupId k)) := by
      intro k hk
      obtain ⟨key, hkey⟩ := Option.isSome_iff_exists.mp (h.keys _ (groupId_below hk))
      rw [keyOf, hkey]
      exact hkey
    have hfold := @Aggregate.foldlM_blockScan q.src q.groupBy q.columnValue (fun k => q.value (q.src.tuple k))
      indexMap (fun k => keyOf (q.groupId k)) _ (fun c hmem => List.mem_range.mp (hperm.mem_iff.mp hmem)) hkey
      (List.replicate ids.length 0)
    have hchunks : Aggregate.scanChunks q.groupCols indexMap q.aggCol
        (schedule.order (List.range q.src.lengths.length)) ids.length
        = some (addAll (List.replicate ids.length 0)
            (((schedule.order (List.range q.src.lengths.length)).flatMap q.src.chunk).map
              (scanEntry indexMap (fun k => keyOf (q.groupId k)) fun k => q.value (q.src.tuple k)))) := by
      rw [Aggregate.scanChunks]
      . exact hfold
      . intro hnil'
        exact hnil (List.map_eq_nil_iff.mp hnil')
    rw [hscan]
    refine ⟨_, hchunks, ?_⟩
    intro j g hj
    rw [Aggregate.groupAggregate]
    split
    . next hone => exact computeAggregate_eq h hc hone hj
    . next hmany =>
      have hsum : q.ref.kernel = .sum := by
        rcases h.kernel with hk | ⟨-, hone⟩
        . exact hk
        . exact absurd (hc.length.trans hone) hmany
      have hks : ((schedule.order (List.range q.src.lengths.length)).flatMap q.src.chunk).Perm
          (List.range q.src.size) := by
        rw [← q.src.flatMap_chunk]
        exact hperm.flatMap_right _
      have hlt := (List.getElem?_eq_some_iff.mp hj).1
      rw [Aggregate.getElem?_addAll, Aggregate.sumOf_scanEntry hks, List.getElem?_replicate, if_pos hlt,
        Option.map_some, zero_add, groupSum]
      have hfilter : (List.range q.src.size).filter (fun k => aggIndex indexMap (keyOf (q.groupId k)) = j)
          = (List.range q.src.size).filter fun k => q.groupId k = g := by
        apply List.filter_congr
        intro k hk
        rw [decide_eq_decide]
        exact hc.index k (List.mem_range.mp hk) j g hj
      have hsummand : q.summand = fun k => q.value (q.src.tuple k) := by
        funext k
        simp [summand, hsum]
      rw [hfilter, hsummand]

/-! The rows. -/

theorem insertGroupColumns_eq {g : List Nat} (hg : Below q.distinctCounts g)
    : Aggregate.insertGroupColumns q.groupCols g = some (q.group g) := by
  rw [Aggregate.insertGroupColumns, groupCols, group, distinctCounts] at *
  generalize q.groupBy = refs at hg ⊢
  induction refs generalizing g with
  | nil =>
    cases hg
    rfl
  | cons ref refs ih =>
    cases hg with
    | @cons _ d _ g hd hg =>
      have hget : (groupColumnOf q.src (q.columnValue ref)).uniqueValues[d]?
          = some ((q.distinctValues ref).getD d (.int64 0)) := by
        rw [List.getD_eq_getElem?_getD, List.getElem?_eq_getElem hd]
        exact List.getElem?_eq_getElem hd
      rw [List.map_cons, List.zip_cons_cons, List.mapM_cons, hget, ih hg]
      rfl

def positiveRows (q : GroupQuery) (ids : List (List Nat)) : List AggRow :=
  (ids.filter fun g => 0 < (q.groupSum g).toInt).map fun g => (q.group g, q.groupSum g)

theorem foldlM_computeGroupAggregate (h : q.Agrees chunksPerBatch) (hc : q.Combinations ids indexMap)
    {data : List (BitVec 64)} (hdata : ∀ j g, ids[j]? = some g →
      Aggregate.groupAggregate q.ref.kernel ids.length q.aggCol data j = some (q.groupSum g))
    {order : List Nat} (horder : ∀ j ∈ order, j < ids.length) (rows : List AggRow)
    : order.foldlM (Aggregate.computeGroupAggregate q.ref.kernel q.groupCols ids q.aggCol data) rows
        =
      some (rows ++ q.positiveRows (order.map fun j => ids.getD j [])) := by
  induction order generalizing rows with
  | nil => simp [positiveRows]
  | cons j order ih =>
    have hlt : j < ids.length := horder j (by simp)
    have hj := List.getElem?_eq_getElem hlt
    have hmean : q.ref.kernel ≠ .mean := by
      rcases h.kernel with hk | ⟨hk, -⟩ <;> simp [hk]
    have hgroup := insertGroupColumns_eq ((hc.mem _).mp (List.mem_of_getElem? hj))
    have hgetD : ids.getD j [] = ids[j] := by simp [List.getD_eq_getElem?_getD, hj]
    rw [List.foldlM_cons, Aggregate.computeGroupAggregate, List.map_cons, hgetD]
    simp only [hj, hdata j _ hj, hgroup, Option.bind_eq_bind, Option.bind_some, if_neg hmean]
    by_cases hpos : 0 < (q.groupSum ids[j]).toInt
    . rw [if_pos hpos]
      refine (ih (fun j hj => horder j (by simp [hj])) _).trans ?_
      simp [positiveRows, hpos]
    . rw [if_neg hpos]
      refine (ih (fun j hj => horder j (by simp [hj])) _).trans ?_
      simp [positiveRows, hpos]

theorem computeAggregates_eq (h : q.Agrees chunksPerBatch) (schedule : AggSchedule)
    : ∃ rows ids, Aggregate.computeAggregates q.env chunksPerBatch q.ref.kernel q.groupCols q.aggCol schedule
          = some rows ∧ ids.Nodup ∧ (∀ g, g ∈ ids ↔ Below q.distinctCounts g) ∧ rows = q.positiveRows ids := by
  obtain ⟨ids, indexMap, hc⟩ := combinations h
  obtain ⟨data, hscan, hdata⟩ := scanChunks_eq h hc schedule
  have hperm := schedule.order_perm (List.range ids.length)
  have hfold := foldlM_computeGroupAggregate h hc hdata (fun j hj => List.mem_range.mp (hperm.mem_iff.mp hj)) []
  have hids : (List.range ids.length).map (fun j => ids.getD j []) = ids := by
    apply List.ext_getElem
    . simp
    . intro i hi hi'
      simp [List.getD_eq_getElem?_getD, List.getElem?_eq_getElem hi']
  have hperm' := hperm.map fun j => ids.getD j []
  rw [hids] at hperm'
  refine ⟨_, _, ?_, hperm'.nodup_iff.mpr hc.nodup, fun g => hperm'.mem_iff.trans (hc.mem g), rfl⟩
  have hlen : q.aggCol.length = q.src.lengths.length := by simp [aggCol]
  rw [Aggregate.computeAggregates]
  simp only [hc.idVec, hc.indices, hlen, hscan, Option.bind_eq_bind, Option.bind_some,
    if_neg (Nat.ne_of_gt h.threads), Aggregate.insertedGroups_eq]
  exact hfold

/--
The rows are the groups of the tuples.
-/
theorem positiveRows_groupsBy (h : q.Agrees chunksPerBatch) (hnodup : ids.Nodup)
    (hmem : ∀ g, g ∈ ids ↔ Below q.distinctCounts g)
    : GroupsBy (List.range q.src.size) (fun k => q.key (q.src.tuple k)) (fun ks => (ks.map q.summand).sum)
        (q.positiveRows ids) := by
  have hfst : (q.positiveRows ids).map Prod.fst = (ids.filter fun g => 0 < (q.groupSum g).toInt).map q.group := by
    rw [positiveRows, List.map_map]
    rfl
  -- The tuples of a combination are those of its group.
  have hfilter : ∀ g, Below q.distinctCounts g → q.groupSum g
      = (((List.range q.src.size).filter fun k => q.key (q.src.tuple k) = q.group g).map q.summand).sum := by
    intro g hg
    have hsame : (List.range q.src.size).filter (fun k => q.groupId k = g)
        = (List.range q.src.size).filter fun k => q.key (q.src.tuple k) = q.group g := by
      apply List.filter_congr
      intro k hk
      rw [decide_eq_decide]
      exact groupId_eq_iff (List.mem_range.mp hk) hg
    rw [groupSum, hsame]
  refine ⟨?_, ?_, ?_⟩
  . rw [hfst]
    apply List.Nodup.map_on
    . intro g hg g' hg' heq
      exact zip_injective ((hmem g).mp (List.mem_of_mem_filter hg)) ((hmem g').mp (List.mem_of_mem_filter hg')) heq
    . exact hnodup.filter _
  . intro group
    rw [hfst, List.mem_map]
    constructor
    . rintro ⟨g, hg, rfl⟩
      obtain ⟨hg, hpos⟩ := List.mem_filter.mp hg
      have hne : (List.range q.src.size).filter (fun k => q.groupId k = g) ≠ [] := by
        intro hnil
        rw [decide_eq_true_eq, groupSum, hnil, List.map_nil, List.sum_nil] at hpos
        exact absurd hpos (by decide)
      obtain ⟨k, hk⟩ := List.exists_mem_of_ne_nil _ hne
      obtain ⟨hk, hid⟩ := List.mem_filter.mp hk
      rw [List.mem_range] at hk
      exact ⟨k, List.mem_range.mpr hk, (groupId_eq_iff hk ((hmem g).mp hg)).mp (by simpa using hid)⟩
    . rintro ⟨k, hk, rfl⟩
      rw [List.mem_range] at hk
      have hbelow := groupId_below hk
      refine ⟨q.groupId k, List.mem_filter.mpr ⟨(hmem _).mpr hbelow, ?_⟩, group_groupId hk⟩
      have hpos := h.positive _ (TupleList.mem_activeTuples hk (h.active k hk))
      have hactive : q.src.activeTuples = (List.range q.src.size).map q.src.tuple := by
        rw [TupleList.activeTuples, List.filter_eq_self.mpr fun k hk => h.active k (List.mem_range.mp hk)]
      rw [hactive, List.filter_map, ← sum_summand] at hpos
      rw [decide_eq_true_eq, hfilter _ hbelow, group_groupId hk]
      exact hpos
  . intro row hrow
    obtain ⟨g, hg, rfl⟩ := List.mem_map.mp hrow
    exact hfilter g ((hmem g).mp (List.mem_of_mem_filter hg))

theorem aggregate_groupsBy (h : q.Comparable) (hagrees : q.Agrees chunksPerBatch) (schedule : AggSchedule)
    : ∃ rows, Aggregate.execute q.env chunksPerBatch q.db q.result q.ref q.groupBy q.orderBy schedule = some rows ∧
        GroupsBy q.src.activeTuples q.key q.aggregate rows := by
  obtain ⟨m, hinit, hm⟩ := initializeColumns_eq h hagrees.gathers hagrees.names schedule
  obtain ⟨chunks, m', hmat, hchunks, hcol⟩ := aggColumn_eq h hagrees.gathers hagrees.blocks hm
  obtain ⟨n, hn⟩ := Option.isSome_iff_exists.mp hchunks
  obtain ⟨rows, ids, hrows, hnodup, hmem, rfl⟩ := computeAggregates_eq hagrees schedule
  have hactive : (List.range q.src.size).filter q.src.active = List.range q.src.size :=
    List.filter_eq_self.mpr fun k hk => hagrees.active k (List.mem_range.mp hk)
  have hgroups : GroupsBy q.src.activeTuples q.key q.aggregate (q.positiveRows ids) := by
    apply GroupsBy.map
    rw [hactive]
    have : (fun ks : List Nat => q.aggregate (ks.map q.src.tuple)) = fun ks => (ks.map q.summand).sum := by
      funext ks
      exact (sum_summand ks).symm
    rw [this]
    exact positiveRows_groupsBy hagrees hnodup hmem
  obtain ⟨rows', hsort, hperm⟩ := sortResult_perm (fun _ => h.sorts false) hagrees.orders (length_of_groupsBy hgroups)
  refine ⟨rows', ?_, hgroups.perm hperm⟩
  rw [Aggregate.execute, hinit]
  simp only [Option.bind_eq_bind, Option.bind_some, hmat, hn, hcol, hrows]
  exact hsort

theorem Comparable.admissible (h : q.Comparable) (hagrees : q.Agrees chunksPerBatch) : q.Admissible where
  describes := h.describes
  groups := h.groups
  kernel := by
    rcases hagrees.kernel with hk | ⟨hk, -⟩
    . exact .inl hk
    . exact .inr ⟨hk, h.expression⟩
  complete := by
    rw [expr, h.expression]
    exact trivial
  columns := by
    rw [expr, h.expression]
    intro ref href
    rw [List.mem_singleton.mp href]
    exact h.column
  values := by
    intro ρ _
    rw [expr, h.expression]
    obtain ⟨chunks, href⟩ := h.column
    simp [TypedTables.exprValue, TypedTables.value, href.2, Column.value]
  distinct := hagrees.hashes
  sorts := h.sorts
  capacity := h.capacity

end GroupQuery

theorem GroupsBy.rows_perm {τ : Type} {tuples : List τ} {key : τ → List Value} {aggregate : List τ → BitVec 64}
    {rows rows' : List AggRow} (h : GroupsBy tuples key aggregate rows) (h' : GroupsBy tuples key aggregate rows')
    : rows.Perm rows' := by
  have hsub : ∀ {rows rows' : List AggRow}, GroupsBy tuples key aggregate rows → GroupsBy tuples key aggregate rows' →
      ∀ row ∈ rows, row ∈ rows' := by
    intro rows rows' h h' row hrow
    have hgroup : row.1 ∈ rows'.map Prod.fst := by
      rw [h'.mem, ← h.mem]
      exact List.mem_map_of_mem hrow
    obtain ⟨row', hrow', hfst⟩ := List.mem_map.mp hgroup
    have hsnd : row'.2 = row.2 := by rw [h'.value row' hrow', h.value row hrow, hfst]
    rwa [← Prod.ext hfst hsnd]
  rw [List.perm_ext_iff_of_nodup h.nodup.of_map h'.nodup.of_map]
  intro row
  exact ⟨hsub h h' row, hsub h' h row⟩

namespace GroupQuery

variable {q : GroupQuery} {chunksPerBatch : Nat → Nat}

theorem interchangeable_of_agrees (h : q.Comparable) (hagrees : q.Agrees chunksPerBatch)
    : q.Interchangeable chunksPerBatch := by
  have hadmissible := h.admissible hagrees
  have hsupported : q.Supported :=
    ⟨hagrees.threads, hagrees.chunks, hagrees.blocks, .inl h.expression, hagrees.gathers, hagrees.orders⟩
  obtain ⟨steps, hsteps⟩ := tasks_of_supported hsupported
  refine ⟨steps, hsteps, ?_⟩
  intro order schedule horder
  obtain ⟨rows, hrows, hgroups⟩ := execute_groupsBy hadmissible hsupported hsteps horder
  obtain ⟨rows', hrows', hgroups'⟩ := aggregate_groupsBy h hagrees schedule
  exact ⟨rows, rows', hrows, hrows', hgroups.rows_perm hgroups'⟩

theorem twoGroups_column {x y : BitVec 64} {name : String} {col : Column}
    (h : (if name = "a" then some (.int64 [[x, y]]) else if name = "b" then some (.int64 [[1, 2]]) else none) = some col)
    : col.lengths = [2] ∧ col.HasOffsets := by
  split at h
  . cases h
    exact ⟨rfl, trivial⟩
  . split at h
    . cases h
      exact ⟨rfl, trivial⟩
    . cases h

theorem twoGroups_numRows : [2].sum < 2 ^ 32 := by
  decide

/--
Strings are not hashed.
-/
def twoGroupsHash : Value → BitVec 64
  | .int64 value => value
  | .string _ => 0

/--
The sums of the column `a`, which has two rows, for the values 1 and 2 of the column `b`.
-/
def twoGroups (x y : BitVec 64) : GroupQuery where
  db :=
    { tableId := fun _ => 0
      chunkLengths := fun _ => [2]
      column := fun _ name =>
        if name = "a" then some (.int64 [[x, y]]) else if name = "b" then some (.int64 [[1, 2]]) else none
      column_aligned := fun _ _ _ h => (twoGroups_column h).1
      numRows_lt := fun _ => twoGroups_numRows
      hasOffsets := fun _ _ _ h => (twoGroups_column h).2 }
  result := [⟨0, none, none, none, none⟩]
  src := { lengths := [2], tuple := fun row _ => row, active := fun row => decide (Passes none row) }
  ref := ⟨.sum, "s", ⟨none, "a"⟩, .null⟩
  groupBy := [⟨none, "b"⟩]
  orderBy := []
  env :=
    { hash := twoGroupsHash
      divide := fun value _ => value
      sortIndices := fun _ col => List.range col.length
      hardwareConcurrency := 1
      capacity := Context.paddedCapacity }

theorem twoGroups_comparable (x y : BitVec 64) : (twoGroups x y).Comparable := by
  refine ⟨Describes.single rfl (by simp), ?_, rfl, ⟨[[x, y]], ⟨_, rfl⟩, rfl⟩, fun _ _ => .refl _,
    Context.le_paddedCapacity⟩
  intro ref href
  rw [List.mem_singleton.mp href]
  exact ⟨.int64 [[1, 2]], ⟨_, rfl⟩, rfl⟩

theorem below_two {g : List Nat} (h : Below [2] g) : g = [0] ∨ g = [1] := by
  obtain _ | ⟨hd, _ | _⟩ := h
  simp only [List.cons.injEq, and_true]
  omega

theorem joinedLetters_comparable : joinedLetters.Comparable where
  describes := joinedLetters_admissible.describes
  groups := joinedLetters_admissible.groups
  expression := rfl
  column := ⟨_, ⟨_, rfl⟩, rfl⟩
  sorts := joinedLetters_admissible.sorts
  capacity := joinedLetters_admissible.capacity

theorem joinedLetters_agrees : joinedLetters.Agrees fun n => n / 1 where
  threads := by decide
  chunks := by decide
  blocks := by decide
  orders := by simp [joinedLetters]
  hashes := by decide
  tuples := by decide
  active := fun _ _ => rfl
  kernel := .inl rfl
  positive := by decide
  names := by decide
  combinations := by decide
  keys := by
    intro g hg
    rcases below_two (show Below [2] g from hg) with rfl | rfl <;> decide
  distinctKeys := by
    intro k hk g hg
    have hk : k < 4 := hk
    rcases below_two (show Below [2] g from hg) with rfl | rfl <;> interval_cases k <;> decide
  scanned := by decide
  gathers := joinedLetters_supported.gathers

theorem interchangeable_of_agrees_twoGroups
    : ((twoGroups 5 7).Comparable ∧ (twoGroups 5 7).Agrees (fun n => n / 1) ∧
        (twoGroups 5 7).Interchangeable fun n => n / 1) ∧
      joinedLetters.Comparable ∧ joinedLetters.Agrees (fun n => n / 1) ∧
        joinedLetters.Interchangeable fun n => n / 1 := by
  have hcounts : (twoGroups 5 7).distinctCounts = [2] := by decide
  have hagrees : (twoGroups 5 7).Agrees fun n => n / 1 := by
    refine ⟨by decide, by decide, by decide, by simp [twoGroups], by decide, by decide, by decide, .inl rfl,
      by decide, by decide, by decide, ?_, ?_, by decide, gathers_of_indices (by decide)⟩
    . intro g hg
      rw [hcounts] at hg
      rcases below_two hg with rfl | rfl <;> decide
    . intro k hk g hg
      rw [hcounts] at hg
      have hk : k = 0 ∨ k = 1 := by
        have : (twoGroups 5 7).src.size = 2 := rfl
        omega
      rcases hk with rfl | rfl <;> rcases below_two hg with rfl | rfl <;> decide
  exact ⟨⟨twoGroups_comparable 5 7, hagrees, interchangeable_of_agrees (twoGroups_comparable 5 7) hagrees⟩,
    joinedLetters_comparable, joinedLetters_agrees,
    interchangeable_of_agrees joinedLetters_comparable joinedLetters_agrees⟩

/--
The group with the sum 0 is missing in one of the outputs.
-/
theorem not_interchangeable_zero
    : (twoGroups 5 0).Comparable ∧ ¬(twoGroups 5 0).Interchangeable fun n => n / 1 := by
  refine ⟨twoGroups_comparable 5 0, ?_⟩
  rintro ⟨steps, hsteps, h⟩
  have htasks : HashAggregateStrategy.tasks 1 1 = some [(0, 0)] := by decide
  have hsteps : steps = [(0, 0)] := Option.some.inj (hsteps.symm.trans htasks)
  subst hsteps
  obtain ⟨rows, rows', hrows, hrows', hperm⟩ := h [(0, 0)] ⟨id, fun _ => .refl _⟩ (.refl _)
  have hhash : HashAggregate.execute (twoGroups 5 0).env (twoGroups 5 0).db (twoGroups 5 0).result
      (twoGroups 5 0).ref (twoGroups 5 0).groupBy (twoGroups 5 0).orderBy [(0, 0)]
      = some [([.int64 1], 5#64), ([.int64 2], 0#64)] := by
    decide
  have hagg : Aggregate.execute (twoGroups 5 0).env (fun n => n / 1) (twoGroups 5 0).db (twoGroups 5 0).result
      (twoGroups 5 0).ref (twoGroups 5 0).groupBy (twoGroups 5 0).orderBy ⟨id, fun _ => .refl _⟩
      = some [([.int64 1], 5#64)] := by
    decide
  rw [hhash] at hrows
  rw [hagg] at hrows'
  cases hrows
  cases hrows'
  exact absurd hperm.length_eq (by decide)

end GroupQuery

end Hustle.Operators
