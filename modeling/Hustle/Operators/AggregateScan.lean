import Hustle.Operators.Aggregate
import Hustle.Operators.HashGroups
import Hustle.Util.Batches

/-!
This module contains what the steps of an aggregate compute: the positions of the values of a column among its
distinct values, the numbers of the combinations, and the sums after some chunks have been scanned.
-/

namespace Hustle.Operators

open Accumulate (sumOf)
open Resolver (AggregateKernel ColumnReference)

theorem mapM_range {α β : Type} {f : α → Option β} {g : Nat → β} {l : List α} {n : Nat} (hlen : l.length = n)
    (h : ∀ c < n, ∃ x, l[c]? = some x ∧ f x = some (g c))
    : l.mapM f = some ((List.range n).map g) := by
  induction l generalizing n g with
  | nil =>
    subst hlen
    rfl
  | cons x l ih =>
    subst hlen
    obtain ⟨x', hx, hf⟩ := h 0 (Nat.zero_lt_succ _)
    cases hx
    have ih := @ih (fun c => g (c + 1)) l.length rfl (by
      intro c hc
      obtain ⟨y, hy, hf⟩ := h (c + 1) (Nat.succ_lt_succ hc)
      exact ⟨y, by simpa using hy, hf⟩)
    rw [List.mapM_cons, hf, ih, List.length_cons, List.range_succ_eq_map]
    simp [Function.comp_def]

/-! Distinct values. -/

theorem nodup_eraseDups {α : Type} [BEq α] [LawfulBEq α] (l : List α) : l.eraseDups.Nodup := by
  induction hn : l.length using Nat.strongRecOn generalizing l with
  | ind n ih =>
    cases l with
    | nil => simp
    | cons x l =>
      rw [List.eraseDups_cons, List.nodup_cons]
      constructor
      . simp [List.mem_eraseDups]
      . apply ih (l.filter fun b => !b == x).length _ _ rfl
        have := List.length_filter_le (fun b => !b == x) l
        rw [List.length_cons] at hn
        omega

namespace Aggregate

/-! The batches. -/

theorem batchIndices_eq {n batchSize total : Nat} (h : total ≤ (1 + (n - 1) / batchSize) * batchSize)
    : batchIndices n batchSize total = List.range total := by
  have hbatch : (fun batch => (List.range' (batch * batchSize) batchSize).filter (· < total))
      = Batches.batch batchSize total := by
    funext batch
    exact Batches.filter_range' (batch * batchSize) batchSize total
  rw [batchIndices, hbatch, Batches.flatMap_batch_eq h]

theorem insertedGroups_eq (hardwareConcurrency numAggs : Nat)
    : insertedGroups hardwareConcurrency numAggs = List.range numAggs := by
  apply batchIndices_eq
  split
  . rw [Nat.add_mul, Nat.one_mul]
    exact Nat.le_add_right _ _
  . next hsize => exact Batches.le_pred_div (Nat.pos_of_ne_zero hsize) numAggs

/-! The columns. -/

theorem toList_select (col : Column) (rows : List Nat)
    : (col.select rows).toList = rows.map fun row => col.value row := by
  cases col <;> simp [Column.select, Values.toList, Column.value]

section

variable {heap : Heap} {src : TupleList} {table : Nat} {col : Column} {chunks : List ArrayPtr}

theorem columnValues_eq (h : Represents heap src table col chunks)
    : columnValues heap chunks
        =
      some ((List.range src.lengths.length).map fun c =>
        (src.chunk c).map fun k => col.value (src.tuple k table)) := by
  apply mapM_range h.1
  intro c hc
  obtain ⟨ptr, hptr, -, harr⟩ := h.2 c hc
  refine ⟨ptr, hptr, ?_⟩
  simp [harr, toList_select, Function.comp_def]

theorem int64Chunks_eq {values : Chunked (BitVec 64)} (h : Represents heap src table (.int64 values) chunks)
    : int64Chunks heap chunks
        =
      some ((List.range src.lengths.length).map fun c =>
        (src.chunk c).map fun k => values.flatten[src.tuple k table]?.getD 0) := by
  apply mapM_range h.1
  intro c hc
  obtain ⟨ptr, hptr, -, harr⟩ := h.2 c hc
  refine ⟨ptr, hptr, ?_⟩
  rw [harr]
  simp [Column.select]

theorem flatten_chunks {α : Type} (src : TupleList) (f : Nat → α)
    : ((List.range src.lengths.length).map fun c => (src.chunk c).map f).flatten
        =
      (List.range src.size).map f := by
  rw [← src.flatMap_chunk, List.map_flatMap, List.flatMap_def]

end

def groupColumnOf (src : TupleList) (value : Nat → Value) : GroupColumn :=
  let unique := ((List.range src.size).map value).eraseDups
  { uniqueValues := unique
    uniqueValuesMap := (List.range src.lengths.length).map fun c =>
      (src.chunk c).map fun k => unique.idxOf (value k) }

theorem contextMatch_eq {src : TupleList} {value : Nat → Value} {keys : List Value}
    (h : ∀ k < src.size, value k ∈ keys)
    : contextMatch ((List.range src.lengths.length).map fun c => (src.chunk c).map value) keys
        =
      some ((List.range src.lengths.length).map fun c => (src.chunk c).map fun k => keys.idxOf (value k)) := by
  rw [contextMatch, List.mapM_map]
  apply Run.mapM_eq_some
  intro c hc
  rw [Function.comp_apply, List.mapM_map]
  apply Run.mapM_eq_some
  intro k hk
  have hlt : k < src.size := by
    rw [← List.mem_range, ← src.flatMap_chunk]
    exact List.mem_flatMap.mpr ⟨c, hc, hk⟩
  obtain ⟨i, hi⟩ := Option.isSome_iff_exists.mp (List.isSome_idxOf?.mpr (h k hlt))
  rw [Function.comp_apply, List.idxOf_eq_getD_idxOf?, hi]
  rfl

theorem groupColumn_eq {src : TupleList} {groupBy : List ColumnReference} {value : ColumnReference → Nat → Value}
    {order : List Nat} {ref : ColumnReference} (horder : order.Perm (List.range groupBy.length))
    (hnames : ∀ ref ∈ groupBy, ∀ ref' ∈ groupBy, ref.colName = ref'.colName → ref = ref') (href : ref ∈ groupBy)
    : groupColumn (groupBy.map fun ref => (List.range src.lengths.length).map fun c => (src.chunk c).map (value ref))
        groupBy order (ref, (List.range src.lengths.length).map fun c => (src.chunk c).map (value ref))
        =
      some (groupColumnOf src (value ref)) := by
  obtain ⟨i, hi, hget⟩ := List.mem_iff_getElem.mp href
  have hsome : (groupByIndex groupBy order ref.colName).isSome := by
    rw [groupByIndex, List.find?_isSome]
    refine ⟨i, horder.mem_iff.mpr (List.mem_range.mpr hi), ?_⟩
    simp [List.getElem?_eq_getElem hi, hget]
  obtain ⟨j, hj⟩ := Option.isSome_iff_exists.mp hsome
  have hsame : groupBy[j]? = some ref := by
    have hname := List.find?_some hj
    have hlt := List.mem_range.mp (horder.mem_iff.mp (List.mem_of_find?_eq_some hj))
    rw [List.getElem?_eq_getElem hlt] at hname ⊢
    simp only [Option.map_some, Option.some.injEq, decide_eq_true_eq] at hname
    rw [hnames _ (List.getElem_mem hlt) ref href hname]
  rw [groupColumn]
  simp only [hj, List.getElem?_map, hsame, Option.bind_eq_bind, Option.bind_some, Option.map_some]
  rw [flatten_chunks, contextMatch_eq]
  . rfl
  . intro k hk
    rw [List.mem_eraseDups]
    exact List.mem_map_of_mem (List.mem_range.mpr hk)

/-! The numbers of the combinations. -/

theorem lookup_reverse_zipIdx {keys : List Nat} {i key : Nat} (hi : keys[i]? = some key)
    (hunique : ∀ j, keys[j]? = some key → j = i)
    : keys.zipIdx.reverse.lookup key = some i := by
  have hmem : (key, i) ∈ keys.zipIdx.reverse := by
    rw [List.mem_reverse]
    exact List.mem_zipIdx_iff_getElem?.mpr hi
  cases hlookup : keys.zipIdx.reverse.lookup key with
  | none =>
    have := List.lookup_eq_none_iff.mp hlookup _ hmem
    simp at this
  | some j =>
    obtain ⟨front, back, hsplit, -⟩ := List.lookup_eq_some_iff.mp hlookup
    have hj : (key, j) ∈ keys.zipIdx.reverse := by
      rw [hsplit]
      simp
    rw [List.mem_reverse] at hj
    rw [hunique j (List.mem_zipIdx_iff_getElem?.mp hj)]

/-! The sums of the combinations. -/

def addAll (data : List (BitVec 64)) (entries : List (Nat × BitVec 64)) : List (BitVec 64) :=
  entries.foldl (fun data e => data.modify e.1 (· + e.2)) data

theorem addAll_append (data : List (BitVec 64)) (es es' : List (Nat × BitVec 64))
    : addAll data (es ++ es') = addAll (addAll data es) es' := by
  rw [addAll, List.foldl_append]
  rfl

theorem getElem?_addAll (data : List (BitVec 64)) (es : List (Nat × BitVec 64)) (j : Nat)
    : (addAll data es)[j]? = data[j]?.map (· + sumOf es j) := by
  induction es generalizing data with
  | nil => simp [addAll, sumOf]
  | cons e es ih =>
    have hcons : addAll data (e :: es) = addAll (data.modify e.1 (· + e.2)) es := rfl
    have hsum : sumOf (e :: es) j = sumOf [e] j + sumOf es j := Accumulate.sumOf_append [e] es j
    rw [hcons, ih, hsum, List.getElem?_modify]
    by_cases h : e.1 = j
    . simp [sumOf, h, Function.comp_def, add_assoc]
    . simp [sumOf, h]

section

variable {src : TupleList} {groupBy : List ColumnReference} {value : ColumnReference → Nat → Value}
  {summand : Nat → BitVec 64} {indexMap : List (Nat × Nat)} {key : Nat → Nat}

def groupIdOf (src : TupleList) (groupBy : List ColumnReference) (value : ColumnReference → Nat → Value) (k : Nat)
    : List Nat :=
  groupBy.map fun ref => (groupColumnOf src (value ref)).uniqueValues.idxOf (value ref k)

def scanEntry (indexMap : List (Nat × Nat)) (key : Nat → Nat) (summand : Nat → BitVec 64) (k : Nat)
    : Nat × BitVec 64 :=
  (aggIndex indexMap (key k), summand k)

theorem scanRow_eq {c row : Nat} (hc : c < src.lengths.length) (hrow : row < src.length c)
    (hkey : groupKey (groupIdOf src groupBy value (src.offset c + row)) = some (key (src.offset c + row)))
    (data : List (BitVec 64))
    : scanRow (groupBy.map fun ref => groupColumnOf src (value ref)) indexMap c ((src.chunk c).map summand) data row
        =
      some (addAll data [scanEntry indexMap key summand (src.offset c + row)]) := by
  have hchunk : (src.chunk c)[row]? = some (src.offset c + row) := by
    rw [TupleList.chunk_eq, List.getElem?_range' hrow]
    simp
  have hid : (groupBy.map fun ref => groupColumnOf src (value ref)).mapM (fun col => do
      let positions ← col.uniqueValuesMap[c]?
      positions[row]?) = some (groupIdOf src groupBy value (src.offset c + row)) := by
    rw [List.mapM_map]
    apply Run.mapM_eq_some
    intro ref href
    simp [groupColumnOf, List.getElem?_range hc, hchunk]
  rw [scanRow, hid]
  simp only [Option.bind_eq_bind, Option.bind_some, hkey, List.getElem?_map, hchunk, Option.map_some]
  rfl

theorem foldlM_scanRow {c : Nat} (hc : c < src.lengths.length)
    (hkey : ∀ k < src.size, groupKey (groupIdOf src groupBy value k) = some (key k)) (data : List (BitVec 64))
    {n : Nat} (hn : n ≤ src.length c)
    : (List.range n).foldlM (scanRow (groupBy.map fun ref => groupColumnOf src (value ref)) indexMap c
        ((src.chunk c).map summand)) data
        =
      some (addAll data ((List.range' (src.offset c) n).map (scanEntry indexMap key summand))) := by
  induction n with
  | zero => rfl
  | succ n ih =>
    have hlt : src.offset c + n < src.size := by
      rw [← List.mem_range, ← src.flatMap_chunk]
      refine List.mem_flatMap.mpr ⟨c, List.mem_range.mpr hc, ?_⟩
      rw [TupleList.chunk_eq, List.mem_range'_1]
      omega
    rw [List.range_succ, List.foldlM_append, ih (by omega), Option.bind_eq_bind, Option.bind_some,
      List.foldlM_cons, scanRow_eq hc hn (hkey _ hlt), List.range'_1_concat, List.map_append, addAll_append]
    rfl

theorem blockScan_eq {c : Nat} (hc : c < src.lengths.length)
    (hkey : ∀ k < src.size, groupKey (groupIdOf src groupBy value k) = some (key k)) (data : List (BitVec 64))
    : blockScan (groupBy.map fun ref => groupColumnOf src (value ref)) indexMap
        ((List.range src.lengths.length).map fun c => (src.chunk c).map summand) data c
        =
      some (addAll data ((src.chunk c).map (scanEntry indexMap key summand))) := by
  rw [blockScan, List.getElem?_map, List.getElem?_range hc]
  simp only [Option.map_some, Option.bind_eq_bind, Option.bind_some, List.length_map]
  rw [TupleList.chunk_eq, List.length_range']
  exact foldlM_scanRow hc hkey data (Nat.le_refl _)

theorem foldlM_blockScan {order : List Nat} (horder : ∀ c ∈ order, c < src.lengths.length)
    (hkey : ∀ k < src.size, groupKey (groupIdOf src groupBy value k) = some (key k)) (data : List (BitVec 64))
    : order.foldlM (blockScan (groupBy.map fun ref => groupColumnOf src (value ref)) indexMap
        ((List.range src.lengths.length).map fun c => (src.chunk c).map summand)) data
        =
      some (addAll data ((order.flatMap src.chunk).map (scanEntry indexMap key summand))) := by
  induction order generalizing data with
  | nil => rfl
  | cons c order ih =>
    rw [List.foldlM_cons, blockScan_eq (horder c (by simp)) hkey, Option.bind_eq_bind, Option.bind_some,
      ih (fun c hc => horder c (by simp [hc])), List.flatMap_cons, List.map_append, addAll_append]

theorem sumOf_scanEntry {ks : List Nat} (h : ks.Perm (List.range src.size)) (j : Nat)
    : sumOf (ks.map (scanEntry indexMap key summand)) j
        =
      (((List.range src.size).filter fun k => aggIndex indexMap (key k) = j).map summand).sum := by
  rw [sumOf, List.filter_map, List.map_map]
  exact ((h.filter _).map _).sum_eq

end

end Aggregate

end Hustle.Operators
